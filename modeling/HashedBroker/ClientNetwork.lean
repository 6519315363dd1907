import HashedBroker.ClientSockets
import HashedBroker.ReplyOrigins

/-!
# The broker and its clients

Any number of clients and of other peers on one broker. A connection of the broker either belongs to
a socket of a client or to a peer that sends what it likes. The frames of a client's socket reach
its connection in the order in which they were sent, and so do the messages that the connection's
writer has put on the wire; both may take any time, and a connection may break at any time.
-/
namespace HashedBroker.ClientNetwork
open ReactiveTasks Protocol Server Sessions BrokerClient LabelledRuns ReplyOrigins

/-- `link` is the client and the socket at the other end of a connection, and `accepted` says which
sockets have been given one. The counters say how many frames of a socket its connection has taken,
how many messages the writer of a connection has put on the wire, and how many of those have
arrived. -/
structure Network where
  broker : BrokerConfig
  clients : ℕ → Client
  link : ℕ → Option (ℕ × ℕ)
  accepted : ℕ → ℕ → Bool
  taken : ℕ → ℕ
  written : ℕ → ℕ
  received : ℕ → ℕ

inductive Label
  | broker (e : BrokerEvent)
  | accept (t k w : ℕ)
  | client (k : ℕ) (a : Action)
  | deliver (t : ℕ)

namespace Network

def start (db : Database.Db ℕ) : Network where
  broker := fresh db
  clients _ := .new
  link _ := none
  accepted _ _ := false
  taken _ := 0
  written _ := 0
  received _ := 0

/-- What a connection of a client is given is the next frame of its socket, or a sign that the
socket is there or gone. -/
def Wired (n : Network) : BrokerEvent → Prop
  | .input t (.frame f _) =>
    match n.link t, f with
    | none, _ => True
    | some (k, w), .text s => ((n.clients k).outbox w).reverse[n.taken t]? = some s
    | some _, .binary _ => False
    | some _, _ => True
  | _ => True

def afterEvent (n : Network) : BrokerEvent → Network
  | .input t (.frame (.text _) _) => { n with taken := Function.update n.taken t (n.taken t + 1) }
  | .disturbed (.drained t) => { n with written := Function.update n.written t (n.written t + 1) }
  | _ => n

def arriving (n : Network) (t : ℕ) : Option ServerMessage :=
  if n.received t < n.written t then (n.broker.shared.channels t).sent.reverse[n.received t]?
  else none

def withLink (n : Network) (t k w : ℕ) : Network :=
  { n with
    link := Function.update n.link t (some (k, w))
    accepted := Function.update n.accepted k (Function.update (n.accepted k) w true) }

def withClient (n : Network) (k : ℕ) (c : Client) : Network :=
  { n with clients := Function.update n.clients k c }

end Network

/-- The callbacks that need nobody else: a message comes with its delivery, and a socket opens when
the broker has accepted it. -/
def Unprompted (n : Network) (k : ℕ) : Action → Prop
  | .message _ _ => False
  | .opened w => n.accepted k w = true
  | _ => True

/-- One step of the broker, of a client, or of the network between them. -/
inductive Moves (crates : Crates) (hasDb : Bool) (opts : ℕ → Options) :
    Network → Label → Network → Prop
  | broker {n : Network} {e : BrokerEvent} {σ : BrokerConfig}
      (next : Step (broker crates hasDb) n.broker e σ) (wired : n.Wired e) :
      Moves crates hasDb opts n (.broker e) { n.afterEvent e with broker := σ }
  | accept {n : Network} {t k w : ℕ} (new : n.broker.tasks t = .waiting .absent)
      (unlinked : n.link t = none) (waiting : (n.clients k).readyState w = .connecting)
      (created : w < (n.clients k).socketCount) (alone : n.accepted k w = false) :
      Moves crates hasDb opts n (.accept t k w) (n.withLink t k w)
  | client {n : Network} {k : ℕ} {a : Action} {c : Client} (unprompted : Unprompted n k a)
      (next : (n.clients k).step (opts k) a = some c) :
      Moves crates hasDb opts n (.client k a) (n.withClient k c)
  | deliver {n : Network} {t k w : ℕ} {msg : ServerMessage} {c : Client}
      (linked : n.link t = some (k, w)) (arrives : n.arriving t = some msg)
      (next : (n.clients k).step (opts k) (.message w msg) = some c) :
      Moves crates hasDb opts n (.deliver t)
        { n.withClient k c with received := Function.update n.received t (n.received t + 1) }

def Label.brokerEvent : Label → Option BrokerEvent
  | .broker e => some e
  | _ => none

def brokerTrace (tr : List Label) : List BrokerEvent := tr.filterMap Label.brokerEvent

section Runs

variable {crates : Crates} {hasDb : Bool} {opts : ℕ → Options} {db₀ : Database.Db ℕ}
  {C : List Label → Network → Label → Prop} {tr : List Label} {n n' : Network} {l : Label}

theorem afterEvent_eq (n : Network) (e : BrokerEvent) :
    (n.afterEvent e).clients = n.clients ∧ (n.afterEvent e).link = n.link ∧
      (n.afterEvent e).received = n.received := by
  unfold Network.afterEvent
  split <;> exact ⟨rfl, rfl, rfl⟩

theorem broker_run (h : Reaches (Moves crates hasDb opts) C (.start db₀) tr n) :
    Run (broker crates hasDb) (fresh db₀) (brokerTrace tr) n.broker := by
  refine h.invariant
    (I := fun tr n => Run (broker crates hasDb) (fresh db₀) (brokerTrace tr) n.broker) .start ?_
  intro tr n l n' _ hrun hmove _
  cases hmove with
  | broker next _ => exact .step hrun next
  | accept => exact hrun
  | client => exact hrun
  | deliver => exact hrun

theorem clients_invariant {I : ℕ → Client → Prop}
    (h : Reaches (Moves crates hasDb opts) C (.start db₀) tr n) (hnew : ∀ k, I k .new)
    (hstep : ∀ {k c a c'}, I k c → c.step (opts k) a = some c' → I k c') (k : ℕ) :
    I k (n.clients k) := by
  revert k
  refine h.invariant (I := fun _ n => ∀ k, I k (n.clients k)) hnew ?_
  have hupdate : ∀ {n : Network} {k a c}, (∀ k, I k (n.clients k)) →
      (n.clients k).step (opts k) a = some c → ∀ j, I j ((n.withClient k c).clients j) := by
    intro n k a c hinv hs j
    by_cases hj : j = k
    · subst hj
      simp only [Network.withClient, Function.update_self]
      exact hstep (hinv j) hs
    · simp only [Network.withClient, Function.update_of_ne hj]
      exact hinv j
  intro tr n l n' _ hinv hmove _
  cases hmove with
  | @broker e _ _ _ =>
    intro j
    simp only [(afterEvent_eq n e).1]
    exact hinv j
  | accept => exact hinv
  | client _ next => exact hupdate hinv next
  | deliver _ _ next => exact hupdate hinv next

end Runs

end HashedBroker.ClientNetwork
