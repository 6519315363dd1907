import HashedBroker.DatabaseCalls
import HashedBroker.Registry
import HashedBroker.Presence
import HashedBroker.Relay
import HashedBroker.Signaling

/-!
# The shared state of the broker

What all connections share, and the atomic operations of a connection's task on it: a statement of
the database, an access to one of the tables, a send on a channel, a reading of the clock, an
update of a metric. The histogram of handling times is left out: nothing reads it.
-/
namespace HashedBroker
open KeyedTables AtomicPrograms Protocol Database

/-- The outbound channel of a connection. `sent` lists what has been enqueued, the newest first;
the writer has yet to take the first `queued` of them. -/
structure Channel where
  sent : List ServerMessage
  queued : ℕ
  closed : Bool

namespace Channel

def capacity : ℕ := 64

def new : Channel := ⟨[], 0, false⟩

/-- A send fails on a closed channel and waits on a full one. -/
def send (ch : Channel) (msg : ServerMessage) : Option (Bool × Channel) :=
  if ch.closed then some (false, ch)
  else if capacity ≤ ch.queued then none
  else some (true, { ch with sent := msg :: ch.sent, queued := ch.queued + 1 })

theorem send_cases {ch ch' : Channel} {msg : ServerMessage} {sent : Bool}
    (h : ch.send msg = some (sent, ch')) :
    ch.closed = true ∧ sent = false ∧ ch' = ch ∨
      ch.closed = false ∧ sent = true ∧
        ch' = { ch with sent := msg :: ch.sent, queued := ch.queued + 1 } := by
  simp only [send] at h
  split_ifs at h with hclosed hfull
  · cases h
    exact Or.inl ⟨hclosed, rfl, rfl⟩
  · cases h
    exact Or.inr ⟨by simpa using hclosed, rfl, rfl⟩

end Channel

structure Metrics where
  connectedPeers : ℤ
  registrationsTotal : ℕ
  handleClaimsTotal : Table String ℕ
  signalingMessagesTotal : ℕ
  signalingRejectedTotal : Table String ℕ
  relayBytesTotal : ℕ
  relaySessionsTotal : ℕ
  teamAnnouncesTotal : ℕ
  presenceSubscriptions : ℤ

inductive MetricUpdate
  | connectedPeers (n : ℤ)
  | registrationsTotal
  | handleClaimsTotal (outcome : String)
  | signalingMessagesTotal
  | signalingRejectedTotal (reason : String)
  | relayBytesTotal (n : ℕ)
  | relaySessionsTotal
  | teamAnnouncesTotal
  | presenceSubscriptions (n : ℤ)

namespace Metrics

def new : Metrics := ⟨0, 0, ∅, 0, ∅, 0, 0, 0, 0⟩

def incLabel (counter : Table String ℕ) (label : String) : Table String ℕ :=
  counter.insert label ((counter.lookup label).getD 0 + 1)

def apply (m : Metrics) : MetricUpdate → Metrics
  | .connectedPeers n => { m with connectedPeers := m.connectedPeers + n }
  | .registrationsTotal => { m with registrationsTotal := m.registrationsTotal + 1 }
  | .handleClaimsTotal outcome =>
    { m with handleClaimsTotal := incLabel m.handleClaimsTotal outcome }
  | .signalingMessagesTotal => { m with signalingMessagesTotal := m.signalingMessagesTotal + 1 }
  | .signalingRejectedTotal reason =>
    { m with signalingRejectedTotal := incLabel m.signalingRejectedTotal reason }
  | .relayBytesTotal n => { m with relayBytesTotal := m.relayBytesTotal + n }
  | .relaySessionsTotal => { m with relaySessionsTotal := m.relaySessionsTotal + 1 }
  | .teamAnnouncesTotal => { m with teamAnnouncesTotal := m.teamAnnouncesTotal + 1 }
  | .presenceSubscriptions n => { m with presenceSubscriptions := m.presenceSubscriptions + n }

end Metrics

structure Broker where
  db : Db ℕ
  registry : Registry.PeerRegistry
  presence : Presence.PresenceManager
  relay : Relay.RelayManager
  signaling : Signaling.SignalingLimiter
  channels : ℕ → Channel
  metrics : Metrics

inductive Op
  | query (s : Statement)
  | registry (a : Registry.Access)
  | presence (a : Presence.Access)
  | relay (a : Relay.Access)
  | signaling (a : Signaling.Access)
  | clock
  | send (channel : ℕ) (msg : ServerMessage)
  | metric (u : MetricUpdate)

abbrev Res : Op → Type
  | .query s => Answer s
  | .registry a => a.Result
  | .presence a => a.Result
  | .relay a => a.Result
  | .signaling a => a.Result
  | .clock => Int64
  | .send _ _ => Bool
  | .metric _ => Unit

/-- What the environment decides about an operation: failures of the database, identifiers,
clocks and the orders in which hash tables are iterated. -/
structure Env where
  fault : Option String
  uuid : Uuid
  databaseTime : ℕ
  order : List String
  sessionOrder : List Uuid
  instant : ℕ
  later : ℕ
  clock : Int64

def Env.database (env : Env) : Database.Env := ⟨env.fault, env.uuid, env.databaseTime⟩

def Env.relay (env : Env) : Relay.Env := ⟨env.uuid, env.sessionOrder, env.instant, env.later⟩

namespace Broker

def withDb (b : Broker) (db : Db ℕ) : Broker := { b with db := db }

def withPresence (b : Broker) (pm : Presence.PresenceManager) : Broker := { b with presence := pm }

def withRelay (b : Broker) (rm : Relay.RelayManager) : Broker := { b with relay := rm }

def withChannel (b : Broker) (c : ℕ) (ch : Channel) : Broker :=
  { b with channels := Function.update b.channels c ch }

def exec (crates : Crates) (t : ℕ) (o : Op) (env : Env) (b : Broker) : Option (Res o × Broker) :=
  match o with
  | .query s => (b.db.exec t s env.database).map fun x => (x.1, b.withDb x.2)
  | .registry a => some ((b.registry.exec a).1, { b with registry := (b.registry.exec a).2 })
  | .presence a => (b.presence.exec t env.order a).map fun x => (x.1, b.withPresence x.2)
  | .relay a => (b.relay.exec env.relay a).map fun x => (x.1, b.withRelay x.2)
  | .signaling a =>
    some ((b.signaling.exec crates env.instant a).1,
      { b with signaling := (b.signaling.exec crates env.instant a).2 })
  | .clock => some (env.clock, b)
  | .send c msg => ((b.channels c).send msg).map fun x => (x.1, b.withChannel c x.2)
  | .metric u => some ((), { b with metrics := b.metrics.apply u })

section Exec

variable {crates : Crates} {t : ℕ} {env : Env} {b b' : Broker}

theorem exec_query {s : Statement} {r : Res (.query s)}
    (h : exec crates t (.query s) env b = some (r, b')) :
    ∃ db, b.db.exec t s env.database = some (r, db) ∧ b' = b.withDb db := by
  obtain ⟨⟨r', db⟩, hdb, heq⟩ := Option.map_eq_some_iff.mp h
  cases heq
  exact ⟨db, hdb, rfl⟩

theorem exec_presence {a : Presence.Access} {r : Res (.presence a)}
    (h : exec crates t (.presence a) env b = some (r, b')) :
    ∃ pm, b.presence.exec t env.order a = some (r, pm) ∧ b' = b.withPresence pm := by
  obtain ⟨⟨r', pm⟩, hpm, heq⟩ := Option.map_eq_some_iff.mp h
  cases heq
  exact ⟨pm, hpm, rfl⟩

theorem exec_relay {a : Relay.Access} {r : Res (.relay a)}
    (h : exec crates t (.relay a) env b = some (r, b')) :
    ∃ rm, b.relay.exec env.relay a = some (r, rm) ∧ b' = b.withRelay rm := by
  obtain ⟨⟨r', rm⟩, hrm, heq⟩ := Option.map_eq_some_iff.mp h
  cases heq
  exact ⟨rm, hrm, rfl⟩

theorem exec_send {c : ℕ} {msg : ServerMessage} {sent : Bool}
    (h : exec crates t (.send c msg) env b = some (sent, b')) :
    ∃ ch, (b.channels c).send msg = some (sent, ch) ∧ b' = b.withChannel c ch := by
  obtain ⟨⟨r', ch⟩, hch, heq⟩ := Option.map_eq_some_iff.mp h
  cases heq
  exact ⟨ch, hch, rfl⟩

end Exec

/-- An operation changes the component it names and no other. -/
structure Frame (o : Op) (b b' : Broker) : Prop where
  db : (∀ s, o ≠ .query s) → b'.db = b.db
  registry : (∀ a, o ≠ .registry a) → b'.registry = b.registry
  presence : (∀ a, o ≠ .presence a) → b'.presence = b.presence
  relay : (∀ a, o ≠ .relay a) → b'.relay = b.relay
  signaling : (∀ a, o ≠ .signaling a) → b'.signaling = b.signaling
  channels : (∀ c msg, o ≠ .send c msg) → b'.channels = b.channels

theorem exec_frame {crates : Crates} {t : ℕ} {o : Op} {env : Env} {b b' : Broker} {r : Res o}
    (h : exec crates t o env b = some (r, b')) : Frame o b b' := by
  cases o with
  | query s =>
    obtain ⟨db, -, rfl⟩ := exec_query h
    constructor <;> first | exact fun _ => rfl | exact fun hne => absurd rfl (hne s)
  | registry a =>
    cases h
    constructor <;> first | exact fun _ => rfl | exact fun hne => absurd rfl (hne a)
  | presence a =>
    obtain ⟨pm, -, rfl⟩ := exec_presence h
    constructor <;> first | exact fun _ => rfl | exact fun hne => absurd rfl (hne a)
  | relay a =>
    obtain ⟨rm, -, rfl⟩ := exec_relay h
    constructor <;> first | exact fun _ => rfl | exact fun hne => absurd rfl (hne a)
  | signaling a =>
    cases h
    constructor <;> first | exact fun _ => rfl | exact fun hne => absurd rfl (hne a)
  | clock =>
    cases h
    constructor <;> exact fun _ => rfl
  | send c msg =>
    obtain ⟨ch, -, rfl⟩ := exec_send h
    constructor <;> first | exact fun _ => rfl | exact fun hne => absurd rfl (hne c msg)
  | metric u =>
    cases h
    constructor <;> exact fun _ => rfl

section Parts

variable {crates : Crates} {t : ℕ} {o : Op} {env : Env} {b b' : Broker} {r : Res o}

theorem db_of_exec (h : exec crates t o env b = some (r, b')) : b'.db = b.db ∨
    ∃ s x, o = .query s ∧ b.db.exec t s env.database = some (x, b'.db) := by
  by_cases ho : ∃ s, o = .query s
  · obtain ⟨s, rfl⟩ := ho
    obtain ⟨db, hdb, rfl⟩ := exec_query h
    exact Or.inr ⟨s, r, rfl, hdb⟩
  · exact Or.inl ((exec_frame h).db fun s hs => ho ⟨s, hs⟩)

theorem presence_of_exec (h : exec crates t o env b = some (r, b')) : b'.presence = b.presence ∨
    ∃ a x, o = .presence a ∧ b.presence.exec t env.order a = some (x, b'.presence) := by
  by_cases ho : ∃ a, o = .presence a
  · obtain ⟨a, rfl⟩ := ho
    obtain ⟨pm, hpm, rfl⟩ := exec_presence h
    exact Or.inr ⟨a, r, rfl, hpm⟩
  · exact Or.inl ((exec_frame h).presence fun a ha => ho ⟨a, ha⟩)

theorem relay_of_exec (h : exec crates t o env b = some (r, b')) : b'.relay = b.relay ∨
    ∃ a x, o = .relay a ∧ b.relay.exec env.relay a = some (x, b'.relay) := by
  by_cases ho : ∃ a, o = .relay a
  · obtain ⟨a, rfl⟩ := ho
    obtain ⟨rm, hrm, rfl⟩ := exec_relay h
    exact Or.inr ⟨a, r, rfl, hrm⟩
  · exact Or.inl ((exec_frame h).relay fun a ha => ho ⟨a, ha⟩)

/-- A message is put on a channel whose writer has not ended, and on no other. -/
theorem sent_of_send {c : ℕ} {msg : ServerMessage} {sent : Bool}
    (h : exec crates t (.send c msg) env b = some (sent, b')) :
    (b.channels c).closed = true ∧ sent = false ∧
        (∀ r, (b'.channels r).sent = (b.channels r).sent) ∨
      (b.channels c).closed = false ∧ sent = true ∧
        (b'.channels c).sent = msg :: (b.channels c).sent ∧
        ∀ r, r ≠ c → (b'.channels r).sent = (b.channels r).sent := by
  obtain ⟨ch, hsend, rfl⟩ := exec_send h
  simp only [withChannel]
  rcases Channel.send_cases hsend with ⟨hclosed, rfl, rfl⟩ | ⟨hopen, rfl, rfl⟩
  · refine Or.inl ⟨hclosed, rfl, fun r => ?_⟩
    rw [Function.update_eq_self]
  · refine Or.inr ⟨hopen, rfl, by rw [Function.update_self], fun r hr => ?_⟩
    rw [Function.update_of_ne hr]

theorem sent_of_exec (h : exec crates t o env b = some (r, b')) (c : ℕ) :
    (b'.channels c).sent = (b.channels c).sent ∨
      ∃ msg, o = .send c msg ∧ (b'.channels c).sent = msg :: (b.channels c).sent := by
  cases o with
  | send c' msg =>
    rcases sent_of_send h with ⟨-, -, hsame⟩ | ⟨-, -, hsent, hsame⟩
    · exact Or.inl (hsame c)
    · by_cases hc : c = c'
      · subst hc
        exact Or.inr ⟨msg, rfl, hsent⟩
      · exact Or.inl (hsame c hc)
  | _ => exact Or.inl (by rw [(exec_frame h).channels (by simp)])

end Parts

/-- What happens to the channels from outside: a writer puts a message on the wire, or ends. -/
inductive WriterEvent
  | drained (channel : ℕ)
  | ended (channel : ℕ)

def writerStep (b : Broker) : WriterEvent → Option Broker
  | .drained c =>
    if 0 < (b.channels c).queued then
      some (b.withChannel c { b.channels c with queued := (b.channels c).queued - 1 })
    else none
  | .ended c => some (b.withChannel c { b.channels c with queued := 0, closed := true })

theorem writerStep_frame {b b' : Broker} {x : WriterEvent} (h : b.writerStep x = some b') :
    ∃ channels, b' = { b with channels := channels } := by
  cases x with
  | drained c =>
    simp only [writerStep] at h
    split_ifs at h
    cases h
    exact ⟨_, rfl⟩
  | ended c =>
    cases h
    exact ⟨_, rfl⟩

theorem writerStep_sent {b b' : Broker} {x : WriterEvent} (h : b.writerStep x = some b') (c : ℕ) :
    (b'.channels c).sent = (b.channels c).sent := by
  have hset : ∀ c' ch, ch.sent = (b.channels c').sent →
      ((b.withChannel c' ch).channels c).sent = (b.channels c).sent := by
    intro c' ch hch
    simp only [withChannel]
    by_cases hc : c = c'
    · subst hc
      rw [Function.update_self, hch]
    · rw [Function.update_of_ne hc]
  cases x with
  | drained c' =>
    simp only [writerStep] at h
    split_ifs at h
    cases h
    exact hset _ _ rfl
  | ended c' =>
    cases h
    exact hset _ _ rfl

theorem exec_closed {crates : Crates} {t c : ℕ} {o : Op} {env : Env} {b b' : Broker} {r : Res o}
    (h : exec crates t o env b = some (r, b')) (hclosed : (b.channels c).closed = true) :
    (b'.channels c).closed = true := by
  cases o with
  | send c' msg =>
    obtain ⟨ch, hsend, rfl⟩ := exec_send h
    simp only [withChannel]
    by_cases hc : c = c'
    · subst hc
      rw [Function.update_self]
      rcases Channel.send_cases hsend with ⟨-, -, rfl⟩ | ⟨hopen, -, -⟩
      · exact hclosed
      · rw [hopen] at hclosed
        cases hclosed
    · rw [Function.update_of_ne hc]
      exact hclosed
  | _ =>
    rw [(exec_frame h).channels nofun]
    exact hclosed

theorem writerStep_closed {c : ℕ} {b b' : Broker} {x : WriterEvent} (h : b.writerStep x = some b')
    (hclosed : (b.channels c).closed = true) : (b'.channels c).closed = true := by
  have hset : ∀ c' ch, (c = c' → ch.closed = true) →
      ((b.withChannel c' ch).channels c).closed = true := by
    intro c' ch hch
    simp only [withChannel]
    by_cases hc : c = c'
    · subst hc
      rw [Function.update_self]
      exact hch rfl
    · rw [Function.update_of_ne hc]
      exact hclosed
  cases x with
  | drained c' =>
    simp only [writerStep] at h
    split_ifs at h
    cases h
    apply hset
    intro hc
    subst hc
    exact hclosed
  | ended c' =>
    cases h
    exact hset _ _ fun _ => rfl

theorem exec_send_closed {crates : Crates} {t c : ℕ} {msg : ServerMessage} {sent : Bool} {env : Env}
    {b b' : Broker} (h : exec crates t (.send c msg) env b = some (sent, b')) :
    sent = !(b.channels c).closed := by
  rcases sent_of_send h with ⟨hclosed, rfl, -⟩ | ⟨hopen, rfl, -⟩
  · simp [hclosed]
  · simp [hopen]

/-- A broker that has just started on a database has no transaction open there. -/
def initial (db : Db ℕ) : Broker :=
  ⟨{ db with transactions := ∅ }, .empty, .empty, .empty, .empty, fun _ => .new, .new⟩

end Broker

end HashedBroker
