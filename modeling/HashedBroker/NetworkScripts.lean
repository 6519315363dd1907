import HashedBroker.ClientNetwork
import HashedBroker.Scripts

/-!
# Scripts of a network

The scripts of the broker, with clients in them. The text of a client's frame is the one its call
has led to, and the broker's reading of it is worked out from the members of the message.
-/
namespace HashedBroker.NetworkScripts
open ReactiveTasks Protocol Server Sessions Crates BrokerClient LabelledRuns ClientNetwork

/-- `frame` hands the message of a client's call to the connection of its socket. -/
inductive Cue
  | broker (x : Scripts.Cue)
  | drain (t : ℕ)
  | frame (t : ℕ) (speaker : Char) (call : ℕ)
  | accept (t k w : ℕ)
  | client (k : ℕ) (a : BrokerClient.Action)
  | deliver (t : ℕ)

/-- The text of a client's message, and what the broker reads in it. -/
def spoken (opts : Options) (x : Call) : Option (String × ClientMessage) :=
  if |x.timestamp| < 2 ^ 53 then
    (ClientMessage.ofJson (.obj (Client.signedMembers opts x))).map fun m =>
      (String.ofList (JsonText.print (.obj (Client.signedMembers opts x))), m)
  else none

theorem fromStr_of_spoken {finite : List Char → Bool} {opts : Options} {x : Call} {text : String}
    {m : ClientMessage} (h : spoken opts x = some (text, m)) :
    ClientMessage.fromStr finite text = some m := by
  simp only [spoken] at h
  split_ifs at h with hstamp
  obtain ⟨m', hm, heq⟩ := Option.map_eq_some_iff.mp h
  cases heq
  rw [ClientMessage.fromStr, Client.parse_signedMembers hstamp]
  exact hm

section Evaluation

variable (hasDb : Bool) (opts : ℕ → Options)

/-- The frame of a call, if it is the next one on its socket. -/
def frameCue (n : Network) (t : ℕ) (d : Char) (i : ℕ) : Option (BrokerEvent × BrokerConfig) := do
  let (k, w) ← n.link t
  let x ← (n.clients k).calls i
  let (text, m) ← spoken (opts k) x
  if ((n.clients k).outbox w).reverse[n.taken t]? = some text ∧ Scripts.SpokenBy d m then
    match n.broker.tasks t with
    | .waiting c => (Scripts.answer hasDb text t c m).map fun y =>
      (.input t (.frame (.text text) .midnight),
        ⟨n.broker.shared, Function.update n.broker.tasks t (settle (broker demo hasDb) y.1 y.2)⟩)
    | .running _ _ => none
  else none

/-- Who says something else than a client's frame is no client. -/
def brokerCue (n : Network) : Scripts.Cue → Option (BrokerEvent × BrokerConfig)
  | .say t d m =>
    if n.link t = none then Scripts.cue hasDb n.broker (.say t d m) else none
  | x => Scripts.cue hasDb n.broker x

def after (n : Network) (y : BrokerEvent × BrokerConfig) : Label × Network :=
  (.broker y.1, { n.afterEvent y.1 with broker := y.2 })

def cue (n : Network) : Cue → Option (Label × Network)
  | .broker x => (brokerCue hasDb n x).map (after n)
  | .drain t => (act (broker demo hasDb) n.broker (.disturb (.drained t))).map (after n)
  | .frame t d i => (frameCue hasDb opts n t d i).map (after n)
  | .accept t k w =>
    match n.broker.tasks t with
    | .waiting .absent =>
      if n.link t = none ∧ (n.clients k).readyState w = .connecting ∧
          w < (n.clients k).socketCount ∧ n.accepted k w = false then
        some (.accept t k w, n.withLink t k w)
      else none
    | _ => none
  | .client k a =>
    match a with
    | .message _ _ => none
    | .opened w =>
      if n.accepted k w = true then
        ((n.clients k).step (opts k) (.opened w)).map fun c =>
          (.client k (.opened w), n.withClient k c)
      else none
    | a => (ClientSockets.rehearse (opts k) (n.clients k) a).map fun c =>
        (.client k a, n.withClient k c)
  | .deliver t => do
    let (k, w) ← n.link t
    let msg ← n.arriving t
    let c ← (n.clients k).step (opts k) (.message w msg)
    some (.deliver t,
      { n.withClient k c with received := Function.update n.received t (n.received t + 1) })

variable {hasDb opts} {n n' : Network} {l : Label}

theorem moves_of_frameCue {t i : ℕ} {d : Char} {e : BrokerEvent} {σ : BrokerConfig}
    (h : frameCue hasDb opts n t d i = some (e, σ)) :
    Step (broker demo hasDb) n.broker e σ ∧ n.Wired e := by
  simp only [frameCue, Option.bind_eq_bind, Option.bind_eq_some_iff] at h
  obtain ⟨⟨k, w⟩, hlink, x, hx, ⟨text, m⟩, hspoken, h⟩ := h
  split_ifs at h with htest
  obtain ⟨hnext, hm⟩ := htest
  split at h
  · rename_i c ht
    obtain ⟨⟨c', p⟩, hp, heq⟩ := Option.map_eq_some_iff.mp h
    cases heq
    have hstart : (broker demo hasDb).start t c (.frame (.text text) .midnight) =
        some (c', p) :=
      Scripts.start_of_answer hasDb hm (fromStr_of_spoken hspoken) hp
    refine ⟨⟨.input t (.frame (.text text) .midnight), ?_⟩, ?_⟩
    · simp only [act, ht, hstart, Option.map_some]
    · simp only [Network.Wired, hlink]
      exact hnext
  · cases h

theorem event_of_act {σ σ' : BrokerConfig} {t : ℕ} {i : Input} {e : BrokerEvent}
    (h : act (broker demo hasDb) σ (.input t i) = some (e, σ')) : e = .input t i := by
  simp only [act] at h
  split at h
  · obtain ⟨x, -, heq⟩ := Option.map_eq_some_iff.mp h
    exact (congrArg Prod.fst heq).symm
  · cases h

theorem moves_of_brokerCue {x : Scripts.Cue} {e : BrokerEvent} {σ : BrokerConfig}
    (h : brokerCue hasDb n x = some (e, σ)) :
    Step (broker demo hasDb) n.broker e σ ∧ n.Wired e := by
  cases x with
  | connect t =>
    simp only [brokerCue] at h
    refine ⟨Scripts.step_of_cue hasDb h, ?_⟩
    rw [event_of_act h]
    trivial
  | leave t =>
    simp only [brokerCue] at h
    refine ⟨Scripts.step_of_cue hasDb h, ?_⟩
    rw [event_of_act h]
    simp only [Network.Wired]
    split <;> simp_all
  | perform t env =>
    simp only [brokerCue] at h
    refine ⟨Scripts.step_of_cue hasDb h, ?_⟩
    simp only [Scripts.cue, act] at h
    split at h
    · obtain ⟨y, -, heq⟩ := Option.map_eq_some_iff.mp h
      cases heq
      trivial
    · cases h
  | say t d m =>
    simp only [brokerCue] at h
    split_ifs at h with hlink
    refine ⟨Scripts.step_of_cue hasDb h, ?_⟩
    simp only [Scripts.cue] at h
    split_ifs at h
    split at h
    · obtain ⟨y, -, heq⟩ := Option.map_eq_some_iff.mp h
      cases heq
      simp only [Network.Wired, hlink]
    · cases h

theorem moves_of_cue {x : Cue} (h : cue hasDb opts n x = some (l, n')) :
    Moves demo hasDb opts n l n' := by
  cases x with
  | broker x =>
    obtain ⟨⟨e, σ⟩, hy, heq⟩ := Option.map_eq_some_iff.mp h
    cases heq
    obtain ⟨hstep, hwired⟩ := moves_of_brokerCue hy
    exact .broker hstep hwired
  | drain t =>
    obtain ⟨⟨e, σ⟩, hy, heq⟩ := Option.map_eq_some_iff.mp h
    cases heq
    have hstep : Step (broker demo hasDb) n.broker e σ := ⟨_, hy⟩
    refine .broker hstep ?_
    obtain ⟨s, -, heq⟩ := Option.map_eq_some_iff.mp hy
    cases heq
    trivial
  | frame t d i =>
    obtain ⟨⟨e, σ⟩, hy, heq⟩ := Option.map_eq_some_iff.mp h
    cases heq
    obtain ⟨hstep, hwired⟩ := moves_of_frameCue hy
    exact .broker hstep hwired
  | accept t k w =>
    simp only [cue] at h
    split at h
    · rename_i ht
      split_ifs at h with htest
      cases h
      obtain ⟨hlink, hstate, hcount, haccepted⟩ := htest
      exact .accept ht hlink hstate hcount haccepted
    · cases h
  | client k a =>
    simp only [cue] at h
    split at h
    · cases h
    · split_ifs at h with haccepted
      obtain ⟨c, hc, heq⟩ := Option.map_eq_some_iff.mp h
      cases heq
      exact .client haccepted hc
    · rename_i hmessage hopened
      obtain ⟨c, hc, heq⟩ := Option.map_eq_some_iff.mp h
      cases heq
      refine .client ?_ (ClientSockets.moves_of_rehearse _ _ _ hc)
      cases a with
      | message w msg => exact hmessage w msg rfl
      | opened w => exact absurd rfl (hopened w)
      | _ => trivial
  | deliver t =>
    simp only [cue, Option.bind_eq_bind, Option.bind_eq_some_iff] at h
    obtain ⟨⟨k, w⟩, hlink, msg, hmsg, c, hc, heq⟩ := h
    cases heq
    exact .deliver hlink hmsg hc

theorem label_of_deliver {t : ℕ} (h : cue hasDb opts n (.deliver t) = some (l, n')) :
    l = .deliver t := by
  simp only [cue, Option.bind_eq_bind, Option.bind_eq_some_iff] at h
  obtain ⟨⟨k, w⟩, -, msg, -, c, -, heq⟩ := h
  cases heq
  rfl

variable (hasDb opts)

/-- A script, evaluated as long as a test of its steps succeeds. -/
def play (test : List Label → Network → Label → Bool) :
    List Cue → List Label → Network → Option (List Label × Network)
  | [], tr, n => some (tr, n)
  | x :: xs, tr, n => (cue hasDb opts n x).bind fun y =>
    if test tr n y.1 then play test xs (y.1 :: tr) y.2 else none

theorem reaches_of_play {C : List Label → Network → Label → Prop}
    {test : List Label → Network → Label → Bool} (hC : ∀ tr n l, test tr n l = true → C tr n l)
    {xs : List Cue} {tr tr' : List Label} {n₀ n n' : Network}
    (h : Reaches (Moves demo hasDb opts) C n₀ tr n)
    (hp : play hasDb opts test xs tr n = some (tr', n')) :
    Reaches (Moves demo hasDb opts) C n₀ tr' n' := by
  induction xs generalizing tr n with
  | nil =>
    cases hp
    exact h
  | cons x xs ih =>
    obtain ⟨⟨l, n₁⟩, h₁, h₂⟩ := Option.bind_eq_some_iff.mp hp
    split_ifs at h₂ with ht
    exact ih (.next h (moves_of_cue h₁) (hC _ _ _ ht)) h₂

end Evaluation

/-! ## Clients of the keys `a` and `b` -/

/-- Every client has the key `a` and the signature the key verifies. -/
def signers : ℕ → Options := fun _ => ⟨keyText 'a', fun _ => signatureText 'a'⟩

/-- The first client has the key `a`, the others the key `b`. -/
def twoSigners : ℕ → Options
  | 0 => ⟨keyText 'a', fun _ => signatureText 'a'⟩
  | _ + 1 => ⟨keyText 'b', fun _ => signatureText 'b'⟩

/-- The client opens its first socket, and the broker accepts it. -/
def dials (t k : ℕ) : List Cue :=
  [.client k .connect, .accept t k 0, .broker (.connect t), .client k (.opened 0)]

/-- The client of the key makes its call, and the broker is given the frame. -/
def asks (d : Char) (t k i : ℕ) (request : ClientSigning.Request) : List Cue :=
  [.client k (.call request ClientSockets.epoch ClientSockets.epoch), .client k (.signed i),
    .frame t d i]

def performs (t m : ℕ) : List Cue := List.replicate m (.broker (.perform t Scripts.calm))

/-- The client registers, and the reply is on the wire. -/
def registers (d : Char) (t k : ℕ) : List Cue :=
  dials t k ++ asks d t k 0 (.register none ⟨[], none, false⟩) ++ performs t 5 ++ [.drain t]

end HashedBroker.NetworkScripts
