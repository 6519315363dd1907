import HashedBroker.SequentialRuns
import HashedBroker.SessionOps

/-!
# Relay requests and acceptances that fail

`RelayManager::request` and `accept` change the table of sessions before they know whether the
parties can be told. A call is evaluated alone here, on any state of the broker; the writers go on
emptying the channels, so that a full channel only delays it.
-/
namespace HashedBroker.RelayCalls
open KeyedTables AtomicPrograms ReactiveTasks Protocol Server Sessions Relay

/-- The writers empty their channels, and none of them ends. -/
def writing (b : Broker) : Broker.WriterEvent → Option Broker
  | .drained c => b.writerStep (.drained c)
  | .ended _ => none

/-- The broker with one call at a time. -/
def calling (crates : Crates) :
    Machine ℕ Op Res Env Broker Phase Input Outcome Broker.WriterEvent :=
  { broker crates false with disturb := fun x b => writing b x }

/-- What the calls see of the broker, and leave of it. -/
structure Sight where
  registry : Registry.PeerRegistry
  relay : RelayManager
  sent : ℕ → List ServerMessage
  closed : ℕ → Bool

def Sight.of (b : Broker) : Sight :=
  ⟨b.registry, b.relay, fun c => (b.channels c).sent, fun c => (b.channels c).closed⟩

def Sight.enqueue (v : Sight) (c : ℕ) (msg : ServerMessage) : Sight :=
  { v with sent := Function.update v.sent c (msg :: v.sent c) }

/-- The peer is registered, and its channel is open. -/
def Reachable (b : Broker) (pubkey : String) : Prop :=
  ∃ peer, b.registry.byPubkey.lookup pubkey = some peer ∧ (b.channels peer.tx).closed = false

section Machine

variable {crates : Crates} {t : ℕ} {env : Env} {b b' : Broker}

theorem sight_writing {x : Broker.WriterEvent} (h : writing b x = some b') :
    Sight.of b' = Sight.of b := by
  cases x with
  | drained c =>
    have hstep : b.writerStep (.drained c) = some b' := h
    obtain ⟨channels, heq⟩ := Broker.writerStep_frame hstep
    have hsent := Broker.writerStep_sent hstep
    have hclosed : ∀ c', (b'.channels c').closed = (b.channels c').closed := by
      intro c'
      simp only [Broker.writerStep] at hstep
      split_ifs at hstep
      cases hstep
      simp only [Broker.withChannel]
      by_cases hc : c' = c
      · subst hc
        rw [Function.update_self]
      · rw [Function.update_of_ne hc]
    simp only [Sight.of, hsent, hclosed]
    rw [heq]
  | ended c => cases h

def sight (crates : Crates) : View (calling crates) Sight := ⟨Sight.of, fun _ _ _ h => sight_writing h⟩

theorem sight_getPeer {pubkey : String} {r : Option Registry.PeerHandle}
    (h : (calling crates).exec t (.registry (.getPeer pubkey)) env b = some (r, b')) :
    r = (Sight.of b).registry.byPubkey.lookup pubkey ∧ Sight.of b' = Sight.of b := by
  cases h
  exact ⟨rfl, rfl⟩

theorem sight_relay {a : Relay.Access} {r : a.Result}
    (h : (calling crates).exec t (.relay a) env b = some (r, b')) :
    ∃ rm, (Sight.of b).relay.exec env.relay a = some (r, rm) ∧
      Sight.of b' = { Sight.of b with relay := rm } := by
  have hx : Broker.exec crates t (.relay a) env b = some (r, b') := h
  obtain ⟨rm, hrm, rfl⟩ := Broker.exec_relay hx
  exact ⟨rm, hrm, rfl⟩

theorem sight_send {c : ℕ} {msg : ServerMessage} {r : Bool}
    (h : (calling crates).exec t (.send c msg) env b = some (r, b')) :
    (Sight.of b).closed c = true ∧ r = false ∧ Sight.of b' = Sight.of b ∨
      (Sight.of b).closed c = false ∧ r = true ∧ Sight.of b' = (Sight.of b).enqueue c msg := by
  have hx : Broker.exec crates t (.send c msg) env b = some (r, b') := h
  obtain ⟨ch, hch, rfl⟩ := Broker.exec_send hx
  rcases Channel.send_cases hch with ⟨hclosed, rfl, rfl⟩ | ⟨hopen, rfl, rfl⟩
  · refine Or.inl ⟨hclosed, rfl, ?_⟩
    simp only [Sight.of, Broker.withChannel, Function.update_eq_self]
  · refine Or.inr ⟨hopen, rfl, ?_⟩
    simp only [Sight.of, Sight.enqueue, Broker.withChannel, Sight.mk.injEq, true_and]
    constructor
    · funext c'
      by_cases hc : c' = c
      · subst hc
        simp only [Function.update_self]
      · simp only [Function.update_of_ne hc]
    · funext c'
      by_cases hc : c' = c
      · subst hc
        simp only [Function.update_self]
      · simp only [Function.update_of_ne hc]

/-- The operations of a relay call: none of them waits for more than a channel to be emptied. -/
def Prompt : Op → Prop
  | .registry _ | .relay (.insertSession ..) | .relay (.promote ..) | .send .. => True
  | _ => False

theorem disturbed_room (crates : Crates) (c : ℕ) (b : Broker)
    (hopen : (b.channels c).closed = false) :
    ∃ b₀, Disturbed (calling crates) b b₀ ∧ (b₀.channels c).closed = false ∧
      ¬ Channel.capacity ≤ (b₀.channels c).queued := by
  generalize hn : (b.channels c).queued = n
  induction n generalizing b with
  | zero => exact ⟨b, .refl, hopen, by rw [hn]; decide⟩
  | succ n ih =>
    let b₁ := b.withChannel c { b.channels c with queued := n }
    have hdrain : (calling crates).disturb (.drained c) b = some b₁ := by
      simp only [calling, writing, Broker.writerStep, hn, Nat.succ_pos, if_true,
        Nat.add_sub_cancel, b₁]
    have hchannel : b₁.channels c = { b.channels c with queued := n } :=
      Function.update_self _ _ _
    obtain ⟨b₀, hd, hopen₀, hroom⟩ := ih b₁ (by rw [hchannel]; exact hopen) (by rw [hchannel])
    exact ⟨b₀, .head ⟨_, hdrain⟩ hd, hopen₀, hroom⟩

theorem prompt_answered (o : Op) (b : Broker) (ho : Prompt o) :
    ∃ b₀ env r b', Disturbed (calling crates) b b₀ ∧
      (calling crates).exec t o env b₀ = some (r, b') := by
  let env : Env := ⟨none, Vector.replicate 16 0, 0, [], [], 0, 0, 0⟩
  cases o with
  | registry a => exact ⟨b, env, _, _, .refl, rfl⟩
  | relay a =>
    cases a with
    | insertSession A B => exact ⟨b, env, _, _, .refl, rfl⟩
    | promote i B =>
      have hrelay : ∃ r rm, b.relay.exec env.relay (.promote i B) = some (r, rm) := by
        simp only [RelayManager.exec]
        split
        · exact ⟨_, _, rfl⟩
        · split <;> exact ⟨_, _, rfl⟩
      obtain ⟨r, rm, hrm⟩ := hrelay
      refine ⟨b, env, r, b.withRelay rm, .refl, ?_⟩
      simp only [calling, broker, Broker.exec, hrm, Option.map_some]
    | _ => exact ho.elim
  | send c msg =>
    cases hclosed : (b.channels c).closed with
    | true =>
      refine ⟨b, env, false, b.withChannel c (b.channels c), .refl, ?_⟩
      simp only [calling, broker, Broker.exec, Channel.send, hclosed, if_true, Option.map_some]
    | false =>
      obtain ⟨b₀, hd, hopen, hroom⟩ := disturbed_room crates c b hclosed
      have hsend : (b₀.channels c).send msg = some (true, { b₀.channels c with
          sent := msg :: (b₀.channels c).sent, queued := (b₀.channels c).queued + 1 }) := by
        simp only [Channel.send, hopen, if_neg hroom]
        rfl
      refine ⟨b₀, env, true, b₀.withChannel c { b₀.channels c with
        sent := msg :: (b₀.channels c).sent, queued := (b₀.channels c).queued + 1 }, hd, ?_⟩
      simp only [calling, broker, Broker.exec, hsend, Option.map_some]
  | _ => exact ho.elim

end Machine

/-! ## The steps of the two methods -/

section Steps

variable (crates : Crates)

theorem request_run (initiator responder : String) :
    (request crates initiator responder).run =
      .call (.registry (.getPeer responder)) fun peer =>
        match peer with
        | none => .done (.error .peerOffline)
        | some recipient =>
          .call (.relay (.insertSession initiator responder)) fun id =>
            .call (.send recipient.tx (.relayOffer (crates.uuidText id) initiator)) fun sent =>
              match sent with
              | true => .done (.ok id)
              | false => .done (.error .peerOffline) := by
  refine (run_lift_bind _ _).trans ?_
  refine Prog.call_congr fun peer => ?_
  cases peer with
  | none => rfl
  | some recipient =>
    refine Prog.call_congr fun id => ?_
    refine Prog.call_congr fun sent => ?_
    cases sent <;> rfl

theorem accept_run (responder : String) (id : Uuid) :
    (accept crates responder id).run =
      .call (.relay (.promote id responder)) fun promoted =>
        match promoted with
        | .error e => .done (.error e)
        | .ok initiator =>
          .call (.registry (.getPeer initiator)) fun peer =>
            match peer with
            | none => .done (.error .peerOffline)
            | some initPeer =>
              .call (.registry (.getPeer responder)) fun peer =>
                match peer with
                | none => .done (.error .peerOffline)
                | some respPeer =>
                  .call (.send initPeer.tx
                    (.relaySessionEstablished (crates.uuidText id) responder none)) fun sent =>
                    match sent with
                    | false => .done (.error .peerOffline)
                    | true =>
                      .call (.send respPeer.tx
                        (.relaySessionEstablished (crates.uuidText id) initiator none)) fun sent =>
                        match sent with
                        | true => .done (.ok ())
                        | false => .done (.error .peerOffline) := by
  refine (run_attempt_bind _ _).trans ?_
  refine Prog.call_congr fun promoted => ?_
  cases promoted with
  | error e => rfl
  | ok initiator =>
    refine Prog.call_congr fun peer => ?_
    cases peer with
    | none => rfl
    | some initPeer =>
      refine Prog.call_congr fun peer => ?_
      cases peer with
      | none => rfl
      | some respPeer =>
        refine Prog.call_congr fun sent => ?_
        cases sent with
        | false => rfl
        | true =>
          refine Prog.call_congr fun sent => ?_
          cases sent <;> rfl

end Steps

/-! ## Evaluating a call step by step -/

section Rules

variable {crates : Crates} {t : ℕ} {b b' : Broker} {v : Sight} {hist : Prog.History Op Res}
  {α : Type} {r : α}

theorem returns_getPeer {pubkey : String} {k : Option Registry.PeerHandle → Work α}
    (hv : Sight.of b = v)
    (h : Returns (calling crates) t (.call (.registry (.getPeer pubkey)) k) b hist b' r) :
    ∃ b₁ hist₁, Sight.of b₁ = v ∧ hist₁ ⊆ hist ∧
      Returns (calling crates) t (k (v.registry.byPubkey.lookup pubkey)) b₁ hist₁ b' r := by
  obtain ⟨b₁, hist₁, hb₁, hrest, rfl⟩ := h.read_in (sight crates) hv
    (fun v => v.registry.byPubkey.lookup pubkey) fun _ _ _ _ hx => sight_getPeer hx
  exact ⟨b₁, hist₁, hb₁, List.subset_append_left _ _, hrest⟩

theorem returns_relay {a : Relay.Access} {k : a.Result → Work α} (hv : Sight.of b = v)
    (h : Returns (calling crates) t (.call (.relay a) k) b hist b' r) :
    ∃ env x rm b₁ hist₁, v.relay.exec env a = some (x, rm) ∧ Sight.of b₁ = { v with relay := rm } ∧
      (⟨.relay a, x⟩ : Σ o : Op, Res o) ∈ hist ∧ hist₁ ⊆ hist ∧
      Returns (calling crates) t (k x) b₁ hist₁ b' r := by
  obtain ⟨x, b₁, hist₁, ⟨env, rm, hrm, hb₁⟩, hrest, rfl⟩ := h.call_in (sight crates) hv
    (fun x v' => ∃ env rm, v.relay.exec env a = some (x, rm) ∧ v' = { v with relay := rm })
    fun env b₀ x b₁ hb₀ hx => by
      obtain ⟨rm, hrm, hb₁⟩ := sight_relay hx
      replace hb₀ : Sight.of b₀ = v := hb₀
      rw [hb₀] at hrm hb₁
      exact ⟨env.relay, rm, hrm, hb₁⟩
  exact ⟨env, x, rm, b₁, hist₁, hrm, hb₁, List.mem_append_right _ List.mem_cons_self,
    List.subset_append_left _ _, hrest⟩

theorem returns_send {c : ℕ} {msg : ServerMessage} {k : Bool → Work α} (hv : Sight.of b = v)
    (h : Returns (calling crates) t (.call (.send c msg) k) b hist b' r) :
    ∃ b₁ hist₁, v.closed c = true ∧ Sight.of b₁ = v ∧
        Returns (calling crates) t (k false) b₁ hist₁ b' r ∨
      v.closed c = false ∧ Sight.of b₁ = v.enqueue c msg ∧
        Returns (calling crates) t (k true) b₁ hist₁ b' r := by
  obtain ⟨x, b₁, hist₁, hsent, hrest, -⟩ := h.call_in (sight crates) hv
    (fun x v' => v.closed c = true ∧ x = false ∧ v' = v ∨
      v.closed c = false ∧ x = true ∧ v' = v.enqueue c msg) fun env b₀ x b₁ hb₀ hx => by
      replace hb₀ : Sight.of b₀ = v := hb₀
      rw [← hb₀]
      exact sight_send hx
  refine ⟨b₁, hist₁, ?_⟩
  rcases hsent with ⟨hclosed, rfl, hb₁⟩ | ⟨hopen, rfl, hb₁⟩
  · exact Or.inl ⟨hclosed, hb₁, hrest⟩
  · exact Or.inr ⟨hopen, hb₁, hrest⟩

end Rules

/-! ## Requests -/

section Requests

variable (crates : Crates) (b : Broker) (initiator responder : String)

/-- The identifiers drawn are not in the table. -/
def DrawsFresh (b : Broker) (hist : Prog.History Op Res) : Prop :=
  ∀ A B id, (⟨.relay (.insertSession A B), id⟩ : Σ o : Op, Res o) ∈ hist →
    b.relay.sessions.lookup id = none

/-- A request that fails leaves the sessions as they were. One that succeeds adds a pending session
under a new identifier, and offers it to the responder once. -/
def RequestLeavesNothing : Prop :=
  ∀ t hist b' r, Returns (calling crates) t (request crates initiator responder).run b hist b' r →
    DrawsFresh b hist →
    (∀ e, r = .error e → b'.relay.sessions = b.relay.sessions) ∧
    ∀ id, r = .ok id → b.relay.sessions.lookup id = none ∧
      b'.relay.sessions = b.relay.sessions.insert id ⟨initiator, responder, .pending⟩ ∧
      ∃ peer, b.registry.byPubkey.lookup responder = some peer ∧
        (Sight.of b').sent =
          ((Sight.of b).enqueue peer.tx (.relayOffer (crates.uuidText id) initiator)).sent

variable {crates b initiator responder}

theorem request_evaluated {t : ℕ} {hist : Prog.History Op Res} {b' : Broker}
    {r : Except BrokerError Uuid}
    (h : Returns (calling crates) t (request crates initiator responder).run b hist b' r) :
    b.registry.byPubkey.lookup responder = none ∧ Sight.of b' = Sight.of b ∧
      r = .error .peerOffline ∨
    ∃ peer id, b.registry.byPubkey.lookup responder = some peer ∧
      (⟨.relay (.insertSession initiator responder), id⟩ : Σ o : Op, Res o) ∈ hist ∧
      b'.relay.sessions = b.relay.sessions.insert id ⟨initiator, responder, .pending⟩ ∧
      ((b.channels peer.tx).closed = true ∧ r = .error .peerOffline ∨
        (b.channels peer.tx).closed = false ∧ r = .ok id ∧ (Sight.of b').sent =
          ((Sight.of b).enqueue peer.tx (.relayOffer (crates.uuidText id) initiator)).sent) := by
  rw [request_run] at h
  obtain ⟨b₁, hist₁, hb₁, hsub, h⟩ := returns_getPeer rfl h
  cases hpeer : (Sight.of b).registry.byPubkey.lookup responder with
  | none =>
    rw [hpeer] at h
    obtain ⟨hb', rfl⟩ := h.done_in (sight crates) hb₁
    exact Or.inl ⟨hpeer, hb', rfl⟩
  | some peer =>
    rw [hpeer] at h
    obtain ⟨env, id, rm, b₂, hist₂, hrm, hb₂, hdrawn, -, h⟩ := returns_relay hb₁ h
    cases hrm
    refine Or.inr ⟨peer, env.uuid, hpeer, hsub hdrawn, ?_⟩
    obtain ⟨b₃, hist₃, ⟨hclosed, hb₃, h⟩ | ⟨hopen, hb₃, h⟩⟩ := returns_send hb₂ h
    · obtain ⟨hb', rfl⟩ := h.done_in (sight crates) hb₃
      exact ⟨congrArg (fun v => v.relay.sessions) hb', Or.inl ⟨hclosed, rfl⟩⟩
    · obtain ⟨hb', rfl⟩ := h.done_in (sight crates) hb₃
      exact ⟨congrArg (fun v => v.relay.sessions) hb',
        Or.inr ⟨hopen, rfl, congrArg (fun v => v.sent) hb'⟩⟩

theorem request_leaks (crates : Crates) (initiator : String) {peer : Registry.PeerHandle}
    (hpeer : b.registry.byPubkey.lookup responder = some peer)
    (hclosed : (b.channels peer.tx).closed = true) {id : Uuid}
    (hid : b.relay.sessions.lookup id = none) :
    ∃ hist b', DrawsFresh b hist ∧
      b'.relay.sessions = b.relay.sessions.insert id ⟨initiator, responder, .pending⟩ ∧
      Returns (calling crates) 0 (request crates initiator responder).run b hist b'
        (.error .peerOffline) := by
  let env : Env := ⟨none, id, 0, [], [], 0, 0, 0⟩
  let b₁ := b.withRelay { b.relay with
    sessions := b.relay.sessions.insert id ⟨initiator, responder, .pending⟩ }
  have hget : (calling crates).exec 0 (.registry (.getPeer responder)) env b =
      some (some peer, b) := by
    simp only [calling, broker, Broker.exec, Registry.PeerRegistry.exec, hpeer]
  have hinsert : (calling crates).exec 0 (.relay (.insertSession initiator responder)) env b =
      some (id, b₁) := rfl
  have hsend : (calling crates).exec 0 (.send peer.tx (.relayOffer (crates.uuidText id) initiator))
      env b₁ = some (false, b₁.withChannel peer.tx (b₁.channels peer.tx)) := by
    have hclosed₁ : (b₁.channels peer.tx).closed = true := hclosed
    simp only [calling, broker, Broker.exec, Channel.send, hclosed₁, if_true, Option.map_some]
  refine ⟨[] ++ [⟨.send peer.tx (.relayOffer (crates.uuidText id) initiator), false⟩] ++
    [⟨.relay (.insertSession initiator responder), id⟩] ++
    [⟨.registry (.getPeer responder), some peer⟩],
    b₁.withChannel peer.tx (b₁.channels peer.tx), ?_, rfl, ?_⟩
  · intro A B id' hmem
    simp only [List.nil_append, List.mem_append, List.mem_singleton] at hmem
    rcases hmem with (hmem | hmem) | hmem
    · cases hmem
    · cases hmem
      exact hid
    · cases hmem
  · rw [request_run]
    refine .call trivial hget ?_
    refine .call trivial hinsert ?_
    refine .call trivial hsend ?_
    exact .done _ _

theorem not_requestLeavesNothing {peer : Registry.PeerHandle}
    (hpeer : b.registry.byPubkey.lookup responder = some peer)
    (hclosed : (b.channels peer.tx).closed = true) {id : Uuid}
    (hid : b.relay.sessions.lookup id = none) :
    ¬ RequestLeavesNothing crates b initiator responder := by
  intro hkept
  obtain ⟨hist, b', hfresh, hsessions, h⟩ := request_leaks crates initiator hpeer hclosed hid
  have hsame := (hkept 0 hist b' _ h hfresh).1 _ rfl
  rw [hsessions] at hsame
  have hlookup := congrArg (fun s => s.lookup id) hsame
  simp only [lookup_insert_ite, if_true, hid] at hlookup
  cases hlookup

/-- A request leaves nothing behind when it fails exactly when the responder is not registered or
can be reached (or when there is no identifier left to draw). -/
theorem request_leaves_nothing_iff :
    RequestLeavesNothing crates b initiator responder ↔
      b.registry.byPubkey.lookup responder = none ∨ Reachable b responder ∨
        ∀ id, b.relay.sessions.lookup id ≠ none := by
  constructor
  · intro hkept
    by_contra hcond
    obtain ⟨hregistered, hrest⟩ := not_or.mp hcond
    obtain ⟨hunreachable, hfree⟩ := not_or.mp hrest
    obtain ⟨id, hid⟩ := not_forall.mp hfree
    rw [not_not] at hid
    obtain ⟨peer, hpeer⟩ := Option.ne_none_iff_exists'.mp hregistered
    have hclosed : (b.channels peer.tx).closed = true := by
      by_contra hopen
      exact hunreachable ⟨peer, hpeer, by simpa using hopen⟩
    exact not_requestLeavesNothing hpeer hclosed hid hkept
  · intro hcond t hist b' r h hfresh
    rcases request_evaluated h with ⟨-, hb', rfl⟩ |
      ⟨peer, id, hpeer, hdrawn, hsessions, ⟨hclosed, rfl⟩ | ⟨hopen, rfl, hsent⟩⟩
    · refine ⟨fun e _ => ?_, fun id he => by cases he⟩
      exact congrArg (fun v => v.relay.sessions) hb'
    · rcases hcond with hnone | ⟨peer', hpeer', hopen⟩ | hfull
      · rw [hpeer] at hnone
        cases hnone
      · rw [hpeer] at hpeer'
        cases hpeer'
        rw [hclosed] at hopen
        cases hopen
      · exact absurd (hfresh _ _ id hdrawn) (hfull id)
    · refine ⟨nofun, ?_⟩
      rintro id' ⟨rfl⟩
      exact ⟨hfresh _ _ id hdrawn, hsessions, peer, hpeer, hsent⟩

/-- `a` requests a session with `b`, whose writer has ended while its reader still runs. -/
theorem request_leaves_unannounced_session :
    ¬ RequestLeavesNothing Crates.demo
      { Broker.initial DatabaseCalls.emptyDb with
        registry := ⟨AList.insert "b" ⟨"b", none, ⟨[], none⟩, "host:1", 1⟩ ∅, ∅⟩
        channels := fun _ => ⟨[], 0, true⟩ } "a" "b" := by
  have hid : (Broker.initial DatabaseCalls.emptyDb).relay.sessions.lookup (Vector.replicate 16 0) =
      none := rfl
  exact not_requestLeavesNothing (lookup_insert_ite _ _ _ _) rfl hid

end Requests

/-! ## Acceptances -/

section Acceptances

variable (crates : Crates) (b : Broker) (responder : String) (id : Uuid)

/-- An acceptance that fails leaves the sessions as they were and tells nobody. One that succeeds
makes the session active, and tells each party once. -/
def AcceptAllOrNothing : Prop :=
  ∀ t hist b' r, Returns (calling crates) t (accept crates responder id).run b hist b' r →
    (∀ e, r = .error e → b'.relay.sessions = b.relay.sessions ∧
      (Sight.of b').sent = (Sight.of b).sent) ∧
    (r = .ok () → ∃ s initPeer respPeer, b.relay.sessions.lookup id = some s ∧
      b.registry.byPubkey.lookup s.initiator = some initPeer ∧
      b.registry.byPubkey.lookup responder = some respPeer ∧
      b'.relay.sessions = b.relay.sessions.insert id { s with state := .active } ∧
      (Sight.of b').sent = (((Sight.of b).enqueue initPeer.tx
        (.relaySessionEstablished (crates.uuidText id) responder none)).enqueue respPeer.tx
        (.relaySessionEstablished (crates.uuidText id) s.initiator none)).sent)

variable {crates b responder id}

theorem accept_evaluated {t : ℕ} {hist : Prog.History Op Res} {b' : Broker}
    {r : Except BrokerError Unit}
    (h : Returns (calling crates) t (accept crates responder id).run b hist b' r) :
    ((∀ s, b.relay.sessions.lookup id = some s → s.responder = responder → s.state ≠ .pending) ∧
      Sight.of b' = Sight.of b ∧ ∃ e, r = .error e) ∨
    ∃ s, b.relay.sessions.lookup id = some s ∧ s.responder = responder ∧ s.state = .pending ∧
      b'.relay.sessions = b.relay.sessions.insert id { s with state := .active } ∧
      (¬ (Reachable b s.initiator ∧ Reachable b responder) ∧ r = .error .peerOffline ∨
        ∃ initPeer respPeer, b.registry.byPubkey.lookup s.initiator = some initPeer ∧
          b.registry.byPubkey.lookup responder = some respPeer ∧
          (b.channels initPeer.tx).closed = false ∧ (b.channels respPeer.tx).closed = false ∧
          r = .ok () ∧ (Sight.of b').sent = (((Sight.of b).enqueue initPeer.tx
            (.relaySessionEstablished (crates.uuidText id) responder none)).enqueue respPeer.tx
            (.relaySessionEstablished (crates.uuidText id) s.initiator none)).sent) := by
  have hunregistered : ∀ {pk}, b.registry.byPubkey.lookup pk = none → ¬ Reachable b pk := by
    rintro pk hnone ⟨peer, hpeer, -⟩
    rw [hnone] at hpeer
    cases hpeer
  have hdead : ∀ {pk peer}, b.registry.byPubkey.lookup pk = some peer →
      (b.channels peer.tx).closed = true → ¬ Reachable b pk := by
    rintro pk peer hpeer hclosed ⟨peer', hpeer', hopen⟩
    rw [hpeer] at hpeer'
    cases hpeer'
    rw [hclosed] at hopen
    cases hopen
  rw [accept_run] at h
  obtain ⟨env, x, rm, b₁, hist₁, hrm, hb₁, -, -, h⟩ := returns_relay rfl h
  rcases RelayManager.exec_promote hrm with ⟨s, hs, hresponder, hstate, rfl, rfl⟩ |
    ⟨hrefused, ⟨e, rfl⟩, rfl⟩
  · refine Or.inr ⟨s, hs, hresponder, hstate, ?_⟩
    obtain ⟨b₂, hist₂, hb₂, -, h⟩ := returns_getPeer hb₁ h
    cases hinit : (Sight.of b).registry.byPubkey.lookup s.initiator with
    | none =>
      simp only [hinit] at h
      obtain ⟨hb', rfl⟩ := h.done_in (sight crates) hb₂
      refine ⟨congrArg (fun v => v.relay.sessions) hb', Or.inl ⟨?_, rfl⟩⟩
      exact fun hboth => hunregistered hinit hboth.1
    | some initPeer =>
      simp only [hinit] at h
      obtain ⟨b₃, hist₃, hb₃, -, h⟩ := returns_getPeer hb₂ h
      cases hresp : (Sight.of b).registry.byPubkey.lookup responder with
      | none =>
        simp only [hresp] at h
        obtain ⟨hb', rfl⟩ := h.done_in (sight crates) hb₃
        refine ⟨congrArg (fun v => v.relay.sessions) hb', Or.inl ⟨?_, rfl⟩⟩
        exact fun hboth => hunregistered hresp hboth.2
      | some respPeer =>
        simp only [hresp] at h
        obtain ⟨b₄, hist₄, ⟨hclosed, hb₄, h⟩ | ⟨hopen, hb₄, h⟩⟩ := returns_send hb₃ h
        · obtain ⟨hb', rfl⟩ := h.done_in (sight crates) hb₄
          refine ⟨congrArg (fun v => v.relay.sessions) hb', Or.inl ⟨?_, rfl⟩⟩
          exact fun hboth => hdead hinit hclosed hboth.1
        · obtain ⟨b₅, hist₅, ⟨hclosed, hb₅, h⟩ | ⟨hopen', hb₅, h⟩⟩ := returns_send hb₄ h
          · obtain ⟨hb', rfl⟩ := h.done_in (sight crates) hb₅
            refine ⟨congrArg (fun v => v.relay.sessions) hb', Or.inl ⟨?_, rfl⟩⟩
            exact fun hboth => hdead hresp hclosed hboth.2
          · obtain ⟨hb', rfl⟩ := h.done_in (sight crates) hb₅
            refine ⟨congrArg (fun v => v.relay.sessions) hb', Or.inr ?_⟩
            exact ⟨initPeer, respPeer, hinit, hresp, hopen, hopen', rfl,
              congrArg (fun v => v.sent) hb'⟩
  · obtain ⟨hb', rfl⟩ := h.done_in (sight crates) hb₁
    exact Or.inl ⟨hrefused, hb', e, rfl⟩

theorem accept_prompt (crates : Crates) (responder : String) (id : Uuid) :
    (accept crates responder id).run.Always Prompt := by
  refine always_attempt_bind ((always_perform _).mpr trivial) fun initiator => ?_
  refine always_lift_bind (get_always _ trivial) fun peer => ?_
  refine always_orElse_bind fun initPeer _ => ?_
  refine always_lift_bind (get_always _ trivial) fun peer => ?_
  refine always_orElse_bind fun respPeer _ => ?_
  exact always_trySend_bind trivial fun _ => always_trySend trivial

/-- A session is promoted although one of its parties cannot be told. -/
theorem not_acceptAllOrNothing {s : Session} (hs : b.relay.sessions.lookup id = some s)
    (hresponder : s.responder = responder) (hstate : s.state = .pending)
    (hunreachable : ¬ (Reachable b s.initiator ∧ Reachable b responder)) :
    ¬ AcceptAllOrNothing crates b responder id := by
  intro hall
  obtain ⟨hist, b', r, h⟩ := Evaluates.total (t := 0) (accept_prompt crates responder id)
    (fun o b ho => ⟨trivial, prompt_answered o b ho⟩) b
  rcases accept_evaluated h with ⟨hrefused, -, -⟩ |
    ⟨s', hs', -, -, hsessions, ⟨-, rfl⟩ | ⟨initPeer, respPeer, hinit, hresp, hopen, hopen', -⟩⟩
  · exact hrefused s hs hresponder hstate
  · rw [hs] at hs'
    cases hs'
    have hsame := ((hall 0 hist b' _ h).1 _ rfl).1
    rw [hsessions] at hsame
    have hlookup := congrArg (fun table => table.lookup id) hsame
    simp only [lookup_insert_ite, if_true, hs, Option.some.injEq] at hlookup
    rw [← hlookup] at hstate
    cases hstate
  · rw [hs] at hs'
    cases hs'
    exact hunreachable ⟨⟨initPeer, hinit, hopen⟩, ⟨respPeer, hresp, hopen'⟩⟩

/-- An acceptance is all or nothing exactly when the session is not one that its responder may
promote, or both parties can be reached. -/
theorem accept_all_or_nothing_iff :
    AcceptAllOrNothing crates b responder id ↔
      ∀ s, b.relay.sessions.lookup id = some s → s.responder = responder → s.state = .pending →
        Reachable b s.initiator ∧ Reachable b responder := by
  constructor
  · intro hall s hs hresponder hstate
    by_contra hunreachable
    exact not_acceptAllOrNothing hs hresponder hstate hunreachable hall
  · intro hreach t hist b' r h
    rcases accept_evaluated h with ⟨-, hb', e, rfl⟩ | ⟨s, hs, hresponder, hstate, hsessions,
      ⟨hunreachable, rfl⟩ | ⟨initPeer, respPeer, hinit, hresp, -, -, rfl, hsent⟩⟩
    · refine ⟨fun _ _ => ⟨?_, congrArg Sight.sent hb'⟩, nofun⟩
      exact congrArg (fun v => v.relay.sessions) hb'
    · exact absurd (hreach s hs hresponder hstate) hunreachable
    · exact ⟨nofun, fun _ => ⟨s, initPeer, respPeer, hs, hinit, hresp, hsessions, hsent⟩⟩

/-- `b` accepts a session after `a`, who has requested it, has left the registry. -/
theorem accept_promotes_without_initiator :
    ¬ AcceptAllOrNothing Crates.demo
      { Broker.initial DatabaseCalls.emptyDb with
        relay := ⟨AList.insert (Vector.replicate 16 1) ⟨"a", "b", .pending⟩ ∅, ∅⟩ } "b"
      (Vector.replicate 16 1) := by
  refine not_acceptAllOrNothing (lookup_insert_ite _ _ _ _) rfl rfl ?_
  rintro ⟨⟨peer, hpeer, -⟩, -⟩
  cases hpeer

end Acceptances

end HashedBroker.RelayCalls
