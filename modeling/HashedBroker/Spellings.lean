import HashedBroker.PresenceIndexes
import HashedBroker.SequentialRuns
import HashedBroker.RegistryLiveness

/-!
# Spellings of a key

A key has many spellings that authentication takes for the same: with or without its prefix, in
upper or lower case. The registry, the watchers and the parties of a relay session are compared as
strings. A request that names a peer reaches it under the spelling it registered with and no other.
-/
namespace HashedBroker.Spellings
open KeyedTables AtomicPrograms ReactiveTasks Protocol Server Sessions

/-- The requests that name one peer. -/
inductive Request
  | lookupPeer
  | signal (payload : String)
  | requestRelay
  | subscribePresence

/-- The message of a request, to a peer under one of its spellings. -/
def Request.to (pk : String) (timestamp : Int64) (signature : String) (requestId : Option String)
    (target : String) : Request → ClientMessage
  | lookupPeer => .lookupPeer pk target timestamp signature requestId
  | signal payload => .signal pk target payload timestamp signature requestId
  | requestRelay => .requestRelay pk target timestamp signature requestId
  | subscribePresence => .subscribePresence pk [target] timestamp signature requestId

def enqueuedOn (c : ℕ) : Prog.History Op Res → List ServerMessage
  | [] => []
  | ⟨.send c' msg, sent⟩ :: h =>
    if c' = c ∧ sent = true then msg :: enqueuedOn c h else enqueuedOn c h
  | _ :: h => enqueuedOn c h

def onlineAnswer : ServerMessage → Option Bool
  | .peerInfo _ _ _ _ online _ _ => some online
  | .presenceUpdate _ online => some online
  | _ => none

/-- What the two ends see of a request: the messages for the session it is meant for, the answers
whether it is online, and whether its disconnect will be announced to the one who asked. -/
structure Observation where
  delivered : List ServerMessage
  answers : List Bool
  announced : Bool

/-- The session `t` is live under `s`. A connection `u` of the key `pk` makes a request, and it is
handled from this state on. A disconnect of `t` is announced to the watchers of `s`. -/
def Observes (crates : Crates) (hasDb : Bool) (b : Broker) (t : ℕ) (s : String) (u : ℕ)
    (pk : String) (msg : ClientMessage) (seen : Observation) : Prop :=
  ∃ h b' x, Returns (broker crates hasDb) u
      (dispatch crates hasDb u pk msg).run b h b' x ∧
    seen.delivered = enqueuedOn t h ∧
    seen.answers = (enqueuedOn u h).filterMap onlineAnswer ∧
    seen.announced = decide (pk ∈ b'.presence.watching s)

/-- Every request of every other peer has the same outcomes under `s'` as under `s`. -/
def SameOutcome (crates : Crates) (hasDb : Bool) (b : Broker) (t : ℕ) (s s' : String) : Prop :=
  ∀ u, u ≠ t → ∀ (pk : String) (timestamp : Int64) (signature : String)
    (requestId : Option String) (request : Request) (seen : Observation),
    Observes crates hasDb b t s u pk (request.to pk timestamp signature requestId s') seen ↔
      Observes crates hasDb b t s u pk (request.to pk timestamp signature requestId s) seen

section Subscribing

variable {crates : Crates} {hasDb : Bool} {s s' pk : String} {u : ℕ}

def presenceView (crates : Crates) (hasDb : Bool) :
    View (broker crates hasDb) Presence.PresenceManager where
  of := Broker.presence
  steady x b b' h := by
    obtain ⟨channels, rfl⟩ := Broker.writerStep_frame h
    rfl

def Spares (s : String) (o : Op) : Prop := ∀ y, o ≠ .presence (.watch s y)

theorem unwatched_exec {o : Op} {env : Env} {b b' : Broker} {r : Res o} (ho : Spares s o)
    (hout : pk ∉ b.presence.watching s) (hx : Broker.exec crates u o env b = some (r, b')) :
    pk ∉ b'.presence.watching s := by
  cases o with
  | presence a =>
    obtain ⟨pm, hpm, rfl⟩ := Broker.exec_presence hx
    have hw := Presence.PresenceManager.watching_exec hpm s
    change pk ∉ pm.watching s
    rw [hw]
    cases a with
    | watch target subscriber =>
      have hne : s ≠ target := fun heq => ho subscriber (heq ▸ rfl)
      simpa only [if_neg hne] using hout
    | unwatch target subscriber =>
      simp only
      split_ifs
      · exact fun hmem => hout (Finset.mem_of_mem_erase hmem)
      · exact hout
    | dropWatchers target =>
      simp only
      split_ifs
      · exact Finset.notMem_empty pk
      · exact hout
    | _ => exact hout
  | _ =>
    rw [(Broker.exec_frame hx).presence (by simp)]
    exact hout

theorem onSubscribePresence_spares (hne : s' ≠ s) (requestId : Option String) :
    (onSubscribePresence u pk [s'] requestId).Always (Spares s) := by
  have hsub : (presence (Presence.subscribe pk [s'])).Always (Spares s) := by
    refine Prog.Always.lift ⟨?_, fun _ => ⟨?_, fun _ => ⟨?_, fun _ => ⟨?_, fun _ => trivial⟩⟩⟩⟩
    · simp [Spares]
    · simp [Spares]
    · simp [Spares, hne]
    · simp [Spares]
  have hother : ∀ o, (∀ a, o ≠ .presence a) → Spares s o := fun o ho y => ho _
  refine hsub.bind fun _ => (always_metric (hother _ (by simp))).bind fun _ => ?_
  exact report_always (fun _ => hother _ (by simp)) (hother _ (by simp)) fun _ _ =>
    hother _ (by simp)

theorem unwatched_of_subscribe (hne : s' ≠ s) {pubkey signature : String} {timestamp : Int64}
    {requestId : Option String} {b b' : Broker} {h : Prog.History Op Res}
    {x : Except BrokerError Unit} (hout : pk ∉ b.presence.watching s)
    (he : Returns (broker crates hasDb) u
      (dispatch crates hasDb u pk
        (.subscribePresence pubkey [s'] timestamp signature requestId)).run b h b' x) :
    pk ∉ b'.presence.watching s := by
  have htriple : Triple (fun _ => True) u (presenceView crates hasDb)
      (fun pm => pk ∉ pm.watching s)
      (dispatch crates hasDb u pk
        (.subscribePresence pubkey [s'] timestamp signature requestId)).run
      fun _ pm => pk ∉ pm.watching s :=
    Always.triple (always_lift (onSubscribePresence_spares hne requestId))
      fun o env b r b' ho hP hx => unwatched_exec ho hP hx
  exact htriple b h b' x hout he

/-- An operation of a subscription that never waits once the channel of its session is closed. -/
def Ready (u : ℕ) (pk : String) : Op → Prop
  | .presence (.entry subscriber) => subscriber = pk
  | .presence (.insert ..) | .presence (.watch ..) | .presence .release => True
  | .registry _ => True
  | .metric _ => True
  | .send c _ => c = u
  | _ => False

theorem onSubscribePresence_ready (requestId : Option String) :
    (onSubscribePresence u pk [s] requestId).Always (Ready u pk) := by
  have hsub : (presence (Presence.subscribe pk [s])).Always (Ready u pk) :=
    Prog.Always.lift (subscribe_always (Q := fun a => Ready u pk (.presence a)) rfl
      (fun _ => trivial) (fun _ => trivial) trivial [s])
  have hsend : ∀ msg, Ready u pk (.send u msg) := fun _ => rfl
  refine hsub.bind fun _ => (always_metric trivial).bind fun _ => ?_
  exact report_always (fun _ => trivial) (hsend _) fun _ _ => hsend _

/-- Nobody else holds the subscriber's entry, and the channel of the session is closed. -/
def Unhindered (u : ℕ) (pk : String) (b : Broker) : Prop :=
  b.presence.locked u pk = false ∧ (b.channels u).closed = true

theorem locked_own {pm pm' : Presence.PresenceManager} (h : pm.locked u pk = false)
    (hheld : ∀ v, v ≠ u → pm'.held.lookup v = pm.held.lookup v) : pm'.locked u pk = false := by
  rw [Presence.PresenceManager.locked, anyBinding_eq_false] at h ⊢
  intro v s hl
  by_cases hv : v = u
  · simp [hv]
  · exact h v s (by rwa [← hheld v hv])

theorem unhindered_exec {o : Op} {b : Broker} (ho : Ready u pk o) (h : Unhindered u pk b) :
    ∃ env r b', Broker.exec crates u o env b = some (r, b') ∧ Unhindered u pk b' := by
  obtain ⟨hfree, hclosed⟩ := h
  refine ⟨Scripts.calm, ?_⟩
  cases o with
  | presence a =>
    cases a with
    | entry subscriber =>
      obtain rfl : subscriber = pk := ho
      refine ⟨(), b.withPresence ⟨b.presence.subscriptions.insert subscriber
        (b.presence.targets subscriber), b.presence.watchers, b.presence.held.insert u subscriber⟩,
        ?_, locked_own hfree fun v hv => ?_, hclosed⟩
      · simp only [Broker.exec, Presence.PresenceManager.exec, hfree]
        rfl
      · simp only [Broker.withPresence, lookup_insert_ite, if_neg hv]
    | insert subscriber target => exact ⟨_, _, rfl, locked_own hfree fun _ _ => rfl, hclosed⟩
    | watch target subscriber => exact ⟨_, _, rfl, locked_own hfree fun _ _ => rfl, hclosed⟩
    | release =>
      refine ⟨_, _, rfl, locked_own hfree fun v hv => ?_, hclosed⟩
      simp only [Broker.withPresence, lookup_erase_ite, if_neg hv]
    | _ => exact ho.elim
  | registry a => exact ⟨_, _, rfl, hfree, hclosed⟩
  | metric update => exact ⟨_, _, rfl, hfree, hclosed⟩
  | send c msg =>
    obtain rfl : c = u := ho
    refine ⟨false, b.withChannel c (b.channels c), ?_, hfree, ?_⟩
    · simp only [Broker.exec, Channel.send, hclosed, if_true, Option.map_some]
    · simpa [Broker.withChannel] using hclosed
  | _ => exact ho.elim

theorem watching_of_subscribe (requestId : Option String) :
    Triple (fun _ => True) u (presenceView crates hasDb) (fun _ => True)
      (onSubscribePresence u pk [s] requestId) fun _ pm => pk ∈ pm.watching s := by
  have hsub : Triple (fun _ => True) u (presenceView crates hasDb) (fun _ => True)
      (presence (Presence.subscribe pk [s])) fun _ pm => pk ∈ pm.watching s := by
    refine triple_call (fun _ _ => True) (fun _ _ _ _ _ _ _ => trivial) fun _ => ?_
    refine triple_call (fun _ _ => True) (fun _ _ _ _ _ _ _ => trivial) fun _ => ?_
    refine triple_call (fun _ pm => pk ∈ pm.watching s) ?_ fun _ => ?_
    · rintro env b r b' - - ⟨⟩
      change pk ∈ Presence.PresenceManager.watching ⟨_, _, _⟩ s
      rw [Presence.PresenceManager.watching_insert, if_pos rfl]
      exact Finset.mem_insert_self _ _
    · refine triple_call (fun _ pm => pk ∈ pm.watching s) ?_ fun _ => triple_done fun _ hv => hv
      rintro env b r b' - hw ⟨⟩
      exact hw
  refine hsub.bind fun _ => Always.triple (F := fun o => ∀ a, o ≠ Op.presence a) ?_ ?_
  · refine (always_metric (by simp)).bind fun _ => ?_
    exact report_always (by simp) (by simp) (by simp)
  · intro o env b r b' ho hw hx
    have hsame : b'.presence = b.presence := (Broker.exec_frame hx).presence ho
    change pk ∈ b'.presence.watching s
    rw [hsame]
    exact hw

end Subscribing

section Outcomes

variable {crates : Crates} {hasDb : Bool} {b : Broker} {t : ℕ} {s s' : String}

theorem exists_free_key (b : Broker) (u : ℕ) (s : String) :
    ∃ pk, pk ∉ b.presence.watching s ∧ b.presence.locked u pk = false := by
  have := Infinite.of_injective PresenceIndexes.name PresenceIndexes.name_injective
  obtain ⟨pk, hpk⟩ := Infinite.exists_notMem_finset
    (b.presence.watching s ∪ (b.presence.held.entries.map Sigma.snd).toFinset)
  simp only [Finset.mem_union, List.mem_toFinset, List.mem_map, not_or, not_exists, not_and] at hpk
  refine ⟨pk, hpk.1, ?_⟩
  rw [Presence.PresenceManager.locked, anyBinding_eq_false]
  intro v x hl
  have hx : x ≠ pk := hpk.2 ⟨v, x⟩ (AList.mem_lookup_iff.mp hl)
  simp [hx]

theorem subscribe_observed (crates : Crates) (hasDb : Bool) (b : Broker) (t u : ℕ)
    (hne : s' ≠ s) :
    ∃ pk, ∀ timestamp signature requestId, ∃ seen,
      Observes crates hasDb b t s u pk
        (Request.subscribePresence.to pk timestamp signature requestId s) seen ∧
      ¬ Observes crates hasDb b t s u pk
        (Request.subscribePresence.to pk timestamp signature requestId s') seen := by
  obtain ⟨pk, hout, hfree⟩ := exists_free_key b u s
  refine ⟨pk, fun timestamp signature requestId => ?_⟩
  -- the writer of the session ends first, so that its sends do not wait
  have hended : (broker crates hasDb).disturb (.ended u) b =
      some (b.withChannel u { b.channels u with queued := 0, closed := true }) := rfl
  have hready : Unhindered u pk
      (b.withChannel u { b.channels u with queued := 0, closed := true }) :=
    ⟨hfree, by simp [Broker.withChannel]⟩
  have hprogram : (dispatch crates hasDb u pk
      (.subscribePresence pk [s] timestamp signature requestId)).run.Always (Ready u pk) :=
    always_lift (onSubscribePresence_ready requestId)
  have hstep : ∀ o b, Ready u pk o → Unhindered u pk b → True ∧ ∃ b₀ env r b',
      Disturbed (broker crates hasDb) b b₀ ∧
        (broker crates hasDb).exec u o env b₀ = some (r, b') ∧ Unhindered u pk b' := by
    intro o b ho hb
    have hnext : ∃ env r b', Broker.exec crates u o env b = some (r, b') ∧ Unhindered u pk b' :=
      unhindered_exec ho hb
    obtain ⟨env, r, b', hx, hb'⟩ := hnext
    exact ⟨trivial, b, env, r, b', .refl, hx, hb'⟩
  have heval : ∃ h b' x, Returns (broker crates hasDb) u
      (dispatch crates hasDb u pk (.subscribePresence pk [s] timestamp signature requestId)).run
      (b.withChannel u { b.channels u with queued := 0, closed := true }) h b' x := by
    obtain ⟨h, b', x, he, -⟩ := Evaluates.of_always hprogram hstep hready
    exact ⟨h, b', x, he⟩
  obtain ⟨h, b', x, he⟩ := heval
  have hin : pk ∈ b'.presence.watching s := by
    have htriple : Triple (fun _ => True) u (presenceView crates hasDb) (fun _ => True)
        (dispatch crates hasDb u pk
          (.subscribePresence pk [s] timestamp signature requestId)).run
        fun _ pm => pk ∈ pm.watching s :=
      (watching_of_subscribe requestId).bind fun _ => triple_done fun _ hv => hv
    exact htriple _ _ _ _ trivial he
  refine ⟨⟨enqueuedOn t h, (enqueuedOn u h).filterMap onlineAnswer, true⟩,
    ⟨h, b', x, .disturbed hended he, rfl, rfl, by simp [hin]⟩, ?_⟩
  rintro ⟨h', b'', x', he', -, -, hannounced⟩
  have hout' : pk ∉ b''.presence.watching s := unwatched_of_subscribe hne hout he'
  simp [hout'] at hannounced

theorem not_sameOutcome (hne : s' ≠ s) : ¬ SameOutcome crates hasDb b t s s' := by
  intro hsame
  obtain ⟨pk, hpk⟩ := subscribe_observed crates hasDb b t (t + 1) hne
  obtain ⟨seen, hs, hs'⟩ := hpk 0 "" none
  exact hs' ((hsame (t + 1) (by omega) pk 0 "" none .subscribePresence seen).mpr hs)

/-- In every state of the broker, the requests addressed to a spelling have the same outcomes as
those addressed to the string a session is live under exactly if the spelling is that string,
whatever key the two are spellings of. -/
theorem same_outcome_iff_same_spelling (crates : Crates) (hasDb : Bool) (b : Broker) (t : ℕ)
    (s s' : String) : SameOutcome crates hasDb b t s s' ↔ s' = s := by
  constructor
  · intro hsame
    by_contra hne
    exact not_sameOutcome hne hsame
  · rintro rfl u - pk timestamp signature requestId request seen
    exact Iff.rfl

end Outcomes

/-! ## A key in upper case -/

open Scripts Crates RegistryLiveness

def insertedByFirst (tr : List BrokerEvent) : Bool := tr.all fun e =>
  match e with
  | .performed u (.registry (.insertPeer _)) _ => decide (u = 0)
  | _ => true

theorem live_of_insertedByFirst {tr : List BrokerEvent} {σ : BrokerConfig}
    (h : insertedByFirst tr = true) {u : ℕ} {pk : String} (hlive : Live tr σ u pk) : u = 0 := by
  obtain ⟨peer, r, -, hmem⟩ := inserted_of_live hlive.1
  exact of_decide_eq_true (List.all_eq_true.mp h _ hmem)

def firstPumps (pk : String) (σ : BrokerConfig) : Bool := isPumping pk (ctls σ 0)

theorem joined_under_lower_case :
    (play false (fun _ _ _ => true) (joins 0 'a') [] (fresh DatabaseCalls.emptyDb)).map
      (fun x => (insertedByFirst x.1, firstPumps (keyText 'a') x.2,
        x.2.shared.registry.isOnline (keyText 'a'), x.2.shared.registry.isOnline (keyText 'A'))) =
      some (true, true, true, false) := by
  decide +kernel

theorem upper_case_does_not_reach_peer : ∃ tr σ key,
    Run (broker demo false) (fresh DatabaseCalls.emptyDb) tr σ ∧
      Live tr σ 0 (keyText 'a') ∧ (∀ u, Live tr σ u (keyText 'a') → u = 0) ∧
      Auth.parsePubkey demo (keyText 'a') = .ok key ∧
      Auth.parsePubkey demo (keyText 'A') = .ok key ∧
      σ.shared.registry.isOnline (keyText 'a') = true ∧
      σ.shared.registry.isOnline (keyText 'A') = false ∧
      ¬ SameOutcome demo false σ.shared 0 (keyText 'a') (keyText 'A') := by
  obtain ⟨⟨tr, σ⟩, hp, heq⟩ := Option.map_eq_some_iff.mp joined_under_lower_case
  simp only [Prod.mk.injEq] at heq
  obtain ⟨hfirst, hpumps, hlower, hupper⟩ := heq
  have hrun := run_of_play false hp
  have hlive : Live tr σ 0 (keyText 'a') := pumping_live hrun (pumping_of_isPumping hpumps)
  obtain ⟨key, hkey, hkey'⟩ := spelled_alike
  exact ⟨tr, σ, key, hrun, hlive, fun u hu => live_of_insertedByFirst hfirst hu, hkey, hkey',
    hlower, hupper, not_sameOutcome (by decide)⟩

end HashedBroker.Spellings
