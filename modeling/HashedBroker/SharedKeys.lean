import HashedBroker.PresenceIndexes
import HashedBroker.PresenceReadings
import HashedBroker.RelayLifetimes

/-!
# Sessions that share a key

A key may have several sessions at a time. What they acquire is kept by the key: subscriptions,
relay sessions and the last word on whether the key is online. A session that closes clears all of
it, whichever session of the key has asked for it. The others are spared in the runs in which they
have nothing at stake when one closes.
-/
namespace HashedBroker.SharedKeys
open KeyedTables AtomicPrograms ReactiveTasks Protocol Server Sessions RegistryLiveness
open PresenceReadings (lastUpdate)

/-! ## What a cleanup has still to do -/

/-- Where a cleanup stands: the targets it has yet to stop watching, the relay sessions it has yet to
remove, whether the watcher it has just looked up is registered. -/
inductive Clearing
  | idle
  | removed
  | unwatching (targets : List String)
  | removing (ids : List Uuid)
  | telling (found : Bool)

def Clearing.next (l : Clearing) : (o : Op) → Res o → Clearing
  | .presence (.take _), some targets => .unwatching targets
  | .presence (.unwatch ..), emptied =>
    match l, emptied with
    | .unwatching targets, false => .unwatching targets.tail
    | l, _ => l
  | .presence (.dropWatchers _), _ =>
    match l with
    | .unwatching targets => .unwatching targets.tail
    | l => l
  | .relay (.stale _), ids => .removing ids
  | .relay (.removeSession _), _ =>
    match l with
    | .removing ids => .removing ids.tail
    | l => l
  | .presence (.watchers _), _ => .telling false
  | .registry (.getPeer _), peer => .telling peer.isSome
  | _, _ => l

/-- A cleanup begins when it takes the key out of the registry. -/
def clearNext (l : Clearing) (o : Op) (r : Res o) : Clearing :=
  match l with
  | .idle =>
    match o with
    | .registry (.removePeer _) => .removed
    | _ => .idle
  | l => l.next o r

def clearing (t : ℕ) (tr : List BrokerEvent) : Clearing := localState clearNext .idle t tr

/-- A cleanup clears what it has collected, and tells the watchers it has found. -/
def Clears (l : Clearing) : Op → Prop
  | .registry (.removePeer _) => l = .idle
  | .presence (.unwatch target _) | .presence (.dropWatchers target) =>
    ∃ targets, l = .unwatching (target :: targets)
  | .relay (.removeSession id) => ∃ ids, l = .removing (id :: ids)
  | .send .. => l = .telling true
  | _ => l ≠ .idle

def ClearOk (_ : ℕ) (c : Phase) (l : Clearing) (o : Op) : Prop :=
  match c with
  | .closing _ => Clears l o
  | _ => l = .idle ∧ ∀ pk, o ≠ .registry (.removePeer pk)

/-- Only a task that has ended has begun to clear, of those that wait. -/
def Unbegun (c : Phase) (l : Clearing) : Prop := c = .ended ∨ l = .idle

section Programs

variable {crates : Crates} {hasDb : Bool} {t : ℕ} {c : Phase} {l : Clearing} {pk : String}

theorem clearNext_of_begun (hl : l ≠ .idle) (o : Op) (r : Res o) : clearNext l o r = l.next o r := by
  cases l with
  | idle => exact absurd rfl hl
  | _ => rfl

theorem unwatchEach_clears (targets : List String) :
    (presence (Presence.unwatchEach pk targets)).Follows clearNext (ClearOk t (.closing pk))
      (fun l _ => l = .unwatching []) (.unwatching targets) := by
  induction targets with
  | nil => exact rfl
  | cons target targets ih =>
    have hone : (presence (Presence.unwatch pk target)).Follows clearNext (ClearOk t (.closing pk))
        (fun l _ => l = .unwatching targets) (.unwatching (target :: targets)) := by
      refine ⟨⟨targets, rfl⟩, fun emptied => ?_⟩
      cases emptied with
      | false => exact rfl
      | true => exact ⟨⟨targets, rfl⟩, fun _ => rfl⟩
    rw [presence, Presence.unwatchEach, Prog.lift_bind]
    refine hone.bind ?_
    rintro l - rfl
    exact ih

theorem removeEach_clears (ids : List Uuid) :
    (relay (Relay.removeEach ids)).Follows clearNext (ClearOk t (.closing pk))
      (fun l _ => l = .removing []) (.removing ids) := by
  induction ids with
  | nil => exact rfl
  | cons id ids ih => exact ⟨⟨ids, rfl⟩, fun _ => ih⟩

theorem broadcastEach_clears (payload : ServerMessage) (ws : List String) (found : Bool) :
    (broadcastEach payload ws).Follows clearNext (ClearOk t (.closing pk)) (fun _ _ => True)
      (.telling found) := by
  induction ws generalizing found with
  | nil => trivial
  | cons w ws ih =>
    refine ⟨nofun, fun peer => ?_⟩
    cases peer with
    | none => exact ih false
    | some peer => exact ⟨rfl, fun _ => ih true⟩

theorem remove_clears :
    (registry (Registry.remove pk)).Follows clearNext (ClearOk t (.closing pk))
      (fun l _ => l = .removed) .idle := by
  obtain ⟨k, hk, hrest⟩ := remove_rest_always pk
    (Q := fun a => (∃ h, a = .getHandle h) ∨ ∃ h, a = .removeHandle h)
    (fun h => Or.inl ⟨h, rfl⟩) fun h => Or.inr ⟨h, rfl⟩
  rw [registry, hk]
  refine ⟨rfl, fun removed => ?_⟩
  have halways : (registry (k removed)).Always fun o =>
      (∃ h, o = .registry (.getHandle h)) ∨ ∃ h, o = .registry (.removeHandle h) := by
    refine Prog.Always.lift ((hrest removed).mono fun a ha => ?_)
    rcases ha with ⟨h, rfl⟩ | ⟨h, rfl⟩
    · exact Or.inl ⟨h, rfl⟩
    · exact Or.inr ⟨h, rfl⟩
  refine halways.follows (fun o ho => ?_) fun _ => rfl
  have hbegun : clearNext .idle (.registry (.removePeer pk)) removed ≠ .idle := by
    intro hidle
    cases hidle
  rcases ho with ⟨h, rfl⟩ | ⟨h, rfl⟩
  · exact ⟨hbegun, fun _ => rfl⟩
  · exact ⟨hbegun, fun _ => rfl⟩

theorem clearSubscriber_clears :
    (presence (Presence.clearSubscriber pk)).Follows clearNext (ClearOk t (.closing pk))
      (fun l _ => l ≠ .idle) .removed := by
  refine ⟨nofun, fun taken => ?_⟩
  cases taken with
  | none => exact nofun
  | some targets =>
    refine (unwatchEach_clears targets).mono ?_
    rintro l - rfl
    exact nofun

theorem cleanup_clears :
    (cleanup pk).Follows clearNext (ClearOk t (.closing pk)) (fun _ _ => True) .idle := by
  refine remove_clears.bind ?_
  rintro l - rfl
  have hmetric : (metric (.connectedPeers (-1))).Follows clearNext (ClearOk t (.closing pk))
      (fun l _ => l = .removed) .removed := ⟨nofun, fun _ => rfl⟩
  refine hmetric.bind ?_
  rintro l - rfl
  refine clearSubscriber_clears.bind ?_
  intro l _ hl
  have hdrop : (relay (Relay.dropSessionsFor pk)).Follows clearNext (ClearOk t (.closing pk))
      (fun l _ => l = .removing []) l := by
    refine ⟨hl, fun ids => ?_⟩
    rw [clearNext_of_begun hl]
    exact removeEach_clears ids
  refine hdrop.bind ?_
  rintro l - rfl
  have hbroadcast : (broadcast pk false).Follows clearNext (ClearOk t (.closing pk))
      (fun _ _ => True) (.removing []) := by
    refine ⟨nofun, fun watchers => ?_⟩
    cases watchers with
    | none => trivial
    | some ws => exact broadcastEach_clears _ ws false
  refine hbroadcast.bind ?_
  intro l _ _
  trivial

theorem start_clears {c' : Phase} {i : Input} {p : Work Outcome}
    (hs : start crates hasDb t c i = some (c', p)) (hl : Unbegun c l) :
    p.Follows clearNext (ClearOk t c') (fun l a => Unbegun (finish c' a) l) l := by
  have hidle : l = .idle := by
    rcases hl with rfl | rfl
    · cases hs
    · rfl
  subst hidle
  by_cases hc' : ∃ pk, c' = .closing pk
  · obtain ⟨pk, rfl⟩ := hc'
    rw [(start_closing hs).2]
    exact cleanup_clears.mono fun l _ _ => Or.inl rfl
  · have hno : ∀ pk, c' ≠ .closing pk := fun pk heq => hc' ⟨pk, heq⟩
    have hstays : ∀ o, Permitted crates t c' o →
        ClearOk t c' .idle o ∧ ∀ r, clearNext .idle o r = .idle := by
      intro o ho
      have hne : ∀ pk, o ≠ .registry (.removePeer pk) := by
        rintro pk rfl
        exact RelayLifetimes.unswept_of_permitted hno ho
      constructor
      · cases c' with
        | closing pk => exact absurd rfl (hno pk)
        | _ => exact ⟨rfl, hne⟩
      · intro r
        cases o with
        | registry a =>
          cases a with
          | removePeer pk => exact absurd rfl (hne pk)
          | _ => rfl
        | _ => rfl
    exact (start_permitted hs).follows hstays fun _ => Or.inr rfl

end Programs

section Runs

variable {crates : Crates} {hasDb : Bool} {db₀ : Database.Db ℕ} {tr : List BrokerEvent}
  {σ : BrokerConfig}

theorem clears (h : Run (broker crates hasDb) (fresh db₀) tr σ) :
    (∀ t c, σ.tasks t = .waiting c → Unbegun c (clearing t tr)) ∧
      ∀ t c p, σ.tasks t = .running c p →
        p.Follows clearNext (ClearOk t c) (fun l a => Unbegun (finish c a) l) (clearing t tr) :=
  h.tracks clearNext .idle ClearOk (fun _ => Unbegun) (fun _ => ⟨.absent, rfl, Or.inr rfl⟩)
    fun _ _ _ _ _ _ hs hl => start_clears hs hl

theorem clears_ok (h : Run (broker crates hasDb) (fresh db₀) tr σ) {t : ℕ} {pk : String} {o : Op}
    {k : Res o → Work Outcome} (ht : σ.tasks t = .running (.closing pk) (.call o k)) :
    Clears (clearing t tr) o := ((clears h).2 t _ _ ht).1

theorem clearing_performed (t : ℕ) (o : Op) (r : Res o) (tr : List BrokerEvent) :
    clearing t (.performed t o r :: tr) = clearNext (clearing t tr) o r :=
  localState_performed_self _ _ t o r tr

theorem clearing_performed_of_ne {t u : ℕ} (hut : u ≠ t) (o : Op) (r : Res o)
    (tr : List BrokerEvent) : clearing u (.performed t o r :: tr) = clearing u tr :=
  localState_performed_of_ne hut o r tr

end Runs

/-! ## The remaining sessions and what they hold -/

def beforeInput (t : ℕ) : List BrokerEvent → List BrokerEvent
  | [] => []
  | .input u _ :: tr => if u = t then tr else beforeInput t tr
  | _ :: tr => beforeInput t tr

/-- The session was registered when the other one of its key began to close, and is live. -/
structure Remaining (tr : List BrokerEvent) (σ : BrokerConfig) (t u : ℕ) (pk : String) : Prop where
  other : u ≠ t
  closing : (σ.tasks t).ctl = .closing pk
  before : stage u (beforeInput t tr) = .live pk
  live : Live tr σ u pk

/-- Whether an event makes the session's subscription of its key to the target, or takes away the
key's. -/
def subscriptionChange (u : ℕ) (pk target : String) : BrokerEvent → Option Bool
  | .performed v (.presence (.insert subscriber target')) _ =>
    if v = u ∧ subscriber = pk ∧ target' = target then some true else none
  | .performed _ (.presence (.remove subscriber target')) _ =>
    if subscriber = pk ∧ target' = target then some false else none
  | .performed _ (.presence (.take subscriber)) _ => if subscriber = pk then some false else none
  | _ => none

/-- The session has subscribed its key to the target, and no session has unsubscribed or cleared the
key since. -/
def Requested (u : ℕ) (pk target : String) (tr : List BrokerEvent) : Prop :=
  tr.findSome? (subscriptionChange u pk target) = some true

instance (u : ℕ) (pk target : String) (tr : List BrokerEvent) :
    Decidable (Requested u pk target tr) := inferInstanceAs (Decidable (_ = _))

/-- Whether an event is the session's request or acceptance of the relay session, or takes it
away. -/
def relayChange (u : ℕ) (id : Uuid) : BrokerEvent → Option Bool
  | .performed v (.relay (.insertSession ..)) id' => if id' = id then some (v = u) else none
  | .performed v (.relay (.promote id' _)) (.ok _) =>
    if v = u ∧ id' = id then some true else none
  | .performed _ (.relay (.removeSession id')) _ => if id' = id then some false else none
  | _ => none

/-- The session has requested or accepted the relay session, and it has not been removed since. -/
def Acquired (u : ℕ) (id : Uuid) (tr : List BrokerEvent) : Prop :=
  tr.findSome? (relayChange u id) = some true

/-- What a session of a key holds, and what has been said about the key, is as it was. -/
structure Spared (tr : List BrokerEvent) (u : ℕ) (pk : String) (b b' : Broker) : Prop where
  subscriptions : ∀ target, Requested u pk target tr →
    (target ∈ b'.presence.targets pk ↔ target ∈ b.presence.targets pk) ∧
      (pk ∈ b'.presence.watching target ↔ pk ∈ b.presence.watching target)
  relays : ∀ id, Acquired u id tr → b'.relay.sessions.lookup id = b.relay.sessions.lookup id
  told : ∀ c, lastUpdate pk (b'.channels c).sent = lastUpdate pk (b.channels c).sent

/-- If the step is one of a cleanup, it spares the remaining sessions of the key. -/
def SparesRemaining (crates : Crates) (hasDb : Bool) (tr : List BrokerEvent) (σ : BrokerConfig)
    (e : BrokerEvent) : Prop :=
  ∀ t o r u pk σ', e = .performed t o r → Step (broker crates hasDb) σ e σ' →
    Remaining tr σ t u pk → Spared tr u pk σ.shared σ'.shared

/-- The remaining sessions hold no subscription when the closing one takes those of the key, and no
relay session when it collects those of the key, and ask for none of them until they are cleared;
and no watcher is registered when the closing one looks it up. -/
def NothingAtStake (tr : List BrokerEvent) (σ : BrokerConfig) : BrokerEvent → Prop
  | .performed t (.presence (.take pk)) _ => ∀ u, Remaining tr σ t u pk →
    ∀ target ∈ σ.shared.presence.targets pk, ¬ Requested u pk target tr
  | .performed t (.relay (.stale pk)) _ => ∀ u, Remaining tr σ t u pk →
    ∀ id ∈ σ.shared.relay.sessionsOf pk, ¬ Acquired u id tr
  | .performed t (.registry (.getPeer watcher)) _ => ∀ u pk, Remaining tr σ t u pk →
    σ.shared.registry.isOnline watcher = false
  | .performed u (.presence (.insert pk target)) _ => ∀ t targets, Remaining tr σ t u pk →
    clearing t tr = .unwatching targets → target ∉ targets
  | .performed u (.relay (.insertSession ..)) id => ∀ t pk ids, Remaining tr σ t u pk →
    clearing t tr = .removing ids → id ∉ ids
  | .performed u (.relay (.promote id _)) _ => ∀ t pk ids, Remaining tr σ t u pk →
    clearing t tr = .removing ids → id ∉ ids
  | _ => True

/-- What a cleanup has collected is not what a remaining session holds. -/
structure Unharmed (tr : List BrokerEvent) (t u : ℕ) (pk : String) : Prop where
  subscriptions : ∀ targets, clearing t tr = .unwatching targets →
    ∀ target ∈ targets, ¬ Requested u pk target tr
  relays : ∀ ids, clearing t tr = .removing ids → ∀ id ∈ ids, ¬ Acquired u id tr
  told : clearing t tr ≠ .telling true

section Invariant

variable {crates : Crates} {hasDb : Bool} {db₀ : Database.Db ℕ} {tr : List BrokerEvent}
  {σ σ' : BrokerConfig} {e : BrokerEvent} {t u : ℕ} {pk : String}

theorem stage_beforeInput (hu : stage u tr = .unregistered) :
    stage u (beforeInput t tr) = .unregistered := by
  induction tr with
  | nil => rfl
  | cons e tr ih =>
    cases e with
    | input v i =>
      simp only [beforeInput]
      split_ifs
      · exact hu
      · exact ih hu
    | disturbed x => exact ih hu
    | performed v o r =>
      refine ih ?_
      by_cases huv : u = v
      · subst huv
        rw [stage_performed_self] at hu
        by_cases ho : Unstaged o
        · rwa [stageNext_of_unstaged ho] at hu
        · cases o with
          | registry a =>
            cases a with
            | insertPeer peer => cases hu
            | removePeer pk' => cases hu
            | _ => exact absurd trivial ho
          | _ => exact absurd trivial ho
      · rwa [stage_performed_of_ne huv] at hu

/-- A session that stands in the registry after an operation stood there before, unless the
operation has put it there. -/
theorem stage_live_of_performed (hrun : Run (broker crates hasDb) (fresh db₀) tr σ) {v : ℕ} {o : Op}
    {r : Res o} (hstep : Step (broker crates hasDb) σ (.performed v o r) σ')
    (hu : stage u (.performed v o r :: tr) = .live pk) :
    stage u tr = .live pk ∨ stage u tr = .unregistered := by
  rcases hstep.cases with ⟨_, _, _, _, _, heq, -⟩ | ⟨v', c, o', k, env, r', s', heq, hv, -⟩ |
    ⟨_, _, heq, -⟩
  · cases heq
  · cases heq
    by_cases huv : u = v
    · subst huv
      rw [stage_performed_self] at hu
      have hok := stage_ok hrun hv
      by_cases ho : Unstaged o
      · rw [stageNext_of_unstaged ho] at hu
        exact Or.inl hu
      · cases o with
        | registry a =>
          cases a with
          | insertPeer peer => exact Or.inr hok.2.1
          | removePeer pk' => cases hu
          | _ => exact absurd trivial ho
        | _ => exact absurd trivial ho
    · rw [stage_performed_of_ne huv] at hu
      exact Or.inl hu
  · cases heq

theorem Remaining.of_step (h : Remaining (e :: tr) σ' t u pk)
    (hrun : Run (broker crates hasDb) (fresh db₀) tr σ)
    (hstep : Step (broker crates hasDb) σ e σ') (he : ∀ i, e ≠ .input t i) :
    Remaining tr σ t u pk := by
  have hlive := live_of_step hrun hstep u pk h.live
  have hbefore : stage u (beforeInput t tr) = .live pk := by
    have hb := h.before
    cases e with
    | input v i =>
      have hvt : v ≠ t := by
        rintro rfl
        exact he i rfl
      simpa only [beforeInput, if_neg hvt] using hb
    | _ => exact hb
  have hstage : stage u tr = .live pk := by
    cases e with
    | performed v o r =>
      rcases stage_live_of_performed hrun hstep h.live.1 with hu | hu
      · exact hu
      · rw [stage_beforeInput hu] at hbefore
        cases hbefore
    | _ => exact h.live.1
  refine ⟨h.other, ?_, hbefore, hstage, hlive⟩
  have hclosing := h.closing
  rcases hstep.cases with ⟨v, i, c, c', p, rfl, hw, hs, rfl⟩ |
    ⟨v, c, o, k, env, r, s', rfl, hv, hx, rfl⟩ | ⟨x, s', rfl, hx, rfl⟩
  · have htv : t ≠ v := by
      rintro rfl
      exact he i rfl
    simpa only [Function.update_of_ne htv] using hclosing
  · by_cases htv : t = v
    · subst htv
      rw [hv]
      simp only [Function.update_self] at hclosing
      cases hk : k r with
      | done a =>
        rw [hk] at hclosing
        cases c <;> cases a <;> cases hclosing
      | call o' k' =>
        rw [hk] at hclosing
        exact hclosing
    · simpa only [Function.update_of_ne htv] using hclosing
  · exact hclosing

theorem findSome_cons_eq_true {f : BrokerEvent → Option Bool}
    (h : (e :: tr).findSome? f = some true) : f e = some true ∨ tr.findSome? f = some true := by
  rw [List.findSome?_cons] at h
  cases he : f e with
  | some b =>
    rw [he] at h
    exact Or.inl h
  | none =>
    rw [he] at h
    exact Or.inr h

theorem requested_of_performed {v : ℕ} {o : Op} {r : Res o} {target : String}
    (h : Requested u pk target (.performed v o r :: tr)) :
    Requested u pk target tr ∨ v = u ∧ o = .presence (.insert pk target) := by
  rcases findSome_cons_eq_true h with hnow | hbefore
  · cases o with
    | presence a =>
      cases a with
      | insert subscriber target' =>
        simp only [subscriptionChange, Option.ite_none_right_eq_some] at hnow
        obtain ⟨⟨rfl, rfl, rfl⟩, -⟩ := hnow
        exact Or.inr ⟨rfl, rfl⟩
      | remove subscriber target' => simp [subscriptionChange] at hnow
      | take subscriber => simp [subscriptionChange] at hnow
      | _ => cases hnow
    | _ => cases hnow
  · exact Or.inl hbefore

theorem acquired_of_performed {v : ℕ} {o : Op} {r : Res o} {id : Uuid}
    (h : Acquired u id (.performed v o r :: tr)) :
    Acquired u id tr ∨ v = u ∧ ((∃ initiator responder, (.performed v o r : BrokerEvent) =
        .performed v (.relay (.insertSession initiator responder)) id) ∨
      ∃ responder, o = .relay (.promote id responder)) := by
  rcases findSome_cons_eq_true h with hnow | hbefore
  · cases o with
    | relay a =>
      cases a with
      | insertSession initiator responder =>
        simp only [relayChange, Option.ite_none_right_eq_some, Option.some.injEq,
          decide_eq_true_eq] at hnow
        obtain ⟨rfl, rfl⟩ := hnow
        exact Or.inr ⟨rfl, Or.inl ⟨initiator, responder, rfl⟩⟩
      | promote id' responder =>
        cases r with
        | ok initiator =>
          simp only [relayChange, Option.ite_none_right_eq_some] at hnow
          obtain ⟨⟨rfl, rfl⟩, -⟩ := hnow
          exact Or.inr ⟨rfl, Or.inr ⟨responder, rfl⟩⟩
        | error e => cases hnow
      | removeSession id' => simp [relayChange] at hnow
      | _ => cases hnow
    | _ => cases hnow
  · exact Or.inl hbefore

/-- An operation of another task: the remaining session asks for nothing that is being cleared. -/
theorem Unharmed.of_other (h : Unharmed tr t u pk) (hrem : Remaining tr σ t u pk) {v : ℕ} {o : Op}
    {r : Res o} (hvt : t ≠ v) (hguard : NothingAtStake tr σ (.performed v o r)) :
    Unharmed (.performed v o r :: tr) t u pk := by
  have hsame : clearing t (.performed v o r :: tr) = clearing t tr :=
    clearing_performed_of_ne hvt o r tr
  constructor
  · intro targets hc target hmem hreq
    rw [hsame] at hc
    rcases requested_of_performed hreq with hreq | ⟨rfl, rfl⟩
    · exact h.subscriptions targets hc target hmem hreq
    · exact hguard t targets hrem hc hmem
  · intro ids hc id hmem hacq
    rw [hsame] at hc
    rcases acquired_of_performed hacq with hacq | ⟨rfl, ⟨initiator, responder, heq⟩ |
      ⟨responder, rfl⟩⟩
    · exact h.relays ids hc id hmem hacq
    · cases heq
      exact hguard t pk ids hrem hc hmem
    · exact hguard t pk ids hrem hc hmem
  · rw [hsame]
    exact h.told

theorem clearNext_cases (l : Clearing) (t : ℕ) (o : Op) (r : Res o) :
    clearNext l o r = l ∨ clearNext l o r = .removed ∨ clearNext l o r = .telling false ∨
    (∃ targets, l = .unwatching targets ∧ clearNext l o r = .unwatching targets.tail) ∨
    (∃ ids, l = .removing ids ∧ clearNext l o r = .removing ids.tail) ∨
    (∃ s targets, (.performed t o r : BrokerEvent) =
      .performed t (.presence (.take s)) (some targets) ∧ clearNext l o r = .unwatching targets) ∨
    (∃ s ids, (.performed t o r : BrokerEvent) = .performed t (.relay (.stale s)) ids ∧
      clearNext l o r = .removing ids) ∨
    ∃ w peer, (.performed t o r : BrokerEvent) =
      .performed t (.registry (.getPeer w)) (some peer) ∧ clearNext l o r = .telling true := by
  by_cases hl : l = .idle
  · subst hl
    by_cases ho : ∃ pk, o = .registry (.removePeer pk)
    · obtain ⟨pk, rfl⟩ := ho
      exact Or.inr (Or.inl rfl)
    · refine Or.inl ?_
      cases o with
      | registry a =>
        cases a with
        | removePeer pk => exact absurd ⟨pk, rfl⟩ ho
        | _ => rfl
      | _ => rfl
  · rw [clearNext_of_begun hl]
    cases o with
    | registry a =>
      cases a with
      | getPeer w =>
        cases r with
        | none => exact Or.inr (Or.inr (Or.inl rfl))
        | some peer =>
          exact Or.inr (Or.inr (Or.inr (Or.inr (Or.inr (Or.inr (Or.inr ⟨w, peer, rfl, rfl⟩))))))
      | _ => exact Or.inl rfl
    | presence a =>
      cases a with
      | take s =>
        cases r with
        | none => exact Or.inl rfl
        | some targets =>
          exact Or.inr (Or.inr (Or.inr (Or.inr (Or.inr (Or.inl ⟨s, targets, rfl, rfl⟩)))))
      | unwatch target s =>
        cases l with
        | unwatching targets =>
          cases r with
          | false => exact Or.inr (Or.inr (Or.inr (Or.inl ⟨targets, rfl, rfl⟩)))
          | true => exact Or.inl rfl
        | _ => exact Or.inl rfl
      | dropWatchers target =>
        cases l with
        | unwatching targets => exact Or.inr (Or.inr (Or.inr (Or.inl ⟨targets, rfl, rfl⟩)))
        | _ => exact Or.inl rfl
      | watchers target => exact Or.inr (Or.inr (Or.inl rfl))
      | _ => exact Or.inl rfl
    | relay a =>
      cases a with
      | stale s =>
        exact Or.inr (Or.inr (Or.inr (Or.inr (Or.inr (Or.inr (Or.inl ⟨s, r, rfl, rfl⟩))))))
      | removeSession id =>
        cases l with
        | removing ids => exact Or.inr (Or.inr (Or.inr (Or.inr (Or.inl ⟨ids, rfl, rfl⟩))))
        | _ => exact Or.inl rfl
      | _ => exact Or.inl rfl
    | _ => exact Or.inl rfl

theorem Unharmed.of_own (h : Unharmed tr t u pk) (hut : u ≠ t) {o : Op} {r : Res o}
    (htake : ∀ s targets, (.performed t o r : BrokerEvent) =
      .performed t (.presence (.take s)) (some targets) →
      ∀ target ∈ targets, ¬ Requested u pk target tr)
    (hstale : ∀ s ids, (.performed t o r : BrokerEvent) = .performed t (.relay (.stale s)) ids →
      ∀ id ∈ ids, ¬ Acquired u id tr)
    (hget : ∀ w peer, (.performed t o r : BrokerEvent) ≠
      .performed t (.registry (.getPeer w)) (some peer)) :
    Unharmed (.performed t o r :: tr) t u pk := by
  have hreq : ∀ {target}, Requested u pk target (.performed t o r :: tr) →
      Requested u pk target tr := by
    intro target hr
    rcases requested_of_performed hr with hr | ⟨heq, -⟩
    · exact hr
    · exact absurd heq.symm hut
  have hacq : ∀ {id}, Acquired u id (.performed t o r :: tr) → Acquired u id tr := by
    intro id hr
    rcases acquired_of_performed hr with hr | ⟨heq, -⟩
    · exact hr
    · exact absurd heq.symm hut
  have hnow := clearing_performed t o r tr
  rcases clearNext_cases (clearing t tr) t o r with hc | hc | hc | ⟨targets, hold, hc⟩ |
    ⟨ids, hold, hc⟩ | ⟨s, targets, heq, hc⟩ | ⟨s, ids, heq, hc⟩ | ⟨w, peer, heq, -⟩
  · rw [hc] at hnow
    constructor
    · intro targets ht target hmem hr
      exact h.subscriptions targets (hnow ▸ ht) target hmem (hreq hr)
    · intro ids ht id hmem hr
      exact h.relays ids (hnow ▸ ht) id hmem (hacq hr)
    · rw [hnow]
      exact h.told
  · rw [hc] at hnow
    constructor <;> rw [hnow] <;> exact nofun
  · rw [hc] at hnow
    constructor <;> rw [hnow] <;> exact nofun
  · rw [hc] at hnow
    constructor
    · intro targets' ht target hmem hr
      rw [hnow] at ht
      cases ht
      exact h.subscriptions targets hold target (List.mem_of_mem_tail hmem) (hreq hr)
    · rw [hnow]
      exact nofun
    · rw [hnow]
      exact nofun
  · rw [hc] at hnow
    constructor
    · rw [hnow]
      exact nofun
    · intro ids' ht id hmem hr
      rw [hnow] at ht
      cases ht
      exact h.relays ids hold id (List.mem_of_mem_tail hmem) (hacq hr)
    · rw [hnow]
      exact nofun
  · rw [hc] at hnow
    constructor
    · intro targets' ht target hmem hr
      rw [hnow] at ht
      cases ht
      exact htake s targets heq target hmem (hreq hr)
    · rw [hnow]
      exact nofun
    · rw [hnow]
      exact nofun
  · rw [hc] at hnow
    constructor
    · rw [hnow]
      exact nofun
    · intro ids' ht id hmem hr
      rw [hnow] at ht
      cases ht
      exact hstale s ids heq id hmem (hacq hr)
    · rw [hnow]
      exact nofun
  · exact absurd heq (hget w peer)

theorem Unharmed.of_idle (h : clearing t tr = .idle) : Unharmed tr t u pk := by
  constructor <;> rw [h] <;> exact nofun

theorem Unharmed.of_cleanup (h : Unharmed tr t u pk)
    (hrun : Run (broker crates hasDb) (fresh db₀) tr σ) (hrem : Remaining tr σ t u pk) {c : Phase}
    {o : Op} {r : Res o} {k : Res o → Work Outcome} {env : Env} {b' : Broker}
    (ht : σ.tasks t = .running c (.call o k))
    (hx : Broker.exec crates t o env σ.shared = some (r, b'))
    (hguard : NothingAtStake tr σ (.performed t o r)) :
    Unharmed (.performed t o r :: tr) t u pk := by
  have hclosing := hrem.closing
  rw [ht] at hclosing
  obtain rfl : c = .closing pk := hclosing
  have hop : CleanupOp pk o := permitted hrun ht
  refine h.of_own hrem.other ?_ ?_ ?_
  · intro s targets heq target hmem
    cases heq
    obtain rfl : s = pk := hop
    obtain ⟨pm, hpm, -⟩ := Broker.exec_presence hx
    exact hguard u hrem target ((PresenceIndexes.take_answer hpm target).mp hmem)
  · intro s ids heq id hmem
    cases heq
    obtain rfl : s = pk := hop
    obtain ⟨rm, hrm, -⟩ := Broker.exec_relay hx
    obtain ⟨hperm, -⟩ := Relay.RelayManager.exec_stale hrm
    exact hguard u hrem id (hperm.mem_iff.mp hmem)
  · intro w peer heq
    cases heq
    have hoffline := hguard u pk hrem
    have hlookup : σ.shared.registry.byPubkey.lookup w = some peer :=
      congrArg Prod.fst (Option.some.inj hx)
    rw [Registry.PeerRegistry.isOnline, hlookup] at hoffline
    cases hoffline

/-- No cleanup has collected what a remaining session holds. -/
theorem unharmed_of_remaining
    (h : GuardedRun (broker crates hasDb) NothingAtStake (fresh db₀) tr σ)
    (hrem : Remaining tr σ t u pk) : Unharmed tr t u pk := by
  revert t u pk
  refine h.invariant (I := fun tr σ => ∀ {t u pk}, Remaining tr σ t u pk → Unharmed tr t u pk) ?_ ?_
  · intro t u pk hrem
    cases hrem.closing
  · intro tr σ e σ' hrun hinv hstep hguard t u pk hrem
    have hback := hrem.of_step hrun.run hstep
    rcases hstep.cases with ⟨v, i, c, c', p, rfl, hw, hs, rfl⟩ |
      ⟨v, c, o, k, env, r, s', rfl, hv, hx, rfl⟩ | ⟨x, s', rfl, hx, rfl⟩
    · by_cases htv : v = t
      · subst htv
        refine Unharmed.of_idle ?_
        rcases (clears hrun.run).1 v c hw with rfl | hidle
        · cases hs
        · exact hidle
      · have hold := hinv (hback fun i' heq => by cases heq; exact htv rfl)
        exact ⟨hold.subscriptions, hold.relays, hold.told⟩
    · have hrem' := hback nofun
      by_cases htv : t = v
      · subst htv
        exact (hinv hrem').of_cleanup hrun.run hrem' hv hx hguard
      · exact (hinv hrem').of_other hrem' htv hguard
    · have hold := hinv (hback nofun)
      exact ⟨hold.subscriptions, hold.relays, hold.told⟩

theorem Spared.of_frame {b b' : Broker} (hp : b'.presence = b.presence) (hr : b'.relay = b.relay)
    (hc : b'.channels = b.channels) : Spared tr u pk b b' := by
  constructor
  · intro target _
    rw [hp]
    exact ⟨Iff.rfl, Iff.rfl⟩
  · intro id _
    rw [hr]
  · intro c
    rw [hc]

theorem Spared.of_presence {b b' : Broker} {a : Presence.Access} {r : a.Result} {env : Env}
    (h : Unharmed tr t u pk) (hok : Clears (clearing t tr) (.presence a))
    (hop : CleanupOp pk (.presence a))
    (hx : Broker.exec crates t (.presence a) env b = some (r, b'))
    (htake : a = .take pk → ∀ target ∈ b.presence.targets pk, ¬ Requested u pk target tr) :
    Spared tr u pk b b' := by
  obtain ⟨pm, hpm, rfl⟩ := Broker.exec_presence hx
  refine ⟨fun target hreq => ?_, fun _ _ => rfl, fun _ => rfl⟩
  have htargets := Presence.PresenceManager.targets_exec hpm pk
  have hwatching := Presence.PresenceManager.watching_exec hpm target
  simp only [Broker.withPresence]
  rw [htargets, hwatching]
  -- the target of the operation is one that the cleanup has collected
  have hcollected : ∀ {target'}, (∃ targets, clearing t tr = .unwatching (target' :: targets)) →
      target ≠ target' := by
    rintro target' ⟨targets, hc⟩ rfl
    exact h.subscriptions _ hc target List.mem_cons_self hreq
  cases a with
  | take subscriber =>
    obtain rfl : subscriber = pk := hop
    have hnot : target ∉ b.presence.targets subscriber :=
      fun hmem => htake rfl target hmem hreq
    simp [hnot]
  | unwatch target' subscriber => simp [hcollected hok]
  | dropWatchers target' => simp [hcollected hok]
  | watchers target' => simp
  | _ => exact hop.elim

theorem Spared.of_relay {b b' : Broker} {a : Relay.Access} {r : a.Result} {env : Env}
    (h : Unharmed tr t u pk) (hok : Clears (clearing t tr) (.relay a))
    (hop : CleanupOp pk (.relay a))
    (hx : Broker.exec crates t (.relay a) env b = some (r, b')) : Spared tr u pk b b' := by
  obtain ⟨rm, hrm, rfl⟩ := Broker.exec_relay hx
  refine ⟨fun _ _ => ⟨Iff.rfl, Iff.rfl⟩, fun id hacq => ?_, fun _ => rfl⟩
  cases a with
  | stale s =>
    obtain ⟨-, rfl⟩ := Relay.RelayManager.exec_stale hrm
    rfl
  | removeSession id' =>
    cases hrm
    obtain ⟨ids, hc⟩ := hok
    have hne : id ≠ id' := by
      rintro rfl
      exact h.relays _ hc id List.mem_cons_self hacq
    simp only [Broker.withRelay, lookup_erase_ite, if_neg hne]
  | _ => exact hop.elim

theorem spared_of_step (h : GuardedRun (broker crates hasDb) NothingAtStake (fresh db₀) tr σ)
    {o : Op} {r : Res o} (hstep : Step (broker crates hasDb) σ (.performed t o r) σ')
    (hguard : NothingAtStake tr σ (.performed t o r)) (hrem : Remaining tr σ t u pk) :
    Spared tr u pk σ.shared σ'.shared := by
  have hunharmed := unharmed_of_remaining h hrem
  rcases hstep.cases with ⟨_, _, _, _, _, heq, -⟩ | ⟨t', c, o', k, env, r', s', heq, ht, hx, rfl⟩ |
    ⟨_, _, heq, -⟩
  · cases heq
  · cases heq
    have hclosing := hrem.closing
    rw [ht] at hclosing
    obtain rfl : c = .closing pk := hclosing
    have hop : CleanupOp pk o := permitted h.run ht
    have hok := clears_ok h.run ht
    have hx' : Broker.exec crates t o env σ.shared = some (r, s') := hx
    have hframe := Broker.exec_frame hx'
    cases o with
    | presence a =>
      refine Spared.of_presence hunharmed hok hop hx' ?_
      rintro rfl
      exact hguard u hrem
    | relay a => exact Spared.of_relay hunharmed hok hop hx'
    | send c msg => exact absurd hok hunharmed.told
    | registry a =>
      exact .of_frame (hframe.presence (by simp)) (hframe.relay (by simp)) (hframe.channels (by simp))
    | metric update =>
      exact .of_frame (hframe.presence (by simp)) (hframe.relay (by simp)) (hframe.channels (by simp))
    | _ => exact hop.elim
  · cases heq

/-- In every run in which the remaining sessions of a key have nothing at stake, each operation of
the cleanup of another session of the key spares them. -/
theorem closing_spares_remaining
    (h : GuardedRun (broker crates hasDb) NothingAtStake (fresh db₀) tr σ) :
    GuardedRun (broker crates hasDb) (SparesRemaining crates hasDb) (fresh db₀) tr σ := by
  refine h.weaken fun {tr σ e σ'} hrun _ hguard => ?_
  rintro t o r u pk σ' rfl hstep hrem
  exact spared_of_step hrun hstep hguard hrem

end Invariant

/-! ## Two sessions of one key, of which the first closes -/

open Scripts Crates

/-- The condition, tested where the closing session finds nothing at all. -/
def nothingAtStakeTest (tr : List BrokerEvent) (σ : BrokerConfig) : BrokerEvent → Bool
  | .performed _ (.presence (.take pk)) _ => decide (σ.shared.presence.targets pk = ∅)
  | .performed _ (.relay (.stale pk)) _ => (σ.shared.relay.sessionsOf pk).isEmpty
  | .performed _ (.registry (.getPeer watcher)) _ => !σ.shared.registry.isOnline watcher
  | .performed _ (.presence (.insert ..)) _ => (List.range 2).all fun t =>
    match clearing t tr with
    | .unwatching _ => false
    | _ => true
  | .performed _ (.relay (.insertSession ..)) _ => false
  | .performed _ (.relay (.promote ..)) _ => false
  | _ => true

theorem nothingAtStakeTest_sound (tr : List BrokerEvent) (σ : BrokerConfig) (e : BrokerEvent)
    (habsent : ∀ t, 2 ≤ t → σ.tasks t = .waiting .absent)
    (h : nothingAtStakeTest tr σ e = true) : NothingAtStake tr σ e := by
  cases e with
  | input t i => trivial
  | disturbed x => trivial
  | performed v o r =>
    cases o with
    | presence a =>
      cases a with
      | take pk =>
        intro u _ target hmem
        rw [of_decide_eq_true h] at hmem
        exact absurd hmem (Finset.notMem_empty target)
      | insert pk target =>
        intro t targets hrem hc
        have ht : t < 2 := by
          by_contra hge
          have hclosing := hrem.closing
          rw [habsent t (by omega)] at hclosing
          cases hclosing
        have htest := List.all_eq_true.mp h t (List.mem_range.mpr ht)
        simp [hc] at htest
      | _ => trivial
    | relay a =>
      cases a with
      | stale pk =>
        intro u _ id hmem
        rw [List.isEmpty_iff.mp h] at hmem
        cases hmem
      | insertSession initiator responder => cases h
      | promote id responder => cases h
      | _ => trivial
    | registry a =>
      cases a with
      | getPeer watcher =>
        intro u pk _
        simpa [nothingAtStakeTest] using h
      | _ => trivial
    | _ => trivial

def isLive (pk : String) : Stage → Bool
  | .live pk' => pk' = pk
  | _ => false

def isClosing (pk : String) : Phase → Bool
  | .closing pk' => pk' = pk
  | _ => false

def remains (tr : List BrokerEvent) (σ : BrokerConfig) (t u : ℕ) (pk : String) : Bool :=
  decide (u ≠ t) && isClosing pk (σ.tasks t).ctl && isLive pk (stage u (beforeInput t tr)) &&
    isPumping pk (σ.tasks u).ctl

theorem remaining_of_remains {crates : Crates} {hasDb : Bool} {db₀ : Database.Db ℕ}
    {tr : List BrokerEvent} {σ : BrokerConfig} {t u : ℕ} {pk : String}
    (hrun : Run (broker crates hasDb) (fresh db₀) tr σ) (h : remains tr σ t u pk = true) :
    Remaining tr σ t u pk := by
  simp only [remains, Bool.and_eq_true, decide_eq_true_eq] at h
  obtain ⟨⟨⟨hne, hclosing⟩, hbefore⟩, hpumping⟩ := h
  refine ⟨hne, ?_, ?_, pumping_live hrun (pumping_of_isPumping hpumping)⟩
  · unfold isClosing at hclosing
    split at hclosing
    · rename_i pk' heq
      rw [heq, of_decide_eq_true hclosing]
    · cases hclosing
  · unfold isLive at hbefore
    split at hbefore
    · rename_i pk' heq
      rw [heq, of_decide_eq_true hbefore]
    · cases hbefore

def subscribes : List Cue :=
  .say 1 'a' (.subscribePresence (keyText 'a') [keyText 'b'] 0 (signatureText 'a') none) ::
    steps 1 8 calm

/-- The second session subscribes when the first has taken the subscriptions of the key. -/
def spared : List Cue :=
  joins 0 'a' ++ joins 1 'a' ++ [.leave 0] ++ steps 0 3 calm ++ subscribes ++ steps 0 1 calm

def held (x : List BrokerEvent × BrokerConfig) : Bool × Bool × Bool :=
  (remains x.1 x.2 0 1 (keyText 'a'), decide (Requested 1 (keyText 'a') (keyText 'b') x.1),
    decide (keyText 'b' ∈ x.2.shared.presence.targets (keyText 'a')))

theorem spared_held :
    (play false nothingAtStakeTest spared [] (fresh DatabaseCalls.emptyDb)).map held =
      some (true, true, true) := by
  decide +kernel

theorem late_subscription_spared : ∃ tr σ,
    Remaining tr σ 0 1 (keyText 'a') ∧ Requested 1 (keyText 'a') (keyText 'b') tr ∧
      keyText 'b' ∈ σ.shared.presence.targets (keyText 'a') ∧
      GuardedRun (broker demo false) (SparesRemaining demo false) (fresh DatabaseCalls.emptyDb)
        tr σ := by
  obtain ⟨⟨tr, σ⟩, hp, heq⟩ := Option.map_eq_some_iff.mp spared_held
  simp only [held, Prod.mk.injEq, decide_eq_true_eq] at heq
  obtain ⟨hremains, hrequested, htarget⟩ := heq
  have hrun := (guardedRun_of_play_among false nothingAtStakeTest_sound (by decide) .start
    (fun _ _ => rfl) hp).1
  exact ⟨tr, σ, remaining_of_remains hrun.run hremains, hrequested, htarget,
    closing_spares_remaining hrun⟩

/-- The second session has subscribed its key, and the first is about to take the subscriptions. -/
def harmed : List Cue := joins 0 'a' ++ joins 1 'a' ++ subscribes ++ [.leave 0] ++ steps 0 2 calm

def taking : Cue := .perform 0 { calm with order := [keyText 'b'] }

theorem harmed_held :
    ((play false (fun _ _ _ => true) harmed [] (fresh DatabaseCalls.emptyDb)).bind fun x =>
      (cue false x.2 taking).map fun y =>
        (held x, decide (keyText 'b' ∈ y.2.shared.presence.targets (keyText 'a')))) =
      some ((true, true, true), false) := by
  decide +kernel

/-- The cleanup of the first session takes away the subscription of the second. -/
theorem closing_takes_subscription : ∃ tr σ e,
    Run (broker demo false) (fresh DatabaseCalls.emptyDb) tr σ ∧
      ¬ SparesRemaining demo false tr σ e := by
  obtain ⟨⟨tr, σ⟩, hp, hcue⟩ := Option.bind_eq_some_iff.mp harmed_held
  obtain ⟨⟨e, σ'⟩, hc, heq⟩ := Option.map_eq_some_iff.mp hcue
  simp only [held, Prod.mk.injEq, decide_eq_true_eq, decide_eq_false_iff_not] at heq
  obtain ⟨⟨hremains, hrequested, htarget⟩, hgone⟩ := heq
  have hrun := run_of_play false hp
  have hrem := remaining_of_remains hrun hremains
  refine ⟨tr, σ, e, hrun, fun hspares => ?_⟩
  have hstep := step_of_cue false hc
  obtain ⟨o, r, rfl⟩ : ∃ o r, e = .performed 0 o r := by
    simp only [cue, taking, act] at hc
    split at hc
    · obtain ⟨y, -, hy⟩ := Option.map_eq_some_iff.mp hc
      cases hy
      exact ⟨_, _, rfl⟩
    · cases hc
  have hspared := hspares 0 o r 1 (keyText 'a') σ' rfl hstep hrem
  exact hgone ((hspared.subscriptions (keyText 'b') hrequested).1.mpr htarget)

end HashedBroker.SharedKeys
