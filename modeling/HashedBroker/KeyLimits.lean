import HashedBroker.Authentication
import HashedBroker.Scripts

/-!
# Limits by key

What a peer may use is kept under the text it registered with: the quota of its relayed bytes, the
limiter of its signals, its handle, its place on rosters. Authentication takes several texts for one
key. The limits are limits of a key as long as all sessions of the key spell it alike, and as long as
neither a limiter nor a handle is inserted beside another one.
-/
namespace HashedBroker.KeyLimits
open KeyedTables AtomicPrograms ReactiveTasks Protocol Database Server Sessions SessionTransactions
  Authentication RegistryLiveness

/-- The text is a spelling of the key. -/
def Spells (crates : Crates) (k : VerifyingKey) (s : String) : Prop :=
  Auth.parsePubkey crates s = .ok k

def firstFrame (t : ℕ) : List BrokerEvent → Option (Frame × UnixTime)
  | [] => none
  | .input u (.frame f now) :: tr =>
    (firstFrame t tr).or (if u = t then some (f, now) else none)
  | _ :: tr => firstFrame t tr

/-- The first frame of the connection registers it under the text. -/
def RegistersAs (crates : Crates) (tr : List BrokerEvent) (t : ℕ) (s : String) : Prop :=
  ∃ f now text msg, firstFrame t tr = some (f, now) ∧ f.payload = some text ∧
    authenticateRegister crates now text = .ok msg ∧ msg.pubkey = s

/-! ## Who registers under a text -/

section Registering

variable {crates : Crates} {hasDb : Bool} {db₀ : Db ℕ} {tr tr' : List BrokerEvent} {σ : BrokerConfig}
  {t : ℕ} {s : String}

theorem firstFrame_cons {x : Frame × UnixTime} (h : firstFrame t tr = some x) (e : BrokerEvent) :
    firstFrame t (e :: tr) = some x := by
  cases e with
  | input u i =>
    cases i with
    | connect addr => exact h
    | frame f now => rw [firstFrame, h, Option.some_or]
  | _ => exact h

theorem firstFrame_append {x : Frame × UnixTime} (h : firstFrame t tr = some x)
    (tr' : List BrokerEvent) : firstFrame t (tr' ++ tr) = some x := by
  induction tr' with
  | nil => exact h
  | cons e tr' ih => exact firstFrame_cons ih e

theorem RegistersAs.append (h : RegistersAs crates tr t s) (tr' : List BrokerEvent) :
    RegistersAs crates (tr' ++ tr) t s := by
  obtain ⟨f, now, text, msg, hfirst, hrest⟩ := h
  exact ⟨f, now, text, msg, firstFrame_append hfirst tr', hrest⟩

theorem firstFrame_input_of_ne {u : ℕ} (hu : u ≠ t) (i : Input) :
    firstFrame t (.input u i :: tr) = firstFrame t tr := by
  cases i with
  | connect addr => rfl
  | frame f now => rw [firstFrame, if_neg hu, Option.or_none]

/-- What a phase says about the first frame. -/
def Agrees (x : Option (Frame × UnixTime)) : Phase → Prop
  | .absent | .connected _ => x = none
  | .registering _ text now => ∃ f, x = some (f, now) ∧ f.payload = text
  | _ => True

theorem Agrees.settle {x : Option (Frame × UnixTime)} {c : Phase} (h : Agrees x c)
    (p : Work Outcome) : Agrees x (settle (broker crates hasDb) c p).ctl := by
  cases p with
  | call o k => exact h
  | done a =>
    cases c with
    | registering addr text now => cases a <;> trivial
    | _ => exact h

theorem agrees_of_start {c c' : Phase} {i : Input} {p : Work Outcome}
    (h : Agrees (firstFrame t tr) c) (hs : start crates hasDb t c i = some (c', p)) :
    Agrees (firstFrame t (.input t i :: tr)) c' := by
  cases start_cases hs with
  | connects addr => exact h
  | registers addr f now =>
    have hnone : firstFrame t tr = none := h
    exact ⟨f, by rw [firstFrame, hnone, if_pos rfl, Option.none_or], rfl⟩
  | handles pk text f now hf => trivial
  | stays pk f now hf => trivial
  | closes pk f now hf => trivial

theorem firstFrame_agrees (h : Run (broker crates hasDb) (fresh db₀) tr σ) (t : ℕ) :
    Agrees (firstFrame t tr) (σ.tasks t).ctl := by
  induction h with
  | start => exact rfl
  | @step tr σ σ' e prior next ih =>
    rcases next.cases with ⟨u, i, c, c', p, rfl, hw, hs, rfl⟩ |
      ⟨u, c, o, k, env, a, s', rfl, hu, hx, rfl⟩ | ⟨x, s', rfl, hx, rfl⟩
    · by_cases hut : u = t
      · subst hut
        rw [hw] at ih
        simp only [Function.update_self]
        exact (agrees_of_start ih hs).settle p
      · simp only [Function.update_of_ne (Ne.symm hut)]
        rw [firstFrame_input_of_ne hut]
        exact ih
    · by_cases hut : u = t
      · subst hut
        rw [hu] at ih
        simp only [Function.update_self]
        exact Agrees.settle ih _
      · simp only [Function.update_of_ne (Ne.symm hut)]
        exact ih
    · exact ih

theorem registersAs_of_acting (h : Run (broker crates hasDb) (fresh db₀) tr σ) {c : Phase}
    {p : Work Outcome} (ht : σ.tasks t = .running c p) (hc : Acting crates c s) :
    RegistersAs crates tr t s := by
  have hregistering : ∀ {tr σ addr text now}, Run (broker crates hasDb) (fresh db₀) tr σ →
      (σ.tasks t).ctl = .registering addr text now →
      Acting crates (.registering addr text now) s → RegistersAs crates tr t s := by
    rintro tr σ addr text now h hctl ⟨text', msg, rfl, hauth, hpk⟩
    have hagrees := firstFrame_agrees h t
    rw [hctl] at hagrees
    obtain ⟨f, hfirst, hpayload⟩ := hagrees
    exact ⟨f, now, text', msg, hfirst, hpayload, hauth, hpk⟩
  have hctl : (σ.tasks t).ctl = c := by
    rw [ht]
    rfl
  cases c with
  | registering addr text now => exact hregistering h hctl hc
  | handling pk text now =>
    obtain ⟨rfl, -⟩ := hc
    have hlive := stage_agrees h t
    rw [hctl] at hlive
    obtain ⟨peer, r, rfl, hmem⟩ := inserted_of_live hlive
    -- it entered the registry while it was registering
    obtain ⟨tr₂, tr₁, rfl⟩ := List.append_of_mem hmem
    obtain ⟨σ₁, c₁, k₁, env, s', h₁, ht₁, -⟩ := performed_split h
    have hpermitted := permitted h₁ ht₁
    rcases acting_of_subject hpermitted rfl with hacting | ⟨rfl, a, ha, -⟩
    · have hctl₁ : (σ₁.tasks t).ctl = c₁ := by
        rw [ht₁]
        rfl
      cases c₁ with
      | registering addr text now =>
        have hregisters := (hregistering h₁ hctl₁ hacting).append
          (tr₂ ++ [.performed t (.registry (.insertPeer peer)) r])
        simpa using hregisters
      | handling pk text now =>
        rcases hpermitted with ⟨msg, -, -, hled⟩ | ⟨-, code, message, requestId, ho⟩
        · exact hled.elim
        · cases ho
      | _ => exact hacting.elim
    · cases ha
  | _ => exact hc.elim

theorem registersAs_of_performed (h : Run (broker crates hasDb) (fresh db₀) tr σ) {o : Op} {r : Res o}
    (hmem : Event.performed t o r ∈ tr) (hs : subject o = some s) (ho : ∀ a, o ≠ .presence a) :
    RegistersAs crates tr t s := by
  obtain ⟨tr₂, tr₁, rfl⟩ := List.append_of_mem hmem
  obtain ⟨σ₁, c₁, k₁, env, s', h₁, ht₁, -⟩ := performed_split h
  rcases acting_of_subject (permitted h₁ ht₁) hs with hacting | ⟨-, a, ha, -⟩
  · have hregisters := (registersAs_of_acting h₁ ht₁ hacting).append (tr₂ ++ [.performed t o r])
    simpa using hregisters
  · exact absurd ha (ho a)

end Registering

/-! ## The limiter of a text -/

/-- A limiter is asked that the task has been told of since its frame. -/
def Told (hist : Prog.History Op Res) (o : Op) : Prop :=
  ∀ pk n, o = .signaling (.check pk n) →
    (⟨.signaling (.get pk), some n⟩ : Σ o : Op, Res o) ∈ hist ∨
      (⟨.signaling (.insert pk), n⟩ : Σ o : Op, Res o) ∈ hist

def AsksNone (o : Op) : Prop := ∀ pk n, o ≠ .signaling (.check pk n)

/-- Neither a limiter nor a handle is inserted beside one of the same text. -/
structure Unraced (_ : List BrokerEvent) (σ : BrokerConfig) (e : BrokerEvent) : Prop where
  limiter : ∀ t pk n, e = .performed t (.signaling (.insert pk)) n →
    σ.shared.signaling.map.lookup pk = none
  handle : ∀ t handle pk rows, e = .performed t (.query (.insertHandle handle pk)) (.ok rows) →
    HandleClaims.KeyUnclaimed σ.shared.db t pk

section Limiters

variable {crates : Crates} {hasDb : Bool} {db₀ : Db ℕ} {tr : List BrokerEvent} {σ : BrokerConfig}
  {t : ℕ} {α : Type}

theorem told_of_none {hist : Prog.History Op Res} {o : Op} (ho : AsksNone o) : Told hist o :=
  fun pk n he => absurd he (ho pk n)

theorem check_told (pk : String) : (signaling (Signaling.check pk)).Justified Told [] := by
  refine ⟨told_of_none nofun, fun found => ?_⟩
  cases found with
  | some n =>
    refine ⟨?_, fun _ => trivial⟩
    intro pk' n' he
    cases he
    exact Or.inl List.mem_cons_self
  | none =>
    refine ⟨told_of_none nofun, fun n => ⟨?_, fun _ => trivial⟩⟩
    intro pk' n' he
    cases he
    exact Or.inr List.mem_cons_self

theorem relaySignal_told (pk recipient payload : String) :
    (relaySignal crates pk recipient payload).run.Justified Told [] := by
  rw [relaySignal, run_attempt_bind]
  refine (check_told pk).bind fun hist x => ?_
  cases x with
  | error e => trivial
  | ok a =>
    refine Prog.Always.justified (Q := AsksNone) (fun _ _ ho => told_of_none ho) ?_
    refine always_require_bind fun len _ => ?_
    refine always_require_bind fun _ _ => ?_
    refine always_lift_bind (get_always _ nofun) fun peer => ?_
    refine always_orElse_bind fun recipient _ => ?_
    refine always_lift_bind ((always_perform _).mpr nofun) fun timestamp => ?_
    exact always_trySend nofun

theorem dispatch_told (pk : String) (msg : ClientMessage) :
    (dispatch crates hasDb t pk msg).run.Justified Told [] := by
  by_cases htag : msg.tag = "signal"
  · cases msg with
    | signal sender recipient payload timestamp signature requestId =>
      refine (relaySignal_told pk recipient payload).bind fun hist x => ?_
      cases x with
      | ok u => exact ⟨told_of_none nofun, fun _ => trivial⟩
      | error e => exact ⟨told_of_none nofun, fun _ => trivial⟩
    | _ => simp [ClientMessage.tag] at htag
  · refine (dispatch_always crates hasDb t pk msg).justified fun hist o ho => told_of_none ?_
    rintro pk' n rfl
    exact htag ho.2

theorem start_told {c c' : Phase} {i : Input} {p : Work Outcome}
    (hs : start crates hasDb t c i = some (c', p)) : p.Justified Told [] := by
  refine start_justified (J := fun _ => Told) ?_ ?_ ?_ hs
  · intro pk text now msg _
    exact dispatch_told pk msg
  · intro c hist o hc ho
    apply told_of_none
    rintro pk n rfl
    cases c with
    | registering addr text now =>
      rcases ho with ⟨s, msg, -, -, ho⟩ | ⟨-, code, message, requestId, ho⟩
      · exact ho
      · cases ho
    | handling pk text now => exact hc pk text now rfl
    | closing pk => exact ho
    | _ => exact ho
  · intro c hist e requestId
    exact told_of_none nofun

def TellsOf (e : BrokerEvent) (n : ℕ) : Prop :=
  ∃ t pk, e = .performed t (.signaling (.get pk)) (some n) ∨
    e = .performed t (.signaling (.insert pk)) n

/-- Every text has had its first limiter only. -/
structure FirstOnly (tr : List BrokerEvent) (σ : BrokerConfig) : Prop where
  current : ∀ pk n, σ.shared.signaling.map.lookup pk = some n → n = 0
  told : ∀ e ∈ tr, ∀ n, TellsOf e n → n = 0

theorem firstOnly_of_run (h : GuardedRun (broker crates hasDb) Unraced (fresh db₀) tr σ) :
    FirstOnly tr σ := by
  have hfresh : FirstOnly [] (fresh db₀) := by
    constructor
    · intro pk n hn
      cases hn
    · intro e he
      cases he
  refine h.invariant (I := FirstOnly) hfresh ?_
  intro tr σ e σ' hrun ih hs hguard
  -- events that tell of nothing new
  have hsame : σ'.shared.signaling.map = σ.shared.signaling.map →
      (∀ n, TellsOf e n → n = 0) → FirstOnly (e :: tr) σ' := by
    intro hmap htells
    refine ⟨fun pk n hn => ih.current pk n (hmap ▸ hn), fun e' he' n hn => ?_⟩
    rcases List.mem_cons.mp he' with rfl | he'
    · exact htells n hn
    · exact ih.told e' he' n hn
  rcases hs.cases with ⟨t, i, c, c', p, rfl, hw, hstart, rfl⟩ |
    ⟨t, c, o, k, env, a, s', rfl, ht, hx, rfl⟩ | ⟨x, s', rfl, hx, rfl⟩
  · refine hsame rfl ?_
    rintro n ⟨u, pk, he | he⟩
    · cases he
    · cases he
  · have hx' : Broker.exec crates t o env σ.shared = some (a, s') := hx
    cases o with
    | signaling acc =>
      cases acc with
      | get pk =>
        have hfound : σ.shared.signaling.map.lookup pk = a ∧
            s'.signaling.map = σ.shared.signaling.map := by
          cases hx'
          exact ⟨rfl, rfl⟩
        refine hsame hfound.2 ?_
        rintro n ⟨u, pk', he | he⟩
        · cases he
          exact ih.current pk n hfound.1
        · cases he
      | insert pk =>
        have hfirst := hguard.limiter t pk a rfl
        have hnew : a = 0 ∧
            s'.signaling.map = σ.shared.signaling.map.insert pk 0 := by
          cases hx'
          simp only [Signaling.SignalingLimiter.fresh, hfirst, Option.elim_none,
            Signaling.SignalingLimiter.exec, and_self]
        refine ⟨fun pk' n hn => ?_, fun e' he' n hn => ?_⟩
        · simp only [hnew.2, lookup_insert_ite] at hn
          split_ifs at hn
          · exact (Option.some.inj hn).symm
          · exact ih.current pk' n hn
        · rcases List.mem_cons.mp he' with rfl | he'
          · obtain ⟨u, pk', he | he⟩ := hn
            · cases he
            · cases he
              exact hnew.1
          · exact ih.told e' he' n hn
      | check pk n =>
        have hmap : s'.signaling.map = σ.shared.signaling.map := by
          cases hx'
          rfl
        refine hsame hmap ?_
        rintro n ⟨u, pk, he | he⟩
        · cases he
        · cases he
    | _ =>
      refine hsame (congrArg _ ((Broker.exec_frame hx').signaling (by simp))) ?_
      rintro n ⟨u, pk, he | he⟩
      · cases he
      · cases he
  · obtain ⟨channels, rfl⟩ := Broker.writerStep_frame hx
    refine hsame rfl ?_
    rintro n ⟨u, pk, he | he⟩
    · cases he
    · cases he

/-- All checks ask the first limiter of their text. -/
theorem first_of_check (h : GuardedRun (broker crates hasDb) Unraced (fresh db₀) tr σ) {pk : String}
    {n : ℕ} {allowed : Bool} (hmem : Event.performed t (.signaling (.check pk n)) allowed ∈ tr) :
    n = 0 := by
  obtain ⟨tr₂, tr₁, rfl⟩ := List.append_of_mem hmem
  have hfirst := firstOnly_of_run h
  obtain ⟨σ₁, c, k, env, s', h₁, ht, -⟩ := performed_split h.run
  obtain ⟨hist, hJ, hsub⟩ := h₁.justified (J := fun _ _ => Told) (fresh_idle db₀)
    (fun _ _ _ _ _ hs => start_told hs) ht
  have hevent : ∀ x ∈ hist, Event.performed t x.1 x.2 ∈
      tr₂ ++ .performed t (.signaling (.check pk n)) allowed :: tr₁ := by
    intro x hx
    refine List.mem_append_right _ (List.mem_cons_of_mem _ (hsub.subset ?_))
    exact List.mem_map_of_mem (f := fun x => Event.performed t x.1 x.2) hx
  rcases hJ pk n rfl with hx | hx
  · exact hfirst.told _ (hevent _ hx) n ⟨t, pk, Or.inl rfl⟩
  · exact hfirst.told _ (hevent _ hx) n ⟨t, pk, Or.inr rfl⟩

end Limiters

/-! ## The tables of the database -/

/-- What the schema promises of the tables a run starts with, and one handle per text. -/
structure Sound (db : Db ℕ) : Prop where
  handles : HandleClaims.Consistent db.peers db.handles
  peerKey : (db.peers.map PeerRow.pubkey).Nodup
  memberKey : (db.teamMembers.map fun r => (r.teamId, r.memberPubkey)).Nodup

/-- A text that a session has registered under, or that stood in the tables before. -/
def Known (crates : Crates) (db₀ : Db ℕ) (tr : List BrokerEvent) (s : String) : Prop :=
  (∃ t, RegistersAs crates tr t s) ∨ s ∈ db₀.handles.map HandleRow.pubkey ∨
    s ∈ db₀.teamMembers.map TeamMemberRow.memberPubkey

section Tables

variable {crates : Crates} {hasDb : Bool} {db₀ : Db ℕ} {tr : List BrokerEvent} {σ : BrokerConfig}

theorem Known.cons {s : String} (h : Known crates db₀ tr s) (e : BrokerEvent) :
    Known crates db₀ (e :: tr) s := by
  rcases h with ⟨t, hregisters⟩ | hold
  · exact Or.inl ⟨t, hregisters.append [e]⟩
  · exact Or.inr hold

theorem upsertMemberRow_keys (rows : List TeamMemberRow) (row : TeamMemberRow)
    (h : (rows.map fun r => (r.teamId, r.memberPubkey)).Nodup) :
    ((Db.upsertMemberRow rows row).map fun r => (r.teamId, r.memberPubkey)).Nodup := by
  unfold Db.upsertMemberRow
  split_ifs with hany
  · rw [List.map_map]
    have hsame : rows.map ((fun r => (r.teamId, r.memberPubkey)) ∘ fun r =>
        if r.teamId = row.teamId ∧ r.memberPubkey = row.memberPubkey then
          { r with adminSignature := row.adminSignature } else r) =
        rows.map fun r => (r.teamId, r.memberPubkey) := by
      refine List.map_congr_left fun r _ => ?_
      simp only [Function.comp_apply]
      split_ifs <;> rfl
    rw [hsame]
    exact h
  · rw [List.map_append]
    refine List.nodup_append.mpr ⟨h, by simp, fun x hx y hy => ?_⟩
    obtain ⟨r, hr, rfl⟩ := List.mem_map.mp hx
    simp only [List.map_cons, List.map_nil, List.mem_singleton] at hy
    rintro rfl
    apply hany
    simp only [Prod.mk.injEq] at hy
    exact List.any_eq_true.mpr ⟨r, hr, by simp [hy.1, hy.2]⟩

theorem exec_memberKey {t : ℕ} {s : Statement} {env : Database.Env} {r : Answer s} {db db' : Db ℕ}
    (h : db.exec t s env = some (r, db'))
    (hkey : (db.teamMembers.map fun r => (r.teamId, r.memberPubkey)).Nodup) :
    (db'.teamMembers.map fun r => (r.teamId, r.memberPubkey)).Nodup := by
  rcases Db.exec_tables h with ⟨-, -, -, hsame⟩ | ⟨pk, kind, -, rfl⟩ | ⟨id, name, admin, -, rfl⟩ |
    ⟨id, name, admin, -, rfl⟩ | ⟨row, -, rfl⟩ | ⟨-, rfl⟩
  · rwa [hsame]
  · exact hkey
  · exact hkey
  · exact hkey
  · exact upsertMemberRow_keys _ _ hkey
  · exact hkey

/-- The tables hold one handle for a text and one row for a member, under known texts. -/
structure TablesOk (crates : Crates) (db₀ : Db ℕ) (tr : List BrokerEvent) (db : Db ℕ) : Prop where
  inv : HandleClaims.Inv db
  memberKey : (db.teamMembers.map fun r => (r.teamId, r.memberPubkey)).Nodup
  owners : ∀ row ∈ db.handles, Known crates db₀ tr row.pubkey
  members : ∀ row ∈ db.teamMembers, Known crates db₀ tr row.memberPubkey

theorem TablesOk.same {db : Db ℕ} (h : TablesOk crates db₀ tr db) (e : BrokerEvent) :
    TablesOk crates db₀ (e :: tr) db :=
  ⟨h.inv, h.memberKey, fun row hrow => (h.owners row hrow).cons e,
    fun row hrow => (h.members row hrow).cons e⟩

theorem TablesOk.query (h : TablesOk crates db₀ tr σ.shared.db)
    (hrun : Run (broker crates hasDb) (fresh db₀) tr σ) {t : ℕ} {c : Phase} {s : Statement}
    {k : Res (.query s) → Work Outcome} {env : Env} {r : Answer s} {b' : Broker}
    (ht : σ.tasks t = .running c (.call (.query s) k))
    (hx : Broker.exec crates t (.query s) env σ.shared = some (r, b'))
    (hguard : Unraced tr σ (.performed t (.query s) r)) :
    TablesOk crates db₀ (.performed t (.query s) r :: tr) b'.db := by
  have hnew : ∀ P, Effect P σ.shared b' →
      Known crates db₀ (.performed t (.query s) r :: tr) P := by
    intro P heffect
    have hacting := acting_of_effect hrun ht hx heffect
    exact Or.inl ⟨t, (registersAs_of_acting hrun ht hacting).append [_]⟩
  obtain ⟨db, hdb, rfl⟩ := Broker.exec_query hx
  obtain ⟨pk, -, horder⟩ := statement_in_order hrun ht
  refine ⟨?_, exec_memberKey hdb h.memberKey, fun row hrow => ?_, fun row hrow => ?_⟩
  · refine h.inv.exec hdb (foreignKey_of_run hrun) horder.inOrder ?_
    rintro handle pk' rfl ⟨rows, rfl⟩
    exact hguard.handle t handle pk' rows rfl
  · by_cases hold : row ∈ σ.shared.db.handles
    · exact (h.owners row hold).cons _
    · exact hnew _ (.handleRow row.handle hrow hold)
  · by_cases hold : row ∈ σ.shared.db.teamMembers
    · exact (h.members row hold).cons _
    · exact hnew _ (.memberRow row rfl hrow hold)

theorem tablesOk_of_run (h₀ : Sound db₀)
    (h : GuardedRun (broker crates hasDb) Unraced (fresh db₀) tr σ) :
    TablesOk crates db₀ tr σ.shared.db := by
  refine h.invariant (I := fun tr σ => TablesOk crates db₀ tr σ.shared.db) ?_ ?_
  · have hsettled : HandleClaims.Settled { db₀ with transactions := ∅ } :=
      ⟨h₀.handles, h₀.peerKey, rfl⟩
    refine ⟨hsettled.inv.1, h₀.memberKey, fun row hrow => ?_, fun row hrow => ?_⟩
    · exact Or.inr (Or.inl (List.mem_map_of_mem hrow))
    · exact Or.inr (Or.inr (List.mem_map_of_mem hrow))
  · intro tr σ e σ' hrun ih hs hguard
    rcases hs.cases with ⟨t, i, c, c', p, rfl, hw, hstart, rfl⟩ |
      ⟨t, c, o, k, env, a, s', rfl, ht, hx, rfl⟩ | ⟨x, s', rfl, hx, rfl⟩
    · exact ih.same _
    · have hx' : Broker.exec crates t o env σ.shared = some (a, s') := hx
      cases o with
      | query s => exact ih.query hrun.run ht hx' hguard
      | _ =>
        have hdb := (Broker.exec_frame hx').db nofun
        simp only [hdb]
        exact ih.same _
    · obtain ⟨channels, rfl⟩ := Broker.writerStep_frame hx
      exact ih.same _

end Tables

/-! ## The limits of a key -/

/-- The sessions of a key, and the rows found for it, spell it alike. -/
def OneSpelling (crates : Crates) (db₀ : Db ℕ) (tr : List BrokerEvent) : Prop :=
  ∀ k s s', Known crates db₀ tr s → Known crates db₀ tr s' → Spells crates k s →
    Spells crates k s' → s = s'

/-- All bytes relayed for a key are charged to one quota and all its signals checked by one limiter,
and the tables hold one handle and, in a team, one row for it. -/
structure PerKey (crates : Crates) (tr : List BrokerEvent) (b : Broker) (k : VerifyingKey) : Prop where
  quota : ∀ t t' s s' bytes bytes' r r', Spells crates k s → Spells crates k s' →
    Event.performed t (.relay (.consume s bytes)) r ∈ tr →
    Event.performed t' (.relay (.consume s' bytes')) r' ∈ tr → s = s'
  limiter : ∀ t t' s s' n n' r r', Spells crates k s → Spells crates k s' →
    Event.performed t (.signaling (.check s n)) r ∈ tr →
    Event.performed t' (.signaling (.check s' n')) r' ∈ tr → (s, n) = (s', n')
  handle : ∀ row ∈ b.db.handles, ∀ row' ∈ b.db.handles, Spells crates k row.pubkey →
    Spells crates k row'.pubkey → row = row'
  member : ∀ row ∈ b.db.teamMembers, ∀ row' ∈ b.db.teamMembers, row.teamId = row'.teamId →
    Spells crates k row.memberPubkey → Spells crates k row'.memberPubkey → row = row'

variable {crates : Crates} {hasDb : Bool} {db₀ : Db ℕ} {tr : List BrokerEvent} {σ : BrokerConfig}

/-- When a key is spelled in one way, and neither a limiter nor a handle is inserted beside another,
the limits are limits of the key. -/
theorem limits_per_key (h₀ : Sound db₀)
    (h : GuardedRun (broker crates hasDb) Unraced (fresh db₀) tr σ)
    (hspell : OneSpelling crates db₀ tr) (k : VerifyingKey) : PerKey crates tr σ.shared k := by
  have htables := tablesOk_of_run h₀ h
  have hknown : ∀ {t o r s}, Event.performed t o r ∈ tr → subject o = some s →
      (∀ a, o ≠ .presence a) → Known crates db₀ tr s :=
    fun hmem hs ho => Or.inl ⟨_, registersAs_of_performed h.run hmem hs ho⟩
  refine ⟨?_, ?_, ?_, ?_⟩
  · intro t t' s s' bytes bytes' r r' hs hs' hmem hmem'
    exact hspell k s s' (hknown hmem rfl nofun) (hknown hmem' rfl nofun) hs hs'
  · intro t t' s s' n n' r r' hs hs' hmem hmem'
    have heq := hspell k s s' (hknown hmem rfl nofun) (hknown hmem' rfl nofun) hs hs'
    rw [heq, first_of_check h hmem, first_of_check h hmem']
  · intro row hrow row' hrow' hs hs'
    have heq := hspell k _ _ (htables.owners row hrow) (htables.owners row' hrow') hs hs'
    exact List.inj_on_of_nodup_map htables.inv.consistent.onePerPubkey hrow hrow' heq
  · intro row hrow row' hrow' hteam hs hs'
    have heq := hspell k _ _ (htables.members row hrow) (htables.members row' hrow') hs hs'
    exact List.inj_on_of_nodup_map htables.memberKey hrow hrow' (Prod.ext hteam heq)

/-! ## Two sessions of a key -/

open Scripts Crates

theorem mem_of_firstFrame {t : ℕ} {f : Frame} {now : UnixTime}
    (h : firstFrame t tr = some (f, now)) : Event.input t (.frame f now) ∈ tr := by
  induction tr with
  | nil => cases h
  | cons e tr ih =>
    cases e with
    | input u i =>
      cases i with
      | connect addr => exact List.mem_cons_of_mem _ (ih h)
      | frame f' now' =>
        rw [firstFrame, Option.or_eq_some_iff] at h
        rcases h with hlater | ⟨-, hfirst⟩
        · exact List.mem_cons_of_mem _ (ih hlater)
        · split_ifs at hfirst with hu
          cases hfirst
          rw [hu]
          exact List.mem_cons_self
    | _ => exact List.mem_cons_of_mem _ (ih h)

theorem registersAs_of_play {test : List BrokerEvent → BrokerConfig → BrokerEvent → Bool}
    {xs : List Cue} {σ₀ : BrokerConfig} (hp : play hasDb test xs [] σ₀ = some (tr, σ)) {t : ℕ}
    {s : String} (h : RegistersAs demo tr t s) : ∃ d m, .say t d m ∈ xs ∧ m.pubkey = s := by
  obtain ⟨f, now, text, msg, hfirst, hpayload, hauth, rfl⟩ := h
  rcases frame_of_play hasDb hp (mem_of_firstFrame hfirst) with hmem | rfl | ⟨d, m, hsay, rfl⟩
  · cases hmem
  · cases hpayload
  · cases hpayload
    refine ⟨d, m, hsay, ?_⟩
    have hdecode := (authentic_of_authenticateRegister hauth).1.parsed
    rw [fromStr_wire] at hdecode
    rw [Option.some.inj hdecode]

def unraced (_ : List BrokerEvent) (σ : BrokerConfig) : BrokerEvent → Bool
  | .performed _ (.signaling (.insert pk)) _ => (σ.shared.signaling.map.lookup pk).isNone
  | .performed _ (.query (.insertHandle ..)) _ => false
  | _ => true

theorem unraced_sound {tr : List BrokerEvent} {σ : BrokerConfig} {e : BrokerEvent}
    (h : unraced tr σ e = true) : Unraced tr σ e := by
  constructor
  · rintro t pk n rfl
    simpa [unraced] using h
  · rintro t handle pk rows rfl
    cases h

def askedBy (tr : List BrokerEvent) : List (ℕ × String × ℕ) := tr.filterMap fun e =>
  match e with
  | .performed t (.signaling (.check pk n)) _ => some (t, pk, n)
  | _ => none

theorem mem_of_askedBy {t : ℕ} {pk : String} {n : ℕ} (h : (t, pk, n) ∈ askedBy tr) :
    ∃ r, Event.performed t (.signaling (.check pk n)) r ∈ tr := by
  obtain ⟨e, hmem, he⟩ := List.mem_filterMap.mp h
  split at he
  · cases he
    exact ⟨_, hmem⟩
  · cases he

/-- Two sessions, each under a spelling, signal one after the other. -/
def signalling (d d' : Char) : List Cue :=
  joins 0 d ++ joins 1 d' ++
    .say 0 d (.signal (keyText d) (keyText 'b') "" 0 (signatureText d) none) :: steps 0 3 calm ++
    .say 1 d' (.signal (keyText d') (keyText 'b') "" 0 (signatureText d') none) ::
      steps 1 (if d = d' then 2 else 3) calm

theorem emptyDb_sound : Sound DatabaseCalls.emptyDb :=
  ⟨HandleClaims.emptyDb_settled.1, List.nodup_nil, List.nodup_nil⟩

theorem limits_per_key_two_sessions : ∃ tr σ, Sound DatabaseCalls.emptyDb ∧
    GuardedRun (broker demo false) Unraced (fresh DatabaseCalls.emptyDb) tr σ ∧
    OneSpelling demo DatabaseCalls.emptyDb tr ∧
    askedBy tr = [(1, keyText 'a', 0), (0, keyText 'a', 0)] ∧
    ∀ k, PerKey demo tr σ.shared k := by
  have hplayed : (play false unraced (signalling 'a' 'a') [] (fresh DatabaseCalls.emptyDb)).map
      (fun x => askedBy x.1) = some [(1, keyText 'a', 0), (0, keyText 'a', 0)] := by
    decide +kernel
  obtain ⟨⟨tr, σ⟩, hp, hasked⟩ := Option.map_eq_some_iff.mp hplayed
  have hrun := guardedRun_of_play false (fun _ _ _ => unraced_sound) .start hp
  have hsays : ∀ t d m, Cue.say t d m ∈ signalling 'a' 'a' → m.pubkey = keyText 'a' := by
    intro t d m hsay
    have hall : ((signalling 'a' 'a').all fun x => match x with
        | .say _ _ m => m.pubkey = keyText 'a'
        | _ => true) = true := by decide +kernel
    exact of_decide_eq_true (List.all_eq_true.mp hall _ hsay)
  have hknown : ∀ s, Known demo DatabaseCalls.emptyDb tr s → s = keyText 'a' := by
    rintro s (⟨t, hregisters⟩ | hrow | hrow)
    · obtain ⟨d, m, hsay, rfl⟩ := registersAs_of_play hp hregisters
      exact hsays t d m hsay
    · cases hrow
    · cases hrow
  have hspelling : OneSpelling demo DatabaseCalls.emptyDb tr := by
    intro k s s' hs hs' _ _
    rw [hknown s hs, hknown s' hs']
  exact ⟨tr, σ, emptyDb_sound, hrun, hspelling, hasked,
    limits_per_key emptyDb_sound hrun hspelling⟩

/-- A key in lower case and in upper case has two limiters. -/
theorem two_spellings_two_limiters : ∃ tr σ k, Sound DatabaseCalls.emptyDb ∧
    Run (broker demo false) (fresh DatabaseCalls.emptyDb) tr σ ∧
    Spells demo k (keyText 'a') ∧ Spells demo k (keyText 'A') ∧ ¬ PerKey demo tr σ.shared k := by
  have hplayed : (play false (fun _ _ _ => true) (signalling 'a' 'A') []
      (fresh DatabaseCalls.emptyDb)).map (fun x => askedBy x.1) =
      some [(1, keyText 'A', 0), (0, keyText 'a', 0)] := by
    decide +kernel
  obtain ⟨⟨tr, σ⟩, hp, hasked⟩ := Option.map_eq_some_iff.mp hplayed
  obtain ⟨k, hlower, hupper⟩ := spelled_alike
  have hfirst : (0, keyText 'a', 0) ∈ askedBy tr := by
    simp only [hasked, List.mem_cons, true_or, or_true]
  have hsecond : (1, keyText 'A', 0) ∈ askedBy tr := by
    simp only [hasked, List.mem_cons, true_or]
  obtain ⟨r, hmem⟩ := mem_of_askedBy hfirst
  obtain ⟨r', hmem'⟩ := mem_of_askedBy hsecond
  refine ⟨tr, σ, k, emptyDb_sound, run_of_play false hp, hlower, hupper, fun hkey => ?_⟩
  have heq := hkey.limiter _ _ _ _ _ _ _ _ hlower hupper hmem hmem'
  exact absurd (Prod.mk.inj heq).1 (by decide)

end HashedBroker.KeyLimits
