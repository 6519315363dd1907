import HashedBroker.Scripts

/-!
# Consent and confinement of relayed data

Data goes through a relay session only between its two parties, and only once the party that was
asked has accepted. The life of a session is read off the trace: it is created by a request, promoted
once, by its responder, and when it has been dropped nothing brings it back. The one assumption is
that the identifiers drawn for sessions are fresh.
-/
namespace HashedBroker.RelayConsent
open KeyedTables AtomicPrograms ReactiveTasks Server Sessions Relay

def drawn : List BrokerEvent → List Uuid
  | [] => []
  | .performed _ (.relay (.insertSession _ _)) id :: tr => id :: drawn tr
  | _ :: tr => drawn tr

/-! ## What the events of a run say about a session -/

def Created (tr : List BrokerEvent) (i : Uuid) (A B : String) : Prop :=
  ∃ t, Event.performed t (.relay (.insertSession A B)) i ∈ tr

/-- The session was promoted for `B`, who had been asked by `A`. -/
def Accepted (tr : List BrokerEvent) (i : Uuid) (A B : String) : Prop :=
  ∃ t, Event.performed t (.relay (.promote i B)) (.ok A) ∈ tr

def Dropped (tr : List BrokerEvent) (i : Uuid) : Prop :=
  ∃ t, Event.performed t (.relay (.removeSession i)) () ∈ tr

/-- What a session in the table has behind it. -/
structure Past (tr : List BrokerEvent) (i : Uuid) (s : Session) : Prop where
  created : Created tr i s.initiator s.responder
  kept : ¬ Dropped tr i
  accepted : s.state = .active → Accepted tr i s.initiator s.responder
  pending : s.state = .pending → ∀ A B, ¬ Accepted tr i A B

section Events

variable {tr tr' : List BrokerEvent} {e : BrokerEvent} {i : Uuid} {A B : String}

theorem drawn_append (tr tr' : List BrokerEvent) : drawn (tr ++ tr') = drawn tr ++ drawn tr' := by
  induction tr with
  | nil => rfl
  | cons e tr ih =>
    cases e with
    | performed t o r =>
      cases o with
      | relay a =>
        cases a with
        | insertSession A B => exact congrArg (List.cons r) ih
        | _ => exact ih
      | _ => exact ih
    | _ => exact ih

theorem Created.mem_drawn (h : Created tr i A B) : i ∈ drawn tr := by
  obtain ⟨t, ht⟩ := h
  obtain ⟨tr₁, tr₂, rfl⟩ := List.append_of_mem ht
  rw [drawn_append]
  exact List.mem_append_right _ List.mem_cons_self

theorem Created.cons (h : Created tr i A B) (e : BrokerEvent) : Created (e :: tr) i A B := by
  obtain ⟨t, ht⟩ := h
  exact ⟨t, List.mem_cons_of_mem e ht⟩

theorem Accepted.cons (h : Accepted tr i A B) (e : BrokerEvent) : Accepted (e :: tr) i A B := by
  obtain ⟨t, ht⟩ := h
  exact ⟨t, List.mem_cons_of_mem e ht⟩

theorem mem_drawn_cons (h : i ∈ drawn tr) (e : BrokerEvent) : i ∈ drawn (e :: tr) := by
  have happ := drawn_append [e] tr
  rw [List.singleton_append] at happ
  rw [happ]
  exact List.mem_append_right _ h

theorem Created.unique (hfresh : (drawn tr).Nodup) {A' B' : String} (h : Created tr i A B)
    (h' : Created tr i A' B') : A = A' ∧ B = B' := by
  obtain ⟨t, ht⟩ := h
  obtain ⟨t', ht'⟩ := h'
  obtain ⟨tr₁, tr₂, rfl⟩ := List.append_of_mem ht
  -- a second drawing of the identifier, before or after the first, would repeat it
  have hno : ∀ tr₀, Event.performed t' (.relay (.insertSession A' B')) i ∈ tr₀ → i ∈ drawn tr₀ :=
    fun tr₀ hmem => Created.mem_drawn ⟨t', hmem⟩
  have hnodup : (drawn tr₁ ++ i :: drawn tr₂).Nodup := by
    rw [drawn_append] at hfresh
    exact hfresh
  obtain ⟨-, hright, hcross⟩ := List.nodup_append.mp hnodup
  rcases List.mem_append.mp ht' with hmem | hmem
  · exact absurd rfl (hcross i (hno tr₁ hmem) i List.mem_cons_self)
  · rcases List.mem_cons.mp hmem with heq | hmem
    · cases heq
      exact ⟨rfl, rfl⟩
    · exact absurd (hno tr₂ hmem) (List.nodup_cons.mp hright).1

/-- A past goes on when the event is no drop and no acceptance of the session. -/
theorem Past.cons {s : Session} (h : Past tr i s)
    (hdrop : ∀ t, e ≠ .performed t (.relay (.removeSession i)) ())
    (haccept : ∀ t A B, e ≠ .performed t (.relay (.promote i B)) (.ok A)) : Past (e :: tr) i s := by
  refine ⟨h.created.cons e, ?_, fun hs => (h.accepted hs).cons e, ?_⟩
  · rintro ⟨t, ht⟩
    rcases List.mem_cons.mp ht with heq | hmem
    · exact hdrop t heq.symm
    · exact h.kept ⟨t, hmem⟩
  · rintro hs A B ⟨t, ht⟩
    rcases List.mem_cons.mp ht with heq | hmem
    · exact haccept t A B heq.symm
    · exact h.pending hs A B ⟨t, hmem⟩

end Events

/-! ## The sessions a closing task drops -/

/-- The sessions a task has collected. -/
def staleNext (l : List Uuid) : (o : Op) → Res o → List Uuid
  | .relay (.stale _), ids => ids
  | _, _ => l

/-- Only collected sessions are removed. -/
def StaleOk (l : List Uuid) : Op → Prop
  | .relay (.removeSession id) => id ∈ l
  | _ => True

def collected (t : ℕ) (tr : List BrokerEvent) : List Uuid := localState staleNext [] t tr

def DropsNothing : Op → Prop
  | .relay (.stale _) | .relay (.removeSession _) => False
  | _ => True

section Dropping

variable {crates : Crates} {hasDb : Bool} {α : Type} {l : List Uuid}

theorem staleNext_of_dropsNothing {o : Op} (ho : DropsNothing o) (l : List Uuid) (r : Res o) :
    staleNext l o r = l := by
  cases o with
  | relay a =>
    cases a with
    | stale pk => exact ho.elim
    | _ => rfl
  | _ => rfl

theorem collects_of_always {p : Work α} (hp : p.Always DropsNothing) :
    p.Follows staleNext StaleOk (fun _ _ => True) l := by
  refine hp.follows (fun o ho => ⟨?_, staleNext_of_dropsNothing ho l⟩) fun _ => trivial
  cases o with
  | relay a =>
    cases a with
    | removeSession id => exact ho.elim
    | _ => trivial
  | _ => trivial

theorem removeEach_collected {ids : List Uuid} (h : ∀ id ∈ ids, id ∈ l) :
    (relay (removeEach ids)).Follows staleNext StaleOk (fun _ _ => True) l := by
  induction ids with
  | nil => trivial
  | cons id ids ih =>
    refine ⟨h id List.mem_cons_self, fun _ => ?_⟩
    exact ih fun i hi => h i (List.mem_cons_of_mem id hi)

theorem cleanup_collects (pk : String) :
    (cleanup pk).Follows staleNext StaleOk (fun _ _ => True) l := by
  have hremove : (registry (Registry.remove pk)).Always DropsNothing :=
    Prog.Always.lift (remove_always pk trivial (fun _ => trivial) fun _ => trivial)
  have hclear : (presence (Presence.clearSubscriber pk)).Always DropsNothing :=
    Prog.Always.lift (clearSubscriber_always pk trivial (fun _ => trivial) fun _ => trivial)
  have hbroadcast : (broadcast pk false).Always DropsNothing :=
    broadcast_always pk false trivial (fun _ => trivial) fun _ => trivial
  have hdrop : ∀ l, (relay (dropSessionsFor pk)).Follows staleNext StaleOk (fun _ _ => True) l :=
    fun l => ⟨trivial, fun ids => removeEach_collected fun _ hi => hi⟩
  refine (collects_of_always hremove).bind fun l _ _ => ?_
  refine (collects_of_always (always_metric trivial)).bind fun l _ _ => ?_
  refine (collects_of_always hclear).bind fun l _ _ => ?_
  refine (hdrop l).bind fun l _ _ => ?_
  exact (collects_of_always hbroadcast).bind fun l _ _ => trivial

theorem closing_of_drops {t : ℕ} {c : Phase} {o : Op} (ho : Permitted crates t c o)
    (hdrop : ¬ DropsNothing o) : ∃ pk, c = .closing pk := by
  cases c with
  | closing pk => exact ⟨pk, rfl⟩
  | registering addr text now =>
    rcases ho with ⟨s, msg, -, -, ho⟩ | ⟨-, code, message, requestId, rfl⟩
    · cases o with
      | relay a => exact ho.elim
      | _ => exact absurd trivial hdrop
    · exact absurd trivial hdrop
  | handling pk text now =>
    rcases ho with ⟨msg, -, ho, -⟩ | ⟨-, code, message, requestId, rfl⟩
    · cases o with
      | relay a =>
        cases a with
        | stale pk' => exact ho.elim
        | removeSession id => exact ho.elim
        | _ => exact absurd trivial hdrop
      | _ => exact absurd trivial hdrop
    · exact absurd trivial hdrop
  | _ => exact ho.elim

theorem start_collects {t : ℕ} {c c' : Phase} {i : Input} {p : Work Outcome}
    (hs : start crates hasDb t c i = some (c', p)) :
    p.Follows staleNext StaleOk (fun _ _ => True) l := by
  by_cases hc : ∃ pk, c' = .closing pk
  · obtain ⟨pk, rfl⟩ := hc
    rw [(start_closing hs).2]
    exact cleanup_collects pk
  · refine collects_of_always ((start_permitted hs).mono fun o ho => ?_)
    by_contra hdrop
    exact hc (closing_of_drops ho hdrop)

theorem removes_collected {db₀ : Database.Db ℕ} {tr : List BrokerEvent} {σ : BrokerConfig}
    (h : Run (broker crates hasDb) (fresh db₀) tr σ) {t : ℕ} {c : Phase} {i : Uuid}
    {k : Unit → Work Outcome} (ht : σ.tasks t = .running c (.call (.relay (.removeSession i)) k)) :
    i ∈ collected t tr := by
  have htrack := h.tracks staleNext [] (fun _ _ => StaleOk) (fun _ _ _ => True)
    (fun _ => ⟨.absent, rfl, trivial⟩) fun _ _ _ _ _ _ hs _ => start_collects hs
  exact (htrack.2 t c _ ht).1

end Dropping

/-! ## The invariant -/

/-- Sessions have their past in the trace, and identifiers that are dropped, promoted or collected
have been drawn. -/
structure Inv (tr : List BrokerEvent) (σ : BrokerConfig) : Prop where
  stored : ∀ i s, σ.shared.relay.sessions.lookup i = some s → Past tr i s
  dropped : ∀ i, Dropped tr i → i ∈ drawn tr
  accepted : ∀ i A B, Accepted tr i A B → i ∈ drawn tr
  collected : ∀ t i, i ∈ collected t tr → i ∈ drawn tr

section Invariant

variable {crates : Crates} {hasDb : Bool} {db₀ : Database.Db ℕ} {tr : List BrokerEvent}
  {σ σ' : BrokerConfig} {e : BrokerEvent}

theorem collected_cons {t : ℕ} {i : Uuid} (h : i ∈ collected t (e :: tr)) :
    i ∈ collected t tr ∨ ∃ pk ids, e = .performed t (.relay (.stale pk)) ids ∧ i ∈ ids := by
  cases e with
  | input u x => exact Or.inl h
  | disturbed x => exact Or.inl h
  | performed u o r =>
    simp only [collected, localState] at h
    split_ifs at h with hut
    · subst hut
      by_cases ho : ∃ pk, o = .relay (.stale pk)
      · obtain ⟨pk, rfl⟩ := ho
        exact Or.inr ⟨pk, r, rfl, h⟩
      · refine Or.inl ?_
        cases o with
        | relay a =>
          cases a with
          | stale pk => exact absurd ⟨pk, rfl⟩ ho
          | _ => exact h
        | _ => exact h
    · exact Or.inl h

/-- The rule for one more event: the sessions in the table have their past, and what the event
drops, promotes or collects has been drawn. -/
theorem Inv.cons (h : Inv tr σ)
    (hstored : ∀ i s, σ'.shared.relay.sessions.lookup i = some s → Past (e :: tr) i s)
    (hdrop : ∀ t i, e = .performed t (.relay (.removeSession i)) () → i ∈ drawn tr)
    (haccept : ∀ t i A B, e = .performed t (.relay (.promote i B)) (.ok A) → i ∈ drawn tr)
    (hstale : ∀ t pk ids, e = .performed t (.relay (.stale pk)) ids → ∀ i ∈ ids, i ∈ drawn tr) :
    Inv (e :: tr) σ' := by
  refine ⟨hstored, ?_, ?_, ?_⟩
  · rintro i ⟨t, ht⟩
    rcases List.mem_cons.mp ht with heq | hmem
    · exact mem_drawn_cons (hdrop t i heq.symm) e
    · exact mem_drawn_cons (h.dropped i ⟨t, hmem⟩) e
  · rintro i A B ⟨t, ht⟩
    rcases List.mem_cons.mp ht with heq | hmem
    · exact mem_drawn_cons (haccept t i A B heq.symm) e
    · exact mem_drawn_cons (h.accepted i A B ⟨t, hmem⟩) e
  · intro t i hi
    rcases collected_cons hi with hi | ⟨pk, ids, heq, hi⟩
    · exact mem_drawn_cons (h.collected t i hi) e
    · exact mem_drawn_cons (hstale t pk ids heq i hi) e

theorem Inv.of_same (h : Inv tr σ) (hs : σ'.shared.relay.sessions = σ.shared.relay.sessions)
    (hdrop : ∀ t i, e ≠ .performed t (.relay (.removeSession i)) ())
    (haccept : ∀ t i A B, e ≠ .performed t (.relay (.promote i B)) (.ok A))
    (hstale : ∀ t pk ids, e = .performed t (.relay (.stale pk)) ids → ∀ i ∈ ids,
      ∃ s, σ.shared.relay.sessions.lookup i = some s) : Inv (e :: tr) σ' := by
  refine h.cons ?_ (fun t i he => absurd he (hdrop t i))
    (fun t i A B he => absurd he (haccept t i A B)) ?_
  · intro i s hl
    rw [hs] at hl
    exact (h.stored i s hl).cons (fun t => hdrop t i) fun t => haccept t i
  · intro t pk ids he i hi
    obtain ⟨s, hl⟩ := hstale t pk ids he i hi
    exact (h.stored i s hl).created.mem_drawn

theorem Inv.insertSession (h : Inv tr σ) {t : ℕ} {A B : String} {i : Uuid}
    (hfresh : i ∉ drawn tr)
    (hs : ∀ j, σ'.shared.relay.sessions.lookup j =
      if j = i then some ⟨A, B, .pending⟩ else σ.shared.relay.sessions.lookup j) :
    Inv (.performed t (.relay (.insertSession A B)) i :: tr) σ' := by
  refine h.cons ?_ (fun _ _ he => by cases he) (fun _ _ _ _ he => by cases he)
    fun _ _ _ he => by cases he
  intro j s hl
  rw [hs] at hl
  split_ifs at hl with hj
  · cases hl
    subst hj
    refine ⟨⟨t, List.mem_cons_self⟩, ?_, (fun hstate => nomatch hstate), ?_⟩
    · rintro ⟨u, hu⟩
      rcases List.mem_cons.mp hu with heq | hmem
      · cases heq
      · exact hfresh (h.dropped j ⟨u, hmem⟩)
    · rintro - A' B' ⟨u, hu⟩
      rcases List.mem_cons.mp hu with heq | hmem
      · cases heq
      · exact hfresh (h.accepted j A' B' ⟨u, hmem⟩)
  · exact (h.stored j s hl).cons (fun _ he => by cases he) fun _ _ _ he => by cases he

theorem Inv.promote (h : Inv tr σ) {t : ℕ} {i : Uuid} {s : Session}
    (hi : σ.shared.relay.sessions.lookup i = some s)
    (hs : ∀ j, σ'.shared.relay.sessions.lookup j =
      if j = i then some { s with state := .active } else σ.shared.relay.sessions.lookup j) :
    Inv (.performed t (.relay (.promote i s.responder)) (.ok s.initiator) :: tr) σ' := by
  have hpast := h.stored i s hi
  refine h.cons ?_ (fun _ _ he => by cases he) ?_ fun _ _ _ he => by cases he
  · intro j s' hl
    rw [hs] at hl
    split_ifs at hl with hj
    · cases hl
      subst hj
      refine ⟨hpast.created.cons _, ?_, fun _ => ⟨t, List.mem_cons_self⟩,
        fun hstate => nomatch hstate⟩
      rintro ⟨u, hu⟩
      rcases List.mem_cons.mp hu with heq | hmem
      · cases heq
      · exact hpast.kept ⟨u, hmem⟩
    · refine (h.stored j s' hl).cons (fun _ he => by cases he) fun u A B he => ?_
      cases he
      exact hj rfl
  · intro u j A B he
    cases he
    exact hpast.created.mem_drawn

theorem Inv.removeSession (h : Inv tr σ) {t : ℕ} {i : Uuid} (hi : i ∈ RelayConsent.collected t tr)
    (hs : ∀ j, σ'.shared.relay.sessions.lookup j =
      if j = i then none else σ.shared.relay.sessions.lookup j) :
    Inv (.performed t (.relay (.removeSession i)) () :: tr) σ' := by
  refine h.cons ?_ ?_ (fun _ _ _ _ he => by cases he) fun _ _ _ he => by cases he
  · intro j s hl
    rw [hs] at hl
    split_ifs at hl with hj
    refine (h.stored j s hl).cons (fun u he => ?_) fun _ _ _ he => by cases he
    cases he
    exact hj rfl
  · intro u j he
    cases he
    exact h.collected t i hi

theorem Inv.step (h : Inv tr σ) (hrun : Run (broker crates hasDb) (fresh db₀) tr σ)
    (hstep : Step (broker crates hasDb) σ e σ') (hfresh : (drawn (e :: tr)).Nodup) :
    Inv (e :: tr) σ' := by
  rcases hstep.cases with ⟨t, i, c, c', p, rfl, -, -, rfl⟩ |
    ⟨t, c, o, k, env, r, s', rfl, ht, hx, rfl⟩ | ⟨x, s', rfl, hx, rfl⟩
  · exact h.of_same rfl (fun _ _ he => by cases he) (fun _ _ _ _ he => by cases he)
      fun _ _ _ he => by cases he
  · by_cases ha : ∃ a, o = .relay a
    · obtain ⟨a, rfl⟩ := ha
      have hx' : Broker.exec crates t (.relay a) env σ.shared = some (r, s') := hx
      obtain ⟨rm, hrm, rfl⟩ := Broker.exec_relay hx'
      cases a with
      | insertSession A B =>
        cases hrm
        exact h.insertSession (List.nodup_cons.mp hfresh).1 fun j => lookup_insert_ite _ _ _ _
      | promote id responder =>
        rcases RelayManager.exec_promote hrm with ⟨s, hs, rfl, -, rfl, rfl⟩ |
          ⟨-, ⟨err, rfl⟩, rfl⟩
        · exact h.promote hs fun j => lookup_insert_ite _ _ _ _
        · exact h.of_same rfl (fun _ _ he => by cases he) (fun _ _ _ _ he => by cases he)
            fun _ _ _ he => by cases he
      | getSession id =>
        cases hrm
        exact h.of_same rfl (fun _ _ he => by cases he) (fun _ _ _ _ he => by cases he)
          fun _ _ _ he => by cases he
      | stale pk =>
        obtain ⟨hperm, rfl⟩ := RelayManager.exec_stale hrm
        refine h.of_same rfl (fun _ _ he => by cases he) (fun _ _ _ _ he => by cases he) ?_
        intro u pk' ids he j hj
        cases he
        obtain ⟨s, hs, -⟩ := RelayManager.mem_sessionsOf.mp (hperm.mem_iff.mp hj)
        exact ⟨s, hs⟩
      | removeSession id =>
        cases hrm
        exact h.removeSession (removes_collected hrun ht) fun j => lookup_erase_ite _ _ _
      | quotaEntry pk =>
        have hsame : rm.sessions = σ.shared.relay.sessions := by
          simp only [RelayManager.exec] at hrm
          split at hrm <;> (cases hrm; rfl)
        exact h.of_same hsame (fun _ _ he => by cases he) (fun _ _ _ _ he => by cases he)
          fun _ _ _ he => by cases he
      | consume pk bytes =>
        obtain ⟨q, -, heq⟩ := Option.map_eq_some_iff.mp hrm
        cases heq
        exact h.of_same rfl (fun _ _ he => by cases he) (fun _ _ _ _ he => by cases he)
          fun _ _ _ he => by cases he
    · have hne : ∀ a, o ≠ .relay a := fun a he => ha ⟨a, he⟩
      have hsame := (Broker.exec_frame hx).relay hne
      exact h.of_same (by rw [hsame]) (fun u i he => by cases he; exact hne _ rfl)
        (fun u i A B he => by cases he; exact hne _ rfl)
        fun u pk ids he => by cases he; exact absurd rfl (hne _)
  · obtain ⟨channels, rfl⟩ := Broker.writerStep_frame hx
    exact h.of_same rfl (fun _ _ he => by cases he) (fun _ _ _ _ he => by cases he)
      fun _ _ _ he => by cases he

/-- With fresh identifiers, the trace of a run explains its sessions. -/
theorem inv_of_run (h : Run (broker crates hasDb) (fresh db₀) tr σ) (hfresh : (drawn tr).Nodup) :
    Inv tr σ := by
  induction h with
  | start =>
    refine ⟨?_, ?_, ?_, ?_⟩
    · intro i s hl
      cases hl
    · rintro i ⟨t, ht⟩
      cases ht
    · rintro i A B ⟨t, ht⟩
      cases ht
    · intro t i hi
      cases hi
  | @step tr σ σ' e prior next ih =>
    have htail : (drawn tr).Nodup := by
      have happ := drawn_append [e] tr
      rw [List.singleton_append] at happ
      rw [happ] at hfresh
      exact (List.nodup_append.mp hfresh).2.1
    exact (ih htail).step prior next hfresh

end Invariant

/-! ## What the data of a session has passed -/

/-- Data is sent to the channel found for the other party of the session that was looked up. -/
def DataChecked (crates : Crates) (hist : Prog.History Op Res) (o : Op) : Prop :=
  ∀ ch sid X data, o = .send ch (.relayData sid X data) → ∃ i s Y peer,
    sid = crates.uuidText i ∧ s.other X = .ok Y ∧ peer.tx = ch ∧
    [(⟨.registry (.getPeer Y), some peer⟩ : Σ o : Op, Res o),
      ⟨.relay (.getSession i), some s⟩].Sublist hist

section Data

variable {crates : Crates} {hasDb : Bool}

theorem dataChecked_of_ne {hist : Prog.History Op Res} {o : Op}
    (ho : ∀ ch sid X data, o ≠ .send ch (.relayData sid X data)) : DataChecked crates hist o :=
  fun ch sid X data he => absurd he (ho ch sid X data)

theorem forward_checked (X : String) (i : Uuid) (data : String) :
    (forward crates X i data).run.Justified (DataChecked crates) [] := by
  rw [forward, run_lift_bind]
  refine ⟨dataChecked_of_ne (by simp), fun entry => ?_⟩
  show (orElse entry .relaySessionNotFound >>= _ : Handler ℕ).run.Justified _ _
  rw [run_orElse_bind]
  cases entry with
  | none => trivial
  | some s =>
    simp only [run_require_bind]
    cases hother : s.other X with
    | error err => trivial
    | ok Y =>
      simp only
      cases decodedLen crates "relay base64" data with
      | error err => trivial
      | ok len =>
        simp only
        cases checkSize len Protocol.relayMaxFrame with
        | error err => trivial
        | ok u =>
          simp only [run_attempt_bind]
          refine ⟨dataChecked_of_ne (by simp), fun _ => ⟨dataChecked_of_ne (by simp), fun x => ?_⟩⟩
          cases x with
          | error err => trivial
          | ok u =>
            refine ⟨dataChecked_of_ne (by simp), fun peer => ?_⟩
            show (orElse peer .peerOffline >>= _ : Handler ℕ).run.Justified _ _
            rw [run_orElse_bind]
            cases peer with
            | none => trivial
            | some p =>
              refine ⟨?_, fun sent => by cases sent <;> trivial⟩
              intro ch sid X' data' he
              cases he
              refine ⟨i, s, Y, p, rfl, hother, rfl, ?_⟩
              exact .cons_cons _ (.cons _ (.cons _ (.cons_cons _ .slnil)))

def SendsNoData (o : Op) : Prop := ∀ ch sid X data, o ≠ .send ch (.relayData sid X data)

theorem sendsNoData_of_permitted {t : ℕ} {c : Phase} {o : Op} (ho : Permitted crates t c o)
    (hc : ∀ pk text now, c ≠ .handling pk text now) : SendsNoData o := by
  rintro ch sid X data rfl
  cases c with
  | registering addr text now =>
    rcases ho with ⟨s, msg, -, -, ho⟩ | ⟨-, code, message, requestId, ho⟩
    · cases ho
    · cases ho
  | handling pk text now => exact hc pk text now rfl
  | closing pk => cases ho
  | _ => exact ho

theorem dispatch_checked (t : ℕ) (pk : String) (msg : Protocol.ClientMessage) :
    (dispatch crates hasDb t pk msg).run.Justified (DataChecked crates) [] := by
  by_cases htag : msg.tag = "relay"
  · cases msg with
    | relay pubkey sessionId data timestamp signature =>
      simp only [dispatch, onRelay, run_require_bind]
      cases parseSessionId crates sessionId with
      | error err => trivial
      | ok i =>
        simp only [ExceptT.run_bind]
        refine (forward_checked pk i data).bind fun hist x => ?_
        cases x with
        | error err => trivial
        | ok bytes => exact ⟨dataChecked_of_ne (by simp), fun _ => trivial⟩
    | _ => simp [Protocol.ClientMessage.tag] at htag
  · refine (dispatch_always crates hasDb t pk msg).justified fun hist o ho => ?_
    rintro ch sid X data rfl
    exact absurd ho.2 htag

theorem start_checked {t : ℕ} {c c' : Phase} {i : Input} {p : Work Outcome}
    (hs : start crates hasDb t c i = some (c', p)) :
    p.Justified (DataChecked crates) [] := by
  refine start_justified (J := fun _ => DataChecked crates)
    (fun pk _ _ msg _ => dispatch_checked t pk msg) ?_ ?_ hs
  · intro c hist o hc ho
    apply dataChecked_of_ne
    exact sendsNoData_of_permitted ho hc
  · intro c hist e requestId
    exact dataChecked_of_ne (by simp [errorMsg])

end Data

/-! ## Runs with fresh identifiers -/

section Runs

variable {crates : Crates} {hasDb : Bool} {db₀ : Database.Db ℕ}

/-- The operation was performed while its task handled a frame for the key. -/
def DoneBy (crates : Crates) (hasDb : Bool) (db₀ : Database.Db ℕ) (tr : List BrokerEvent)
    (pk : String) (o : Op) (r : Res o) : Prop :=
  ∃ t tr₁ tr₂ σ text now, tr = tr₂ ++ .performed t o r :: tr₁ ∧
    Run (broker crates hasDb) (fresh db₀) tr₁ σ ∧ (σ.tasks t).ctl = .handling pk text now

theorem doneBy_of_mem {tr : List BrokerEvent} {σ : BrokerConfig} {t : ℕ} {o : Op} {r : Res o}
    {pk : String} (h : Run (broker crates hasDb) (fresh db₀) tr σ)
    (hmem : Event.performed t o r ∈ tr)
    (hphase : ∀ t c, Permitted crates t c o → ∃ text now, c = .handling pk text now) :
    DoneBy crates hasDb db₀ tr pk o r := by
  obtain ⟨tr₂, tr₁, rfl⟩ := List.append_of_mem hmem
  obtain ⟨σ₁, c, k, env, s', h₁, ht, -⟩ := performed_split h
  obtain ⟨text, now, rfl⟩ := hphase t c (permitted h₁ ht)
  exact ⟨t, tr₁, tr₂, σ₁, text, now, rfl, h₁, by rw [ht]; rfl⟩

theorem insertSession_phase {A B : String} (t : ℕ) (c : Phase)
    (h : Permitted crates t c (.relay (.insertSession A B))) :
    ∃ text now, c = .handling A text now := by
  cases c with
  | registering addr text now =>
    rcases h with ⟨s, msg, -, -, h⟩ | ⟨-, code, message, requestId, h⟩
    · exact h.elim
    · cases h
  | handling pk text now =>
    rcases h with ⟨msg, -, h, -⟩ | ⟨-, code, message, requestId, h⟩
    · cases h
      exact ⟨text, now, rfl⟩
    · cases h
  | _ => exact h.elim

theorem promote_phase {i : Uuid} {B : String} (t : ℕ) (c : Phase)
    (h : Permitted crates t c (.relay (.promote i B))) : ∃ text now, c = .handling B text now := by
  cases c with
  | registering addr text now =>
    rcases h with ⟨s, msg, -, -, h⟩ | ⟨-, code, message, requestId, h⟩
    · exact h.elim
    · cases h
  | handling pk text now =>
    rcases h with ⟨msg, -, h, -⟩ | ⟨-, code, message, requestId, h⟩
    · cases h
      exact ⟨text, now, rfl⟩
    · cases h
  | _ => exact h.elim

theorem Session.other_ok {s : Session} {X Y : String} (h : s.other X = .ok Y) :
    s.state = .active ∧
      (X = s.initiator ∧ Y = s.responder ∨ X = s.responder ∧ Y = s.initiator) := by
  unfold Session.other at h
  split_ifs at h with h₁ h₂ h₃
  · cases h
    exact ⟨not_not.mp h₁, Or.inl ⟨h₂.symm, rfl⟩⟩
  · cases h
    exact ⟨not_not.mp h₁, Or.inr ⟨h₃.symm, rfl⟩⟩

theorem getSession_found {t : ℕ} {i : Uuid} {env : Env} {b b' : Broker} {s : Session}
    (hx : Broker.exec crates t (.relay (.getSession i)) env b = some (some s, b')) :
    b.relay.sessions.lookup i = some s := by
  obtain ⟨rm, hrm, -⟩ := Broker.exec_relay hx
  exact (Prod.mk.inj (Option.some.inj hrm)).1

theorem promote_pending {t : ℕ} {i : Uuid} {env : Env} {b b' : Broker} {A B : String}
    (hx : Broker.exec crates t (.relay (.promote i B)) env b = some (.ok A, b')) :
    ∃ s, b.relay.sessions.lookup i = some s ∧ s.state = .pending := by
  obtain ⟨rm, hrm, -⟩ := Broker.exec_relay hx
  rcases RelayManager.exec_promote hrm with ⟨s, hs, -, hpending, -⟩ | ⟨-, ⟨e, he⟩, -⟩
  · exact ⟨s, hs, hpending⟩
  · cases he

theorem split_of_sublist {α : Type} {x y : α} {l : List α} (h : [x, y].Sublist l) :
    ∃ newer older, l = newer ++ y :: older ∧ x ∈ newer := by
  obtain ⟨l₁, l₂, rfl, hx, hy⟩ := List.cons_sublist_iff.mp h
  obtain ⟨l₃, l₄, rfl⟩ := List.append_of_mem (List.singleton_sublist.mp hy)
  exact ⟨l₁ ++ l₃, l₄, by simp, List.mem_append_left _ hx⟩

/-- Data goes to the channel the registry held for the other party `Y` when it was looked up, in a
session that `X` or `Y` requested, that the one who was asked accepted, and that had not been
dropped when the sender looked it up. -/
def Confined (crates : Crates) (hasDb : Bool) (db₀ : Database.Db ℕ) (tr : List BrokerEvent) :
    Prop :=
  ∀ tr₁ tr₂ t ch sid X data sent,
    tr = tr₂ ++ .performed t (.send ch (.relayData sid X data)) sent :: tr₁ →
    ∃ i A B Y peer newer older, sid = crates.uuidText i ∧
      (X = A ∧ Y = B ∨ X = B ∧ Y = A) ∧ peer.tx = ch ∧
      tr₁ = newer ++ .performed t (.relay (.getSession i)) (some ⟨A, B, .active⟩) :: older ∧
      Event.performed t (.registry (.getPeer Y)) (some peer) ∈ newer ∧
      DoneBy crates hasDb db₀ older A (.relay (.insertSession A B)) i ∧
      DoneBy crates hasDb db₀ older B (.relay (.promote i B)) (.ok A) ∧ ¬ Dropped older i

/-- From any earlier point of the run on, a session keeps its parties and stays active. -/
def Lasting (crates : Crates) (hasDb : Bool) (db₀ : Database.Db ℕ) (tr : List BrokerEvent)
    (σ : BrokerConfig) : Prop :=
  ∀ tr₁ tr₂ σ₁, tr = tr₂ ++ tr₁ → Run (broker crates hasDb) (fresh db₀) tr₁ σ₁ →
    ∀ i s s', σ₁.shared.relay.sessions.lookup i = some s →
      σ.shared.relay.sessions.lookup i = some s' →
      s'.initiator = s.initiator ∧ s'.responder = s.responder ∧
        (s.state = .active → s'.state = .active)

/-- No session is promoted twice. -/
def AcceptedOnce (tr : List BrokerEvent) : Prop :=
  ∀ tr₁ tr₂ t i A B, tr = tr₂ ++ .performed t (.relay (.promote i B)) (.ok A) :: tr₁ →
    ∀ A' B', ¬ Accepted tr₁ i A' B'

/-- Once dropped, an identifier is neither found nor promoted nor drawn again. -/
def DroppedForGood (tr : List BrokerEvent) : Prop :=
  ∀ tr₁ tr₂ t i, tr = tr₂ ++ .performed t (.relay (.removeSession i)) () :: tr₁ →
    (∀ u s, Event.performed u (.relay (.getSession i)) (some s) ∉ tr₂) ∧
      (∀ A B, ¬ Accepted tr₂ i A B) ∧ i ∉ drawn tr₂

variable {tr : List BrokerEvent} {σ : BrokerConfig}

theorem nodup_suffix {tr₁ : List BrokerEvent} (tr₂ : List BrokerEvent)
    (h : (drawn (tr₂ ++ tr₁)).Nodup) : (drawn tr₁).Nodup := by
  rw [drawn_append] at h
  exact (List.nodup_append.mp h).2.1

theorem confined_of_run (h : Run (broker crates hasDb) (fresh db₀) tr σ)
    (hfresh : (drawn tr).Nodup) : Confined crates hasDb db₀ tr := by
  rintro tr₁ tr₂ t ch sid X data sent rfl
  obtain ⟨σ₁, c, k, env, s', h₁, ht, -⟩ := performed_split h
  obtain ⟨hist, hJ, hsub⟩ := h₁.justified (J := fun _ _ => DataChecked crates) (fresh_idle db₀)
    (fun _ _ _ _ _ hs => start_checked hs) ht
  obtain ⟨i, s, Y, peer, hsid, hother, hch, hlooked⟩ := hJ ch sid X data rfl
  obtain ⟨hactive, hparties⟩ := Session.other_ok hother
  -- the two lookups, in the trace
  have hpair : [Event.performed t (.registry (.getPeer Y)) (some peer),
      .performed t (.relay (.getSession i)) (some s)].Sublist tr₁ := (hlooked.map _).trans hsub
  obtain ⟨newer, older, rfl, hpeer⟩ := split_of_sublist hpair
  obtain ⟨σ₂, c₂, k₂, env₂, s₂, h₂, -, hx₂⟩ := performed_split h₁
  have hfound := getSession_found hx₂
  have hnodup : (drawn older).Nodup := by
    apply nodup_suffix (tr₂ ++ .performed t (.send ch (.relayData sid X data)) sent ::
      (newer ++ [.performed t (.relay (.getSession i)) (some s)]))
    simpa using hfresh
  have hpast := (inv_of_run h₂ hnodup).stored i s hfound
  obtain ⟨u, hu⟩ := hpast.created
  obtain ⟨v, hv⟩ := hpast.accepted hactive
  obtain ⟨A, B, state⟩ := s
  cases hactive
  exact ⟨i, A, B, Y, peer, newer, older, hsid, hparties, hch, rfl, hpeer,
    doneBy_of_mem h₂ hu insertSession_phase, doneBy_of_mem h₂ hv promote_phase, hpast.kept⟩

theorem lasting_of_run (h : Run (broker crates hasDb) (fresh db₀) tr σ)
    (hfresh : (drawn tr).Nodup) : Lasting crates hasDb db₀ tr σ := by
  rintro tr₁ tr₂ σ₁ rfl h₁ i s s' hs hs'
  have hpast := (inv_of_run h₁ (nodup_suffix tr₂ hfresh)).stored i s hs
  have hpast' := (inv_of_run h hfresh).stored i s' hs'
  have hcreated : Created (tr₂ ++ tr₁) i s.initiator s.responder := by
    obtain ⟨t, ht⟩ := hpast.created
    exact ⟨t, List.mem_append_right _ ht⟩
  obtain ⟨hinit, hresp⟩ := hpast'.created.unique hfresh hcreated
  refine ⟨hinit, hresp, fun hactive => ?_⟩
  cases hstate : s'.state with
  | active => rfl
  | pending =>
    -- the acceptance of the earlier session stands in the later trace
    obtain ⟨t, ht⟩ := hpast.accepted hactive
    exact absurd ⟨t, List.mem_append_right _ ht⟩ (hpast'.pending hstate _ _)

theorem acceptedOnce_of_run (h : Run (broker crates hasDb) (fresh db₀) tr σ)
    (hfresh : (drawn tr).Nodup) : AcceptedOnce tr := by
  rintro tr₁ tr₂ t i A B rfl A' B' haccepted
  obtain ⟨σ₁, c, k, env, s', h₁, -, hx⟩ := performed_split h
  obtain ⟨s, hs, hpending⟩ := promote_pending hx
  have hnodup : (drawn tr₁).Nodup := by
    apply nodup_suffix (tr₂ ++ [.performed t (.relay (.promote i B)) (.ok A)])
    simpa using hfresh
  exact ((inv_of_run h₁ hnodup).stored i s hs).pending hpending A' B' haccepted

theorem droppedForGood_of_run (h : Run (broker crates hasDb) (fresh db₀) tr σ)
    (hfresh : (drawn tr).Nodup) : DroppedForGood tr := by
  rintro tr₁ tr₂ t i rfl
  have hdrop : ∀ older, Dropped (older ++ .performed t (.relay (.removeSession i)) () :: tr₁) i :=
    fun older => ⟨t, List.mem_append_right _ List.mem_cons_self⟩
  -- a session that is in the table later would have a past without the drop
  have hgone : ∀ newer older e, tr₂ = newer ++ e :: older → ∀ σ₁ s,
      Run (broker crates hasDb) (fresh db₀)
        (older ++ .performed t (.relay (.removeSession i)) () :: tr₁) σ₁ →
      σ₁.shared.relay.sessions.lookup i ≠ some s := by
    rintro newer older e rfl σ₁ s h₁ hs
    have hnodup : (drawn (older ++ .performed t (.relay (.removeSession i)) () :: tr₁)).Nodup := by
      apply nodup_suffix (newer ++ [e])
      simpa using hfresh
    exact ((inv_of_run h₁ hnodup).stored i s hs).kept (hdrop older)
  refine ⟨?_, ?_, ?_⟩
  · intro u s hmem
    obtain ⟨newer, older, rfl⟩ := List.append_of_mem hmem
    rw [List.append_assoc] at h
    obtain ⟨σ₁, c, k, env, s', h₁, -, hx⟩ := performed_split h
    exact hgone newer older _ rfl σ₁ s h₁ (getSession_found hx)
  · rintro A B ⟨u, hmem⟩
    obtain ⟨newer, older, rfl⟩ := List.append_of_mem hmem
    rw [List.append_assoc] at h
    obtain ⟨σ₁, c, k, env, s', h₁, -, hx⟩ := performed_split h
    obtain ⟨s, hs, -⟩ := promote_pending hx
    exact hgone newer older _ rfl σ₁ s h₁ hs
  · intro hi
    obtain ⟨σ₁, σ₂, h₁, hstep, -⟩ := h.split
    rw [drawn_append] at hfresh
    obtain ⟨-, hnodup, hcross⟩ := List.nodup_append.mp hfresh
    have hdrawn := (inv_of_run (.step h₁ hstep) hnodup).dropped i ⟨t, List.mem_cons_self⟩
    exact hcross i hi i hdrawn rfl

/-- In every run with fresh session identifiers, relayed data stays between the two parties of a
session its responder accepted; parties and acceptance last, no session is accepted twice, and a
dropped one is not used again. -/
theorem relay_needs_consent_of_both_parties (h : Run (broker crates hasDb) (fresh db₀) tr σ)
    (hfresh : (drawn tr).Nodup) :
    Confined crates hasDb db₀ tr ∧ Lasting crates hasDb db₀ tr σ ∧ AcceptedOnce tr ∧
      DroppedForGood tr :=
  ⟨confined_of_run h hfresh, lasting_of_run h hfresh, acceptedOnce_of_run h hfresh,
    droppedForGood_of_run h hfresh⟩

end Runs

/-! ## A session between two peers -/

open Scripts Crates

def firstId : Uuid := Vector.replicate 16 0

def firstIdText : String := "00000000-0000-0000-0000-000000000000"

/-- `a` asks for a session with `b`, `b` accepts, and `a` sends three bytes. -/
def exchange : List Cue :=
  joins 0 'a' ++ joins 1 'b' ++
  .say 0 'a' (.requestRelay (keyText 'a') (keyText 'b') 0 (signatureText 'a') none) ::
    steps 0 5 calm ++
  .say 1 'b' (.acceptRelay (keyText 'b') firstIdText 0 (signatureText 'b') none) ::
    steps 1 5 calm ++
  .say 0 'a' (.relay (keyText 'a') firstIdText "AAAA" 0 (signatureText 'a')) :: steps 0 5 calm

def delivers : BrokerEvent → Bool
  | .performed 0 (.send 1 (.relayData sid sender data)) sent =>
    sid = firstIdText && sender = keyText 'a' && data = "AAAA" && sent
  | _ => false

theorem exchange_delivers :
    (play false (fun _ _ _ => true) exchange [] (fresh DatabaseCalls.emptyDb)).map
      (fun x => (x.1.head?.elim false delivers, drawn x.1)) = some (true, [firstId]) := by
  decide +kernel

theorem exchange_between_parties : ∃ tr σ,
    Run (broker demo false) (fresh DatabaseCalls.emptyDb) tr σ ∧ (drawn tr).Nodup ∧
      (∃ t ch sid X data sent, Event.performed t (.send ch (.relayData sid X data)) sent ∈ tr) ∧
      Confined demo false DatabaseCalls.emptyDb tr := by
  obtain ⟨⟨tr, σ⟩, hp, heq⟩ := Option.map_eq_some_iff.mp exchange_delivers
  simp only [Prod.mk.injEq] at heq
  obtain ⟨hhead, hdrawn⟩ := heq
  have hfresh : (drawn tr).Nodup := by
    rw [hdrawn]
    exact List.nodup_singleton _
  have hrun := run_of_play false hp
  refine ⟨tr, σ, hrun, hfresh, ?_, (relay_needs_consent_of_both_parties hrun hfresh).1⟩
  cases tr with
  | nil => cases hhead
  | cons e tr =>
    simp only [List.head?_cons, Option.elim_some] at hhead
    unfold delivers at hhead
    split at hhead
    · exact ⟨_, _, _, _, _, _, List.mem_cons_self⟩
    · cases hhead

end HashedBroker.RelayConsent
