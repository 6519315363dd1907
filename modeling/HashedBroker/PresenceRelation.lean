import HashedBroker.SequentialRuns
import HashedBroker.PresenceIndexes
import HashedBroker.Scripts

/-!
# Subscriptions as a relation

What the two indexes are for: a set of pairs of a subscriber and a target. Calls that run to their
end one after the other, with whatever lists of targets, edit both indexes as they edit the set.
-/
namespace HashedBroker.PresenceRelation
open KeyedTables AtomicPrograms ReactiveTasks Protocol Presence PresenceIndexes Server Sessions

/-! ## The relation -/

def Call.apply (s : String) : Call → Set (String × String) → Set (String × String)
  | .subscribe targets, R => R ∪ {s} ×ˢ {x | x ∈ targets}
  | .unsubscribe targets, R => R \ {s} ×ˢ {x | x ∈ targets}
  | .clearSubscriber, R => R \ {s} ×ˢ Set.univ

/-- The pairs after some calls, the newest first. -/
def relation : List (String × Call) → Set (String × String)
  | [] => ∅
  | (s, call) :: calls => Call.apply s call (relation calls)

/-! ## The indexes as sets of pairs -/

/-- The pairs of `subscriptions` and the pairs of `watchers`. -/
def pairs (pm : PresenceManager) : Set (String × String) × Set (String × String) :=
  ({p | p.2 ∈ pm.targets p.1}, {p | p.1 ∈ pm.watching p.2})

def move (l : Set (String × String) × Set (String × String)) :
    Access → Set (String × String) × Set (String × String)
  | .insert s x => (insert (s, x) l.1, l.2)
  | .remove s x => (l.1 \ {(s, x)}, l.2)
  | .take s => (l.1 \ {s} ×ˢ Set.univ, l.2)
  | .watch x s => (l.1, insert (s, x) l.2)
  | .unwatch x s => (l.1, l.2 \ {(s, x)})
  | .dropWatchers x => (l.1, l.2 \ Set.univ ×ˢ {x})
  | _ => l

section Accesses

variable {t : ℕ} {order : List String} {pm pm' : PresenceManager} {a : Access} {r : a.Result}

theorem pairs_exec (h : pm.exec t order a = some (r, pm')) : pairs pm' = move (pairs pm) a := by
  have ht := PresenceManager.targets_exec h
  have hw := PresenceManager.watching_exec h
  apply Prod.ext
  · ext ⟨s, x⟩
    simp only [pairs, Set.mem_ofPred_eq, ht]
    cases a with
    | insert s' x' => by_cases hs : s = s' <;> simp [move, hs]
    | remove s' x' => by_cases hs : s = s' <;> simp [move, hs, and_comm]
    | take s' => by_cases hs : s = s' <;> simp [move, hs]
    | _ => rfl
  · ext ⟨s, x⟩
    simp only [pairs, Set.mem_ofPred_eq, hw]
    cases a with
    | watch x' s' => by_cases hx : x = x' <;> simp [move, hx]
    | unwatch x' s' => by_cases hx : x = x' <;> simp [move, hx, and_comm]
    | dropWatchers x' => by_cases hx : x = x' <;> simp [move, hx]
    | _ => rfl

/-- The access locks no entry of `subscriptions`, and unlocks none. -/
def LocksNone : Access → Prop
  | .entry _ | .getMut _ | .release => False
  | _ => True

theorem held_of_locksNone (h : pm.exec t order a = some (r, pm')) (ha : LocksNone a) :
    pm'.held = pm.held := by
  cases a with
  | take s =>
    rcases PresenceManager.exec_take h with ⟨ts, -, -, -, rfl⟩ | ⟨-, -, rfl⟩
    · rfl
    · rfl
  | unwatch x s =>
    rcases PresenceManager.exec_unwatch h with ⟨ws, -, -, rfl⟩ | ⟨-, -, rfl⟩
    · rfl
    · rfl
  | watchers x =>
    obtain ⟨rfl, -⟩ := PresenceManager.exec_watchers h
    rfl
  | insert s x => cases h; rfl
  | remove s x => cases h; rfl
  | watch x s => cases h; rfl
  | dropWatchers x => cases h; rfl
  | _ => exact ha.elim

def Unlocked (held : Table ℕ String) : Prop := ∀ u, held.lookup u = none

def LockedOnlyBy (t : ℕ) (held : Table ℕ String) : Prop := ∀ u, u ≠ t → held.lookup u = none

theorem Unlocked.lockedOnlyBy {held : Table ℕ String} (h : Unlocked held) : LockedOnlyBy t held :=
  fun u _ => h u

theorem lockedOnlyBy_exec (h : LockedOnlyBy t pm.held) (hx : pm.exec t order a = some (r, pm')) :
    LockedOnlyBy t pm'.held := by
  intro u hu
  rw [← h u hu]
  cases a with
  | entry s =>
    rw [PresenceManager.exec_entry hx]
    simp only [lookup_insert_ite, if_neg hu]
  | getMut s =>
    rcases PresenceManager.exec_getMut hx with ⟨-, rfl⟩ | ⟨-, -, rfl⟩
    · simp only [lookup_insert_ite, if_neg hu]
    · rfl
  | release =>
    cases hx
    simp only [lookup_erase_ite, if_neg hu]
  | _ => rw [held_of_locksNone hx trivial]

/-- Where nobody else holds an entry, every access is possible. -/
theorem exec_total (h : LockedOnlyBy t pm.held) (a : Access) :
    ∃ order r pm', pm.exec t order a = some (r, pm') := by
  have hfree : ∀ s, pm.locked t s = false := by
    intro s
    rw [PresenceManager.locked, anyBinding_eq_false]
    intro u s' hl
    by_cases hu : u = t
    · simp [hu]
    · rw [h u hu] at hl
      cases hl
  have hlists : ∀ set : Finset String, Lists set.toList set :=
    fun set => ⟨set.nodup_toList, set.toList_toFinset⟩
  cases a with
  | getMut s =>
    cases hl : pm.subscriptions.lookup s <;> simp [PresenceManager.exec, hfree, hl]
  | take s =>
    cases hl : pm.subscriptions.lookup s with
    | none => simp [PresenceManager.exec, hfree, hl]
    | some ts => exact ⟨ts.toList, by simp [PresenceManager.exec, hfree, hl, hlists]⟩
  | unwatch x s =>
    cases hl : pm.watchers.lookup x <;> simp [PresenceManager.exec, hl]
  | watchers x =>
    cases hl : pm.watchers.lookup x with
    | none => simp [PresenceManager.exec, hl]
    | some ws => exact ⟨ws.toList, by simp [PresenceManager.exec, hl, hlists]⟩
  | _ => simp [PresenceManager.exec, hfree]

end Accesses

/-! ## The methods -/

/-- The accesses of a manager that nothing else touches. -/
abbrev manager := presenceCalls name

def whole : View manager PresenceManager where
  of := id
  steady x _ _ _ := x.elim

section Methods

variable {t : ℕ} {s x : String} {T W R : Set (String × String)} {H : Table ℕ String → Prop}

/-- The pairs of the two indexes, and who holds entries. -/
def Holds (T W : Set (String × String)) (H : Table ℕ String → Prop) (pm : PresenceManager) : Prop :=
  pairs pm = (T, W) ∧ H pm.held

/-- Run alone, the method leads from one assertion to another. -/
abbrev Leads (t : ℕ) {α : Type} (P : PresenceManager → Prop) (p : Method α)
    (Q : α → PresenceManager → Prop) : Prop := Triple (fun _ => True) t whole P p Q

/-- The rule for an access that locks nothing. -/
theorem leads_access {α : Type} {a : Access} {k : a.Result → Method α}
    {Q : α → PresenceManager → Prop} (ha : LocksNone a)
    (hk : ∀ r, Leads t (Holds (move (T, W) a).1 (move (T, W) a).2 H) (k r) Q) :
    Leads t (Holds T W H) (access a >>= k) Q := by
  refine triple_call (fun _ => Holds (move (T, W) a).1 (move (T, W) a).2 H) ?_ hk
  rintro order pm r pm' - ⟨hpairs, hheld⟩ hx
  refine ⟨?_, (held_of_locksNone hx ha).symm ▸ hheld⟩
  rw [← hpairs]
  exact pairs_exec hx

theorem locks {a : Access} (order : List String) (pm : PresenceManager) (r : a.Result)
    (pm' : PresenceManager) (ha : move (pairs pm) a = pairs pm)
    (h : Holds R R Unlocked pm) (hx : pm.exec t order a = some (r, pm')) :
    Holds R R (LockedOnlyBy t) pm' := by
  refine ⟨?_, lockedOnlyBy_exec h.2.lockedOnlyBy hx⟩
  rw [pairs_exec hx, ha]
  exact h.1

theorem release_leads : Leads t (Holds T W (LockedOnlyBy t)) (access .release) fun _ =>
    Holds T W Unlocked := by
  refine triple_call (fun _ => Holds T W Unlocked) ?_ fun _ => triple_done fun _ hv => hv
  rintro order pm r pm' - ⟨hpairs, hheld⟩ hx
  cases hx
  refine ⟨hpairs, fun u => ?_⟩
  change (pm.held.erase t).lookup u = none
  rw [lookup_erase_ite]
  split_ifs with hu
  · rfl
  · exact hheld u hu

theorem unwatch_leads (s x : String) :
    Leads t (Holds T W H) (unwatch s x) fun _ => Holds T (W \ {(s, x)}) H := by
  refine triple_call (fun emptied pm => Holds T (W \ {(s, x)}) H pm ∧
    (emptied = true → pm.watching x = ∅)) ?_ fun emptied => ?_
  · rintro order pm emptied pm' - ⟨hpairs, hheld⟩ hx
    have hx' : pm.exec t order (.unwatch x s) = some (emptied, pm') := hx
    refine ⟨⟨?_, (held_of_locksNone hx' trivial).symm ▸ hheld⟩, fun hemptied => ?_⟩
    · have hmove := pairs_exec hx'
      rw [show pairs pm = (T, W) from hpairs] at hmove
      exact hmove
    · have hw := PresenceManager.watching_exec hx' x
      simp only [if_true] at hw
      change pm'.watching x = ∅
      rw [hw]
      rcases PresenceManager.exec_unwatch hx' with ⟨ws, hws, rfl, -⟩ | ⟨-, rfl, -⟩
      · simpa [PresenceManager.watching, hws] using hemptied
      · cases hemptied
  · cases emptied with
    | true =>
      refine triple_call (fun _ => Holds T (W \ {(s, x)}) H) ?_ fun _ => triple_done fun _ hv => hv
      rintro order pm r pm' - ⟨⟨hpairs, hheld⟩, hempty⟩ hx
      have hx' : pm.exec t order (.dropWatchers x) = some (r, pm') := hx
      have hpairs' : pairs pm = (T, W \ {(s, x)}) := hpairs
      have hnone : pm.watching x = ∅ := hempty rfl
      refine ⟨?_, (held_of_locksNone hx' trivial).symm ▸ hheld⟩
      change pairs pm' = _
      rw [pairs_exec hx', hpairs', move, Prod.mk.injEq]
      refine ⟨rfl, (Set.disjoint_left.mpr ?_).sdiff_eq_left⟩
      rintro ⟨s', y⟩ hmem ⟨-, hy⟩
      obtain rfl : y = x := hy
      have hin : (s', y) ∈ (pairs pm).2 := hpairs'.symm ▸ hmem
      have hwatch : s' ∈ pm.watching y := hin
      rw [hnone] at hwatch
      exact Finset.notMem_empty s' hwatch
    | false => exact triple_done fun v hv => hv.1

theorem subscribeEach_leads (s : String) (targets : List String) :
    Leads t (Holds T W H) (subscribeEach s targets) fun _ =>
      Holds (T ∪ {s} ×ˢ {x | x ∈ targets}) (W ∪ {s} ×ˢ {x | x ∈ targets}) H := by
  induction targets generalizing T W with
  | nil => exact triple_done fun v hv => by simpa using hv
  | cons x xs ih =>
    have hcons : ∀ R : Set (String × String), insert (s, x) R ∪ {s} ×ˢ {y | y ∈ xs} =
        R ∪ {s} ×ˢ {y | y ∈ x :: xs} := by
      intro R
      ext ⟨s', y⟩
      simp only [Set.mem_union, Set.mem_insert_iff, Set.mem_prod, Set.mem_singleton_iff,
        Set.mem_ofPred_eq, List.mem_cons, Prod.mk.injEq]
      tauto
    refine leads_access (a := .insert s x) trivial fun _ => ?_
    refine leads_access (a := .watch x s) trivial fun _ => ?_
    rw [← hcons T, ← hcons W]
    exact ih

theorem subscribe_leads (s : String) (targets : List String) :
    Leads t (Holds R R Unlocked) (subscribe s targets) fun _ =>
      Holds (Call.apply s (.subscribe targets) R) (Call.apply s (.subscribe targets) R) Unlocked := by
  refine triple_call (fun _ => Holds R R (LockedOnlyBy t)) ?_ fun _ => ?_
  · exact fun order pm r pm' _ h hx => locks order pm r pm' rfl h hx
  · exact (subscribeEach_leads s targets).bind fun _ => release_leads

theorem sdiff_cons (R : Set (String × String)) (s x : String) (xs : List String) :
    (R \ {(s, x)}) \ {s} ×ˢ {y | y ∈ xs} = R \ {s} ×ˢ {y | y ∈ x :: xs} := by
  ext ⟨s', y⟩
  simp only [Set.mem_sdiff, Set.mem_singleton_iff, Set.mem_prod, Set.mem_ofPred_eq, List.mem_cons,
    Prod.mk.injEq]
  tauto

theorem unsubscribeEach_leads (s : String) (targets : List String) :
    Leads t (Holds T W H) (unsubscribeEach s targets) fun _ =>
      Holds (T \ {s} ×ˢ {x | x ∈ targets}) (W \ {s} ×ˢ {x | x ∈ targets}) H := by
  induction targets generalizing T W with
  | nil => exact triple_done fun v hv => by simpa using hv
  | cons x xs ih =>
    refine leads_access (a := .remove s x) trivial fun _ => ?_
    refine (unwatch_leads s x).bind fun _ => ?_
    rw [← sdiff_cons T, ← sdiff_cons W]
    exact ih

theorem sdiff_of_absent {pm : PresenceManager} (h : Holds R R H pm)
    (hnone : pm.subscriptions.lookup s = none) (X : Set String) : R \ {s} ×ˢ X = R := by
  refine (Set.disjoint_left.mpr ?_).sdiff_eq_left
  rintro ⟨s', x⟩ hmem ⟨hs, -⟩
  obtain rfl : s' = s := hs
  have hin : (s', x) ∈ (pairs pm).1 := h.1.symm ▸ hmem
  have htarget : x ∈ pm.targets s' := hin
  rw [PresenceManager.targets, hnone] at htarget
  exact Finset.notMem_empty x htarget

theorem unsubscribe_leads (s : String) (targets : List String) :
    Leads t (Holds R R Unlocked) (unsubscribe s targets) fun _ =>
      Holds (Call.apply s (.unsubscribe targets) R) (Call.apply s (.unsubscribe targets) R)
        Unlocked := by
  refine triple_call (fun found pm => if found then Holds R R (LockedOnlyBy t) pm else
    R \ {s} ×ˢ {x | x ∈ targets} = R ∧ Holds R R Unlocked pm) ?_ fun found => ?_
  · intro order pm found pm' _ h hx
    have hlocks := locks order pm found pm' rfl h hx
    cases found with
    | true => exact hlocks
    | false =>
      change pm.exec t order (.getMut s) = some (false, pm') at hx
      rcases PresenceManager.exec_getMut hx with ⟨hfound, -⟩ | ⟨-, hnone, rfl⟩
      · cases hfound
      · exact ⟨sdiff_of_absent h hnone _, h⟩
  · cases found with
    | true => exact (unsubscribeEach_leads s targets).bind fun _ => release_leads
    | false =>
      refine triple_done ?_
      rintro pm ⟨hsame, h⟩
      rw [Call.apply, hsame]
      exact h

theorem unwatchEach_leads (s : String) (targets : List String) :
    Leads t (Holds T W H) (unwatchEach s targets) fun _ =>
      Holds T (W \ {s} ×ˢ {x | x ∈ targets}) H := by
  induction targets generalizing W with
  | nil => exact triple_done fun v hv => by simpa using hv
  | cons x xs ih =>
    refine (unwatch_leads s x).bind fun _ => ?_
    rw [← sdiff_cons W]
    exact ih

theorem clearSubscriber_leads (s : String) :
    Leads t (Holds R R Unlocked) (clearSubscriber s) fun _ =>
      Holds (Call.apply s .clearSubscriber R) (Call.apply s .clearSubscriber R) Unlocked := by
  refine triple_call (fun taken pm => Holds (R \ {s} ×ˢ Set.univ) R Unlocked pm ∧
    R \ {s} ×ˢ {x | x ∈ taken.getD []} = R \ {s} ×ˢ Set.univ) ?_ fun taken => ?_
  · intro order pm taken pm' _ h hx
    have hx' : pm.exec t order (.take s) = some (taken, pm') := hx
    have hpairs : pairs pm = (R, R) := h.1
    refine ⟨⟨?_, (held_of_locksNone hx' trivial).symm ▸ h.2⟩, ?_⟩
    · change pairs pm' = _
      rw [pairs_exec hx', hpairs]
      rfl
    · ext ⟨s', x⟩
      have hpair : x ∈ pm.targets s' ↔ (s', x) ∈ R := Set.ext_iff.mp (congrArg Prod.fst hpairs) (s', x)
      have hanswer := take_answer hx' x
      simp only [Set.mem_sdiff, Set.mem_prod, Set.mem_singleton_iff, Set.mem_ofPred_eq, hanswer,
        Set.mem_univ, and_true]
      constructor
      · rintro ⟨hin, hout⟩
        refine ⟨hin, fun hs => hout ⟨hs, ?_⟩⟩
        rwa [← hs, hpair]
      · rintro ⟨hin, hs⟩
        exact ⟨hin, fun hc => hs hc.1⟩
  · cases taken with
    | none =>
      refine triple_done ?_
      rintro pm ⟨h, hsame⟩
      have hR : R = R \ {s} ×ˢ Set.univ := by simpa using hsame
      rw [Call.apply, ← hR]
      rwa [← hR] at h
    | some targets =>
      by_cases hsame : R \ {s} ×ˢ {x | x ∈ targets} = R \ {s} ×ˢ Set.univ
      · have heach : Leads t (Holds (R \ {s} ×ˢ Set.univ) R Unlocked) (unwatchEach s targets)
            fun _ => Holds (R \ {s} ×ˢ Set.univ) (R \ {s} ×ˢ {x | x ∈ targets}) Unlocked :=
          unwatchEach_leads s targets
        rw [hsame] at heach
        exact heach.mono (fun _ hv => hv.1) fun _ _ hv => hv
      · exact triple_absurd fun _ hv => hsame hv.2

end Methods

/-! ## Sequences of calls -/

/-- Calls that have run to their end one after the other, the newest first. -/
inductive Called : List (String × Call) → PresenceManager → Prop
  | none : Called [] .empty
  | call {calls : List (String × Call)} {pm pm' : PresenceManager} {t : ℕ} {s : String}
      {call : Call} {hist : Prog.History Access Access.Result} (prior : Called calls pm)
      (made : Returns manager t (call.program s) pm hist pm' ()) :
      Called ((s, call) :: calls) pm'

section Sequences

variable {calls : List (String × Call)} {pm pm' : PresenceManager} {t : ℕ} {s x : String}
  {hist : Prog.History Access Access.Result}

theorem program_leads (s : String) (call : Call) (R : Set (String × String)) :
    Leads t (Holds R R Unlocked) (call.program s) fun _ =>
      Holds (Call.apply s call R) (Call.apply s call R) Unlocked := by
  cases call with
  | subscribe targets => exact subscribe_leads s targets
  | unsubscribe targets => exact unsubscribe_leads s targets
  | clearSubscriber => exact clearSubscriber_leads s

theorem Called.holds (h : Called calls pm) :
    Holds (relation calls) (relation calls) Unlocked pm := by
  induction h with
  | none =>
    refine ⟨?_, fun u => rfl⟩
    simp [pairs, PresenceManager.targets, PresenceManager.watching, PresenceManager.empty, relation]
  | @call calls pm pm' t s call hist prior made ih =>
    exact program_leads s call (relation calls) pm hist pm' () ih made

theorem Called.targets (h : Called calls pm) : x ∈ pm.targets s ↔ (s, x) ∈ relation calls :=
  Set.ext_iff.mp (congrArg Prod.fst h.holds.1) (s, x)

theorem Called.watching (h : Called calls pm) : s ∈ pm.watching x ↔ (s, x) ∈ relation calls :=
  Set.ext_iff.mp (congrArg Prod.snd h.holds.1) (s, x)

/-- Between calls every method can be run to its end. -/
theorem Called.completes (h : Called calls pm) (t : ℕ) {α : Type} (p : Method α) :
    ∃ hist pm' a, Returns manager t p pm hist pm' a := by
  have hstep : ∀ a pm, True → LockedOnlyBy t pm.held → True ∧ ∃ pm₀ order r pm',
      Disturbed manager pm pm₀ ∧ manager.exec t a order pm₀ = some (r, pm') ∧
        LockedOnlyBy t pm'.held := by
    intro a pm _ hlocked
    obtain ⟨order, r, pm', hx⟩ := exec_total hlocked a
    exact ⟨trivial, pm, order, r, pm', .refl, hx, lockedOnlyBy_exec hlocked hx⟩
  obtain ⟨hist, pm', a, he, -⟩ := Evaluates.of_always (Prog.always_of (fun _ => trivial) p) hstep
    h.holds.2.lockedOnlyBy
  exact ⟨hist, pm', a, he⟩

theorem Called.next (h : Called calls pm) (s : String) (call : Call) :
    ∃ pm', Called ((s, call) :: calls) pm' := by
  obtain ⟨hist, pm', ⟨⟩, he⟩ := h.completes 0 (call.program s)
  exact ⟨pm', Called.call (t := 0) h he⟩

theorem watchers_answer {order : List String} {r : Option (List String)}
    (h : pm.exec t order (.watchers x) = some (r, pm')) :
    pm' = pm ∧ (r.getD []).Nodup ∧ ∀ s, s ∈ r.getD [] ↔ s ∈ pm.watching x := by
  obtain ⟨rfl, ⟨ws, hws, rfl, hlist⟩ | ⟨hnone, rfl⟩⟩ := PresenceManager.exec_watchers h
  · refine ⟨rfl, hlist.1, fun s => ?_⟩
    rw [PresenceManager.watching, hws, Option.getD_some, Option.getD_some, ← hlist.2,
      List.mem_toFinset]
  · simp [PresenceManager.watching, hnone]

theorem Called.watchersOf (h : Called calls pm) {ws : List String}
    (he : Returns manager t (Presence.watchersOf x) pm hist pm' ws) :
    pm' = pm ∧ ws.Nodup ∧ ∀ s, s ∈ ws ↔ (s, x) ∈ relation calls := by
  obtain ⟨pm₀, order, r, pm₁, h₁, hsame, hx, hrest, -⟩ := he.of_call whole
  obtain ⟨hsame', hws⟩ := hrest.of_done whole
  obtain rfl : pm₀ = pm := hsame
  obtain rfl : pm' = pm₁ := hsame'
  have hx' : pm₀.exec t order (.watchers x) = some (r, pm') := hx
  obtain ⟨hpm, hnodup, hmem⟩ := watchers_answer hx'
  rw [hws]
  refine ⟨hpm, hnodup, fun s => ?_⟩
  rw [← h.watching]
  exact hmem s

end Sequences

/-! ## Broadcasts -/

section Broadcasts

variable {crates : Crates} {hasDb : Bool} {t : ℕ} {b b' : Broker} {x : String} {α : Type}
  {payload : ServerMessage} {hist : Prog.History Op Res} {calls : List (String × Call)}

/-- The subscriptions, the registry and what has been enqueued. -/
def enqueuedView (crates : Crates) (hasDb : Bool) : View (broker crates hasDb)
    (PresenceManager × Registry.PeerRegistry × (ℕ → List ServerMessage)) where
  of b := (b.presence, b.registry, fun c => (b.channels c).sent)
  steady x b b' h := by
    obtain ⟨channels, rfl⟩ := Broker.writerStep_frame h
    simp only [Prod.mk.injEq, true_and]
    exact funext fun c => Broker.writerStep_sent h c

theorem closed_of_evaluates {p : Work α} {a : α} {ok : Op → Prop} {c : ℕ}
    (he : Evaluates (broker crates hasDb) ok t p b hist b' a)
    (hclosed : (b.channels c).closed = true) : (b'.channels c).closed = true := by
  induction he with
  | done => exact hclosed
  | call _ answered _ ih => exact ih (Broker.exec_closed answered hclosed)
  | disturbed outside _ ih => exact ih (Broker.writerStep_closed outside hclosed)

/-- A message that has come to a channel, after those that were there. -/
def delivered (payload : ServerMessage) (c : ℕ) (peer : Option Registry.PeerHandle)
    (sent : List ServerMessage) : List ServerMessage :=
  if peer.map (·.tx) = some c then payload :: sent else sent

theorem broadcastEach_turn {w : String} {ws : List String}
    (he : Returns (broker crates hasDb) t (broadcastEach payload (w :: ws)) b hist
      b' ()) (hopen : ∀ c, (b'.channels c).closed = false) :
    ∃ b₁ hist₁, Returns (broker crates hasDb) t (broadcastEach payload ws) b₁ hist₁
      b' () ∧ b₁.presence = b.presence ∧ b₁.registry = b.registry ∧
      ∀ c, (b₁.channels c).sent =
        delivered payload c (b.registry.byPubkey.lookup w) (b.channels c).sent := by
  obtain ⟨b₀, env, r, b₁, hist₁, hview, hx, hrest, -⟩ := he.of_call (enqueuedView crates hasDb)
  simp only [enqueuedView, Prod.mk.injEq] at hview
  obtain ⟨hpresence, hregistry, hsent⟩ := hview
  cases hx
  have hpeer : (b₀.registry.exec (.getPeer w)).1 = b.registry.byPubkey.lookup w := by
    rw [← hregistry]
    rfl
  cases hl : b.registry.byPubkey.lookup w with
  | none =>
    rw [hpeer.trans hl] at hrest
    exact ⟨_, hist₁, hrest, hpresence, hregistry, fun c => congrFun hsent c⟩
  | some peer =>
    rw [hpeer.trans hl] at hrest
    obtain ⟨b₂, env₂, sent, b₃, hist₂, hview₂, hx₂, hrest₂, -⟩ :=
      Evaluates.of_call (enqueuedView crates hasDb) (o := .send peer.tx payload) hrest
    simp only [enqueuedView, Prod.mk.injEq] at hview₂
    obtain ⟨hpresence₂, hregistry₂, hsent₂⟩ := hview₂
    have hx₂' : Broker.exec crates t (.send peer.tx payload) env₂ b₂ = some (sent, b₃) := hx₂
    have hframe := Broker.exec_frame hx₂'
    refine ⟨_, hist₂, hrest₂, (hframe.presence (by simp)).trans (hpresence₂.trans hpresence),
      (hframe.registry (by simp)).trans (hregistry₂.trans hregistry), fun c => ?_⟩
    -- a channel that were closed would still be so at the end
    have hopen₂ : (b₂.channels peer.tx).closed = false := by
      cases hclosed : (b₂.channels peer.tx).closed with
      | false => rfl
      | true =>
        have hend := closed_of_evaluates hrest₂ (Broker.exec_closed hx₂' hclosed)
        rw [hopen] at hend
        cases hend
    have hsent' : ∀ c, (b₂.channels c).sent = (b.channels c).sent := fun c =>
      (congrFun hsent₂ c).trans (congrFun hsent c)
    rcases Broker.sent_of_send hx₂' with ⟨hclosed, -⟩ | ⟨-, -, hnew, hsame⟩
    · rw [hopen₂] at hclosed
      cases hclosed
    · simp only [delivered, Option.map_some, Option.some.injEq]
      by_cases hc : peer.tx = c
      · subst hc
        rw [hnew, hsent', if_pos rfl]
      · rw [hsame c (Ne.symm hc), hsent', if_neg hc]

theorem broadcastEach_sends {ws : List String}
    (he : Returns (broker crates hasDb) t (broadcastEach payload ws) b hist b' ())
    (hopen : ∀ c, (b'.channels c).closed = false) (c : ℕ) :
    (b'.channels c).sent =
      List.replicate (ws.countP fun w => (b.registry.byPubkey.lookup w).map (·.tx) = some c) payload ++
        (b.channels c).sent := by
  induction ws generalizing b hist with
  | nil =>
    have hview := (Evaluates.of_done (enqueuedView crates hasDb) he).1
    simp only [enqueuedView, Prod.mk.injEq] at hview
    exact congrFun hview.2.2 c
  | cons w ws ih =>
    obtain ⟨b₁, hist₁, hrest, -, hregistry, hsent⟩ := broadcastEach_turn he hopen
    rw [ih hrest, hregistry, hsent, List.countP_cons, delivered]
    by_cases hw : (b.registry.byPubkey.lookup w).map (·.tx) = some c
    · simp [hw, List.replicate_succ']
    · simp [hw]

theorem countP_eq_ncard {ws : List String} {P : String → Prop} (hnodup : ws.Nodup)
    (hmem : ∀ s, s ∈ ws ↔ P s) (q : String → Prop) [DecidablePred q] :
    ws.countP (fun s => q s) = {s | P s ∧ q s}.ncard := by
  have hset : {s | P s ∧ q s} = ↑(ws.filter (fun s => q s)).toFinset := by
    ext s
    simp [hmem]
  rw [hset, Set.ncard_coe_finset, List.toFinset_card_of_nodup (hnodup.filter _),
    List.countP_eq_length_filter]

/-- A broadcast while no channel is closed: what each channel has got. -/
theorem Called.broadcast_sends (h : Called calls b.presence) {online : Bool}
    (he : Returns (broker crates hasDb) t (broadcast x online) b hist b' ())
    (hopen : ∀ c, (b'.channels c).closed = false) (c : ℕ) :
    (b'.channels c).sent =
      List.replicate {s | (s, x) ∈ relation calls ∧
        (b.registry.byPubkey.lookup s).map (·.tx) = some c}.ncard (.presenceUpdate x online) ++
      (b.channels c).sent := by
  obtain ⟨b₀, env, r, b₁, hist₁, hview, hx, hrest, -⟩ := he.of_call (enqueuedView crates hasDb)
  simp only [enqueuedView, Prod.mk.injEq] at hview
  obtain ⟨hpresence, hregistry, hsent⟩ := hview
  have hx' : Broker.exec crates t (.presence (.watchers x)) env b₀ = some (r, b₁) := hx
  obtain ⟨pm, hpm, rfl⟩ := Broker.exec_presence hx'
  obtain ⟨-, hnodup, hmem⟩ := watchers_answer hpm
  have hlisted : ∀ s, s ∈ r.getD [] ↔ (s, x) ∈ relation calls := by
    intro s
    rw [hmem, hpresence]
    exact h.watching
  rw [← countP_eq_ncard hnodup hlisted fun s => (b.registry.byPubkey.lookup s).map (·.tx) = some c]
  cases r with
  | none =>
    have hsame := (Evaluates.of_done (enqueuedView crates hasDb) hrest).1
    simp only [enqueuedView, Prod.mk.injEq] at hsame
    simp only [Option.getD_none, List.countP_nil, List.replicate_zero, List.nil_append]
    exact (congrFun hsame.2.2 c).trans (congrFun hsent c)
  | some ws =>
    have hsends := broadcastEach_sends hrest hopen c
    simp only [Broker.withPresence, hregistry] at hsends
    rw [hsends]
    exact congrArg _ (congrFun hsent c)

theorem drained (b : Broker) (c : ℕ) : Disturbed (broker crates hasDb) b
    (b.withChannel c { b.channels c with queued := 0 }) := by
  induction hn : (b.channels c).queued generalizing b with
  | zero =>
    have hsame : { b.channels c with queued := 0 } = b.channels c := by rw [← hn]
    rw [hsame, Broker.withChannel, Function.update_eq_self]
    exact .refl
  | succ n ih =>
    have hstep : (broker crates hasDb).disturb (.drained c) b =
        some (b.withChannel c { b.channels c with queued := n }) := by
      change Broker.writerStep b (.drained c) = _
      simp [Broker.writerStep, hn]
    refine .head ⟨_, hstep⟩ ?_
    have hrest := ih (b.withChannel c { b.channels c with queued := n }) (by
      simp [Broker.withChannel])
    simp only [Broker.withChannel, Function.update_self, Function.update_idem] at hrest ⊢
    exact hrest

/-- While the writers go on, a broadcast comes to its end. -/
theorem Called.broadcast_completes (h : Called calls b.presence)
    (hopen : ∀ c, (b.channels c).closed = false) (t : ℕ) (x : String) (online : Bool) :
    ∃ hist b', Returns (broker crates hasDb) t (broadcast x online) b hist b' () ∧
      ∀ c, (b'.channels c).closed = false := by
  have hstep : ∀ o b, (∃ y, o = .presence (.watchers y)) ∨ (∃ y, o = .registry (.getPeer y)) ∨
      (∃ c msg, o = .send c msg) → LockedOnlyBy t b.presence.held ∧
        (∀ c, (b.channels c).closed = false) → True ∧ ∃ b₀ env r b',
      Disturbed (broker crates hasDb) b b₀ ∧
        (broker crates hasDb).exec t o env b₀ = some (r, b') ∧
        LockedOnlyBy t b'.presence.held ∧ ∀ c, (b'.channels c).closed = false := by
    rintro o b (⟨y, rfl⟩ | ⟨y, rfl⟩ | ⟨c, msg, rfl⟩) ⟨hlocked, hopen⟩
    · obtain ⟨order, r, pm, hx⟩ := exec_total hlocked (.watchers y)
      refine ⟨trivial, b, { Scripts.calm with order := order }, r, b.withPresence pm, .refl, ?_,
        lockedOnlyBy_exec hlocked hx, hopen⟩
      simp only [broker, Broker.exec, hx, Option.map_some]
    · exact ⟨trivial, b, Scripts.calm, _, _, .refl, rfl, hlocked, hopen⟩
    · refine ⟨trivial, _, Scripts.calm, true,
        (b.withChannel c { b.channels c with queued := 0 }).withChannel c
          ⟨msg :: (b.channels c).sent, 1, false⟩, drained b c, ?_, hlocked, fun c' => ?_⟩
      · simp [broker, Broker.exec, Broker.withChannel, Channel.send, Channel.capacity, hopen]
      · simp only [Broker.withChannel, Function.update_idem]
        by_cases hc : c' = c
        · subst hc
          rw [Function.update_self]
        · rw [Function.update_of_ne hc]
          exact hopen c'
  obtain ⟨hist, b', ⟨⟩, he, -, hopen'⟩ := Evaluates.of_always
    (broadcast_always x online (Or.inl ⟨_, rfl⟩) (fun _ => Or.inr (Or.inl ⟨_, rfl⟩))
      fun _ => Or.inr (Or.inr ⟨_, _, rfl⟩)) hstep ⟨h.holds.2.lockedOnlyBy, hopen⟩
  exact ⟨hist, b', he, hopen'⟩

end Broadcasts

/-! ## The manager implements the relation -/

/-- The manager behaves as the relation: the indexes are the relation, every further call comes to
its end, `watchers_of` lists the watchers once each, and a broadcast while no channel is closed puts
one update for each watcher in the registry on that watcher's channel, and nothing else on any. -/
structure Implements (R : Set (String × String)) (pm : PresenceManager) : Prop where
  targets : ∀ s x, x ∈ pm.targets s ↔ (s, x) ∈ R
  watching : ∀ s x, s ∈ pm.watching x ↔ (s, x) ∈ R
  calls : ∀ t s (call : Call), ∃ hist pm',
    Returns manager t (call.program s) pm hist pm' ()
  lists : ∀ t x, ∃ hist pm' ws,
    Returns manager t (watchersOf x) pm hist pm' ws
  listed : ∀ t x hist pm' ws, Returns manager t (watchersOf x) pm hist pm' ws →
    pm' = pm ∧ ws.Nodup ∧ ∀ s, s ∈ ws ↔ (s, x) ∈ R
  broadcasts : ∀ crates hasDb t x online (b : Broker), b.presence = pm →
    (∀ c, (b.channels c).closed = false) → ∃ hist b',
      Returns (broker crates hasDb) t (broadcast x online) b hist b' () ∧
        ∀ c, (b'.channels c).closed = false
  enqueued : ∀ crates hasDb t x online (b : Broker) hist b', b.presence = pm →
    Returns (broker crates hasDb) t (broadcast x online) b hist b' () →
    (∀ c, (b'.channels c).closed = false) → ∀ c, (b'.channels c).sent =
      List.replicate {s | (s, x) ∈ R ∧ (b.registry.byPubkey.lookup s).map (·.tx) = some c}.ncard
        (.presenceUpdate x online) ++ (b.channels c).sent

/-- After every sequence of complete calls, with whatever subscribers and lists of targets, the
manager implements the relation that the calls make. -/
theorem manager_implements_relation {calls : List (String × Call)} {pm : PresenceManager}
    (h : Called calls pm) : Implements (relation calls) pm where
  targets _ _ := h.targets
  watching _ _ := h.watching
  calls t s call := by
    obtain ⟨hist, pm', ⟨⟩, he⟩ := h.completes t (call.program s)
    exact ⟨hist, pm', he⟩
  lists t x := h.completes t (watchersOf x)
  listed _ _ _ _ _ he := h.watchersOf he
  broadcasts crates hasDb t x online b hb hopen := by
    subst hb
    exact h.broadcast_completes hopen t x online
  enqueued crates hasDb t x online b hist b' hb he hopen := by
    subst hb
    exact h.broadcast_sends he hopen

/-- One subscribes to a target twice over, another to it and to itself, and the first takes back
what it never had. -/
theorem manager_implements_relation_two : ∃ pm,
    Called [("a", .unsubscribe ["u", "u"]), ("b", .subscribe ["t", "b"]),
      ("a", .subscribe ["t", "t"])] pm ∧
      ∀ hist pm' ws, Returns manager 0 (watchersOf "t") pm hist pm' ws →
        ws.Nodup ∧ ∀ s, s ∈ ws ↔ s = "a" ∨ s = "b" := by
  obtain ⟨pm₁, h₁⟩ := Called.none.next "a" (.subscribe ["t", "t"])
  obtain ⟨pm₂, h₂⟩ := h₁.next "b" (.subscribe ["t", "b"])
  obtain ⟨pm, h⟩ := h₂.next "a" (.unsubscribe ["u", "u"])
  refine ⟨pm, h, fun hist pm' ws he => ?_⟩
  obtain ⟨-, hnodup, hmem⟩ := (manager_implements_relation h).listed 0 "t" hist pm' ws he
  refine ⟨hnodup, fun s => ?_⟩
  rw [hmem]
  simp [relation, Call.apply]

end HashedBroker.PresenceRelation
