import HashedBroker.Presence
import HashedBroker.ReactiveTasks

/-!
# The two indexes of the subscriptions

Calls of different subscribers interleave between their accesses to `watchers`. A call that has
emptied a set of watchers drops the entry in a second access, whatever has been entered in between.
In a run in which a set is still empty when it is dropped, the two indexes are inverse to each other
between the calls.
-/
namespace HashedBroker.PresenceIndexes
open KeyedTables AtomicPrograms ReactiveTasks Presence

inductive Call
  | subscribe (targets : List String)
  | unsubscribe (targets : List String)
  | clearSubscriber

def Call.program (subscriber : String) : Call → Method Unit
  | subscribe targets => Presence.subscribe subscriber targets
  | unsubscribe targets => Presence.unsubscribe subscriber targets
  | clearSubscriber => Presence.clearSubscriber subscriber

/-- Each task is a subscriber that makes one call after the other. -/
def presenceCalls (who : ℕ → String) :
    Machine ℕ Access Access.Result (List String) PresenceManager Unit Call Unit Empty where
  exec t a order pm := pm.exec t order a
  start t _ call := some ((), call.program (who t))
  finish _ _ := ()
  disturb x _ := x.elim

abbrev PresenceConfig := Config ℕ Access Access.Result PresenceManager Unit Unit

abbrev PresenceEvent := Event ℕ Access Access.Result Call Empty

def started : PresenceConfig := ⟨.empty, fun _ => .waiting ()⟩

/-- A set of watchers is still empty when it is dropped. -/
def DropsEmpty (_ : List PresenceEvent) (σ : PresenceConfig) : PresenceEvent → Prop
  | .performed _ (.dropWatchers target) _ => σ.shared.watching target = ∅
  | _ => True

/-! ## One subscriber's part of the indexes -/

/-- The targets of a subscriber, and the targets it is a watcher of. -/
def part (pm : PresenceManager) (s : String) : Set String × Set String :=
  ({x | x ∈ pm.targets s}, {x | s ∈ pm.watching x})

theorem part_empty (s : String) : part .empty s = (∅, ∅) := by
  simp [part, PresenceManager.targets, PresenceManager.watching, PresenceManager.empty]

/-- How an access of the subscriber moves its part. -/
def next (l : Set String × Set String) : (a : Access) → a.Result → Set String × Set String
  | .insert _ target, _ => (insert target l.1, l.2)
  | .remove _ target, _ => (l.1 \ {target}, l.2)
  | .take _, taken => (∅, {x | x ∈ taken.getD []})
  | .watch target _, _ => (l.1, insert target l.2)
  | .unwatch target _, _ => (l.1, l.2 \ {target})
  | _, _ => l

/-- The access is the subscriber's own, and it takes its targets when the parts agree. -/
def Own (s : String) (l : Set String × Set String) : Access → Prop
  | .entry subscriber | .getMut subscriber => subscriber = s
  | .insert subscriber _ | .remove subscriber _ => subscriber = s
  | .watch _ subscriber | .unwatch _ subscriber => subscriber = s
  | .take subscriber => subscriber = s ∧ l.1 = l.2
  | _ => True

section Programs

variable {s : String} {l : Set String × Set String}

/-- The program is the subscriber's own and leaves its two parts equal. -/
abbrev Balances (s : String) (l : Set String × Set String) (p : Method Unit) : Prop :=
  p.Follows next (Own s) (fun l _ => l.1 = l.2) l

theorem subscribeEach_balances (targets : List String) (hl : l.1 = l.2) :
    Balances s l (subscribeEach s targets) := by
  induction targets generalizing l with
  | nil => exact hl
  | cons x xs ih =>
    refine ⟨rfl, fun _ => ⟨rfl, fun _ => ih ?_⟩⟩
    simp only [next, hl]

theorem subscribe_balances (targets : List String) (hl : l.1 = l.2) :
    Balances s l (Presence.subscribe s targets) := by
  refine ⟨rfl, fun _ => (subscribeEach_balances targets hl).bind ?_⟩
  intro l _ hl
  exact ⟨trivial, fun _ => hl⟩

theorem unwatch_part {post : Set String × Set String → Unit → Prop} (target : String)
    (hpost : post (l.1, l.2 \ {target}) ()) :
    (Presence.unwatch s target).Follows next (Own s) post l := by
  refine ⟨rfl, fun emptied => ?_⟩
  cases emptied with
  | true => exact ⟨trivial, fun _ => hpost⟩
  | false => exact hpost

theorem unsubscribeEach_balances (targets : List String) (hl : l.1 = l.2) :
    Balances s l (unsubscribeEach s targets) := by
  induction targets generalizing l with
  | nil => exact hl
  | cons x xs ih =>
    refine ⟨rfl, fun _ => ?_⟩
    have hunwatch : (Presence.unwatch s x).Follows next (Own s) (fun l _ => l.1 = l.2)
        (next l (.remove s x) ()) := by
      apply unwatch_part
      simp only [next, hl]
    exact hunwatch.bind fun l _ hl => ih hl

theorem unsubscribe_balances (targets : List String) (hl : l.1 = l.2) :
    Balances s l (Presence.unsubscribe s targets) := by
  refine ⟨rfl, fun found => ?_⟩
  cases found with
  | true =>
    refine (unsubscribeEach_balances targets hl).bind ?_
    intro l _ hl
    exact ⟨trivial, fun _ => hl⟩
  | false => exact hl

theorem unwatchEach_balances (targets : List String) (hl : l.1 = ∅) (hsub : l.2 ⊆ {x | x ∈ targets}) :
    Balances s l (unwatchEach s targets) := by
  induction targets generalizing l with
  | nil =>
    have hempty : l.2 = ∅ := Set.subset_empty_iff.mp fun x hx => by cases hsub hx
    exact hl.trans hempty.symm
  | cons x xs ih =>
    have hunwatch : (Presence.unwatch s x).Follows next (Own s)
        (fun l _ => l.1 = ∅ ∧ l.2 ⊆ {y | y ∈ xs}) l := by
      refine unwatch_part x ⟨hl, ?_⟩
      rintro y ⟨hy, hne⟩
      exact (List.mem_cons.mp (hsub hy)).resolve_left hne
    exact hunwatch.bind fun l _ hl => ih hl.1 hl.2

theorem clearSubscriber_balances (hl : l.1 = l.2) :
    Balances s l (Presence.clearSubscriber s) := by
  refine ⟨⟨rfl, hl⟩, fun taken => ?_⟩
  cases taken with
  | none =>
    change (∅ : Set String) = {x | x ∈ ([] : List String)}
    simp
  | some targets => exact unwatchEach_balances targets rfl fun _ hx => hx

theorem program_balances (call : Call) (hl : l.1 = l.2) : Balances s l (call.program s) := by
  cases call with
  | subscribe targets => exact subscribe_balances targets hl
  | unsubscribe targets => exact unsubscribe_balances targets hl
  | clearSubscriber => exact clearSubscriber_balances hl

end Programs

/-! ## What an access does to the parts -/

section Accesses

variable {t : ℕ} {order : List String} {pm pm' : PresenceManager} {a : Access} {r : a.Result}
  {s : String}

theorem take_answer {subscriber : String} {r : Option (List String)}
    (h : pm.exec t order (.take subscriber) = some (r, pm')) :
    ∀ x, x ∈ r.getD [] ↔ x ∈ pm.targets subscriber := by
  intro x
  rcases PresenceManager.exec_take h with ⟨ts, hts, rfl, hlist, -⟩ | ⟨hnone, rfl, -⟩
  · rw [PresenceManager.targets, hts, Option.getD_some, Option.getD_some, ← hlist.2,
      List.mem_toFinset]
  · simp [PresenceManager.targets, hnone]

theorem part_own (h : pm.exec t order a = some (r, pm')) (hown : Own s (part pm s) a)
    (hdrop : ∀ target, a = .dropWatchers target → pm.watching target = ∅) :
    part pm' s = next (part pm s) a r := by
  have htargets := PresenceManager.targets_exec h s
  have hwatching := PresenceManager.watching_exec h
  cases a with
  | insert subscriber target =>
    obtain rfl : subscriber = s := hown
    simp only [if_true] at htargets
    simp only [part, next, htargets, hwatching, Finset.mem_insert]
    rfl
  | remove subscriber target =>
    obtain rfl : subscriber = s := hown
    simp only [if_true] at htargets
    simp only [part, next, htargets, hwatching, Finset.mem_erase]
    congr 1
    ext x
    simp [and_comm]
  | take subscriber =>
    obtain ⟨rfl, hagree⟩ := hown
    simp only [if_true] at htargets
    have hanswer := take_answer h
    simp only [part] at hagree
    simp only [part, next, htargets, hwatching, Finset.notMem_empty, hanswer, ← hagree]
    rfl
  | watch target subscriber =>
    obtain rfl : subscriber = s := hown
    simp only [part, next, htargets, hwatching]
    congr 1
    ext x
    simp only [Set.mem_ofPred_eq, Set.mem_insert_iff]
    split_ifs with hx
    · simp [hx]
    · simp [hx]
  | unwatch target subscriber =>
    obtain rfl : subscriber = s := hown
    simp only [part, next, htargets, hwatching]
    congr 1
    ext x
    simp only [Set.mem_ofPred_eq, Set.mem_sdiff, Set.mem_singleton_iff]
    split_ifs with hx
    · simp [hx]
    · simp [hx]
  | dropWatchers target =>
    have hempty := hdrop target rfl
    simp only [part, next, htargets, hwatching]
    congr 1
    ext x
    simp only [Set.mem_ofPred_eq]
    split_ifs with hx
    · simp [hx, hempty]
    · rfl
  | _ => simp only [part, next, htargets, hwatching]

theorem part_other {s' : String} {l : Set String × Set String}
    (h : pm.exec t order a = some (r, pm')) (hown : Own s' l a) (hs : s ≠ s')
    (hdrop : ∀ target, a = .dropWatchers target → pm.watching target = ∅) :
    part pm' s = part pm s := by
  have htargets := PresenceManager.targets_exec h s
  have hwatching := PresenceManager.watching_exec h
  cases a with
  | insert subscriber target =>
    obtain rfl : subscriber = s' := hown
    simp only [if_neg hs] at htargets
    simp only [part, htargets, hwatching]
  | remove subscriber target =>
    obtain rfl : subscriber = s' := hown
    simp only [if_neg hs] at htargets
    simp only [part, htargets, hwatching]
  | take subscriber =>
    obtain ⟨rfl, -⟩ := hown
    simp only [if_neg hs] at htargets
    simp only [part, htargets, hwatching]
  | watch target subscriber =>
    obtain rfl : subscriber = s' := hown
    simp only [part, htargets, hwatching]
    congr 1
    ext x
    simp only [Set.mem_ofPred_eq]
    split_ifs with hx
    · simp [hs]
    · rfl
  | unwatch target subscriber =>
    obtain rfl : subscriber = s' := hown
    simp only [part, htargets, hwatching]
    congr 1
    ext x
    simp only [Set.mem_ofPred_eq]
    split_ifs with hx
    · simp [hs]
    · rfl
  | dropWatchers target =>
    have hempty := hdrop target rfl
    simp only [part, htargets, hwatching]
    congr 1
    ext x
    simp only [Set.mem_ofPred_eq]
    split_ifs with hx
    · simp [hx, hempty]
    · rfl
  | _ => simp only [part, htargets, hwatching]

end Accesses

/-! ## Runs -/

section Runs

variable {who : ℕ → String} {tr : List PresenceEvent} {σ : PresenceConfig}

theorem DropsEmpty.empty {t : ℕ} {a : Access} {r : a.Result}
    (h : DropsEmpty tr σ (.performed t a r)) (target : String) (ha : a = .dropWatchers target) :
    σ.shared.watching target = ∅ := by
  subst ha
  exact h

theorem balanced_of_run (hwho : Function.Injective who)
    (h : GuardedRun (presenceCalls who) DropsEmpty started tr σ) :
    (∀ t c, σ.tasks t = .waiting c → (part σ.shared (who t)).1 = (part σ.shared (who t)).2) ∧
      ∀ t c p, σ.tasks t = .running c p → Balances (who t) (part σ.shared (who t)) p := by
  refine h.follows (fun t _ pm => part pm (who t)) next (fun t _ => Own (who t))
    (fun _ _ l => l.1 = l.2) ?_ ?_ ?_ ?_ ?_ ?_
  · intro t
    exact ⟨(), rfl, by simp only [started, part_empty]⟩
  · intro t c call c' p l hs hl
    cases hs
    exact program_balances call hl
  · intro t u call tr pm
    rfl
  · intro tr σ t c a order r pm' _ hguard hx hown
    exact part_own hx hown hguard.empty
  · intro tr σ t u c a order r pm' hguard hx hown hut
    exact part_other hx hown (fun he => hut (hwho he)) hguard.empty
  · intro x
    exact x.elim

/-- Nobody but the subscribers that make calls stands in the indexes. -/
theorem part_of_silent (hwho : Function.Injective who)
    (h : GuardedRun (presenceCalls who) DropsEmpty started tr σ) {s : String}
    (hs : ∀ t, s ≠ who t) : part σ.shared s = (∅, ∅) := by
  refine h.invariant (I := fun _ σ => part σ.shared s = (∅, ∅)) ?_ ?_
  · exact part_empty s
  · intro tr σ e σ' hrun hi hstep hguard
    rcases hstep.cases with ⟨t, i, c, c', p, rfl, -, -, rfl⟩ |
      ⟨t, c, a, k, order, r, pm', rfl, ht, hx, rfl⟩ | ⟨x, -⟩
    · exact hi
    · have hown := ((balanced_of_run hwho hrun).2 t c _ ht).1
      rw [part_other hx hown (hs t) hguard.empty]
      exact hi
    · exact x.elim

/-- In every run in which no set of watchers has been entered again when it is dropped, the two
indexes are inverse to each other whenever no call is in progress. -/
theorem indexes_inverse_between_calls (hwho : Function.Injective who)
    (h : GuardedRun (presenceCalls who) DropsEmpty started tr σ) (hidle : Idle σ)
    (s target : String) : target ∈ σ.shared.targets s ↔ s ∈ σ.shared.watching target := by
  have hpart : (part σ.shared s).1 = (part σ.shared s).2 := by
    by_cases hs : ∃ t, s = who t
    · obtain ⟨t, rfl⟩ := hs
      obtain ⟨c, hc⟩ := hidle t
      exact (balanced_of_run hwho h).1 t c hc
    · have hsilent := part_of_silent hwho h fun t he => hs ⟨t, he⟩
      rw [hsilent]
  exact Set.ext_iff.mp hpart target

end Runs

/-! ## Two subscribers of one target -/

def name (n : ℕ) : String := String.ofList (List.replicate n 's')

theorem name_injective : Function.Injective name := by
  intro m n h
  have hlist := String.ofList_injective h
  simpa using congrArg List.length hlist

def steps (t n : ℕ) : List (Action ℕ (List String) Call Empty) :=
  List.replicate n (.perform t [])

def dropsEmpty (_ : List PresenceEvent) (σ : PresenceConfig) : PresenceEvent → Bool
  | .performed _ (.dropWatchers target) _ => σ.shared.watching target = ∅
  | _ => true

theorem dropsEmpty_sound (tr : List PresenceEvent) (σ : PresenceConfig) (e : PresenceEvent)
    (h : dropsEmpty tr σ e = true) : DropsEmpty tr σ e := by
  unfold DropsEmpty
  split
  · exact of_decide_eq_true h
  · trivial

def isWaiting : Task Access Access.Result Unit Unit → Bool
  | .waiting _ => true
  | .running _ _ => false

theorem idle_of_two {tr : List PresenceEvent} {σ : PresenceConfig}
    {C : Guard ℕ Access Access.Result PresenceManager Unit Call Unit Empty}
    (h : GuardedRun (presenceCalls name) C started tr σ)
    (hinputs : ∀ e ∈ tr, ∀ t i, e = .input t i → t < 2)
    (h₀ : isWaiting (σ.tasks 0) = true) (h₁ : isWaiting (σ.tasks 1) = true) : Idle σ := by
  have hwait : ∀ t, isWaiting (σ.tasks t) = true → ∃ c, σ.tasks t = .waiting c := by
    intro t ht
    cases hc : σ.tasks t with
    | waiting c => exact ⟨c, rfl⟩
    | running c p =>
      rw [hc] at ht
      cases ht
  intro t
  by_cases ht : t < 2
  · apply hwait
    interval_cases t
    · exact h₀
    · exact h₁
  · cases hc : σ.tasks t with
    | waiting c => exact ⟨c, rfl⟩
    | running c p =>
      obtain ⟨c₀, i, p₀, hist, -, -, hsub⟩ := h.run.history (fun _ => ⟨(), rfl⟩) hc
      exact absurd (hinputs _ (hsub.subset (by simp)) t i rfl) ht

/-- The subscriptions and watchers of the two subscribers, and whether the run has settled. -/
def outcome (x : List PresenceEvent × PresenceConfig) : Bool × Bool × Bool × Bool :=
  (decide ("t" ∈ x.2.shared.targets (name 1)), decide (name 1 ∈ x.2.shared.watching "t"),
    isWaiting (x.2.tasks 0), isWaiting (x.2.tasks 1))

def givenToTwo (tr : List PresenceEvent) : Bool := tr.all fun e =>
  match e with
  | .input t _ => decide (t < 2)
  | _ => true

theorem inputs_of_givenToTwo {tr : List PresenceEvent} (h : givenToTwo tr = true) :
    ∀ e ∈ tr, ∀ t i, e = .input t i → t < 2 := by
  rintro e he t i rfl
  have hall := List.all_eq_true.mp h _ he
  simpa using hall

/-- The second subscribes when the first has unsubscribed. -/
def inTurn : List (Action ℕ (List String) Call Empty) :=
  [.input 0 (.subscribe ["t"])] ++ steps 0 4 ++ [.input 0 (.unsubscribe ["t"])] ++ steps 0 5 ++
    [.input 1 (.subscribe ["t"])] ++ steps 1 4

theorem inTurn_outcome :
    (runGuarded (presenceCalls name) dropsEmpty inTurn [] started).map
      (fun x => (outcome x, givenToTwo x.1)) = some ((true, true, true, true), true) := by
  decide +kernel

theorem in_turn_indexes_inverse : ∃ σ : PresenceConfig,
    "t" ∈ σ.shared.targets (name 1) ∧ name 1 ∈ σ.shared.watching "t" := by
  obtain ⟨⟨tr, σ⟩, hrun, heq⟩ := Option.map_eq_some_iff.mp inTurn_outcome
  simp only [outcome, Prod.mk.injEq, decide_eq_true_eq] at heq
  obtain ⟨⟨htarget, -, h₀, h₁⟩, hinputs⟩ := heq
  have hguarded := guardedRun_of_runGuarded dropsEmpty_sound .start hrun
  have hidle := idle_of_two hguarded (inputs_of_givenToTwo hinputs) h₀ h₁
  exact ⟨σ, htarget,
    (indexes_inverse_between_calls name_injective hguarded hidle (name 1) "t").mp htarget⟩

/-- The second subscribes between the two accesses with which the first empties the set and drops
it. -/
def crossing : List (Action ℕ (List String) Call Empty) :=
  [.input 0 (.subscribe ["t"])] ++ steps 0 4 ++ [.input 0 (.unsubscribe ["t"])] ++ steps 0 3 ++
    [.input 1 (.subscribe ["t"])] ++ steps 1 4 ++ steps 0 2

theorem crossing_outcome :
    (runGuarded (presenceCalls name) (fun _ _ _ => true) crossing [] started).map
      (fun x => (outcome x, givenToTwo x.1)) = some ((true, false, true, true), true) := by
  decide +kernel

/-- The second is subscribed, and nothing will reach it. -/
theorem crossing_loses_subscription : Function.Injective name ∧ ∃ tr σ,
    Run (presenceCalls name) started tr σ ∧ Idle σ ∧
      ¬ ("t" ∈ σ.shared.targets (name 1) ↔ name 1 ∈ σ.shared.watching "t") := by
  obtain ⟨⟨tr, σ⟩, hrun, heq⟩ := Option.map_eq_some_iff.mp crossing_outcome
  simp only [outcome, Prod.mk.injEq, decide_eq_true_eq, decide_eq_false_iff_not] at heq
  obtain ⟨⟨htarget, hwatch, h₀, h₁⟩, hinputs⟩ := heq
  have hguarded := guardedRun_of_runGuarded (C := fun _ _ _ => True) (fun _ _ _ _ => trivial)
    .start hrun
  have hidle : Idle σ := idle_of_two hguarded (inputs_of_givenToTwo hinputs) h₀ h₁
  exact ⟨name_injective, tr, σ, hguarded.run, hidle, fun hiff => hwatch (hiff.mp htarget)⟩

end HashedBroker.PresenceIndexes
