import Mathlib.Data.DFinsupp.WellFounded
import HashedBroker.ReactiveTasks

/-!
# Continuations without new inputs

A program is a tree without infinite branches, so a task that is given no input performs finitely
many operations, however it is answered. In a run finitely many tasks are running. When the outside
world can only do so much to a shared state, every continuation without new inputs is finite.
-/
namespace HashedBroker.ReactiveTasks
open AtomicPrograms

variable {Tid Op : Type} {Res : Op → Type} {Env Shared Ctl In Out Ext : Type}

/-- What one operation may make of a task. -/
def Task.Less (x y : Task Op Res Ctl Out) : Prop :=
  ∃ c o k, y = .running c (.call o k) ∧ ((∃ c', x = .waiting c') ∨ ∃ r, x = .running c (k r))

theorem Task.acc_waiting (c : Ctl) : Acc Task.Less (.waiting c : Task Op Res Ctl Out) := by
  constructor
  rintro x ⟨c', o, k, h, -⟩
  cases h

theorem Task.acc_running (c : Ctl) (p : Prog Op Res Out) :
    Acc Task.Less (.running c p : Task Op Res Ctl Out) := by
  induction p with
  | done a =>
    constructor
    rintro x ⟨c', o, k, h, -⟩
    cases h
  | call o k ih =>
    constructor
    rintro x ⟨c', o', k', h, hx⟩
    cases h
    rcases hx with ⟨c', rfl⟩ | ⟨r, rfl⟩
    · exact Task.acc_waiting c'
    · exact ih r

theorem Task.wellFounded_less :
    WellFounded (Task.Less : Task Op Res Ctl Out → Task Op Res Ctl Out → Prop) := by
  constructor
  intro x
  cases x with
  | waiting c => exact Task.acc_waiting c
  | running c p => exact Task.acc_running c p

/-- One of finitely many components has become less, and the others are as they were. -/
def LessAt {ι α : Type} (r : α → α → Prop) (S : Finset ι) (f' f : ι → α) : Prop :=
  ∃ t ∈ S, r (f' t) (f t) ∧ ∀ u, u ≠ t → f' u = f u

theorem wellFounded_lessAt {ι α : Type} {r : α → α → Prop} (hr : WellFounded r) (S : Finset ι) :
    WellFounded (LessAt r S) := by
  have hlex : WellFounded (Pi.Lex (WellOrderingRel (α := S)) fun {_} => r) :=
    Pi.Lex.wellFounded _ fun _ => hr
  apply Subrelation.wf _ (InvImage.wf (fun f (t : S) => f t) hlex)
  rintro f' f ⟨t, ht, hless, hother⟩
  refine ⟨⟨t, ht⟩, fun u hu => hother u ?_, hless⟩
  rintro rfl
  exact irrefl (r := WellOrderingRel) (⟨u, ht⟩ : S) hu

variable [DecidableEq Tid]

abbrev Allowance (Tid Op : Type) (Res : Op → Type) (Env Shared Ctl In Out Ext : Type) :=
  Config Tid Op Res Shared Ctl Out → Action Tid Env In Ext → Prop

/-- An allowed action leads from the one configuration to the other. -/
def Continues (m : Machine Tid Op Res Env Shared Ctl In Out Ext)
    (A : Allowance Tid Op Res Env Shared Ctl In Out Ext)
    (σ' σ : Config Tid Op Res Shared Ctl Out) : Prop :=
  ∃ a e, A σ a ∧ act m σ a = some (e, σ')

variable {m : Machine Tid Op Res Env Shared Ctl In Out Ext}
  {A : Allowance Tid Op Res Env Shared Ctl In Out Ext}
  {σ σ' σ₀ : Config Tid Op Res Shared Ctl Out} {tr : List (Event Tid Op Res In Ext)}
  {e : Event Tid Op Res In Ext}

omit [DecidableEq Tid] in
theorem settle_less (c : Ctl) (o : Op) (k : Res o → Prog Op Res Out) (r : Res o) :
    Task.Less (settle m c (k r)) (.running c (.call o k)) := by
  refine ⟨c, o, k, rfl, ?_⟩
  cases hk : k r with
  | done a => exact Or.inl ⟨_, rfl⟩
  | call o' k' => exact Or.inr ⟨r, by rw [hk, settle]⟩

def running (σ : Config Tid Op Res Shared Ctl Out) : Set Tid :=
  {t | ∃ c p, σ.tasks t = .running c p}

theorem Run.finite_running (h : Run m σ₀ tr σ) (h₀ : Idle σ₀) : (running σ).Finite := by
  -- an update of one task adds it at most
  have hupdate : ∀ (σ : Config Tid Op Res Shared Ctl Out) (s : Shared) t x, (running σ).Finite →
      (running ⟨s, Function.update σ.tasks t x⟩).Finite := by
    intro σ s t x hfin
    apply (hfin.insert t).subset
    rintro u ⟨c, p, hu⟩
    by_cases hut : u = t
    · exact Or.inl hut
    · exact Or.inr ⟨c, p, (Function.update_of_ne hut _ _).symm.trans hu⟩
  induction h with
  | start =>
    convert Set.finite_empty
    ext t
    simp only [running, Set.mem_ofPred_eq, Set.mem_empty_iff_false, iff_false]
    rintro ⟨c, p, ht⟩
    obtain ⟨c', hc'⟩ := h₀ t
    rw [ht] at hc'
    cases hc'
  | step prior next ih =>
    rcases next.cases with ⟨t, i, c, c', p, -, -, -, rfl⟩ | ⟨t, c, o, k, env, r, s', -, -, -, rfl⟩ |
      ⟨x, s', -, -, rfl⟩
    · exact hupdate _ _ t _ ih
    · exact hupdate _ _ t _ ih
    · exact ih

theorem Continues.cases (h : Continues m A σ' σ) (hA : ∀ σ t i, ¬ A σ (.input t i)) :
    (∃ t, t ∈ running σ ∧ Task.Less (σ'.tasks t) (σ.tasks t) ∧
      ∀ u, u ≠ t → σ'.tasks u = σ.tasks u) ∨
    σ'.tasks = σ.tasks ∧ ∃ x, A σ (.disturb x) ∧ m.disturb x σ.shared = some σ'.shared := by
  obtain ⟨a, e, ha, hact⟩ := h
  cases a with
  | input t i => exact absurd ha (hA σ t i)
  | perform t env =>
    left
    cases ht : σ.tasks t with
    | waiting c => simp [act, ht] at hact
    | running c p =>
      cases p with
      | done a => simp [act, ht] at hact
      | call o k =>
        simp only [act, ht, Option.map_eq_some_iff] at hact
        obtain ⟨⟨r, s'⟩, -, heq⟩ := hact
        cases heq
        refine ⟨t, ⟨c, _, ht⟩, ?_, fun u hu => Function.update_of_ne hu _ _⟩
        simp only [Function.update_self, ht]
        exact settle_less c o k r
  | disturb x =>
    right
    simp only [act, Option.map_eq_some_iff] at hact
    obtain ⟨s', hs', heq⟩ := hact
    cases heq
    exact ⟨rfl, x, ha, hs'⟩

theorem Continues.run (h : Run m σ₀ tr σ) (hc : Continues m A σ' σ)
    (hA : ∀ σ t i, ¬ A σ (.input t i)) :
    ∃ e, Run m σ₀ (e :: tr) σ' ∧ ∀ t i, e ≠ .input t i := by
  obtain ⟨a, e, ha, hact⟩ := hc
  refine ⟨e, .step h ⟨a, hact⟩, ?_⟩
  rintro t i rfl
  cases a with
  | input u j => exact hA σ u j ha
  | perform u env =>
    simp only [act] at hact
    split at hact
    · obtain ⟨x, -, heq⟩ := Option.map_eq_some_iff.mp hact
      cases heq
    · cases hact
  | disturb x =>
    obtain ⟨s, -, heq⟩ := Option.map_eq_some_iff.mp hact
    cases heq

/-- Where the outside world can do only so much, every continuation without inputs is finite. -/
theorem Run.acc_continues {D : Shared → Shared → Prop} (h : Run m σ₀ tr σ) (h₀ : Idle σ₀)
    (hA : ∀ σ t i, ¬ A σ (.input t i))
    (hD : ∀ σ x s', A σ (.disturb x) → m.disturb x σ.shared = some s' → D s' σ.shared)
    (hacc : ∀ {tr σ}, Run m σ₀ tr σ → Acc D σ.shared) : Acc (Continues m A) σ := by
  have hfin := h.finite_running h₀
  have hS : ∀ t, t ∈ running σ → t ∈ hfin.toFinset := fun t ht => hfin.mem_toFinset.mpr ht
  generalize hfin.toFinset = S at hS
  -- the programs first: an operation may leave more for the outside world to do
  induction hf : σ.tasks using (wellFounded_lessAt Task.wellFounded_less S).induction
    generalizing σ tr with
  | _ f ih =>
    have hshared := hacc h
    generalize hs : σ.shared = s at hshared
    induction hshared generalizing σ tr with
    | intro s _ ihs =>
      constructor
      intro σ' hc
      obtain ⟨e, hrun, -⟩ := hc.run h hA
      rcases hc.cases hA with ⟨t, ht, hless, hother⟩ | ⟨htasks, x, hx, hdisturb⟩
      · apply ih σ'.tasks ⟨t, hS t ht, hf ▸ hless, fun u hu => hf ▸ hother u hu⟩ hrun
          (hrun.finite_running h₀) ?_ rfl
        rintro u ⟨c, p, hu⟩
        by_cases hut : u = t
        · exact hut ▸ hS t ht
        · exact hS u ⟨c, p, (hother u hut).symm.trans hu⟩
      · apply ihs σ'.shared (hs ▸ hD σ x _ hx hdisturb) hrun (hrun.finite_running h₀) ?_
          (htasks.trans hf) rfl
        rintro u ⟨c, p, hu⟩
        exact hS u ⟨c, p, htasks ▸ hu⟩

/-- A run can be continued by allowed actions, without inputs, until none is left. -/
theorem Run.ends (h : Run m σ₀ tr σ) (hA : ∀ σ t i, ¬ A σ (.input t i))
    (hacc : Acc (Continues m A) σ) : ∃ tr' σ', Run m σ₀ (tr' ++ tr) σ' ∧
      Relation.ReflTransGen (Function.swap (Continues m A)) σ σ' ∧
      (∀ σ'', ¬ Continues m A σ'' σ') ∧ ∀ e ∈ tr', ∀ t i, e ≠ .input t i := by
  induction hacc generalizing tr with
  | intro σ _ ih =>
    by_cases hend : ∃ σ', Continues m A σ' σ
    · obtain ⟨σ₁, hc⟩ := hend
      obtain ⟨e, hrun, he⟩ := hc.run h hA
      obtain ⟨tr', σ', hrun', hreach, hstop, htr'⟩ := ih σ₁ hc hrun
      refine ⟨tr' ++ [e], σ', by simpa using hrun', .head hc hreach, hstop, fun e' he' => ?_⟩
      rcases List.mem_append.mp he' with he' | he'
      · exact htr' e' he'
      · exact List.mem_singleton.mp he' ▸ he
    · exact ⟨[], σ, h, .refl, not_exists.mp hend, fun e he => absurd he List.not_mem_nil⟩

end HashedBroker.ReactiveTasks
