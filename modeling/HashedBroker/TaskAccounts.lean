import HashedBroker.ReactiveTasks

/-!
# Accounts of tasks

An account is kept in a commutative group: every operation, with its answer, adds an amount. What
one task's operations have added is its balance, and the total of a run is the sum of the balances.
A task's programs settle its balance by the time they return, so the total of a run is read off the
tasks, however their operations were interleaved.
-/
namespace HashedBroker.ReactiveTasks
open AtomicPrograms AtomicPrograms.Prog

variable {Tid Op : Type} {Res : Op → Type} {Env Shared Ctl In Out Ext : Type} {M : Type}
  [AddCommGroup M]

/-- What all operations of a run have added. -/
def total (w : (o : Op) → Res o → M) : List (Event Tid Op Res In Ext) → M
  | [] => 0
  | .performed _ o r :: tr => w o r + total w tr
  | _ :: tr => total w tr

def deposit (w : (o : Op) → Res o → M) (l : M) (o : Op) (r : Res o) : M := l + w o r

section Tasks

variable [DecidableEq Tid]

/-- What the operations of a task have added. -/
def balance (w : (o : Op) → Res o → M) (t : Tid) (tr : List (Event Tid Op Res In Ext)) : M :=
  localState (deposit w) 0 t tr

def performers : List (Event Tid Op Res In Ext) → Finset Tid
  | [] => ∅
  | .performed t _ _ :: tr => insert t (performers tr)
  | _ :: tr => performers tr

variable {w : (o : Op) → Res o → M} {tr : List (Event Tid Op Res In Ext)} {t : Tid}

theorem balance_of_notMem (ht : t ∉ performers tr) : balance w t tr = 0 := by
  induction tr with
  | nil => rfl
  | cons e tr ih =>
    cases e with
    | performed u o r =>
      simp only [performers, Finset.mem_insert, not_or] at ht
      rw [balance, localState_performed_of_ne ht.1]
      exact ih ht.2
    | _ => exact ih ht

theorem total_eq_sum {S : Finset Tid} (hS : performers tr ⊆ S) :
    total w tr = ∑ t ∈ S, balance w t tr := by
  induction tr with
  | nil => exact (Finset.sum_eq_zero fun _ _ => rfl).symm
  | cons e tr ih =>
    cases e with
    | performed u o r =>
      obtain ⟨hu, htr⟩ := Finset.insert_subset_iff.mp hS
      have hstep : ∀ t, balance w t (.performed u o r :: tr) =
          (if t = u then w o r else 0) + balance w t tr := by
        intro t
        by_cases ht : t = u
        · subst ht
          rw [balance, localState_performed_self, if_pos rfl, deposit, add_comm]
          rfl
        · rw [balance, localState_performed_of_ne ht, if_neg ht, zero_add]
          rfl
      calc total w (.performed u o r :: tr) = w o r + total w tr := rfl
        _ = w o r + ∑ t ∈ S, balance w t tr := by rw [ih htr]
        _ = ∑ t ∈ S, balance w t (.performed u o r :: tr) := by
          simp only [hstep, Finset.sum_add_distrib, Finset.sum_ite_eq', hu, if_true]
    | _ => exact ih hS

end Tasks

/-- A measure of the shared state that every operation moves by its amount, and the world outside
leaves alone, has moved by the total. -/
theorem Run.moved_by_total [DecidableEq Tid] {m : Machine Tid Op Res Env Shared Ctl In Out Ext}
    {σ σ₀ : Config Tid Op Res Shared Ctl Out} {tr : List (Event Tid Op Res In Ext)}
    {w : (o : Op) → Res o → M} (h : Run m σ₀ tr σ) (μ : Shared → M)
    (hexec : ∀ t o env s r s', m.exec t o env s = some (r, s') → μ s' = w o r + μ s)
    (hdisturb : ∀ x s s', m.disturb x s = some s' → μ s' = μ s) :
    μ σ.shared = total w tr + μ σ₀.shared := by
  induction h with
  | start => exact (zero_add _).symm
  | step _ next ih =>
    rcases next.cases with ⟨t, i, c, c', p, rfl, -, -, rfl⟩ |
      ⟨t, c, o, k, env, r, s', rfl, -, hx, rfl⟩ | ⟨x, s', rfl, hx, rfl⟩
    · exact ih
    · rw [hexec _ _ _ _ _ _ hx, ih, total, add_assoc]
    · rw [hdisturb _ _ _ hx]
      exact ih

end HashedBroker.ReactiveTasks
