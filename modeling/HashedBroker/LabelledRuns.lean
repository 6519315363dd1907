import Mathlib

/-!
# Runs of a labelled transition system

A run lists the labels of its steps, the newest first. A condition on steps reads what has happened,
the state before the step and its label.
-/
namespace HashedBroker.LabelledRuns

variable {S A : Type}

/-- The runs each step of which meets a condition. -/
inductive Reaches (step : S → A → S → Prop) (C : List A → S → A → Prop) (s₀ : S) :
    List A → S → Prop
  | start : Reaches step C s₀ [] s₀
  | next {tr : List A} {s s' : S} {a : A} (prior : Reaches step C s₀ tr s) (move : step s a s')
      (guard : C tr s a) : Reaches step C s₀ (a :: tr) s'

variable {step : S → A → S → Prop} {C C' : List A → S → A → Prop} {s₀ s s' : S} {tr : List A}

theorem Reaches.invariant {I : List A → S → Prop} (h : Reaches step C s₀ tr s) (start : I [] s₀)
    (next : ∀ {tr s a s'}, Reaches step C s₀ tr s → I tr s → step s a s' → C tr s a →
      I (a :: tr) s') : I tr s := by
  induction h with
  | start => exact start
  | next prior move guard ih => exact next prior ih move guard

theorem Reaches.weaken (h : Reaches step C s₀ tr s)
    (hC : ∀ {tr s a s'}, Reaches step C s₀ tr s → step s a s' → C tr s a → C' tr s a) :
    Reaches step C' s₀ tr s := by
  induction h with
  | start => exact .start
  | next prior move guard ih => exact .next ih move (hC prior move guard)

/-- A list of labels, evaluated as long as a test of the condition succeeds. -/
def replay (f : S → A → Option S) (test : List A → S → A → Bool) :
    List A → List A → S → Option (List A × S)
  | [], tr, s => some (tr, s)
  | a :: as, tr, s => if test tr s a then (f s a).bind (replay f test as (a :: tr)) else none

theorem reaches_of_replay {f : S → A → Option S} {test : List A → S → A → Bool}
    (hf : ∀ s a s', f s a = some s' → step s a s') (hC : ∀ tr s a, test tr s a = true → C tr s a)
    {as tr' : List A} (h : Reaches step C s₀ tr s) (hr : replay f test as tr s = some (tr', s')) :
    Reaches step C s₀ tr' s' := by
  induction as generalizing tr s with
  | nil => cases hr; exact h
  | cons a as ih =>
    simp only [replay] at hr
    split_ifs at hr with ht
    obtain ⟨s₁, h₁, h₂⟩ := Option.bind_eq_some_iff.mp hr
    exact ih (.next h (hf _ _ _ h₁) (hC _ _ _ ht)) h₂

end HashedBroker.LabelledRuns
