import Mathlib

/-!
# Token buckets

A bucket of bounded capacity fills at a constant rate and each visit takes something out of it. What
is left is a fold over the visits; what can be taken is a statement about every window of the past
that ends now.
-/
namespace HashedBroker.TokenBuckets

variable {F : Type} [CommRing F]

/-- A visit to the bucket. One that is turned away takes nothing. -/
structure Visit (F : Type) where
  time : F
  taken : F

def taken (visits : List (Visit F)) : F := (visits.map Visit.taken).sum

@[simp] theorem taken_nil : taken ([] : List (Visit F)) = 0 := rfl

@[simp] theorem taken_cons (v : Visit F) (visits : List (Visit F)) :
    taken (v :: visits) = v.taken + taken visits := List.sum_cons

variable [LinearOrder F]

theorem refill_refill [IsStrictOrderedRing F] {tokens came later capacity : F} (h : 0 ≤ later) :
    min (min (tokens + came) capacity + later) capacity =
      min (tokens + came + later) capacity := by
  have hcap : capacity ≤ capacity + later := le_add_of_nonneg_right h
  rw [← min_add_add_right, min_assoc, min_eq_right hcap]

/-- What an instant finds in the bucket after some visits, the newest first. -/
def level (capacity rate : F) : List (Visit F) → F → F
  | [], _ => capacity
  | v :: visits, now =>
    min (level capacity rate visits v.time - v.taken + (now - v.time) * rate) capacity

/-- An amount is in the bucket when it fits into every window: what has been taken since any visit,
that visit included, leaves room for it in a full bucket and what has come in since. -/
theorem le_level_iff [IsStrictOrderedRing F] {capacity rate : F} {visits : List (Visit F)}
    {now a : F} :
    a ≤ level capacity rate visits now ↔ a ≤ capacity ∧
      ∀ recent v older, visits = recent ++ v :: older →
        taken recent + v.taken + a ≤ capacity + rate * (now - v.time) := by
  induction visits generalizing now a with
  | nil =>
    refine ⟨fun h => ⟨h, fun recent v older hsplit => ?_⟩, And.left⟩
    cases recent <;> cases hsplit
  | cons w visits ih =>
    -- the amount that would have to be there at the newest visit
    have hlevel : a ≤ level capacity rate (w :: visits) now ↔
        a + w.taken - (now - w.time) * rate ≤ level capacity rate visits w.time ∧
          a ≤ capacity := by
      rw [level, le_min_iff]
      refine and_congr_left fun _ => ?_
      constructor <;> intro h <;> linarith
    rw [hlevel, ih]
    constructor
    · rintro ⟨⟨hnow, hwindows⟩, hcap⟩
      refine ⟨hcap, fun recent v older hsplit => ?_⟩
      cases recent with
      | nil =>
        cases hsplit
        rw [taken_nil]
        linarith
      | cons w' recent =>
        cases hsplit
        have hwindow := hwindows recent v older rfl
        rw [taken_cons]
        linarith
    · rintro ⟨hcap, hwindows⟩
      refine ⟨⟨?_, fun recent v older hsplit => ?_⟩, hcap⟩
      · have hwindow := hwindows [] w visits rfl
        rw [taken_nil] at hwindow
        linarith
      · have hwindow := hwindows (w :: recent) v older (by rw [hsplit]; rfl)
        rw [taken_cons] at hwindow
        linarith

end HashedBroker.TokenBuckets
