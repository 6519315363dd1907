import Mathlib

/-!
# Lists in the order of arrival

Lists with the newest element first, as traces and channels are: what has arrived of such a list is
its last part, and messages that answer to texts in their order are related to a part of them.
-/
namespace HashedBroker.ArrivalOrder

section Lists

variable {α β γ : Type} {R : α → β → Prop} {l l' : List α} {xs ys : List β}

/-- What comes next in the order of arrival is put in front of what has arrived. -/
theorem suffix_cons_of_next {x : α} (h : l <:+ l') (hx : l'.reverse[l.length]? = some x) :
    x :: l <:+ l' := by
  obtain ⟨rest, rfl⟩ := h
  rw [List.reverse_append, List.getElem?_append_right (by simp)] at hx
  simp only [List.length_reverse, Nat.sub_self] at hx
  obtain ⟨older, hrest⟩ : ∃ older, rest.reverse = x :: older := by
    cases hr : rest.reverse with
    | nil => simp [hr] at hx
    | cons y older =>
      rw [hr] at hx
      exact ⟨older, by simpa using hx⟩
  refine ⟨older.reverse, ?_⟩
  have hrev := congrArg List.reverse hrest
  rw [List.reverse_reverse, List.reverse_cons] at hrev
  rw [hrev, List.append_assoc, List.singleton_append]

/-- What has arrived is determined by how much of it there is. -/
theorem rtake_of_suffix (h : l <:+ l') : l'.rtake l.length = l := by
  obtain ⟨rest, rfl⟩ := h
  simp [List.rtake]

theorem rtake_suffix (l : List α) (n : ℕ) : l.rtake n <:+ l := List.drop_suffix _ _

theorem length_rtake {n : ℕ} (h : n ≤ l.length) : (l.rtake n).length = n := by
  rw [List.rtake, List.length_drop]
  omega

theorem rtake_append {n : ℕ} (new : List α) (h : n ≤ l.length) :
    (new ++ l).rtake n = l.rtake n := by
  have hsuffix := (rtake_suffix l n).trans (List.suffix_append new l)
  have hrtake := rtake_of_suffix hsuffix
  rwa [length_rtake h] at hrtake

theorem rtake_succ {n : ℕ} {x : α} (h : n ≤ l.length) (hx : l.reverse[n]? = some x) :
    l.rtake (n + 1) = x :: l.rtake n := by
  have hlength := length_rtake h
  have hrtake := rtake_of_suffix (suffix_cons_of_next (rtake_suffix l n) (by rw [hlength, hx]))
  rwa [List.length_cons, hlength] at hrtake

theorem forall₂_right (h : List.Forall₂ R l xs) {b : β} (hb : b ∈ xs) : ∃ a ∈ l, R a b := by
  induction h with
  | nil => cases hb
  | cons hr _ ih =>
    rcases List.mem_cons.mp hb with rfl | hb
    · exact ⟨_, List.mem_cons_self, hr⟩
    · obtain ⟨a, ha, hrel⟩ := ih hb
      exact ⟨a, List.mem_cons_of_mem _ ha, hrel⟩

theorem sublistForall₂_of_sublist (h : List.SublistForall₂ R l xs) (hl : l'.Sublist l) :
    List.SublistForall₂ R l' xs := by
  induction h generalizing l' with
  | nil =>
    rw [List.sublist_nil.mp hl]
    exact .nil
  | cons hr _ ih =>
    cases hl with
    | cons _ hl => exact .cons_right (ih hl)
    | cons_cons _ hl => exact .cons hr (ih hl)
  | cons_right _ ih => exact .cons_right (ih hl)

theorem sublistForall₂_imp {S : α → β → Prop} (h : List.SublistForall₂ R l xs)
    (hRS : ∀ a b, R a b → S a b) : List.SublistForall₂ S l xs := by
  induction h with
  | nil => exact .nil
  | cons hr _ ih => exact .cons (hRS _ _ hr) ih
  | cons_right _ ih => exact .cons_right ih

theorem sublistForall₂_append (h : List.SublistForall₂ R l xs) (hxs : xs <:+ ys) :
    List.SublistForall₂ R l ys := by
  obtain ⟨l₂, hl₂, hsub⟩ := List.sublistForall₂_iff.mp h
  exact List.sublistForall₂_iff.mpr ⟨l₂, hl₂, hsub.trans hxs.sublist⟩

theorem sublistForall₂_comp {S : β → γ → Prop} {zs : List γ} (h : List.SublistForall₂ R l xs)
    (hS : List.Forall₂ S xs zs) :
    List.SublistForall₂ (fun a c => ∃ b, R a b ∧ S b c) l zs := by
  induction h generalizing zs with
  | nil => exact .nil
  | cons hr _ ih =>
    cases hS with
    | cons hs hS => exact .cons ⟨_, hr, hs⟩ (ih hS)
  | cons_right _ ih =>
    cases hS with
    | cons _ hS => exact .cons_right (ih hS)

/-- Entries that each give at most one element, and have a text when they do. -/
theorem sublistForall₂_flatMap {f : γ → Option β} {g : γ → List α} {log : List γ}
    (h : ∀ e ∈ log, g e = [] ∨ ∃ a b, g e = [a] ∧ f e = some b ∧ R a b) :
    List.SublistForall₂ R (log.flatMap g) (log.filterMap f) := by
  induction log with
  | nil => exact .nil
  | cons e log ih =>
    have htail := ih fun e he => h e (List.mem_cons_of_mem _ he)
    rw [List.flatMap_cons, List.filterMap_cons]
    rcases h e List.mem_cons_self with hnone | ⟨a, b, hone, hf, hr⟩
    · rw [hnone, List.nil_append]
      cases f e with
      | none => exact htail
      | some b => exact .cons_right htail
    · rw [hone, hf]
      exact .cons hr htail

end Lists

end HashedBroker.ArrivalOrder
