import Mathlib

/-!
# Keyed tables

A concurrent hash map whose accesses are atomic is a finite map. The lemmas say what a lookup
finds after an insertion or a removal, whichever key it asks for.
-/
namespace HashedBroker.KeyedTables

abbrev Table (K V : Type) := AList fun _ : K => V

variable {K V : Type} [DecidableEq K]

theorem lookup_insert_ite (m : Table K V) (k k' : K) (v : V) :
    (m.insert k v).lookup k' = if k' = k then some v else m.lookup k' := by
  split_ifs with h
  · subst h
    exact AList.lookup_insert m
  · exact AList.lookup_insert_ne h

theorem lookup_erase_ite (m : Table K V) (k k' : K) :
    (m.erase k).lookup k' = if k' = k then none else m.lookup k' := by
  split_ifs with h
  · subst h
    exact AList.lookup_erase _ m
  · exact AList.lookup_erase_ne h

def anyBinding (m : Table K V) (test : K → V → Bool) : Bool := m.entries.any fun e => test e.1 e.2

theorem anyBinding_eq_true {m : Table K V} {test : K → V → Bool} :
    anyBinding m test = true ↔ ∃ k v, m.lookup k = some v ∧ test k v = true := by
  simp only [anyBinding, List.any_eq_true]
  constructor
  · rintro ⟨⟨k, v⟩, hmem, ht⟩
    exact ⟨k, v, AList.mem_lookup_iff.mpr hmem, ht⟩
  · rintro ⟨k, v, hl, ht⟩
    exact ⟨⟨k, v⟩, AList.mem_lookup_iff.mp hl, ht⟩

theorem anyBinding_eq_false {m : Table K V} {test : K → V → Bool} :
    anyBinding m test = false ↔ ∀ k v, m.lookup k = some v → test k v = false := by
  rw [← Bool.not_eq_true, anyBinding_eq_true]
  push Not
  simp

end HashedBroker.KeyedTables
