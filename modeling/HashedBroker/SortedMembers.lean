import HashedBroker.JsonRoundtrip

/-!
# Objects with sorted names

An ordered map is the list of its bindings in increasing key order; inserting a key that is there
replaces its value. `sorted` turns every object of a value into such a map, the last of two equal
names winning, and its text is the compact serialisation with sorted names.
-/
namespace HashedBroker.SortedMembers
open JsonText

section OrderedMap

variable {K V : Type} [LinearOrder K]

def insertKey (k : K) (v : V) : List (K × V) → List (K × V)
  | [] => [(k, v)]
  | (k', v') :: ms =>
    if k < k' then (k, v) :: (k', v') :: ms
    else if k = k' then (k, v) :: ms
    else (k', v') :: insertKey k v ms

def insertAll (ms : List (K × V)) (acc : List (K × V)) : List (K × V) :=
  ms.foldl (fun acc m => insertKey m.1 m.2 acc) acc

def Increasing (ms : List (K × V)) : Prop := ms.Pairwise fun a b => a.1 < b.1

theorem lookup_cons_ite (k : K) (m : K × V) (ms : List (K × V)) :
    (m :: ms).lookup k = if k = m.1 then some m.2 else ms.lookup k := by
  obtain ⟨a, b⟩ := m
  by_cases h : k = a
  · simp [h]
  · simp [List.lookup_cons, beq_eq_false_iff_ne.mpr h, h]

theorem lookup_insertKey (k k' : K) (v : V) (ms : List (K × V)) :
    (insertKey k v ms).lookup k' = if k' = k then some v else ms.lookup k' := by
  induction ms with
  | nil => simp [insertKey, lookup_cons_ite]
  | cons m ms ih =>
    obtain ⟨a, b⟩ := m
    simp only [insertKey]
    split_ifs with h1 h2 h3 h3 <;> simp_all [lookup_cons_ite]

theorem mem_insertKey {k : K} {v : V} {ms : List (K × V)} {m : K × V}
    (h : m ∈ insertKey k v ms) : m = (k, v) ∨ m ∈ ms := by
  induction ms with
  | nil => simpa [insertKey] using h
  | cons a ms ih =>
    simp only [insertKey] at h
    split_ifs at h
    · simpa using h
    · rcases List.mem_cons.mp h with h | h
      · exact Or.inl h
      · exact Or.inr (by simp [h])
    · rcases List.mem_cons.mp h with h | h
      · exact Or.inr (by simp [h])
      · exact (ih h).imp id fun hm => by simp [hm]

theorem Increasing.insertKey {k : K} {v : V} {ms : List (K × V)} (h : Increasing ms) :
    Increasing (insertKey k v ms) := by
  induction ms with
  | nil => simp [SortedMembers.insertKey, Increasing]
  | cons a ms ih =>
    obtain ⟨hd, tl⟩ := List.pairwise_cons.mp h
    simp only [SortedMembers.insertKey]
    split_ifs with h1 h2
    · refine List.pairwise_cons.mpr ⟨fun b hb => ?_, h⟩
      rcases List.mem_cons.mp hb with rfl | hb
      · exact h1
      · exact h1.trans (hd b hb)
    · exact List.pairwise_cons.mpr ⟨fun b hb => h2 ▸ hd b hb, tl⟩
    · refine List.pairwise_cons.mpr ⟨fun b hb => ?_, ih tl⟩
      rcases mem_insertKey hb with rfl | hb
      · exact lt_of_le_of_ne (not_lt.mp h1) (Ne.symm h2)
      · exact hd b hb

theorem Increasing.insertAll {ms acc : List (K × V)} (h : Increasing acc) :
    Increasing (insertAll ms acc) := by
  induction ms generalizing acc with
  | nil => exact h
  | cons m ms ih => exact ih h.insertKey

theorem lookup_eq_none_of_lt {k : K} {ms : List (K × V)} (h : ∀ m ∈ ms, k < m.1) :
    ms.lookup k = none := by
  rw [List.lookup_eq_none_iff]
  intro m hm
  simpa using (h m hm).ne

/-- An ordered map is determined by its lookups. -/
theorem Increasing.ext {ms ms' : List (K × V)} (h : Increasing ms) (h' : Increasing ms')
    (hl : ∀ k, ms.lookup k = ms'.lookup k) : ms = ms' := by
  induction ms generalizing ms' with
  | nil =>
    cases ms' with
    | nil => rfl
    | cons b ms' =>
      have hb := hl b.1
      simp [lookup_cons_ite] at hb
  | cons a ms ih =>
    obtain ⟨hd, tl⟩ := List.pairwise_cons.mp h
    cases ms' with
    | nil =>
      have ha := hl a.1
      simp [lookup_cons_ite] at ha
    | cons b ms' =>
      obtain ⟨hd', tl'⟩ := List.pairwise_cons.mp h'
      have hab : a.1 = b.1 := by
        rcases lt_trichotomy a.1 b.1 with hlt | heq | hgt
        · have hn : ((b :: ms').lookup a.1) = none := by
            apply lookup_eq_none_of_lt
            intro m hm
            rcases List.mem_cons.mp hm with rfl | hm
            · exact hlt
            · exact hlt.trans (hd' m hm)
          have ha := hl a.1
          rw [hn] at ha
          simp [lookup_cons_ite] at ha
        · exact heq
        · have hn : ((a :: ms).lookup b.1) = none := by
            apply lookup_eq_none_of_lt
            intro m hm
            rcases List.mem_cons.mp hm with rfl | hm
            · exact hgt
            · exact hgt.trans (hd m hm)
          have hb := hl b.1
          rw [hn] at hb
          simp [lookup_cons_ite] at hb
      have hv : a.2 = b.2 := by
        have ha := hl a.1
        simpa [lookup_cons_ite, hab] using ha
      have hms : ms = ms' := by
        refine ih tl tl' fun k => ?_
        by_cases hk : k = a.1
        · rw [lookup_eq_none_of_lt fun m hm => hk ▸ hd m hm,
            lookup_eq_none_of_lt fun m hm => hk ▸ hab ▸ hd' m hm]
        · have hlk := hl k
          have hk' : k ≠ b.1 := hab ▸ hk
          simpa [lookup_cons_ite, hk, hk'] using hlk
      rw [hms, Prod.ext hab hv]

theorem lookup_eq_none_of_notMem {k : K} {ms : List (K × V)} (h : k ∉ ms.map Prod.fst) :
    ms.lookup k = none := by
  rw [List.lookup_eq_none_iff]
  intro m hm
  have hne : k ≠ m.1 := fun he => h (List.mem_map.mpr ⟨m, hm, he.symm⟩)
  simpa using hne

theorem lookup_insertAll {ms : List (K × V)} (h : (ms.map Prod.fst).Nodup)
    (acc : List (K × V)) (k : K) :
    (insertAll ms acc).lookup k = (ms.lookup k).or (acc.lookup k) := by
  induction ms generalizing acc with
  | nil => simp [insertAll]
  | cons m ms ih =>
    simp only [List.map_cons, List.nodup_cons] at h
    have hi := ih h.2 (insertKey m.1 m.2 acc)
    simp only [insertAll, List.foldl_cons] at hi ⊢
    rw [hi, lookup_insertKey, lookup_cons_ite]
    split_ifs with hk
    · rw [lookup_eq_none_of_notMem (hk ▸ h.1)]
      rfl
    · rfl

/-- Bindings that may be left out: those that are there keep their keys. -/
def present (fs : List (K × Option V)) : List (K × V) :=
  fs.filterMap fun f => f.2.map fun v => (f.1, v)

theorem lookup_present {fs : List (K × Option V)} (h : (fs.map Prod.fst).Nodup) (k : K) :
    (present fs).lookup k = (fs.lookup k).join := by
  induction fs with
  | nil => rfl
  | cons f fs ih =>
    obtain ⟨name, value⟩ := f
    simp only [List.map_cons, List.nodup_cons] at h
    have hi := ih h.2
    cases value with
    | none =>
      have hp : present ((name, none) :: fs) = present fs := rfl
      rw [hp, hi, lookup_cons_ite]
      split_ifs with hk
      · simp only at hk
        rw [hk, lookup_eq_none_of_notMem h.1]
        rfl
      · rfl
    | some v =>
      have hp : present ((name, some v) :: fs) = (name, v) :: present fs := rfl
      rw [hp, lookup_cons_ite, lookup_cons_ite, hi]
      split_ifs <;> rfl

omit [LinearOrder K] in
theorem present_keys (fs : List (K × Option V)) :
    ((present fs).map Prod.fst).Sublist (fs.map Prod.fst) := by
  induction fs with
  | nil => exact List.Sublist.refl _
  | cons f fs ih =>
    obtain ⟨name, value⟩ := f
    cases value with
    | none => exact ih.cons name
    | some v => exact ih.cons_cons name

theorem Increasing.nodup {ms : List (K × V)} (h : Increasing ms) : (ms.map Prod.fst).Nodup := by
  rw [List.nodup_iff_pairwise_ne, List.pairwise_map]
  exact h.imp fun hab => ne_of_lt hab

end OrderedMap

mutual

/-- Every object of the value as an ordered map. -/
def sorted : Json → Json
  | .null => .null
  | .bool b => .bool b
  | .int n => .int n
  | .float lexeme => .float lexeme
  | .str s => .str s
  | .arr xs => .arr (sortedElements xs)
  | .obj ms => .obj (sortedMembers ms [])

def sortedElements : List Json → List Json
  | [] => []
  | x :: xs => sorted x :: sortedElements xs

def sortedMembers : List (String × Json) → List (String × Json) → List (String × Json)
  | [], acc => acc
  | (k, v) :: ms, acc => sortedMembers ms (insertKey k (sorted v) acc)

end

end HashedBroker.SortedMembers
