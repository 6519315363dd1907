import HashedBroker.DatabaseCalls

/-!
# The grammar of handles

The documented handles are names with an optional organisation, and `validate_handle` scans for
them with a counter of the `@` it has seen. It does not ask that there is something on both sides of
one.
-/
namespace HashedBroker.Handles

/-- Lowercase letters, digits, `.`, `-` and `_`. -/
def nameChars : List Char :=
  ['a', 'b', 'c', 'd', 'e', 'f', 'g', 'h', 'i', 'j', 'k', 'l', 'm', 'n', 'o', 'p', 'q', 'r', 's',
    't', 'u', 'v', 'w', 'x', 'y', 'z', '0', '1', '2', '3', '4', '5', '6', '7', '8', '9', '.', '-',
    '_']

def Spelled (cs : List Char) : Prop := ∀ c ∈ cs, c ∈ nameChars

/-- A handle as documented: a name, or a name and an organisation, of 2 to 64 characters. -/
def Documented (s : String) : Prop :=
  2 ≤ s.length ∧ s.length ≤ 64 ∧
    ((s.toList ≠ [] ∧ Spelled s.toList) ∨
      ∃ name org, s.toList = name ++ '@' :: org ∧ (name ≠ [] ∧ Spelled name) ∧
        org ≠ [] ∧ Spelled org)

/-- An `@` before or after 1 to 63 characters of a name. -/
def Dangling (s : String) : Prop :=
  ∃ w, Spelled w ∧ 1 ≤ w.length ∧ w.length ≤ 63 ∧
    (s.toList = '@' :: w ∨ s.toList = w ++ ['@'])

/-! ## What the scanner accepts -/

theorem allowedChar_iff (c : Char) : allowedChar c = true ↔ c ∈ nameChars := by
  constructor
  · intro h
    have hrange : (97 ≤ c.toNat ∧ c.toNat ≤ 122) ∨ (48 ≤ c.toNat ∧ c.toNat ≤ 57) ∨
        c = '.' ∨ c = '-' ∨ c = '_' := by
      simp only [allowedChar, Bool.or_eq_true, Bool.and_eq_true, decide_eq_true_eq, Char.le_def,
        UInt32.le_iff_toNat_le] at h
      rcases h with (((hlower | hdigit) | hdot) | hminus) | hscore
      · exact Or.inl hlower
      · exact Or.inr (Or.inl hdigit)
      · exact Or.inr (Or.inr (Or.inl hdot))
      · exact Or.inr (Or.inr (Or.inr (Or.inl hminus)))
      · exact Or.inr (Or.inr (Or.inr (Or.inr hscore)))
    have hlower : ∀ n, 97 ≤ n → n ≤ 122 → Char.ofNat n ∈ nameChars := by
      intro n h₁ h₂
      interval_cases n <;> decide
    have hdigit : ∀ n, 48 ≤ n → n ≤ 57 → Char.ofNat n ∈ nameChars := by
      intro n h₁ h₂
      interval_cases n <;> decide
    rcases hrange with ⟨h₁, h₂⟩ | ⟨h₁, h₂⟩ | rfl | rfl | rfl
    · rw [← Char.ofNat_toNat c]
      exact hlower _ h₁ h₂
    · rw [← Char.ofNat_toNat c]
      exact hdigit _ h₁ h₂
    · decide
    · decide
    · decide
  · intro h
    have hall : nameChars.all allowedChar = true := by decide +kernel
    exact List.all_eq_true.mp hall c h

theorem at_notMem_nameChars : '@' ∉ nameChars := by decide

theorem Spelled.nil : Spelled [] := fun _ h => absurd h List.not_mem_nil

theorem Spelled.cons {c : Char} {cs : List Char} (hc : c ∈ nameChars) (hcs : Spelled cs) :
    Spelled (c :: cs) := by
  intro d hd
  rcases List.mem_cons.mp hd with rfl | hd
  · exact hc
  · exact hcs d hd

theorem Spelled.count_at {cs : List Char} (h : Spelled cs) : cs.count '@' = 0 :=
  List.count_eq_zero.mpr fun hmem => at_notMem_nameChars (h _ hmem)

/-- At most one `@`, between characters of a name. -/
def Scanned (cs : List Char) : Prop :=
  Spelled cs ∨ ∃ name org, cs = name ++ '@' :: org ∧ Spelled name ∧ Spelled org

/-- The loop accepts the rest of a handle when the `@` of the whole handle is the only one. -/
theorem validateChars_ok (crates : Crates) (cs : List Char) :
    (validateChars crates 0 cs = .ok () ↔ Scanned cs) ∧
      (validateChars crates 1 cs = .ok () ↔ Spelled cs) := by
  induction cs with
  | nil => exact ⟨iff_of_true rfl (Or.inl .nil), iff_of_true rfl .nil⟩
  | cons c cs ih =>
    by_cases hc : c ∈ nameChars
    · have hallowed : allowedChar c = true := (allowedChar_iff c).mpr hc
      have htail : Spelled (c :: cs) ↔ Spelled cs :=
        ⟨fun h d hd => h d (List.mem_cons_of_mem c hd), .cons hc⟩
      have hscanned : Scanned (c :: cs) ↔ Scanned cs := by
        refine or_congr htail ⟨?_, ?_⟩
        · rintro ⟨name, org, heq, hname, horg⟩
          cases name with
          | nil =>
            cases heq
            exact absurd hc at_notMem_nameChars
          | cons d name =>
            cases heq
            exact ⟨name, org, rfl, fun e he => hname e (List.mem_cons_of_mem _ he), horg⟩
        · rintro ⟨name, org, rfl, hname, horg⟩
          exact ⟨c :: name, org, rfl, hname.cons hc, horg⟩
      simp only [validateChars, if_pos hallowed]
      exact ⟨ih.1.trans hscanned.symm, ih.2.trans htail.symm⟩
    · have hallowed : ¬ allowedChar c = true := fun h => hc ((allowedChar_iff c).mp h)
      have hspelled : ¬ Spelled (c :: cs) := fun h => hc (h c List.mem_cons_self)
      by_cases hat : c = '@'
      · subst hat
        have hscanned : Scanned ('@' :: cs) ↔ Spelled cs := by
          constructor
          · rintro (h | ⟨name, org, heq, hname, horg⟩)
            · exact absurd h hspelled
            · cases name with
              | nil =>
                cases heq
                exact horg
              | cons d name =>
                cases heq
                exact absurd (hname _ List.mem_cons_self) at_notMem_nameChars
          · intro h
            exact Or.inr ⟨[], cs, rfl, .nil, h⟩
        simp only [validateChars, if_neg hallowed, if_true]
        exact ⟨ih.2.trans hscanned.symm, iff_of_false nofun hspelled⟩
      · have hscanned : ¬ Scanned (c :: cs) := by
          rintro (h | ⟨name, org, heq, hname, -⟩)
          · exact hspelled h
          · cases name with
            | nil =>
              cases heq
              exact hat rfl
            | cons d name =>
              cases heq
              exact hc (hname _ List.mem_cons_self)
        simp only [validateChars, if_neg hallowed, if_neg hat]
        exact ⟨iff_of_false nofun hscanned, iff_of_false nofun hspelled⟩

/-- An accepted text is ASCII, so its bytes are its characters. -/
theorem Scanned.utf8Len {cs : List Char} (h : Scanned cs) : String.utf8Len cs = cs.length := by
  have hsize : ∀ c ∈ nameChars, c.utf8Size = 1 := by
    have hall : (nameChars.all fun c => c.utf8Size = 1) = true := by decide +kernel
    exact fun c hc => of_decide_eq_true (List.all_eq_true.mp hall c hc)
  have hspelled : ∀ {cs}, Spelled cs → String.utf8Len cs = cs.length := by
    intro cs hcs
    induction cs with
    | nil => rfl
    | cons c cs ih =>
      rw [String.utf8Len_cons, ih fun d hd => hcs d (List.mem_cons_of_mem c hd),
        hsize c (hcs c List.mem_cons_self), List.length_cons]
  rcases h with hcs | ⟨name, org, rfl, hname, horg⟩
  · exact hspelled hcs
  · have hat : ('@').utf8Size = 1 := by decide
    rw [String.utf8Len_append, String.utf8Len_cons, hspelled hname, hspelled horg, hat,
      List.length_append, List.length_cons]

theorem validateHandle_ok (crates : Crates) (s : String) :
    validateHandle crates s = .ok () ↔ 2 ≤ s.length ∧ s.length ≤ 64 ∧ Scanned s.toList := by
  have hlength : Scanned s.toList → s.utf8ByteSize = s.length := by
    intro h
    rw [← String.utf8Len_toList, h.utf8Len, String.length_toList]
  simp only [validateHandle]
  split_ifs with hlen
  · rw [(validateChars_ok crates s.toList).1]
    constructor
    · intro h
      rw [hlength h] at hlen
      exact ⟨hlen.1, hlen.2, h⟩
    · intro h
      exact h.2.2
  · refine iff_of_false nofun ?_
    rintro ⟨h₁, h₂, h⟩
    rw [hlength h] at hlen
    exact hlen ⟨h₁, h₂⟩

/-! ## The scanner and the grammar -/

theorem Documented.scanned {s : String} (h : Documented s) : Scanned s.toList := by
  obtain ⟨-, -, hform⟩ := h
  rcases hform with ⟨-, hname⟩ | ⟨name, org, heq, hname, horg⟩
  · exact Or.inl hname
  · exact Or.inr ⟨name, org, heq, hname.2, horg.2⟩

theorem Dangling.scanned {s : String} (h : Dangling s) : Scanned s.toList := by
  obtain ⟨w, hw, -, -, heq | heq⟩ := h
  · exact Or.inr ⟨[], w, heq, .nil, hw⟩
  · exact Or.inr ⟨w, [], heq, hw, .nil⟩

theorem Dangling.length {s : String} (h : Dangling s) : 2 ≤ s.length ∧ s.length ≤ 64 := by
  obtain ⟨w, -, hmin, hmax, heq⟩ := h
  have hs : s.length = w.length + 1 := by
    rw [← String.length_toList]
    rcases heq with heq | heq
    · rw [heq, List.length_cons]
    · rw [heq, List.length_append, List.length_singleton]
  omega

theorem Dangling.not_documented {s : String} (h : Dangling s) : ¬ Documented s := by
  obtain ⟨w, hw, -, -, heq⟩ := h
  have hcount : s.toList.count '@' = 1 := by
    rcases heq with heq | heq
    · rw [heq, List.count_cons_self, hw.count_at]
    · rw [heq, List.count_append, hw.count_at, List.count_singleton_self]
  rintro ⟨-, -, ⟨-, hspelled⟩ | ⟨name, org, hform, ⟨hname, hn⟩, horg, ho⟩⟩
  · rw [hspelled.count_at] at hcount
    omega
  · rcases heq with heq | heq
    · rw [heq] at hform
      cases name with
      | nil => exact hname rfl
      | cons c name =>
        cases hform
        exact at_notMem_nameChars (hn _ List.mem_cons_self)
    · rw [heq] at hform
      have hlast : org.getLast horg = '@' := by
        have hlasts := congrArg List.getLast? hform
        rw [List.getLast?_append, List.getLast?_append, List.getLast?_cons_of_ne_nil horg,
          List.getLast?_eq_some_getLast horg] at hlasts
        exact (Option.some.inj hlasts).symm
      have hmem := List.getLast_mem horg
      rw [hlast] at hmem
      exact at_notMem_nameChars (ho _ hmem)

theorem documented_or_dangling {s : String} (hmin : 2 ≤ s.length) (hmax : s.length ≤ 64)
    (h : Scanned s.toList) : Documented s ∨ Dangling s := by
  rw [← String.length_toList] at hmin hmax
  rcases h with hname | ⟨name, org, heq, hname, horg⟩
  · refine Or.inl ⟨hmin, hmax, Or.inl ⟨?_, hname⟩⟩
    intro hnil
    rw [hnil, List.length_nil] at hmin
    omega
  · have hlength := congrArg List.length heq
    rw [List.length_append, List.length_cons] at hlength
    by_cases hn : name = []
    · subst hn
      rw [List.length_nil] at hlength
      exact Or.inr ⟨org, horg, by omega, by omega, Or.inl heq⟩
    · by_cases ho : org = []
      · subst ho
        rw [List.length_nil] at hlength
        exact Or.inr ⟨name, hname, by omega, by omega, Or.inr heq⟩
      · exact Or.inl ⟨hmin, hmax, Or.inr ⟨name, org, heq, ⟨hn, hname⟩, ho, horg⟩⟩

/-- The scanner accepts exactly the documented handles and those whose `@` stands at an end. -/
theorem accepts_documented_iff (crates : Crates) (s : String) :
    (validateHandle crates s = .ok () ↔ Documented s) ↔ ¬ Dangling s := by
  rw [validateHandle_ok]
  constructor
  · intro h hdangling
    refine hdangling.not_documented (h.mp ?_)
    exact ⟨hdangling.length.1, hdangling.length.2, hdangling.scanned⟩
  · intro hno
    constructor
    · rintro ⟨hmin, hmax, hscanned⟩
      exact (documented_or_dangling hmin hmax hscanned).resolve_right hno
    · intro h
      exact ⟨h.1, h.2.1, h.scanned⟩

/-- A name and an `@` with nothing after it. -/
theorem trailing_at_accepted :
    ¬ (validateHandle Crates.demo "alice@" = .ok () ↔ Documented "alice@") := by
  have hspelled : ∀ c ∈ "alice".toList, c ∈ nameChars := by
    have hall : ("alice".toList.all fun c => c ∈ nameChars) = true := by decide +kernel
    exact fun c hc => of_decide_eq_true (List.all_eq_true.mp hall c hc)
  have hdangling : Dangling "alice@" :=
    ⟨"alice".toList, hspelled, by decide, by decide, Or.inr (by decide)⟩
  have haccepted : validateHandle Crates.demo "alice@" = .ok () := by decide
  exact fun h => hdangling.not_documented (h.mp haccepted)

end HashedBroker.Handles
