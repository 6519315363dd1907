import HashedBroker.JsonText

/-!
# Reading back a printed JSON value

Every value the reader can return is printed to a text that reads back as the same value. The
compact text therefore determines the value.
-/
namespace HashedBroker.JsonText

/-! ## Strings -/

theorem hexValue_hexDigit : ∀ n < 16, hexValue (hexDigit n) = some n := by decide

theorem readHex4_control (n : ℕ) (h : n < 32) (r : List Char) :
    readHex4 ('0' :: '0' :: hexDigit (n / 16) :: hexDigit (n % 16) :: r) = some (n, r) := by
  have h0 : hexValue '0' = some 0 := by decide
  have h1 := hexValue_hexDigit (n / 16) (by omega)
  have h2 := hexValue_hexDigit (n % 16) (by omega)
  simp only [readHex4, h0, h1, h2, Option.bind_eq_bind, Option.bind_some, Option.some.injEq,
    Prod.mk.injEq, and_true]
  omega

theorem readUnicode_control (c : Char) (h : c.toNat < 32) (r : List Char) :
    readUnicode ('0' :: '0' :: hexDigit (c.toNat / 16) :: hexDigit (c.toNat % 16) :: r) =
      some (c, r) := by
  have h1 : ¬ (0xDC00 ≤ c.toNat ∧ c.toNat ≤ 0xDFFF) := by omega
  have h2 : ¬ (0xD800 ≤ c.toNat ∧ c.toNat ≤ 0xDBFF) := by omega
  simp [readUnicode, readHex4_control _ h, h1, h2]

theorem readChars_escapeChar (c : Char) (fuel : ℕ) (r : List Char) :
    readChars (fuel + 1) (escapeChar c ++ r) =
      (readChars fuel r).map fun x => (c :: x.1, x.2) := by
  have hmap : ∀ o : Option (List Char × List Char), ∀ c : Char,
      (o.bind fun x => some (c :: x.1, x.2)) = o.map fun x => (c :: x.1, x.2) := by
    intro o c
    cases o <;> rfl
  unfold escapeChar
  split_ifs with h1 h2 h3 h4 h5 h6 h7 h8
  · subst c; simp [readChars, readEscape, hmap]
  · subst c; simp [readChars, readEscape, hmap]
  · subst c; simp [readChars, readEscape, hmap]
  · subst c; simp [readChars, readEscape, hmap]
  · subst c; simp [readChars, readEscape, hmap]
  · subst c; simp [readChars, readEscape, hmap]
  · subst c; simp [readChars, readEscape, hmap]
  · simp [readChars, readEscape, readUnicode_control _ h8, hmap]
  · simp [readChars, h1, h2, h8, hmap]

theorem readChars_escaped (cs : List Char) (fuel : ℕ) (r : List Char) (h : cs.length < fuel) :
    readChars fuel (cs.flatMap escapeChar ++ '"' :: r) = some (cs, r) := by
  induction cs generalizing fuel with
  | nil =>
    obtain ⟨fuel, rfl⟩ : ∃ f, fuel = f + 1 := ⟨fuel - 1, by simp at h; omega⟩
    simp [readChars]
  | cons c cs ih =>
    obtain ⟨fuel, rfl⟩ : ∃ f, fuel = f + 1 := ⟨fuel - 1, by simp at h; omega⟩
    simp only [List.length_cons] at h
    rw [List.flatMap_cons, List.append_assoc, readChars_escapeChar, ih fuel (by omega)]
    rfl

theorem length_le_escaped (cs : List Char) : cs.length ≤ (cs.flatMap escapeChar).length := by
  induction cs with
  | nil => simp
  | cons c cs ih =>
    have hc : 1 ≤ (escapeChar c).length := by
      unfold escapeChar
      split_ifs <;> simp
    simp only [List.flatMap_cons, List.length_append, List.length_cons]
    omega

theorem readString_print (s : String) (r : List Char) :
    readString (s.toList.flatMap escapeChar ++ '"' :: r) = some (s, r) := by
  have hlen := length_le_escaped s.toList
  unfold readString
  rw [readChars_escaped _ _ _ (by simp only [List.length_append, List.length_cons]; omega)]
  simp

/-! ## Numbers -/

theorem isNumberChar_of_isDigit {c : Char} (h : c.isDigit = true) : isNumberChar c = true := by
  simp [isNumberChar, h]

/-- What may follow a number: nothing that could belong to it. -/
def Stops (r : List Char) : Prop := ∀ c t, r = c :: t → isNumberChar c = false

theorem stops_nil : Stops [] := by
  intro c t h
  cases h

theorem stops_cons {c : Char} {t : List Char} (h : isNumberChar c = false) : Stops (c :: t) := by
  intro c' t' h'
  cases h'
  exact h

theorem span_number {lexeme r : List Char} (hl : ∀ c ∈ lexeme, isNumberChar c = true)
    (hr : Stops r) : (lexeme ++ r).takeWhile isNumberChar = lexeme ∧
      (lexeme ++ r).dropWhile isNumberChar = r := by
  induction lexeme with
  | nil =>
    cases r with
    | nil => simp
    | cons c t => simp [hr c t rfl]
  | cons c cs ih =>
    have hc := hl c (by simp)
    have hi := ih fun x hx => hl x (by simp [hx])
    simp [hc, hi.1, hi.2]

theorem readNumber_append {finite : List Char → Bool} {lexeme r : List Char} {j : Json}
    (hl : ∀ c ∈ lexeme, isNumberChar c = true) (hr : Stops r)
    (hj : numberOf finite lexeme = some j) :
    readNumber finite (lexeme ++ r) = some (j, r) := by
  obtain ⟨h1, h2⟩ := span_number hl hr
  rw [readNumber, h1, h2, hj, Option.map_some]

theorem toDigits_isDigit (n : ℕ) : ∀ c ∈ Nat.toDigits 10 n, c.isDigit = true :=
  fun _ hc => Nat.isDigit_of_mem_toDigits (by norm_num) (by norm_num) hc

theorem toDigits_head (n : ℕ) (hn : n ≠ 0) : (Nat.toDigits 10 n).head? ≠ some '0' := by
  induction n using Nat.strong_induction_on with
  | _ n ih =>
    rw [Nat.toDigits_eq_if (by norm_num)]
    split_ifs with h
    · intro h0
      have hz : ∀ m < 10, m.digitChar = '0' → m = 0 := by decide
      exact hn (hz n h (by simpa using h0))
    · have hi := ih (n / 10) (by omega) (by omega)
      rw [List.head?_append]
      cases hd : (Nat.toDigits 10 (n / 10)).head? with
      | none => exact absurd (List.head?_eq_none_iff.mp hd) Nat.toDigits_ne_nil
      | some c => simpa [hd] using hi

theorem toDigits_plain (n : ℕ) :
    ¬ (Nat.toDigits 10 n = [] ∨
      ((Nat.toDigits 10 n).head? = some '0' ∧ (Nat.toDigits 10 n).length ≠ 1)) := by
  rintro (h | ⟨h, hl⟩)
  · exact Nat.toDigits_ne_nil h
  · by_cases hn : n = 0
    · subst hn
      exact hl (by decide)
    · exact toDigits_head n hn h

theorem takeWhile_toDigits (n : ℕ) :
    (Nat.toDigits 10 n).takeWhile Char.isDigit = Nat.toDigits 10 n :=
  List.takeWhile_eq_self_iff.mpr (toDigits_isDigit n)

theorem dropWhile_toDigits (n : ℕ) : (Nat.toDigits 10 n).dropWhile Char.isDigit = [] :=
  List.dropWhile_eq_nil_iff.mpr (toDigits_isDigit n)

theorem toDigits_head_ne_minus (n : ℕ) : (Nat.toDigits 10 n).head? ≠ some '-' := by
  intro h
  have hm := toDigits_isDigit n '-' (List.mem_of_mem_head? h)
  exact absurd hm (by decide)

theorem numberOf_printInt (finite : List Char → Bool) {n : ℤ} (h1 : -2 ^ 63 ≤ n)
    (h2 : n < 2 ^ 64) : numberOf finite (printInt n) = some (.int n) := by
  have hp := toDigits_plain n.natAbs
  unfold printInt
  split_ifs with hn
  · have hpos : 0 < n.natAbs ∧ n.natAbs ≤ 2 ^ 63 := by omega
    simp only [numberOf, List.head?_cons, ↓reduceIte, List.drop_succ_cons,
      List.drop_zero, takeWhile_toDigits, dropWhile_toDigits, Nat.ofDigitChars_ten_toDigits,
      if_neg hp, ne_eq, not_true_eq_false, hpos, and_self, Option.some.injEq, Json.int.injEq]
    omega
  · have hlt : n.natAbs < 2 ^ 64 := by omega
    simp only [numberOf, toDigits_head_ne_minus, ↓reduceIte,
      takeWhile_toDigits, dropWhile_toDigits, Nat.ofDigitChars_ten_toDigits, if_neg hp, ne_eq,
      not_true_eq_false, hlt, Option.some.injEq, Json.int.injEq]
    omega

theorem printInt_chars (n : ℤ) : ∀ c ∈ printInt n, isNumberChar c = true := by
  intro c hc
  unfold printInt at hc
  split_ifs at hc
  · rcases List.mem_cons.mp hc with rfl | hc
    · decide
    · exact isNumberChar_of_isDigit (toDigits_isDigit _ c hc)
  · exact isNumberChar_of_isDigit (toDigits_isDigit _ c hc)

/-! ## Values -/

/-- The values the reader returns when it may still enter `depth` arrays and objects. -/
inductive Readable (finite : List Char → Bool) : ℕ → Json → Prop
  | null (depth : ℕ) : Readable finite depth .null
  | bool (depth : ℕ) (b : Bool) : Readable finite depth (.bool b)
  | int (depth : ℕ) {n : ℤ} (low : -2 ^ 63 ≤ n) (high : n < 2 ^ 64) : Readable finite depth (.int n)
  | float (depth : ℕ) {lexeme : List Char} (chars : ∀ c ∈ lexeme, isNumberChar c = true)
      (number : numberOf finite lexeme = some (.float lexeme)) :
      Readable finite depth (.float lexeme)
  | str (depth : ℕ) (s : String) : Readable finite depth (.str s)
  | arr {depth : ℕ} {xs : List Json} (elements : ∀ x ∈ xs, Readable finite depth x) :
      Readable finite (depth + 1) (.arr xs)
  | obj {depth : ℕ} {ms : List (String × Json)} (members : ∀ m ∈ ms, Readable finite depth m.2) :
      Readable finite (depth + 1) (.obj ms)

mutual

/-- How many calls of the reader a value takes. -/
def size : Json → ℕ
  | .null => 1
  | .bool _ => 1
  | .int _ => 1
  | .float _ => 1
  | .str _ => 1
  | .arr [] => 2
  | .arr (x :: xs) => 2 + size x + sizeElements xs
  | .obj [] => 2
  | .obj ((_, v) :: ms) => 3 + size v + sizeMembers ms

def sizeElements : List Json → ℕ
  | [] => 1
  | x :: xs => 1 + size x + sizeElements xs

def sizeMembers : List (String × Json) → ℕ
  | [] => 1
  | (_, v) :: ms => 2 + size v + sizeMembers ms

end

theorem skipBlanks_cons {c : Char} {t : List Char} (h : isBlank c = false) :
    skipBlanks (c :: t) = c :: t := by
  simp [skipBlanks, h]

theorem number_head {finite : List Char → Bool} {lexeme : List Char} {j : Json}
    (h : numberOf finite lexeme = some j) :
    ∃ c t, lexeme = c :: t ∧ (c = '-' ∨ c.isDigit = true) := by
  cases lexeme with
  | nil => simp [numberOf] at h
  | cons c t =>
    refine ⟨c, t, rfl, ?_⟩
    by_contra hc
    have h1 : c ≠ '-' := fun he => hc (Or.inl he)
    have h2 : c.isDigit = false := by
      cases hd : c.isDigit with
      | false => rfl
      | true => exact absurd (Or.inr hd) hc
    simp [numberOf, h1, h2] at h

theorem printInt_head (n : ℤ) : ∃ c t, printInt n = c :: t ∧ (c = '-' ∨ c.isDigit = true) := by
  unfold printInt
  split_ifs
  · exact ⟨_, _, rfl, Or.inl rfl⟩
  · cases hd : Nat.toDigits 10 n.natAbs with
    | nil => exact absurd hd Nat.toDigits_ne_nil
    | cons c t => exact ⟨c, t, rfl, Or.inr (toDigits_isDigit n.natAbs c (by simp [hd]))⟩

theorem numberHead_plain {c : Char} (hc : c = '-' ∨ c.isDigit = true) :
    isBlank c = false ∧ c ∉ [']', 'n', 't', 'f', '"', '[', '{'] := by
  rcases hc with rfl | hc
  · decide
  · constructor
    · by_contra hb
      simp only [Bool.not_eq_false, isBlank, Bool.or_eq_true, decide_eq_true_eq] at hb
      rcases hb with ((rfl | rfl) | rfl) | rfl <;> exact absurd hc (by decide)
    · intro hm
      fin_cases hm <;> exact absurd hc (by decide)

theorem readValue_number {finite : List Char → Bool} {fuel depth : ℕ} {c : Char}
    {t : List Char} (hc : c = '-' ∨ c.isDigit = true) :
    readValue finite (fuel + 1) depth (c :: t) = readNumber finite (c :: t) := by
  obtain ⟨hb, hne⟩ := numberHead_plain hc
  rw [readValue, skipBlanks_cons hb]
  split <;> first | rfl | (rename_i he; cases he; exact absurd (by decide) hne)

theorem print_head {finite : List Char → Bool} {depth : ℕ} {j : Json}
    (h : Readable finite depth j) :
    ∃ c t, print j = c :: t ∧ isBlank c = false ∧ c ≠ ']' := by
  have hnum : ∀ c : Char, (c = '-' ∨ c.isDigit = true) → isBlank c = false ∧ c ≠ ']' := by
    intro c hc
    obtain ⟨hb, hne⟩ := numberHead_plain hc
    exact ⟨hb, fun he => hne (by simp [he])⟩
  cases h with
  | null => exact ⟨_, _, by rw [print], by decide, by decide⟩
  | bool _ b => cases b <;> exact ⟨_, _, by rw [print], by decide, by decide⟩
  | @int _ n _ _ =>
    obtain ⟨c, t, he, hc⟩ := printInt_head n
    exact ⟨c, t, by rw [print, he], hnum c hc⟩
  | float _ _ number =>
    obtain ⟨c, t, he, hc⟩ := number_head number
    exact ⟨c, t, by rw [print, he], hnum c hc⟩
  | str => exact ⟨_, _, by rw [print, printString], by decide, by decide⟩
  | @arr _ xs _ => cases xs <;> exact ⟨_, _, by rw [print], by decide, by decide⟩
  | @obj _ ms _ => cases ms <;> exact ⟨_, _, by rw [print], by decide, by decide⟩

theorem printElements_stops (xs : List Json) (r : List Char) : Stops (printElements xs ++ r) := by
  cases xs <;> exact stops_cons (by decide)

theorem printMembers_stops (ms : List (String × Json)) (r : List Char) :
    Stops (printMembers ms ++ r) := by
  cases ms <;> exact stops_cons (by decide)

theorem readMember_print {finite : List Char → Bool} {fuel depth : ℕ} {k : String} {v : Json}
    {r : List Char} (hv : readValue finite fuel depth (print v ++ r) = some (v, r)) :
    readMember finite (fuel + 1) depth (printString k ++ ':' :: (print v ++ r)) =
      some ((k, v), r) := by
  have hs : skipBlanks (printString k ++ ':' :: (print v ++ r)) =
      '"' :: (k.toList.flatMap escapeChar ++ '"' :: ':' :: (print v ++ r)) := by
    simp [printString, skipBlanks_cons (show isBlank '"' = false by decide)]
  have hc : skipBlanks (':' :: (print v ++ r)) = ':' :: (print v ++ r) :=
    skipBlanks_cons (by decide)
  rw [readMember, hs]
  simp only [readString_print, Option.bind_eq_bind, Option.bind_some, hc, hv]

mutual

theorem readValue_print {finite : List Char → Bool} : ∀ (j : Json) (n depth : ℕ) (r : List Char),
    Readable finite depth j → Stops r →
    readValue finite (size j + n) depth (print j ++ r) = some (j, r)
  | .null, n, depth, r, _, _ => by
    rw [size, Nat.add_comm]
    simp [print, readValue, skipBlanks_cons (show isBlank 'n' = false by decide)]
  | .bool true, n, depth, r, _, _ => by
    rw [size, Nat.add_comm]
    simp [print, readValue, skipBlanks_cons (show isBlank 't' = false by decide)]
  | .bool false, n, depth, r, _, _ => by
    rw [size, Nat.add_comm]
    simp [print, readValue, skipBlanks_cons (show isBlank 'f' = false by decide)]
  | .int i, n, depth, r, hj, hr => by
    cases hj with
    | int _ low high =>
      obtain ⟨c, t, he, hc⟩ := printInt_head i
      have hn := readNumber_append (printInt_chars i) hr (numberOf_printInt finite low high)
      rw [size, Nat.add_comm, print, ← hn, he, List.cons_append, readValue_number hc]
  | .float lexeme, n, depth, r, hj, hr => by
    cases hj with
    | float _ chars number =>
      obtain ⟨c, t, he, hc⟩ := number_head number
      have hn := readNumber_append chars hr number
      rw [size, Nat.add_comm, print, ← hn, he, List.cons_append, readValue_number hc]
  | .str s, n, depth, r, _, _ => by
    have hs := readString_print s r
    rw [size, Nat.add_comm]
    simp [print, printString, readValue, skipBlanks_cons (show isBlank '"' = false by decide), hs]
  | .arr [], n, depth, r, hj, _ => by
    cases hj
    rw [size, Nat.add_comm]
    simp [print, readValue, readArray, skipBlanks_cons (show isBlank '[' = false by decide),
      skipBlanks_cons (show isBlank ']' = false by decide)]
  | .arr (x :: xs), n, depth, r, hj, hr => by
    cases hj with
    | @arr depth _ elements =>
      have hx := elements x (by simp)
      have h1 := readValue_print x (sizeElements xs + n) depth (printElements xs ++ r) hx
        (printElements_stops xs r)
      have h2 := readElements_print xs (size x + n) depth r
        (fun y hy => elements y (by simp [hy]))
      obtain ⟨c, t, he, hb, hne⟩ := print_head hx
      rw [show sizeElements xs + (size x + n) = size x + (sizeElements xs + n) by omega] at h2
      rw [show size (.arr (x :: xs)) + n = size x + (sizeElements xs + n) + 1 + 1 by
        rw [size]; omega]
      simp only [print, List.cons_append, List.append_assoc]
      rw [readValue, skipBlanks_cons (by decide)]
      simp only
      rw [he, List.cons_append] at h1 ⊢
      rw [readArray, skipBlanks_cons hb]
      split
      · rename_i heq
        cases heq
        exact absurd rfl hne
      · rw [h1]
        simp [h2]
  | .obj [], n, depth, r, hj, _ => by
    cases hj
    rw [size, Nat.add_comm]
    simp [print, readValue, readObject, skipBlanks_cons (show isBlank '{' = false by decide),
      skipBlanks_cons (show isBlank '}' = false by decide)]
  | .obj ((k, v) :: ms), n, depth, r, hj, hr => by
    cases hj with
    | @obj depth _ members =>
      have h1 := readValue_print v (sizeMembers ms + n) depth (printMembers ms ++ r)
        (members (k, v) (by simp)) (printMembers_stops ms r)
      have h2 := readMembers_print ms (size v + n + 1) depth r
        (fun m hm => members m (by simp [hm]))
      have h3 := readMember_print (k := k) h1
      have hb : skipBlanks (printString k ++ ':' :: (print v ++ (printMembers ms ++ r))) =
          printString k ++ ':' :: (print v ++ (printMembers ms ++ r)) := by
        rw [printString, List.cons_append, skipBlanks_cons (by decide)]
      rw [show sizeMembers ms + (size v + n + 1) = size v + (sizeMembers ms + n) + 1 by omega] at h2
      rw [show size (.obj ((k, v) :: ms)) + n = size v + (sizeMembers ms + n) + 1 + 1 + 1 by
        rw [size]; omega]
      simp only [print, List.cons_append, List.append_assoc]
      rw [readValue, skipBlanks_cons (by decide)]
      simp only
      rw [readObject, hb]
      split
      · rename_i heq
        simp [printString] at heq
      · rw [h3]
        simp [h2]

theorem readElements_print {finite : List Char → Bool} : ∀ (xs : List Json) (n depth : ℕ)
    (r : List Char), (∀ x ∈ xs, Readable finite depth x) →
    readElements finite (sizeElements xs + n) depth (printElements xs ++ r) = some (xs, r)
  | [], n, depth, r, _ => by
    rw [sizeElements, Nat.add_comm]
    simp [printElements, readElements, skipBlanks_cons (show isBlank ']' = false by decide)]
  | x :: xs, n, depth, r, hj => by
    have h1 := readValue_print x (sizeElements xs + n) depth (printElements xs ++ r)
      (hj x (by simp)) (printElements_stops xs r)
    have h2 := readElements_print xs (size x + n) depth r (fun y hy => hj y (by simp [hy]))
    rw [show sizeElements xs + (size x + n) = size x + (sizeElements xs + n) by omega] at h2
    rw [show sizeElements (x :: xs) + n = size x + (sizeElements xs + n) + 1 by
      rw [sizeElements]; omega]
    simp only [printElements, List.cons_append, List.append_assoc]
    rw [readElements, skipBlanks_cons (by decide)]
    simp [h1, h2]

theorem readMembers_print {finite : List Char → Bool} : ∀ (ms : List (String × Json))
    (n depth : ℕ) (r : List Char), (∀ m ∈ ms, Readable finite depth m.2) →
    readMembers finite (sizeMembers ms + n) depth (printMembers ms ++ r) = some (ms, r)
  | [], n, depth, r, _ => by
    rw [sizeMembers, Nat.add_comm]
    simp [printMembers, readMembers, skipBlanks_cons (show isBlank '}' = false by decide)]
  | (k, v) :: ms, n, depth, r, hj => by
    have h1 := readValue_print v (sizeMembers ms + n) depth (printMembers ms ++ r)
      (hj (k, v) (by simp)) (printMembers_stops ms r)
    have h2 := readMembers_print ms (size v + n + 1) depth r (fun m hm => hj m (by simp [hm]))
    have h3 := readMember_print (k := k) h1
    rw [show sizeMembers ms + (size v + n + 1) = size v + (sizeMembers ms + n) + 1 by omega] at h2
    rw [show sizeMembers ((k, v) :: ms) + n = size v + (sizeMembers ms + n) + 1 + 1 by
      rw [sizeMembers]; omega]
    simp only [printMembers, List.cons_append, List.append_assoc]
    rw [readMembers, skipBlanks_cons (by decide)]
    simp [h3, h2]

end

theorem printString_length (s : String) : 2 ≤ (printString s).length := by
  simp [printString]

mutual

theorem size_le_print {finite : List Char → Bool} : ∀ (j : Json) (depth : ℕ),
    Readable finite depth j → size j ≤ 2 * (print j).length
  | .null, _, _ => by simp [size, print]
  | .bool true, _, _ => by simp [size, print]
  | .bool false, _, _ => by simp [size, print]
  | .int i, _, _ => by
    obtain ⟨c, t, he, _⟩ := printInt_head i
    simp only [size, print, he, List.length_cons]
    omega
  | .float lexeme, _, hj => by
    cases hj with
    | float _ _ number =>
      obtain ⟨c, t, he, _⟩ := number_head number
      simp only [size, print, he, List.length_cons]
      omega
  | .str s, _, _ => by
    have := printString_length s
    simp only [size, print]
    omega
  | .arr [], _, _ => by simp [size, print]
  | .arr (x :: xs), _, hj => by
    cases hj with
    | arr elements =>
      have h1 := size_le_print x _ (elements x (by simp))
      have h2 := sizeElements_le_print xs _ (fun y hy => elements y (by simp [hy]))
      simp only [size, print, List.length_cons, List.length_append]
      omega
  | .obj [], _, _ => by simp [size, print]
  | .obj ((k, v) :: ms), _, hj => by
    cases hj with
    | obj members =>
      have h1 := size_le_print v _ (members (k, v) (by simp))
      have h2 := sizeMembers_le_print ms _ (fun m hm => members m (by simp [hm]))
      have h3 := printString_length k
      simp only [size, print, List.length_cons, List.length_append]
      omega

theorem sizeElements_le_print {finite : List Char → Bool} : ∀ (xs : List Json) (depth : ℕ),
    (∀ x ∈ xs, Readable finite depth x) → sizeElements xs ≤ 2 * (printElements xs).length
  | [], _, _ => by simp [sizeElements, printElements]
  | x :: xs, depth, hj => by
    have h1 := size_le_print x depth (hj x (by simp))
    have h2 := sizeElements_le_print xs depth (fun y hy => hj y (by simp [hy]))
    simp only [sizeElements, printElements, List.length_cons, List.length_append]
    omega

theorem sizeMembers_le_print {finite : List Char → Bool} : ∀ (ms : List (String × Json))
    (depth : ℕ), (∀ m ∈ ms, Readable finite depth m.2) →
    sizeMembers ms ≤ 2 * (printMembers ms).length
  | [], _, _ => by simp [sizeMembers, printMembers]
  | (k, v) :: ms, depth, hj => by
    have h1 := size_le_print v depth (hj (k, v) (by simp))
    have h2 := sizeMembers_le_print ms depth (fun m hm => hj m (by simp [hm]))
    have h3 := printString_length k
    simp only [sizeMembers, printMembers, List.length_cons, List.length_append]
    omega

end

theorem parse_print {finite : List Char → Bool} {j : Json} (h : Readable finite 127 j) :
    parse finite (String.ofList (print j)) = some j := by
  have hs := size_le_print j 127 h
  have hv := readValue_print j (3 * (print j).length + 3 - size j) 127 [] h stops_nil
  rw [List.append_nil, show size j + (3 * (print j).length + 3 - size j) =
    3 * (print j).length + 3 by omega] at hv
  simp [parse, String.toList_ofList, hv, skipBlanks]

theorem print_injective {finite : List Char → Bool} {i j : Json} (hi : Readable finite 127 i)
    (hj : Readable finite 127 j) (h : print i = print j) : i = j := by
  have h1 := parse_print hi
  rw [h, parse_print hj] at h1
  exact (Option.some.inj h1).symm

/-! ## What the reader returns -/

theorem numberOf_readable {finite : List Char → Bool} {lexeme : List Char} {j : Json}
    (depth : ℕ) (hl : ∀ c ∈ lexeme, isNumberChar c = true)
    (h : numberOf finite lexeme = some j) : Readable finite depth j := by
  -- a float keeps its own lexeme, so the equation that produced it is the one it needs
  have hfloat : ∀ {j}, numberOf finite lexeme = some j → j = .float lexeme →
      Readable finite depth j := by
    rintro j hj rfl
    exact .float depth hl hj
  have hj := h
  simp only [numberOf] at h
  split_ifs at h with _ _ _ _ _ _ _ _ hneg _ hpos _
  all_goals first
    | exact hfloat hj (Option.some.inj h).symm
    | (obtain rfl := Option.some.inj h
       exact .int depth (by omega) (by omega))

theorem readNumber_readable {finite : List Char → Bool} {text r : List Char} {j : Json}
    (depth : ℕ) (h : readNumber finite text = some (j, r)) : Readable finite depth j := by
  obtain ⟨j', hn, heq⟩ := Option.map_eq_some_iff.mp h
  cases heq
  exact numberOf_readable depth (fun c hc => List.mem_takeWhile_imp hc) hn

mutual

theorem readValue_readable {finite : List Char → Bool} : ∀ (fuel depth : ℕ) (text : List Char)
    (j : Json) (r : List Char), readValue finite fuel depth text = some (j, r) →
    Readable finite depth j
  | 0, _, _, _, _, h => by simp [readValue] at h
  | fuel + 1, depth, text, j, r, h => by
    rw [readValue] at h
    split at h
    · cases h
      exact .null depth
    · cases h
      exact .bool depth true
    · cases h
      exact .bool depth false
    · obtain ⟨x, _, heq⟩ := Option.map_eq_some_iff.mp h
      cases heq
      exact .str depth x.1
    · split at h
      · cases h
      · obtain ⟨⟨xs, r'⟩, ha, heq⟩ := Option.map_eq_some_iff.mp h
        cases heq
        exact .arr (readArray_readable fuel _ _ xs _ ha)
    · split at h
      · cases h
      · obtain ⟨⟨ms, r'⟩, ha, heq⟩ := Option.map_eq_some_iff.mp h
        cases heq
        exact .obj (readObject_readable fuel _ _ ms _ ha)
    · exact readNumber_readable depth h

theorem readArray_readable {finite : List Char → Bool} : ∀ (fuel depth : ℕ) (text : List Char)
    (xs : List Json) (r : List Char), readArray finite fuel depth text = some (xs, r) →
    ∀ x ∈ xs, Readable finite depth x
  | 0, _, _, _, _, h => by simp [readArray] at h
  | fuel + 1, depth, text, xs, r, h => by
    rw [readArray] at h
    split at h
    · cases h
      simp
    · obtain ⟨⟨x, r₁⟩, hx, h⟩ := Option.bind_eq_some_iff.mp h
      obtain ⟨⟨ys, r₂⟩, hys, h⟩ := Option.bind_eq_some_iff.mp h
      cases h
      exact List.forall_mem_cons.mpr ⟨readValue_readable fuel _ _ x _ hx,
        readElements_readable fuel _ _ ys _ hys⟩

theorem readElements_readable {finite : List Char → Bool} : ∀ (fuel depth : ℕ)
    (text : List Char) (xs : List Json) (r : List Char),
    readElements finite fuel depth text = some (xs, r) → ∀ x ∈ xs, Readable finite depth x
  | 0, _, _, _, _, h => by simp [readElements] at h
  | fuel + 1, depth, text, xs, r, h => by
    rw [readElements] at h
    split at h
    · cases h
      simp
    · obtain ⟨⟨x, r₁⟩, hx, h⟩ := Option.bind_eq_some_iff.mp h
      obtain ⟨⟨ys, r₂⟩, hys, h⟩ := Option.bind_eq_some_iff.mp h
      cases h
      exact List.forall_mem_cons.mpr ⟨readValue_readable fuel _ _ x _ hx,
        readElements_readable fuel _ _ ys _ hys⟩
    · cases h

theorem readObject_readable {finite : List Char → Bool} : ∀ (fuel depth : ℕ) (text : List Char)
    (ms : List (String × Json)) (r : List Char),
    readObject finite fuel depth text = some (ms, r) → ∀ m ∈ ms, Readable finite depth m.2
  | 0, _, _, _, _, h => by simp [readObject] at h
  | fuel + 1, depth, text, ms, r, h => by
    rw [readObject] at h
    split at h
    · cases h
      simp
    · obtain ⟨⟨m, r₁⟩, hm, h⟩ := Option.bind_eq_some_iff.mp h
      obtain ⟨⟨ms', r₂⟩, hms, h⟩ := Option.bind_eq_some_iff.mp h
      cases h
      exact List.forall_mem_cons.mpr ⟨readMember_readable fuel _ _ m _ hm,
        readMembers_readable fuel _ _ ms' _ hms⟩

theorem readMembers_readable {finite : List Char → Bool} : ∀ (fuel depth : ℕ)
    (text : List Char) (ms : List (String × Json)) (r : List Char),
    readMembers finite fuel depth text = some (ms, r) → ∀ m ∈ ms, Readable finite depth m.2
  | 0, _, _, _, _, h => by simp [readMembers] at h
  | fuel + 1, depth, text, ms, r, h => by
    rw [readMembers] at h
    split at h
    · cases h
      simp
    · obtain ⟨⟨m, r₁⟩, hm, h⟩ := Option.bind_eq_some_iff.mp h
      obtain ⟨⟨ms', r₂⟩, hms, h⟩ := Option.bind_eq_some_iff.mp h
      cases h
      exact List.forall_mem_cons.mpr ⟨readMember_readable fuel _ _ m _ hm,
        readMembers_readable fuel _ _ ms' _ hms⟩
    · cases h

theorem readMember_readable {finite : List Char → Bool} : ∀ (fuel depth : ℕ) (text : List Char)
    (m : String × Json) (r : List Char), readMember finite fuel depth text = some (m, r) →
    Readable finite depth m.2
  | 0, _, _, _, _, h => by simp [readMember] at h
  | fuel + 1, depth, text, m, r, h => by
    rw [readMember] at h
    split at h
    · obtain ⟨⟨k, r₁⟩, _, h⟩ := Option.bind_eq_some_iff.mp h
      simp only at h
      split at h
      · obtain ⟨⟨v, r₂⟩, hv, h⟩ := Option.bind_eq_some_iff.mp h
        cases h
        exact readValue_readable fuel _ _ v _ hv
      · cases h
    · cases h

end

theorem parse_readable {finite : List Char → Bool} {text : String} {j : Json}
    (h : parse finite text = some j) : Readable finite 127 j := by
  simp only [parse] at h
  split at h
  · rename_i j' r hv
    split_ifs at h
    cases h
    exact readValue_readable _ _ _ _ _ hv
  · cases h

end HashedBroker.JsonText
