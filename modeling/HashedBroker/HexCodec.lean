import HashedBroker.Auth
import HashedBroker.JsStringify

/-!
# The hexadecimal texts of the TypeScript client

`bytesToHex` and `hexToBytes` of `sign.ts`. A JavaScript string is a list of UTF-16 code units, and
need not be the text of characters. The decoder leaves each pair of digits to `parseInt`, which
reads as many digits as there are, after white space, a sign or an `0x`, and finds no number where
there are none; a typed array takes that for a zero.
-/
namespace HashedBroker.HexCodec
open JsStringify

/-! ## Strings and numbers of JavaScript -/

abbrev JsString := List UInt16

def unit (c : Char) : UInt16 := UInt16.ofNat c.toNat

def units (s : String) : JsString := (codeUnits s).map UInt16.ofNat

theorem toNat_hexDigit (x : ℕ) (hx : x < 16) : (unit (JsonText.hexDigit x)).toNat =
    if x < 10 then x + 48 else x + 87 := by
  interval_cases x <;> rfl

def digitValue (u : UInt16) : Option ℕ :=
  if unit '0' ≤ u ∧ u ≤ unit '9' then some (u.toNat - 48)
  else if unit 'a' ≤ u ∧ u ≤ unit 'f' then some (u.toNat - 87)
  else if unit 'A' ≤ u ∧ u ≤ unit 'F' then some (u.toNat - 55)
  else none

theorem digitValue_eq_some {u : UInt16} {x : ℕ} : digitValue u = some x ↔
    (48 ≤ u.toNat ∧ u.toNat ≤ 57 ∧ x + 48 = u.toNat) ∨
      (97 ≤ u.toNat ∧ u.toNat ≤ 102 ∧ x + 87 = u.toNat) ∨
        (65 ≤ u.toNat ∧ u.toNat ≤ 70 ∧ x + 55 = u.toNat) := by
  have h0 : (unit '0').toNat = 48 := rfl
  have h9 : (unit '9').toNat = 57 := rfl
  have ha : (unit 'a').toNat = 97 := rfl
  have hf : (unit 'f').toNat = 102 := rfl
  have hA : (unit 'A').toNat = 65 := rfl
  have hF : (unit 'F').toNat = 70 := rfl
  simp only [digitValue, UInt16.le_iff_toNat_le, h0, h9, ha, hf, hA, hF]
  split_ifs <;> simp only [Option.some.injEq, false_iff] <;> omega

theorem digit_lt {u : UInt16} {x : ℕ} (h : digitValue u = some x) : x < 16 := by
  rcases Iff.mp digitValue_eq_some h with h | h | h <;> omega

def isSpace (u : UInt16) : Bool :=
  u ∈ ([0x9, 0xA, 0xB, 0xC, 0xD, 0x20, 0xA0, 0x1680, 0x2028, 0x2029, 0x202F, 0x205F, 0x3000,
    0xFEFF] : List UInt16) || (0x2000 ≤ u && u ≤ 0x200A)

def splitSign : JsString → ℤ × JsString
  | [] => (1, [])
  | u :: s => if u = unit '-' then (-1, s) else if u = unit '+' then (1, s) else (1, u :: s)

def stripRadix : JsString → JsString
  | u :: v :: s => if u = unit '0' ∧ (v = unit 'x' ∨ v = unit 'X') then s else u :: v :: s
  | s => s

/-- `parseInt(string, 16)`; `none` is `NaN`. The number is exact, as a double is up to 13 digits. -/
def parseInt16 (string : JsString) : Option ℤ :=
  let (sign, s) := splitSign (string.dropWhile isSpace)
  let digits := (stripRadix s).takeWhile fun u => (digitValue u).isSome
  if digits = [] then none
  else some (sign * (digits.foldl (fun n u => 16 * n + (digitValue u).getD 0) 0 : ℕ))

/-- What a `Uint8Array` makes of a number it is given. -/
def toUint8 : Option ℤ → UInt8
  | none => 0
  | some n => UInt8.ofNat (n % 256).toNat

/-- `Number.prototype.toString(16)` of a natural number. -/
def toString16 (n : ℕ) : JsString := (Nat.toDigits 16 n).map unit

/-- The lower case of an ASCII letter. Nothing else has a digit for its lower case. -/
def lower (u : UInt16) : UInt16 := if unit 'A' ≤ u ∧ u ≤ unit 'Z' then u + 32 else u

/-! ## sign.ts -/

def bytesToHex (bytes : List UInt8) : JsString :=
  bytes.foldl (fun out b => out ++ ((if b < 16 then [unit '0'] else []) ++ toString16 b.toNat)) []

/-- The string without its optional `ed25519:`. -/
def clean (hex : JsString) : JsString :=
  if (units "ed25519:").isPrefixOf hex then hex.drop 8 else hex

def hexToBytes (hex : JsString) : Except String (List UInt8) :=
  if (clean hex).length % 2 ≠ 0 then
    .error ("hex has odd length: " ++ toString (clean hex).length)
  else .ok ((List.range ((clean hex).length / 2)).map fun i =>
    toUint8 (parseInt16 (((clean hex).take (i * 2 + 2)).drop (i * 2))))

/-! ## Digits -/

section Digits

variable {u v : UInt16} {x y : ℕ}

theorem digitValue_hexDigit (x : ℕ) (hx : x < 16) :
    digitValue (unit (JsonText.hexDigit x)) = some x := by
  rw [digitValue_eq_some, toNat_hexDigit x hx]
  split_ifs <;> omega

theorem lower_digit (h : digitValue u = some x) : lower u = unit (JsonText.hexDigit x) := by
  have hA : (unit 'A').toNat = 65 := rfl
  have hZ : (unit 'Z').toNat = 90 := rfl
  have h32 : (32 : UInt16).toNat = 32 := rfl
  rw [← UInt16.toNat_inj, toNat_hexDigit x (digit_lt h)]
  simp only [lower, UInt16.le_iff_toNat_le, hA, hZ]
  rcases Iff.mp digitValue_eq_some h with h | h | h
  · rw [if_neg (by omega), if_pos (by omega)]
    omega
  · rw [if_neg (by omega), if_neg (by omega)]
    omega
  · rw [if_pos (by omega), if_neg (by omega), UInt16.toNat_add, h32]
    omega

theorem digit_of_lower (h : (digitValue (lower u)).isSome) : (digitValue u).isSome := by
  obtain ⟨x, hx⟩ := Option.isSome_iff_exists.mp h
  have hA : (unit 'A').toNat = 65 := rfl
  have hZ : (unit 'Z').toNat = 90 := rfl
  have h32 : (32 : UInt16).toNat = 32 := rfl
  unfold lower at hx
  simp only [UInt16.le_iff_toNat_le, hA, hZ] at hx
  split_ifs at hx with hu
  · have hadd : (u + 32).toNat = u.toNat + 32 := by
      rw [UInt16.toNat_add, h32]
      omega
    refine Option.isSome_iff_exists.mpr ⟨x, Iff.mpr digitValue_eq_some ?_⟩
    have hcases := Iff.mp digitValue_eq_some hx
    rw [hadd] at hcases
    omega
  · exact Option.isSome_iff_exists.mpr ⟨x, hx⟩

theorem not_space (h : digitValue u = some x) : isSpace u = false := by
  rw [← Bool.not_eq_true]
  intro hspace
  have hcases := Iff.mp digitValue_eq_some h
  simp [isSpace, ← UInt16.toNat_inj, UInt16.le_iff_toNat_le] at hspace
  omega

theorem parseInt16_digits (hu : digitValue u = some x) (hv : digitValue v = some y) :
    parseInt16 [u, v] = some ((16 * x + y : ℕ) : ℤ) := by
  have hsign : splitSign [u, v] = (1, [u, v]) := by
    have hminus : u ≠ unit '-' := by
      rintro rfl
      cases hu
    have hplus : u ≠ unit '+' := by
      rintro rfl
      cases hu
    rw [splitSign, if_neg hminus, if_neg hplus]
  have hradix : stripRadix [u, v] = [u, v] := by
    rw [stripRadix, if_neg]
    rintro ⟨-, rfl | rfl⟩ <;> cases hv
  have hstart : [u, v].dropWhile isSpace = [u, v] := by
    rw [List.dropWhile_cons, not_space hu]
    rfl
  have hdigits : ([u, v].takeWhile fun u => (digitValue u).isSome) = [u, v] := by
    simp [hu, hv]
  simp only [parseInt16, hstart, hsign, hradix, hdigits]
  simp [hu, hv]

end Digits

/-! ## Bytes -/

def byteText (b : UInt8) : JsString := (if b < 16 then [unit '0'] else []) ++ toString16 b.toNat

theorem byteText_eq (b : UInt8) : byteText b =
    [unit (JsonText.hexDigit (b.toNat / 16)), unit (JsonText.hexDigit (b.toNat % 16))] := by
  have hlt := b.toNat_lt
  have hdigit : ∀ x < 16, Nat.digitChar x = JsonText.hexDigit x := by
    intro x hx
    interval_cases x <;> rfl
  have hhigh := hdigit (b.toNat / 16) (by omega)
  have hlow := hdigit (b.toNat % 16) (by omega)
  have h16 : (16 : UInt8).toNat = 16 := rfl
  rw [byteText, toString16, ← hhigh, ← hlow]
  simp only [UInt8.lt_iff_toNat_lt, h16]
  split_ifs with hsmall
  · rw [Nat.toDigits_of_lt_base hsmall, Nat.div_eq_of_lt hsmall, Nat.mod_eq_of_lt hsmall]
    rfl
  · have hdiv : b.toNat / 16 < 16 := by omega
    rw [Nat.toDigits_of_base_le (by omega) (by omega), Nat.toDigits_of_lt_base hdiv]
    rfl

def pairByte (u v : UInt16) : UInt8 := toUint8 (parseInt16 [u, v])

def pairBytes : JsString → List UInt8
  | u :: v :: s => pairByte u v :: pairBytes s
  | _ => []

theorem bytesToHex_eq (bytes : List UInt8) : bytesToHex bytes = bytes.flatMap byteText := by
  have hfold : ∀ out, bytes.foldl (fun out b => out ++ byteText b) out =
      out ++ bytes.flatMap byteText := by
    induction bytes with
    | nil => simp
    | cons b bytes ih =>
      intro out
      rw [List.foldl_cons, ih, List.flatMap_cons, List.append_assoc]
  exact hfold []

theorem bytes_of_slices (s : JsString) : ((List.range (s.length / 2)).map fun i =>
    toUint8 (parseInt16 ((s.take (i * 2 + 2)).drop (i * 2)))) = pairBytes s := by
  induction s using List.twoStepInduction with
  | nil => rfl
  | singleton u => simp [pairBytes]
  | cons_cons u v s ih _ =>
    have hlength : (u :: v :: s).length / 2 = s.length / 2 + 1 := by
      simp only [List.length_cons]
      omega
    have hslice : ∀ i, ((u :: v :: s).take ((i + 1) * 2 + 2)).drop ((i + 1) * 2) =
        (s.take (i * 2 + 2)).drop (i * 2) := by
      intro i
      rw [show (i + 1) * 2 = i * 2 + 1 + 1 by omega]
      rfl
    rw [hlength, List.range_succ_eq_map, List.map_cons, List.map_map, pairBytes, ← ih]
    refine congrArg₂ List.cons rfl (List.map_congr_left fun i _ => ?_)
    rw [Function.comp_apply, Nat.succ_eq_add_one, hslice]

theorem hexToBytes_of_even {hex : JsString} (heven : (clean hex).length % 2 = 0) :
    hexToBytes hex = .ok (pairBytes (clean hex)) := by
  rw [hexToBytes, if_neg (by omega), bytes_of_slices]

theorem hexToBytes_of_odd {hex : JsString} (hodd : (clean hex).length % 2 = 1) :
    ∃ e, hexToBytes hex = .error e := by
  rw [hexToBytes, if_pos (by omega)]
  exact ⟨_, rfl⟩

/-! ## Texts of digits -/

def Digits (s : JsString) : Prop := ∀ u ∈ s, (digitValue u).isSome

instance (s : JsString) : Decidable (Digits s) :=
  List.decidableBAll _ s

theorem bytesToHex_digits (bytes : List UInt8) : Digits (bytesToHex bytes) := by
  intro u hu
  rw [bytesToHex_eq] at hu
  obtain ⟨b, -, hu⟩ := List.mem_flatMap.mp hu
  have hb := b.toNat_lt
  have hhigh := digitValue_hexDigit (b.toNat / 16) (by omega)
  have hlow := digitValue_hexDigit (b.toNat % 16) (by omega)
  rw [byteText_eq] at hu
  rcases List.mem_pair.mp hu with rfl | rfl
  · rw [hhigh]
    rfl
  · rw [hlow]
    rfl

theorem length_bytesToHex (bytes : List UInt8) :
    (bytesToHex bytes).length = 2 * bytes.length := by
  rw [bytesToHex_eq]
  induction bytes with
  | nil => rfl
  | cons b bytes ih =>
    rw [List.flatMap_cons, List.length_append, ih, byteText_eq]
    simp only [List.length_cons, List.length_nil]
    omega

theorem clean_of_digits {s : JsString} (h : Digits s) : clean s = s := by
  rw [clean, if_neg]
  intro hprefix
  have hsub := (List.isPrefixOf_iff_prefix.mp hprefix).subset
  have hmem : unit ':' ∈ units "ed25519:" := by
    rw [units]
    exact List.mem_map_of_mem (by simp [codeUnits])
  have hcolon := h _ (hsub hmem)
  cases hcolon

theorem clean_prefixed (s : JsString) : clean (units "ed25519:" ++ s) = s := by
  have hprefix : (units "ed25519:").isPrefixOf (units "ed25519:" ++ s) = true :=
    List.isPrefixOf_iff_prefix.mpr (List.prefix_append _ _)
  rw [clean, if_pos hprefix]
  exact List.drop_left' rfl

theorem pairByte_digits {u v : UInt16} {x y : ℕ} (hu : digitValue u = some x)
    (hv : digitValue v = some y) : pairByte u v = UInt8.ofNat (16 * x + y) := by
  have hx := digit_lt hu
  have hy := digit_lt hv
  have hmod : (((16 * x + y : ℕ) : ℤ) % 256).toNat = 16 * x + y := by omega
  rw [pairByte, parseInt16_digits hu hv, toUint8, hmod]

theorem pairBytes_bytesToHex (bytes : List UInt8) : pairBytes (bytesToHex bytes) = bytes := by
  rw [bytesToHex_eq]
  induction bytes with
  | nil => rfl
  | cons b bytes ih =>
    have hb := b.toNat_lt
    have hhigh := digitValue_hexDigit (b.toNat / 16) (by omega)
    have hlow := digitValue_hexDigit (b.toNat % 16) (by omega)
    have hbyte : UInt8.ofNat (16 * (b.toNat / 16) + b.toNat % 16) = b := by
      rw [Nat.div_add_mod, UInt8.ofNat_toNat]
    rw [List.flatMap_cons, byteText_eq]
    simp only [List.cons_append, List.nil_append, pairBytes]
    rw [ih, pairByte_digits hhigh hlow, hbyte]

theorem byteText_pairByte {u v : UInt16} {x y : ℕ} (hu : digitValue u = some x)
    (hv : digitValue v = some y) : byteText (pairByte u v) = [lower u, lower v] := by
  have hx := digit_lt hu
  have hy := digit_lt hv
  have hnat : (UInt8.ofNat (16 * x + y)).toNat = 16 * x + y := by
    rw [UInt8.toNat_ofNat']
    omega
  have hdiv : (16 * x + y) / 16 = x := by omega
  have hmod : (16 * x + y) % 16 = y := by omega
  rw [pairByte_digits hu hv, byteText_eq, hnat, hdiv, hmod, lower_digit hu, lower_digit hv]

theorem bytesToHex_pairBytes {s : JsString} (hdigits : Digits s) (heven : s.length % 2 = 0) :
    bytesToHex (pairBytes s) = s.map lower := by
  rw [bytesToHex_eq]
  induction s using List.twoStepInduction with
  | nil => rfl
  | singleton u => cases heven
  | cons_cons u v s ih _ =>
    obtain ⟨x, hx⟩ := Option.isSome_iff_exists.mp (hdigits u (by simp))
    obtain ⟨y, hy⟩ := Option.isSome_iff_exists.mp (hdigits v (by simp))
    have hrest : Digits s := fun w hw => hdigits w (by simp [hw])
    have hlength : s.length % 2 = 0 := by
      simp only [List.length_cons] at heven
      omega
    rw [pairBytes, List.flatMap_cons, byteText_pairByte hx hy, ih hrest hlength]
    rfl

theorem digits_of_lower {s : JsString} {bytes : List UInt8}
    (h : bytesToHex bytes = s.map lower) : Digits s := by
  intro u hu
  refine digit_of_lower (bytesToHex_digits bytes _ ?_)
  rw [h]
  exact List.mem_map_of_mem hu

/-! ## Texts of characters -/

def charUnits (c : Char) : JsString :=
  if c.toNat < 0x10000 then [unit c]
  else [UInt16.ofNat (0xD800 + (c.toNat - 0x10000) / 0x400),
    UInt16.ofNat (0xDC00 + (c.toNat - 0x10000) % 0x400)]

theorem units_eq (s : String) : units s = s.toList.flatMap charUnits := by
  rw [units, codeUnits, List.map_flatMap]
  refine List.flatMap_congr fun c _ => ?_
  rw [charUnits]
  split_ifs <;> rfl

theorem toNat_unit {c : Char} (h : c.toNat < 0x10000) : (unit c).toNat = c.toNat := by
  rw [unit, UInt16.toNat_ofNat']
  omega

theorem toNat_lt (c : Char) : c.toNat < 0x110000 := by
  have hvalid : c.toNat < 0xD800 ∨ (0xDFFF < c.toNat ∧ c.toNat < 0x110000) := c.valid
  omega

theorem hexValue_eq_some {c : Char} {x : ℕ} (h : JsonText.hexValue c = some x) :
    charUnits c = [unit c] ∧ digitValue (unit c) = some x := by
  have hcases : (48 ≤ c.toNat ∧ c.toNat ≤ 57 ∧ x + 48 = c.toNat) ∨
      (97 ≤ c.toNat ∧ c.toNat ≤ 102 ∧ x + 87 = c.toNat) ∨
        (65 ≤ c.toNat ∧ c.toNat ≤ 70 ∧ x + 55 = c.toNat) := by
    have hle : ∀ a b : Char, a ≤ b ↔ a.toNat ≤ b.toNat := fun a b => UInt32.le_iff_toNat_le
    simp only [JsonText.hexValue, hle] at h
    simp only [Char.reduceToNat] at h
    split_ifs at h <;> cases h <;> omega
  have hbasic : c.toNat < 0x10000 := by omega
  rw [charUnits, if_pos hbasic, digitValue_eq_some, toNat_unit hbasic]
  exact ⟨rfl, hcases⟩

theorem digits_of_hexBytes {cs : List Char} {bytes : Bytes}
    (h : Crates.hexBytes cs = some bytes) : Digits (cs.flatMap charUnits) := by
  induction cs using List.twoStepInduction generalizing bytes with
  | nil => simp [Digits]
  | singleton a => cases h
  | cons_cons a b r ih _ =>
    simp only [Crates.hexBytes, Option.bind_eq_bind, Option.bind_eq_some_iff] at h
    obtain ⟨x, hx, y, hy, rest, hr, -⟩ := h
    obtain ⟨haunits, hadigit⟩ := hexValue_eq_some hx
    obtain ⟨hbunits, hbdigit⟩ := hexValue_eq_some hy
    intro u hu
    simp only [List.flatMap_cons, haunits, hbunits, List.cons_append, List.nil_append,
      List.mem_cons] at hu
    rcases hu with rfl | rfl | hu
    · simp [hadigit]
    · simp [hbdigit]
    · exact ih hr u hu

theorem isPrefixOf_units {ps : List Char} (hascii : ∀ c ∈ ps, c.toNat < 0x80) (cs : List Char) :
    (ps.flatMap charUnits).isPrefixOf (cs.flatMap charUnits) = ps.isPrefixOf cs := by
  induction ps generalizing cs with
  | nil => simp
  | cons p ps ih =>
    have hp : p.toNat < 0x80 := hascii p (by simp)
    have hbasic : p.toNat < 0x10000 := by omega
    have hrest : ∀ c ∈ ps, c.toNat < 0x80 := fun c hc => hascii c (by simp [hc])
    rw [List.flatMap_cons, charUnits, if_pos hbasic]
    cases cs with
    | nil => simp
    | cons c cs =>
      rw [List.flatMap_cons, charUnits]
      split_ifs with hc
      · have hbeq : (unit p == unit c) = (p == c) := by
          rw [Bool.eq_iff_iff, beq_iff_eq, beq_iff_eq, ← UInt16.toNat_inj, toNat_unit hbasic,
            toNat_unit hc, Char.toNat_inj]
        simp only [List.cons_append, List.nil_append, List.isPrefixOf_cons_cons, hbeq, ih hrest]
      · have hne : p ≠ c := by
          rintro rfl
          exact hc hbasic
        have hunit : unit p ≠ UInt16.ofNat (0xD800 + (c.toNat - 0x10000) / 0x400) := by
          intro heq
          have hnat := congrArg UInt16.toNat heq
          rw [toNat_unit hbasic, UInt16.toNat_ofNat'] at hnat
          have hchar := toNat_lt c
          omega
        rw [List.cons_append, List.cons_append, List.isPrefixOf_cons_cons,
          List.isPrefixOf_cons_cons, beq_false_of_ne hne, beq_false_of_ne hunit]
        rfl

theorem clean_units (s : String) : clean (units s) = units (Auth.keyHex s) := by
  have hprefix : (units "ed25519:").isPrefixOf (units s) =
      "ed25519:".toList.isPrefixOf s.toList := by
    have hascii : ∀ c ∈ "ed25519:".toList, c.toNat < 0x80 := by simp
    rw [units_eq, units_eq, isPrefixOf_units hascii]
  rw [clean, Auth.keyHex, hprefix]
  split_ifs with h
  · obtain ⟨t, ht⟩ := List.isPrefixOf_iff_prefix.mp h
    have hunits : units s = units "ed25519:" ++ t.flatMap charUnits := by
      rw [units_eq, units_eq, ← ht, List.flatMap_append]
    have hhex : s.toList.drop 8 = t := by
      rw [← ht]
      exact List.drop_left' rfl
    have hrest : units (String.ofList t) = t.flatMap charUnits := by
      rw [units_eq, String.toList_ofList]
    rw [hunits, hhex, hrest]
    exact List.drop_left' rfl
  · rfl

/-- As the `hex` crate documents its decoder. -/
def DecodesHex (crates : Crates) : Prop :=
  ∀ s, (crates.hexDecode s).toOption = Crates.hexBytes s.toList

theorem parsePubkey_of_not_digits {crates : Crates} (hdecodes : DecodesHex crates) {s : String}
    (h : ¬ Digits (clean (units s))) : ∃ e, Auth.parsePubkey crates s = .error e := by
  cases hparse : Auth.parsePubkey crates s with
  | error e => exact ⟨e, rfl⟩
  | ok key =>
    obtain ⟨bytes, hbytes, -⟩ := Auth.except_bind_eq_ok hparse
    refine absurd ?_ h
    cases hdecode : crates.hexDecode (Auth.keyHex s) with
    | error e =>
      rw [hdecode] at hbytes
      cases hbytes
    | ok decoded =>
      have hhex := hdecodes (Auth.keyHex s)
      rw [hdecode] at hhex
      rw [clean_units, units_eq]
      exact digits_of_hexBytes hhex.symm

/-! ## When the decoder is exact -/

/-- What the decoder returns is the text it was given, and it returns nothing for a text with
something else than a digit. -/
structure Exact (s : JsString) : Prop where
  returned : ∀ bytes, hexToBytes s = .ok bytes → bytesToHex bytes = (clean s).map lower
  thrown : (∃ u ∈ clean s, digitValue u = none) → ∃ e, hexToBytes s = .error e

theorem not_digits_iff {s : JsString} : ¬ Digits s ↔ ∃ u ∈ s, digitValue u = none := by
  simp [Digits]

theorem exact_iff_digits (s : JsString) : Exact s ↔ (clean s).length % 2 = 1 ∨ Digits (clean s) := by
  rcases Nat.mod_two_eq_zero_or_one (clean s).length with heven | hodd
  · have hbytes := hexToBytes_of_even heven
    constructor
    · intro h
      exact Or.inr (digits_of_lower (h.returned _ hbytes))
    · intro h
      have hdigits : Digits (clean s) := by
        rcases h with hodd | hdigits
        · omega
        · exact hdigits
      constructor
      · intro bytes hok
        rw [hbytes] at hok
        cases hok
        exact bytesToHex_pairBytes hdigits heven
      · intro hother
        exact absurd hdigits (not_digits_iff.mpr hother)
  · obtain ⟨e, herror⟩ := hexToBytes_of_odd hodd
    refine iff_of_true ⟨fun bytes hok => ?_, fun _ => ⟨e, herror⟩⟩ (Or.inl hodd)
    rw [herror] at hok
    cases hok

theorem hexToBytes_bytesToHex (bytes : List UInt8) : hexToBytes (bytesToHex bytes) = .ok bytes := by
  have hclean : clean (bytesToHex bytes) = bytesToHex bytes :=
    clean_of_digits (bytesToHex_digits bytes)
  have heven : (clean (bytesToHex bytes)).length % 2 = 0 := by
    rw [hclean, length_bytesToHex]
    omega
  rw [hexToBytes_of_even heven, hclean, pairBytes_bytesToHex]

theorem hexToBytes_prefixed (bytes : List UInt8) :
    hexToBytes (units "ed25519:" ++ bytesToHex bytes) = .ok bytes := by
  have hclean : clean (units "ed25519:" ++ bytesToHex bytes) = bytesToHex bytes :=
    clean_prefixed _
  have heven : (clean (units "ed25519:" ++ bytesToHex bytes)).length % 2 = 0 := by
    rw [hclean, length_bytesToHex]
    omega
  rw [hexToBytes_of_even heven, hclean, pairBytes_bytesToHex]

/-- Every array comes back from its text. The decoder is exact on the texts it refuses for their
length and on the texts of digits, and on no other; the broker refuses every text with something
else than a digit. -/
theorem codec_exact_iff {crates : Crates} (hdecodes : DecodesHex crates) :
    (∀ bytes, hexToBytes (bytesToHex bytes) = .ok bytes ∧
      hexToBytes (units "ed25519:" ++ bytesToHex bytes) = .ok bytes) ∧
    (∀ s, Exact s ↔ (clean s).length % 2 = 1 ∨ Digits (clean s)) ∧
    ∀ s : String, (∃ u ∈ clean (units s), digitValue u = none) →
      ∃ e, Auth.parsePubkey crates s = .error e := by
  refine ⟨fun bytes => ⟨hexToBytes_bytesToHex bytes, hexToBytes_prefixed bytes⟩, exact_iff_digits, ?_⟩
  intro s hother
  exact parsePubkey_of_not_digits hdecodes (not_digits_iff.mpr hother)

theorem demo_decodesHex : DecodesHex Crates.demo := by
  intro s
  simp only [Crates.demo]
  cases Crates.hexBytes s.toList <;> rfl

/-- A key of digits is read as it is written; `zz` is a zero byte to the client and no key to the
broker. -/
theorem codec_exact_digits : Exact (units "ed25519:0aFf") ∧ ¬ Exact (units "zz") ∧
    ∃ e, Auth.parsePubkey Crates.demo "zz" = .error e := by
  obtain ⟨-, hexact, hbroker⟩ := codec_exact_iff demo_decodesHex
  refine ⟨(hexact _).mpr ?_, fun h => ?_, hbroker "zz" ?_⟩
  · decide +kernel
  · have hcases := (hexact _).mp h
    revert hcases
    decide +kernel
  · exact ⟨unit 'z', by decide +kernel, rfl⟩

/-- Two letters that are no digits are decoded to a zero byte, whose text they are not. -/
theorem zz_not_exact : hexToBytes (units "zz") = .ok [0] ∧
    bytesToHex [0] = units "00" ∧ ¬ Exact (units "zz") := by
  have hbytes : hexToBytes (units "zz") = .ok [0] := by decide +kernel
  refine ⟨hbytes, by decide +kernel, fun h => ?_⟩
  have htext := h.returned _ hbytes
  revert htext
  decide +kernel

end HashedBroker.HexCodec
