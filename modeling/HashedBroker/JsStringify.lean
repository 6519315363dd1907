import HashedBroker.SortedMembers

/-!
# JSON.stringify

The plain data values of JavaScript and `JSON.stringify` with a replacer function, as ECMA-262
defines it. Strings are well-formed and numbers are integers in the safe range, whose decimal text
is the one of the number. No property name is an array index, so the own properties of an object
are in the order in which they were set. A replacer could produce values forever; the fuel bounds
how deep the result may be.
-/
namespace HashedBroker.JsStringify
open JsonText SortedMembers

inductive JsValue
  | undefined
  | null
  | bool (b : Bool)
  | number (n : ℤ)
  | string (s : String)
  | array (elements : List JsValue)
  | object (properties : List (String × JsValue))

/-- The code points of Table 75 with their own escapes, then the control characters. -/
def quoteChar (c : Char) : List Char :=
  match c with
  | '\x08' => ['\\', 'b']
  | '\t' => ['\\', 't']
  | '\n' => ['\\', 'n']
  | '\x0c' => ['\\', 'f']
  | '\r' => ['\\', 'r']
  | '"' => ['\\', '"']
  | '\\' => ['\\', '\\']
  | c =>
    if c.toNat < 0x20 then
      ['\\', 'u', '0', '0', hexDigit (c.toNat / 16), hexDigit (c.toNat % 16)]
    else [c]

def quoteJsonString (s : String) : List Char := '"' :: (s.toList.flatMap quoteChar ++ ['"'])

/-- Setting a property keeps the place of one that is there. -/
def setProperty (k : String) (v : JsValue) : List (String × JsValue) → List (String × JsValue)
  | [] => [(k, v)]
  | p :: ps => if p.1 = k then (k, v) :: ps else p :: setProperty k v ps

def joinComma : List (List Char) → List Char
  | [] => []
  | [x] => x
  | x :: xs => x ++ ',' :: joinComma xs

/-- The text of a value behind a key: no text is left of `undefined`, and the outer option is
`none` when the fuel is used up. -/
def serializeProperty (replacer : String → JsValue → JsValue) :
    ℕ → String → JsValue → Option (Option (List Char))
  | 0, _, _ => none
  | fuel + 1, key, value =>
    match replacer key value with
    | .undefined => some none
    | .null => some (some ['n', 'u', 'l', 'l'])
    | .bool true => some (some ['t', 'r', 'u', 'e'])
    | .bool false => some (some ['f', 'a', 'l', 's', 'e'])
    | .number n => some (some (printInt n))
    | .string s => some (some (quoteJsonString s))
    | .array xs => do
      let parts ← xs.zipIdx.mapM fun x => serializeProperty replacer fuel (toString x.2) x.1
      some (some ('[' :: (joinComma (parts.map fun p => p.getD ['n', 'u', 'l', 'l']) ++ [']'])))
    | .object ps => do
      let parts ← ps.mapM fun p => do
        let text ← serializeProperty replacer fuel p.1 p.2
        some (text.map fun t => quoteJsonString p.1 ++ ':' :: t)
      some (some ('{' :: (joinComma (parts.filterMap id) ++ ['}'])))

/-- `JSON.stringify(value, replacer)`. -/
def stringify (replacer : String → JsValue → JsValue) (fuel : ℕ) (value : JsValue) :
    Option String := do
  let text ← serializeProperty replacer fuel "" value
  text.map String.ofList

def identity (_ : String) (value : JsValue) : JsValue := value

/-- The UTF-16 code units by which strings are compared. -/
def codeUnits (s : String) : List ℕ :=
  s.toList.flatMap fun c =>
    if c.toNat < 0x10000 then [c.toNat]
    else [0xD800 + (c.toNat - 0x10000) / 0x400, 0xDC00 + (c.toNat - 0x10000) % 0x400]

/-- `Array.prototype.sort` on strings, without a comparator. -/
def sort (ks : List String) : List String :=
  ks.mergeSort fun a b => decide (codeUnits a ≤ codeUnits b)

/-! ## JSON values as JavaScript values -/

mutual

def embed : Json → JsValue
  | .null => .null
  | .bool b => .bool b
  | .int n => .number n
  | .float _ => .undefined
  | .str s => .string s
  | .arr xs => .array (embedElements xs)
  | .obj ms => .object (embedMembers ms)

def embedElements : List Json → List JsValue
  | [] => []
  | x :: xs => embed x :: embedElements xs

def embedMembers : List (String × Json) → List (String × JsValue)
  | [] => []
  | (k, v) :: ms => (k, embed v) :: embedMembers ms

end

/-- Every code point is a single code unit. -/
def Basic (s : String) : Prop := ∀ c ∈ s.toList, c.toNat < 0x10000

/-- Values without fractions whose objects have distinct names of single code units; the index
bounds their depth. -/
inductive Plain : ℕ → Json → Prop
  | null (depth : ℕ) : Plain depth .null
  | bool (depth : ℕ) (b : Bool) : Plain depth (.bool b)
  | int (depth : ℕ) (n : ℤ) : Plain depth (.int n)
  | str (depth : ℕ) (s : String) : Plain depth (.str s)
  | arr {depth : ℕ} {xs : List Json} (elements : ∀ x ∈ xs, Plain depth x) :
      Plain (depth + 1) (.arr xs)
  | obj {depth : ℕ} {ms : List (String × Json)} (nodup : (ms.map Prod.fst).Nodup)
      (basic : ∀ k ∈ ms.map Prod.fst, Basic k) (members : ∀ m ∈ ms, Plain depth m.2) :
      Plain (depth + 1) (.obj ms)

theorem embedElements_eq (xs : List Json) : embedElements xs = xs.map embed := by
  induction xs with
  | nil => simp [embedElements]
  | cons x xs ih => simp [embedElements, ih]

theorem embedMembers_eq (ms : List (String × Json)) :
    embedMembers ms = ms.map fun m => (m.1, embed m.2) := by
  induction ms with
  | nil => simp [embedMembers]
  | cons m ms ih => simp [embedMembers, ih]

theorem quoteChar_eq (c : Char) : quoteChar c = escapeChar c := by
  unfold quoteChar
  split <;> try decide
  rename_i h1 h2 h3 h4 h5 h6 h7
  rw [escapeChar, if_neg h6, if_neg h7, if_neg h1, if_neg h4, if_neg h3, if_neg h5, if_neg h2]

theorem quoteJsonString_eq (s : String) : quoteJsonString s = printString s := by
  have hc : quoteChar = escapeChar := funext quoteChar_eq
  rw [quoteJsonString, printString, hc]

theorem joinComma_elements (x : Json) (xs : List Json) :
    joinComma ((x :: xs).map print) ++ [']'] = print x ++ printElements xs := by
  induction xs generalizing x with
  | nil => simp [joinComma, printElements]
  | cons y ys ih =>
    have hi := ih y
    simp only [List.map_cons] at hi ⊢
    rw [joinComma, printElements, ← hi]
    · simp
    · simp

def memberText (m : String × Json) : List Char := printString m.1 ++ ':' :: print m.2

theorem joinComma_members (m : String × Json) (ms : List (String × Json)) :
    joinComma ((m :: ms).map memberText) ++ ['}'] =
      printString m.1 ++ ':' :: (print m.2 ++ printMembers ms) := by
  induction ms generalizing m with
  | nil => simp [joinComma, printMembers, memberText]
  | cons a ms ih =>
    obtain ⟨k, v⟩ := a
    have hi := ih (k, v)
    simp only [List.map_cons] at hi ⊢
    rw [joinComma, printMembers, ← hi]
    · simp [memberText]
    · simp

theorem print_arr (xs : List Json) :
    print (.arr xs) = '[' :: (joinComma (xs.map print) ++ [']']) := by
  cases xs with
  | nil => simp [print, joinComma]
  | cons x xs => rw [joinComma_elements, print]

theorem print_obj (ms : List (String × Json)) :
    print (.obj ms) = '{' :: (joinComma (ms.map memberText) ++ ['}']) := by
  cases ms with
  | nil => simp [print, joinComma]
  | cons m ms => rw [joinComma_members, print]

theorem mapM_eq_some {α β : Type} {f : α → Option β} {g : α → β} {xs : List α}
    (h : ∀ x ∈ xs, f x = some (g x)) : xs.mapM f = some (xs.map g) := by
  induction xs with
  | nil => rfl
  | cons x xs ih =>
    rw [List.mapM_cons, h x (by simp), ih fun y hy => h y (by simp [hy])]
    rfl

/-- What a replacer makes of every value of a kind, if its text is the print of a value. -/
theorem serializeProperty_array {replacer : String → JsValue → JsValue} {fuel : ℕ} {key : String}
    {v : JsValue} {xs : List Json} {f : Json → Json}
    (hv : replacer key v = .array (xs.map embed))
    (hx : ∀ x ∈ xs, ∀ k, serializeProperty replacer fuel k (embed x) = some (some (print (f x)))) :
    serializeProperty replacer (fuel + 1) key v = some (some (print (.arr (xs.map f)))) := by
  have hparts : (xs.map embed).zipIdx.mapM
      (fun x => serializeProperty replacer fuel (toString x.2) x.1) =
      some (xs.map fun x => some (print (f x))) := by
    have hidx : (xs.map embed).zipIdx = xs.zipIdx.map fun x => (embed x.1, x.2) := by
      rw [List.zipIdx_map]
      rfl
    rw [hidx, List.mapM_map, mapM_eq_some (g := fun x => some (print (f x.1)))]
    · have hfst : xs.zipIdx.map (fun x => some (print (f x.1))) =
          (xs.zipIdx.map Prod.fst).map fun x => some (print (f x)) := by
        rw [List.map_map]
        rfl
      rw [hfst, List.zipIdx_map_fst]
    · intro x hxm
      exact hx x.1 (List.fst_mem_of_mem_zipIdx hxm) _
  rw [serializeProperty, hv]
  simp only
  rw [hparts, Option.bind_eq_bind, Option.bind_some, print_arr, List.map_map, List.map_map]
  rfl

theorem serializeProperty_object {replacer : String → JsValue → JsValue} {fuel : ℕ} {key : String}
    {v : JsValue} {ms : List (String × Json)} {f : Json → Json}
    (hv : replacer key v = .object (ms.map fun m => (m.1, embed m.2)))
    (hm : ∀ m ∈ ms, ∀ k,
      serializeProperty replacer fuel k (embed m.2) = some (some (print (f m.2)))) :
    serializeProperty replacer (fuel + 1) key v =
      some (some (print (.obj (ms.map fun m => (m.1, f m.2))))) := by
  have hparts : (ms.map fun m => (m.1, embed m.2)).mapM (fun p => do
      let text ← serializeProperty replacer fuel p.1 p.2
      some (text.map fun t => quoteJsonString p.1 ++ ':' :: t)) =
      some (ms.map fun m => some (memberText (m.1, f m.2))) := by
    rw [List.mapM_map, mapM_eq_some (g := fun m => some (memberText (m.1, f m.2)))]
    intro m hmem
    simp only [Function.comp_apply, hm m hmem, Option.bind_eq_bind, Option.bind_some,
      Option.map_some, quoteJsonString_eq, memberText]
  have hjoin : (ms.map fun m => some (memberText (m.1, f m.2))).filterMap id =
      ms.map fun m => memberText (m.1, f m.2) := by
    rw [List.filterMap_map]
    exact congrFun List.filterMap_eq_map' ms
  rw [serializeProperty, hv]
  simp only
  rw [hparts, Option.bind_eq_bind, Option.bind_some, hjoin, print_obj, List.map_map]
  rfl

theorem serializeProperty_scalar {replacer : String → JsValue → JsValue} {fuel : ℕ} {key : String}
    {j : Json} (hr : replacer key (embed j) = embed j)
    (hj : j = .null ∨ (∃ b, j = .bool b) ∨ (∃ n, j = .int n) ∨ ∃ s, j = .str s) :
    serializeProperty replacer (fuel + 1) key (embed j) = some (some (print j)) := by
  rw [serializeProperty, hr]
  rcases hj with rfl | ⟨b, rfl⟩ | ⟨n, rfl⟩ | ⟨s, rfl⟩
  · simp [embed, print]
  · cases b <;> simp [embed, print]
  · simp [embed, print]
  · simp [embed, print, quoteJsonString_eq]

theorem serializeProperty_identity {depth : ℕ} {j : Json} (h : Plain depth j) :
    ∀ fuel, depth < fuel → ∀ key,
      serializeProperty identity fuel key (embed j) = some (some (print j)) := by
  induction h with
  | null depth =>
    intro fuel hf key
    obtain ⟨fuel, rfl⟩ := Nat.exists_eq_add_one_of_ne_zero (Nat.ne_zero_of_lt hf)
    exact serializeProperty_scalar rfl (by simp)
  | bool depth b =>
    intro fuel hf key
    obtain ⟨fuel, rfl⟩ := Nat.exists_eq_add_one_of_ne_zero (Nat.ne_zero_of_lt hf)
    exact serializeProperty_scalar rfl (by simp)
  | int depth n =>
    intro fuel hf key
    obtain ⟨fuel, rfl⟩ := Nat.exists_eq_add_one_of_ne_zero (Nat.ne_zero_of_lt hf)
    exact serializeProperty_scalar rfl (by simp)
  | str depth s =>
    intro fuel hf key
    obtain ⟨fuel, rfl⟩ := Nat.exists_eq_add_one_of_ne_zero (Nat.ne_zero_of_lt hf)
    exact serializeProperty_scalar rfl (by simp)
  | @arr depth xs _ ih =>
    intro fuel hf key
    obtain ⟨fuel, rfl⟩ := Nat.exists_eq_add_one_of_ne_zero (Nat.ne_zero_of_lt hf)
    have ha : serializeProperty identity (fuel + 1) key (embed (.arr xs)) =
        some (some (print (.arr (xs.map id)))) :=
      serializeProperty_array (by rw [identity, embed, embedElements_eq])
        fun x hx k => ih x hx fuel (by omega) k
    rwa [List.map_id] at ha
  | @obj depth ms _ _ _ ih =>
    intro fuel hf key
    obtain ⟨fuel, rfl⟩ := Nat.exists_eq_add_one_of_ne_zero (Nat.ne_zero_of_lt hf)
    have ho : serializeProperty identity (fuel + 1) key (embed (.obj ms)) =
        some (some (print (.obj (ms.map fun m => (m.1, id m.2))))) :=
      serializeProperty_object (by rw [identity, embed, embedMembers_eq])
        fun m hm k => ih m hm fuel (by omega) k
    simpa using ho

/-! ## Sorting names -/

theorem codeUnits_basic {s : String} (h : Basic s) : codeUnits s = s.toList.map Char.toNat := by
  have hc : ∀ cs : List Char, (∀ c ∈ cs, c.toNat < 0x10000) →
      (cs.flatMap fun c => if c.toNat < 0x10000 then [c.toNat]
        else [0xD800 + (c.toNat - 0x10000) / 0x400, 0xDC00 + (c.toNat - 0x10000) % 0x400]) =
      cs.map Char.toNat := by
    intro cs hcs
    induction cs with
    | nil => rfl
    | cons c cs ih =>
      rw [List.flatMap_cons, if_pos (hcs c (by simp)), ih fun x hx => hcs x (by simp [hx])]
      rfl
  exact hc s.toList h

theorem lt_of_map_toNat_lt {a b : List Char} (h : a.map Char.toNat < b.map Char.toNat) :
    a < b := by
  induction a generalizing b with
  | nil =>
    cases b with
    | nil => simp at h
    | cons d ds => simp
  | cons c cs ih =>
    cases b with
    | nil => simp at h
    | cons d ds =>
      simp only [List.map_cons, List.cons_lt_cons_iff] at h ⊢
      rcases h with h | ⟨he, h⟩
      · exact Or.inl h
      · exact Or.inr ⟨Char.toNat_inj.mp he, ih h⟩

theorem lt_of_codeUnits_le {a b : String} (ha : Basic a) (hb : Basic b) (hne : a ≠ b)
    (h : codeUnits a ≤ codeUnits b) : a < b := by
  rw [codeUnits_basic ha, codeUnits_basic hb] at h
  rw [String.lt_iff_toList_lt]
  refine lt_of_map_toNat_lt (lt_of_le_of_ne h fun he => hne ?_)
  exact String.toList_injective (List.map_injective_iff.mpr (fun _ _ => Char.toNat_inj.mp) he)

/-- Distinct names of single code units are sorted as ordered maps sort them. -/
theorem sort_increasing {ks : List String} (hn : ks.Nodup) (hb : ∀ k ∈ ks, Basic k) :
    (sort ks).Pairwise (· < ·) := by
  have hle : (sort ks).Pairwise fun a b => codeUnits a ≤ codeUnits b := by
    have hp : (sort ks).Pairwise fun a b => decide (codeUnits a ≤ codeUnits b) = true := by
      refine List.pairwise_mergeSort (fun a b c hab hbc => ?_) (fun a b => ?_) ks
      · simp only [decide_eq_true_eq] at hab hbc ⊢
        exact le_trans hab hbc
      · simpa using le_total (codeUnits a) (codeUnits b)
    exact hp.imp fun h => by simpa using h
  have hperm : (sort ks).Perm ks := List.mergeSort_perm ks _
  have hne : (sort ks).Pairwise (· ≠ ·) := hperm.nodup_iff.mpr hn
  have hmem : ∀ k ∈ sort ks, Basic k := fun k hk => hb k (hperm.mem_iff.mp hk)
  refine (hle.and hne).imp_of_mem fun ha hb h => ?_
  exact lt_of_codeUnits_le (hmem _ ha) (hmem _ hb) h.2 h.1

end HashedBroker.JsStringify
