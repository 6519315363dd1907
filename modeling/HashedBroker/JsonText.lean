import Mathlib

/-!
# JSON values and their compact text

A value keeps the members of an object in the order they were given, duplicates included, so that
it can stand for a received text as well as for a value about to be written. A number that is not
an integer of the 64-bit ranges is kept as its lexeme. `print` writes a value without blanks.
-/
namespace HashedBroker.JsonText

inductive Json
  | null
  | bool (b : Bool)
  | int (n : ℤ)
  | float (lexeme : List Char)
  | str (s : String)
  | arr (elements : List Json)
  | obj (members : List (String × Json))

def hexDigit (n : ℕ) : Char := if n < 10 then Char.ofNat (48 + n) else Char.ofNat (87 + n)

/-- Short escapes where JSON has them, four hexadecimal digits for the other control characters. -/
def escapeChar (c : Char) : List Char :=
  if c = '"' then ['\\', '"']
  else if c = '\\' then ['\\', '\\']
  else if c = '\x08' then ['\\', 'b']
  else if c = '\x0c' then ['\\', 'f']
  else if c = '\n' then ['\\', 'n']
  else if c = '\r' then ['\\', 'r']
  else if c = '\t' then ['\\', 't']
  else if c.toNat < 32 then
    ['\\', 'u', '0', '0', hexDigit (c.toNat / 16), hexDigit (c.toNat % 16)]
  else [c]

def printString (s : String) : List Char := '"' :: (s.toList.flatMap escapeChar ++ ['"'])

def printInt (n : ℤ) : List Char :=
  if n < 0 then '-' :: Nat.toDigits 10 n.natAbs else Nat.toDigits 10 n.natAbs

mutual

def print : Json → List Char
  | .null => ['n', 'u', 'l', 'l']
  | .bool true => ['t', 'r', 'u', 'e']
  | .bool false => ['f', 'a', 'l', 's', 'e']
  | .int n => printInt n
  | .float lexeme => lexeme
  | .str s => printString s
  | .arr [] => ['[', ']']
  | .arr (x :: xs) => '[' :: (print x ++ printElements xs)
  | .obj [] => ['{', '}']
  | .obj ((k, v) :: ms) => '{' :: (printString k ++ ':' :: (print v ++ printMembers ms))

/-- The elements after the first, each behind its comma, and the closing bracket. -/
def printElements : List Json → List Char
  | [] => [']']
  | x :: xs => ',' :: (print x ++ printElements xs)

/-- The members after the first, each behind its comma, and the closing brace. -/
def printMembers : List (String × Json) → List Char
  | [] => ['}']
  | (k, v) :: ms => ',' :: (printString k ++ ':' :: (print v ++ printMembers ms))

end

/-! ## Reading -/

def isBlank (c : Char) : Bool := c = ' ' || c = '\n' || c = '\t' || c = '\r'

def skipBlanks (text : List Char) : List Char := text.dropWhile isBlank

def hexValue (c : Char) : Option ℕ :=
  if '0' ≤ c ∧ c ≤ '9' then some (c.toNat - 48)
  else if 'a' ≤ c ∧ c ≤ 'f' then some (c.toNat - 87)
  else if 'A' ≤ c ∧ c ≤ 'F' then some (c.toNat - 55)
  else none

def readHex4 : List Char → Option (ℕ × List Char)
  | a :: b :: c :: d :: r => do
    let a ← hexValue a
    let b ← hexValue b
    let c ← hexValue c
    let d ← hexValue d
    some (((a * 16 + b) * 16 + c) * 16 + d, r)
  | _ => none

/-- The code unit after a `\u` escape; a leading surrogate needs its trailing one, and a trailing
surrogate alone is rejected. -/
def readUnicode (r : List Char) : Option (Char × List Char) := do
  let (n, r) ← readHex4 r
  if 0xDC00 ≤ n ∧ n ≤ 0xDFFF then none
  else if 0xD800 ≤ n ∧ n ≤ 0xDBFF then
    match r with
    | '\\' :: 'u' :: r => do
      let (low, r) ← readHex4 r
      if 0xDC00 ≤ low ∧ low ≤ 0xDFFF then
        some (Char.ofNat (0x10000 + (n - 0xD800) * 0x400 + (low - 0xDC00)), r)
      else none
    | _ => none
  else some (Char.ofNat n, r)

def readEscape : List Char → Option (Char × List Char)
  | '"' :: r => some ('"', r)
  | '\\' :: r => some ('\\', r)
  | '/' :: r => some ('/', r)
  | 'b' :: r => some ('\x08', r)
  | 'f' :: r => some ('\x0c', r)
  | 'n' :: r => some ('\n', r)
  | 'r' :: r => some ('\r', r)
  | 't' :: r => some ('\t', r)
  | 'u' :: r => readUnicode r
  | _ => none

def readChars : ℕ → List Char → Option (List Char × List Char)
  | 0, _ => none
  | _ + 1, [] => none
  | fuel + 1, c :: r =>
    if c = '"' then some ([], r)
    else if c = '\\' then do
      let (c, r) ← readEscape r
      let (cs, r) ← readChars fuel r
      some (c :: cs, r)
    else if c.toNat < 32 then none
    else do
      let (cs, r) ← readChars fuel r
      some (c :: cs, r)

def readString (r : List Char) : Option (String × List Char) := do
  let (cs, r) ← readChars (r.length + 1) r
  some (String.ofList cs, r)

def isNumberChar (c : Char) : Bool :=
  c.isDigit || c = '-' || c = '+' || c = '.' || c = 'e' || c = 'E'

def validExponent : List Char → Bool
  | [] => true
  | c :: r =>
    let digits := match r with
      | '+' :: r => r
      | '-' :: r => r
      | r => r
    (c = 'e' || c = 'E') && digits ≠ [] && digits.all Char.isDigit

def validFraction : List Char → Bool
  | '.' :: r => r.takeWhile Char.isDigit ≠ [] && validExponent (r.dropWhile Char.isDigit)
  | r => validExponent r

/-- A lexeme that is no 64-bit integer becomes a float, if the conversion to a float accepts it. -/
def numberOf (finite : List Char → Bool) (lexeme : List Char) : Option Json :=
  let negative := lexeme.head? = some '-'
  let body := if negative then lexeme.drop 1 else lexeme
  let digits := body.takeWhile Char.isDigit
  let rest := body.dropWhile Char.isDigit
  let n := Nat.ofDigitChars 10 digits 0
  let float := if finite lexeme then some (Json.float lexeme) else none
  if digits = [] ∨ (digits.head? = some '0' ∧ digits.length ≠ 1) then none
  else if rest ≠ [] then (if validFraction rest then float else none)
  else if negative then (if 0 < n ∧ n ≤ 2 ^ 63 then some (.int (-n)) else float)
  else if n < 2 ^ 64 then some (.int n)
  else float

def readNumber (finite : List Char → Bool) (r : List Char) : Option (Json × List Char) :=
  (numberOf finite (r.takeWhile isNumberChar)).map fun j => (j, r.dropWhile isNumberChar)

mutual

/-- One value; the second argument is how many arrays and objects may still be entered. -/
def readValue (finite : List Char → Bool) : ℕ → ℕ → List Char → Option (Json × List Char)
  | 0, _, _ => none
  | fuel + 1, depth, text =>
    match skipBlanks text with
    | 'n' :: 'u' :: 'l' :: 'l' :: r => some (.null, r)
    | 't' :: 'r' :: 'u' :: 'e' :: r => some (.bool true, r)
    | 'f' :: 'a' :: 'l' :: 's' :: 'e' :: r => some (.bool false, r)
    | '"' :: r => (readString r).map fun x => (.str x.1, x.2)
    | '[' :: r =>
      match depth with
      | 0 => none
      | depth + 1 => (readArray finite fuel depth r).map fun x => (.arr x.1, x.2)
    | '{' :: r =>
      match depth with
      | 0 => none
      | depth + 1 => (readObject finite fuel depth r).map fun x => (.obj x.1, x.2)
    | r => readNumber finite r
termination_by structural fuel => fuel

def readArray (finite : List Char → Bool) : ℕ → ℕ → List Char → Option (List Json × List Char)
  | 0, _, _ => none
  | fuel + 1, depth, r =>
    match skipBlanks r with
    | ']' :: r => some ([], r)
    | r => do
      let (x, r) ← readValue finite fuel depth r
      let (xs, r) ← readElements finite fuel depth r
      some (x :: xs, r)
termination_by structural fuel => fuel

def readElements (finite : List Char → Bool) : ℕ → ℕ → List Char → Option (List Json × List Char)
  | 0, _, _ => none
  | fuel + 1, depth, r =>
    match skipBlanks r with
    | ']' :: r => some ([], r)
    | ',' :: r => do
      let (x, r) ← readValue finite fuel depth r
      let (xs, r) ← readElements finite fuel depth r
      some (x :: xs, r)
    | _ => none
termination_by structural fuel => fuel

def readObject (finite : List Char → Bool) :
    ℕ → ℕ → List Char → Option (List (String × Json) × List Char)
  | 0, _, _ => none
  | fuel + 1, depth, r =>
    match skipBlanks r with
    | '}' :: r => some ([], r)
    | r => do
      let (m, r) ← readMember finite fuel depth r
      let (ms, r) ← readMembers finite fuel depth r
      some (m :: ms, r)
termination_by structural fuel => fuel

def readMembers (finite : List Char → Bool) :
    ℕ → ℕ → List Char → Option (List (String × Json) × List Char)
  | 0, _, _ => none
  | fuel + 1, depth, r =>
    match skipBlanks r with
    | '}' :: r => some ([], r)
    | ',' :: r => do
      let (m, r) ← readMember finite fuel depth r
      let (ms, r) ← readMembers finite fuel depth r
      some (m :: ms, r)
    | _ => none
termination_by structural fuel => fuel

def readMember (finite : List Char → Bool) :
    ℕ → ℕ → List Char → Option ((String × Json) × List Char)
  | 0, _, _ => none
  | fuel + 1, depth, r =>
    match skipBlanks r with
    | '"' :: r => do
      let (k, r) ← readString r
      match skipBlanks r with
      | ':' :: r => do
        let (v, r) ← readValue finite fuel depth r
        some ((k, v), r)
      | _ => none
    | _ => none
termination_by structural fuel => fuel

end

/-- The whole text is one value, entered at most 127 levels deep. -/
def parse (finite : List Char → Bool) (text : String) : Option Json :=
  match readValue finite (3 * text.toList.length + 3) 127 text.toList with
  | some (j, r) => if skipBlanks r = [] then some j else none
  | none => none

end HashedBroker.JsonText
