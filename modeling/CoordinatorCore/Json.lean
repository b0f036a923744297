import CoordinatorCore.Text.CodePoints
import CoordinatorCore.Text.Number

/-!
# JSON texts

`json.dumps` with its defaults but for the separators, and `json.loads`. The writer keeps to ASCII:
every other code point of a string is escaped by its sixteen bit units. The reader takes what the
host's reader takes: `NaN` and the infinities are numbers, of two entries with one key the later
counts, and the escapes of a surrogate pair are one character.

A float is known by its `repr`.
-/

namespace CoordinatorCore

open Text CodePoint

/-- A value `json.loads` returns. -/
inductive Json
  | null
  | bool (b : Bool)
  | int (n : Int)
  | float (repr : Text)
  | str (s : PyStr)
  | arr (items : List Json)
  | obj (entries : List (PyStr × Json))

namespace Json

/-- `record.get(key)`, or `record[key]` where it is there. -/
def lookup (key : PyStr) (entries : List (PyStr × Json)) : Option Json :=
  entries.reverse.lookup key

/-! ### Writing -/

/-- A hexadecimal digit. -/
def hexDigit (n : Nat) : Char := Char.ofNat (if n < 10 then 0x30 + n else 0x57 + n)

/-- The escape of a sixteen bit unit. -/
def escapeUnit (n : Nat) : Text :=
  ['\\', 'u', hexDigit (n / 0x1000 % 16), hexDigit (n / 0x100 % 16), hexDigit (n / 0x10 % 16),
    hexDigit (n % 16)]

/-- The letter of a short escape. -/
def shortEscape (n : Nat) : Option Char :=
  match n with
  | 0x22 => some '"'
  | 0x5c => some '\\'
  | 0x08 => some 'b'
  | 0x09 => some 't'
  | 0x0a => some 'n'
  | 0x0c => some 'f'
  | 0x0d => some 'r'
  | _ => none

/-- A code point inside a string. -/
def escapePoint (c : CodePoint) : Text :=
  match shortEscape c.val with
  | some e => ['\\', e]
  | none =>
    if 0x20 ≤ c.val ∧ c.val < 0x7f then [Char.ofNat c.val]
    else if c.val < 0x10000 then escapeUnit c.val
    else escapeUnit (0xd800 + (c.val - 0x10000) / 0x400) ++
      escapeUnit (0xdc00 + (c.val - 0x10000) % 0x400)

/-- A string with its quotes. -/
def writeString (s : PyStr) : Text := '"' :: (s.flatMap escapePoint ++ ['"'])

/-- The digits of an integer. -/
def writeInt (n : Int) : Text :=
  if n < 0 then '-' :: Nat.toDigits 10 n.natAbs else Nat.toDigits 10 n.natAbs

/-- A float: JSON has no spelling for three of them. -/
def writeFloat (repr : Text) : Text :=
  if repr = "nan".toList then "NaN".toList
  else if repr = "inf".toList then "Infinity".toList
  else if repr = "-inf".toList then "-Infinity".toList
  else repr

/-- What stands between the brackets: the parts with commas between. -/
def commaJoin (parts : List Text) : Text := [','].intercalate parts

mutual

/-- `json.dumps(value, separators=(",", ":"))`. -/
def dumps : Json → Text
  | .null => "null".toList
  | .bool true => "true".toList
  | .bool false => "false".toList
  | .int n => writeInt n
  | .float r => writeFloat r
  | .str s => writeString s
  | .arr items => '[' :: (commaJoin (dumpItems items) ++ [']'])
  | .obj entries => '{' :: (commaJoin (dumpEntries entries) ++ ['}'])
termination_by structural v => v

/-- The items of an array. -/
def dumpItems : List Json → List Text
  | [] => []
  | v :: items => dumps v :: dumpItems items
termination_by structural items => items

/-- The entries of an object. -/
def dumpEntries : List (PyStr × Json) → List Text
  | [] => []
  | e :: entries => dumpEntry e :: dumpEntries entries
termination_by structural entries => entries

/-- An entry of an object. -/
def dumpEntry : PyStr × Json → Text
  | (key, v) => writeString key ++ ':' :: dumps v
termination_by structural e => e

end

/-! ### Reading strings -/

/-- The value of a hexadecimal digit. -/
def hexVal (c : Char) : Option (Fin 16) :=
  if h : 0x30 ≤ c.toNat ∧ c.toNat < 0x3a then some ⟨c.toNat - 0x30, by omega⟩
  else if h : 0x61 ≤ c.toNat ∧ c.toNat < 0x67 then some ⟨c.toNat - 0x57, by omega⟩
  else if h : 0x41 ≤ c.toNat ∧ c.toNat < 0x47 then some ⟨c.toNat - 0x37, by omega⟩
  else none

/-- The unit four hexadecimal digits spell. -/
def hexUnit : Text → Option (CodePoint × Text)
  | a :: b :: c :: d :: t =>
    (hexVal a).bind fun a => (hexVal b).bind fun b => (hexVal c).bind fun c => (hexVal d).map fun d =>
      (⟨a.val * 0x1000 + b.val * 0x100 + c.val * 0x10 + d.val, by omega⟩, t)
  | _ => none

/-- The unit of an escape. -/
def escapedUnit : Text → Option (CodePoint × Text)
  | '\\' :: 'u' :: t => hexUnit t
  | _ => none

/-- The code point of the units behind `\u`; a low unit behind a high one belongs to it. -/
def scanUnits (t : Text) : Option (CodePoint × Text) :=
  (hexUnit t).map fun (u, t) =>
    match escapedUnit t with
    | some (v, t') => if isHigh u && isLow v then (join u v, t') else (u, t)
    | none => (u, t)

/-- The code point of a short escape. -/
def unescape (c : Char) : Option CodePoint :=
  match c with
  | '"' => some 0x22
  | '\\' => some 0x5c
  | '/' => some 0x2f
  | 'b' => some 0x08
  | 'f' => some 0x0c
  | 'n' => some 0x0a
  | 'r' => some 0x0d
  | 't' => some 0x09
  | _ => none

/-- What stands behind a backslash. -/
def scanEscape : Text → Option (CodePoint × Text)
  | [] => none
  | c :: t => if c = 'u' then scanUnits t else (unescape c).map fun d => (d, t)

/-- The next code point of a string, `none` for the closing quote. -/
def scanPoint : Text → Option (Option CodePoint × Text)
  | [] => none
  | c :: t =>
    if c = '"' then some (none, t)
    else if c = '\\' then (scanEscape t).map fun (d, t) => (some d, t)
    else if c.toNat < 0x20 then none
    else some (some (ofChar c), t)

/-- `scanstring`, behind the opening quote, for at most so many code points. -/
def scanString : Nat → Text → Option (PyStr × Text)
  | 0, _ => none
  | n + 1, t =>
    match scanPoint t with
    | none => none
    | some (none, t) => some ([], t)
    | some (some c, t) => (scanString n t).map fun (s, t) => (c :: s, t)

/-! ### Reading values -/

/-- Why a text is refused: its syntax, or an integer of too many digits. -/
inductive LoadsError
  | syntax_
  | digits

/-- The white space between tokens. -/
def isJsonSpace (c : Char) : Bool := c == ' ' || c == '\t' || c == '\n' || c == '\r'

/-- White space is skipped. -/
def skipSpace (t : Text) : Text := t.dropWhile isJsonSpace

/-- The integer part of a number: no zero stands in front of another digit. -/
def scanWhole : Text → Option (Text × Text)
  | '0' :: t => some (['0'], t)
  | t => if t.takeWhile isDigit = [] then none else some (t.takeWhile isDigit, t.dropWhile isDigit)

/-- A fraction part, if digits follow the point. -/
def scanFraction : Text → Text × Text
  | '.' :: t =>
    if t.takeWhile isDigit = [] then ([], '.' :: t)
    else ('.' :: t.takeWhile isDigit, t.dropWhile isDigit)
  | t => ([], t)

/-- A sign. -/
def scanSign : Text → Text × Text
  | '+' :: t => (['+'], t)
  | '-' :: t => (['-'], t)
  | t => ([], t)

/-- An exponent part, if digits follow. -/
def scanExponent : Text → Text × Text
  | [] => ([], [])
  | c :: t =>
    let (sign, u) := scanSign t
    if (c = 'e' ∨ c = 'E') ∧ u.takeWhile isDigit ≠ [] then
      (c :: (sign ++ u.takeWhile isDigit), u.dropWhile isDigit)
    else ([], c :: t)

/-- `float` of a number token. -/
def floatOfToken (token : Text) : Text :=
  (pyFloat token).getD (if token.head? = some '-' then "-inf".toList else "inf".toList)

/-- A number. -/
def scanNumber (t : Text) : Except LoadsError (Json × Text) :=
  let (sign, r) := if t.head? = some '-' then (['-'], t.tail) else ([], t)
  match scanWhole r with
  | none => .error .syntax_
  | some (whole, r) =>
    let (frac, r) := scanFraction r
    let (exp, r) := scanExponent r
    if frac = [] ∧ exp = [] then
      match pyInt (sign ++ whole) with
      | some n => .ok (.int n, r)
      | none => .error .digits
    else .ok (.float (floatOfToken (sign ++ whole ++ frac ++ exp)), r)

/-- The words that are values. -/
def words : List (Text × Json) :=
  [("null".toList, .null), ("true".toList, .bool true), ("false".toList, .bool false),
    ("NaN".toList, .float "nan".toList), ("Infinity".toList, .float "inf".toList),
    ("-Infinity".toList, .float "-inf".toList)]

mutual

/-- `scan_once`, for values nested at most so deep and so long. -/
def scanValue : Nat → Text → Except LoadsError (Json × Text)
  | 0, _ => .error .syntax_
  | n + 1, t =>
    match t with
    | '"' :: t =>
      match scanString (t.length + 1) t with
      | some (s, t) => .ok (.str s, t)
      | none => .error .syntax_
    | '{' :: t =>
      match skipSpace t with
      | '}' :: t => .ok (.obj [], t)
      | t => (scanEntries n t).map fun (entries, t) => (.obj entries, t)
    | '[' :: t =>
      match skipSpace t with
      | ']' :: t => .ok (.arr [], t)
      | t => (scanItems n t).map fun (items, t) => (.arr items, t)
    | t =>
      match words.findSome? fun w => (stripPrefix? w.1 t).map fun t => (w.2, t) with
      | some r => .ok r
      | none => scanNumber t
termination_by structural n => n

/-- The entries of an object up to its brace. -/
def scanEntries : Nat → Text → Except LoadsError (List (PyStr × Json) × Text)
  | 0, _ => .error .syntax_
  | n + 1, t =>
    match t with
    | '"' :: t =>
      match scanString (t.length + 1) t with
      | none => .error .syntax_
      | some (key, t) =>
        match skipSpace t with
        | ':' :: t =>
          (scanValue n (skipSpace t)).bind fun (v, t) =>
            match skipSpace t with
            | '}' :: t => .ok ([(key, v)], t)
            | ',' :: t => (scanEntries n (skipSpace t)).map fun (entries, t) =>
              ((key, v) :: entries, t)
            | _ => .error .syntax_
        | _ => .error .syntax_
    | _ => .error .syntax_
termination_by structural n => n

/-- The items of an array up to its bracket. -/
def scanItems : Nat → Text → Except LoadsError (List Json × Text)
  | 0, _ => .error .syntax_
  | n + 1, t =>
    (scanValue n t).bind fun (v, t) =>
      match skipSpace t with
      | ']' :: t => .ok ([v], t)
      | ',' :: t => (scanItems n (skipSpace t)).map fun (items, t) => (v :: items, t)
      | _ => .error .syntax_
termination_by structural n => n

end

/-- The mark a text may not open with. -/
def byteOrderMark : Char := Char.ofNat 0xfeff

/-- `json.loads`. -/
def loads (t : Text) : Except LoadsError Json :=
  if t.head? = some byteOrderMark then .error .syntax_
  else (scanValue (t.length + 1) (skipSpace t)).bind fun (v, t) =>
    if skipSpace t = [] then .ok v else .error .syntax_

end Json

end CoordinatorCore
