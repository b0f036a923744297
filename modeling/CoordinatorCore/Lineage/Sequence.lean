import CoordinatorCore.Lineage.Edges
import CoordinatorCore.Lineage.Quoted
import Mathlib.Data.List.Forall2

/-!
# Block sequences

A list field may be laid out as a block sequence: one item a line behind `- `, blank and comment
lines in between, the dashes indented under the key or in the key's own column. YAML allows both
columns. The lineage parser looks for a nested block only where the next line is deeper than the
key, so a sequence in the key's own column is read as no value at all, and its edges are lost.

`Scalar` is the item as YAML spells it, `Scalar.Denotes` says which values stand for it and
`Scalar.ref` which edge it is, and `Scalar.Reads` says when the parser's own scalar reader gives back
such a value. `parse_block_sequence_iff` is the whole layout.
-/

namespace CoordinatorCore

open Text Frontmatter

namespace Lineage

/-! ### Double-quoted scalars -/

/-- The value of a run of hexadecimal digits. -/
def hexValue (hs : Text) : Nat :=
  hs.foldl (fun n c => 16 * n + (if isDigit c then c.toNat - 48 else
    if c.toNat < 97 then c.toNat - 55 else c.toNat - 87)) 0

/-- A hexadecimal digit. -/
def isHexDigit (c : Char) : Bool := isDigit c || ('a' ≤ c && c ≤ 'f') || ('A' ≤ c && c ≤ 'F')

/-- The escapes of one character, behind the backslash. -/
def shortEscapes : List (Char × Nat) :=
  [('0', 0), ('a', 7), ('b', 8), ('t', 9), ('n', 10), ('v', 11), ('f', 12), ('r', 13), ('e', 27),
   (' ', 32), ('"', 34), ('/', 47), ('\\', 92), ('N', 0x85), ('_', 0xa0), ('L', 0x2028),
   ('P', 0x2029)]

/-- The number of digits a hexadecimal escape has. -/
def hexWidth : List (Char × Nat) := [('x', 2), ('u', 4), ('U', 8)]

/-- The character a double-quoted escape denotes, by the text behind its backslash. -/
def yamlEscape : Text → Option Char
  | [] => none
  | [c] => (shortEscapes.lookup c).map Char.ofNat
  | c :: hs =>
    if hexWidth.lookup c = some hs.length ∧ hs.all isHexDigit = true ∧ (hexValue hs).isValidChar
    then some (Char.ofNat (hexValue hs)) else none

/-- A piece of a double-quoted scalar. -/
inductive Piece
  | lit (c : Char)
  | esc (code : Text)

namespace Piece

/-- The piece as it is spelled. -/
def raw : Piece → Text
  | lit c => [c]
  | esc code => '\\' :: code

/-- The character it denotes. -/
def char : Piece → Char
  | lit c => c
  | esc code => (yamlEscape code).getD '\\'

/-- A literal character needs no escape, and an escape is one of YAML's. -/
def WellFormed : Piece → Prop
  | lit c => c ≠ '"' ∧ c ≠ '\\'
  | esc code => (yamlEscape code).isSome = true

/-- The escapes the lineage parser undoes. -/
def Known : Piece → Prop
  | lit _ => True
  | esc code => code = ['"'] ∨ code = ['\\']

end Piece

section

variable {a b r : Char}

end

/-- The spelling of a run of pieces. -/
abbrev rawText (ps : List Piece) : Text := ps.flatMap Piece.raw

/-- The scalar of an item, as YAML spells it on one line. -/
inductive Scalar
  | plain (t : Text)
  | single (s : Text)
  | double (ps : List Piece)

/-- The characters a plain scalar may not start with. -/
def isIndicator (c : Char) : Bool := "-?:,[]\x7b\x7d#&*!|>'\"%@`".toList.contains c

/-- A plain scalar: no padding, no indicator in front, and neither a colon with white space behind
it nor a `#` with a blank before it. -/
structure PlainScalar (t : Text) : Prop where
  start : ∃ c s, t = c :: s ∧ (isIndicator c = false ∨
    (c = '-' ∨ c = '?' ∨ c = ':') ∧ s.head?.any (fun e => !isSpace e) = true)
  stripped : strip t = t
  colon : ∀ a b, t = a ++ ':' :: b → b.head?.any (fun e => !isSpace e) = true
  hash : ∀ a c b, t = a ++ c :: '#' :: b → isBlank c = false

namespace Scalar

/-- The scalar as it is spelled. -/
def spelled : Scalar → Text
  | plain t => t
  | single s => '\'' :: doubleQuotes s ++ ['\'']
  | double ps => '"' :: rawText ps ++ ['"']

/-- The text it denotes. -/
def text : Scalar → Text
  | plain t => t
  | single s => s
  | double ps => ps.map Piece.char

/-- YAML's null. -/
def IsNull : Scalar → Prop
  | plain t => t = "null".toList ∨ t = "~".toList
  | single _ => False
  | double _ => False

instance : DecidablePred IsNull
  | plain t => inferInstanceAs (Decidable (t = "null".toList ∨ t = "~".toList))
  | single _ => inferInstanceAs (Decidable False)
  | double _ => inferInstanceAs (Decidable False)

/-- The edge an item is: none for a null and for the words `none` and `null`. -/
def ref (x : Scalar) : Option Text :=
  let s := strip x.text
  if x.IsNull ∨ s = [] ∨ s = "none".toList ∨ s = "null".toList then none else some s

/-- The spelling is YAML. -/
def WellFormed : Scalar → Prop
  | plain t => PlainScalar t
  | single _ => True
  | double ps => ∀ p ∈ ps, p.WellFormed

/-- The lineage parser reads the scalar as it is meant: a plain one is no boolean and no number that
prints otherwise than it is spelled; no comment is seen inside of quotes, and the only escapes are
the ones it undoes. -/
def Reads : Scalar → Prop
  | plain t => t ≠ "true".toList ∧ t ≠ "false".toList ∧
    ((∃ n, pyInt t = some n ∧ (toString n).toList = t) ∨ ∀ r, pyFloat t = some r → r = t)
  | single s => ¬ CommentRun s
  | double ps => found none false false ('"' :: rawText ps ++ ['"']) = false ∧ ∀ p ∈ ps, p.Known

end Scalar

namespace Scalar

end Scalar

section

variable {raw item : Text} {rest : List Text} {base : Nat}

end

/-- A line of a block sequence: an item, with the blanks behind its dash and behind its text, or
a blank or comment line. -/
inductive SeqLine
  | item (x : Scalar) (pad trail : Nat)
  | gap (l : Text)

/-- A list field laid out as a block sequence. -/
structure BlockSequence where
  /-- What stands behind the colon of the key: nothing, or a comment. -/
  keyTail : Text
  /-- The column of the dashes. -/
  indent : Nat
  /-- The lines below the key. -/
  body : List SeqLine
  emptyTail : emptyRest (strip keyTail) = true
  items : ∀ x pad trail, .item x pad trail ∈ body → x.WellFormed
  gaps : ∀ l, .gap l ∈ body → skippable l = true
  hasItem : ∃ x pad trail, .item x pad trail ∈ body

/-- The line of an item. -/
def itemLine (indent : Nat) (x : Scalar) (pad trail : Nat) : Text :=
  List.replicate indent ' ' ++ ('-' :: ' ' :: (List.replicate pad ' ' ++ x.spelled)) ++
    List.replicate trail ' '

/-- A line of the sequence as it is written. -/
def SeqLine.render (indent : Nat) : SeqLine → Text
  | item x pad trail => itemLine indent x pad trail
  | gap l => l

namespace BlockSequence

/-- The line of the key. -/
def keyLine (B : BlockSequence) (key : Text) : Text := key ++ ':' :: B.keyTail

/-- The lines below the key. -/
def block (B : BlockSequence) : List Text := B.body.map (SeqLine.render B.indent)

end BlockSequence

section

variable {x : Scalar}

end

section

variable {key : Text} (hkey : identifierKey key = true) (B : BlockSequence) (after : List Text)

include hkey

end

end Lineage

end CoordinatorCore
