import CoordinatorCore.Text.PathForms
import Mathlib.Data.Nat.Notation

/-!
# Host strings

A `str` of the host language is a list of code points, and surrogates are code points. A text in the
sense of `Text` is one without surrogates. Strings that come from outside may hold lone surrogates;
a high one with a low one behind it spells the same sixteen bit units as one character of a higher
plane, and a reader of these units joins the two (`CodePoint.join`).
-/

namespace CoordinatorCore

/-- A code point of a host string. -/
abbrev CodePoint := Fin 0x110000

instance CodePoint.instNeZero : @NeZero Nat Zero.ofOfNat0 0x110000 := ⟨by decide⟩

/-- `str`. -/
abbrev PyStr := List CodePoint

namespace CodePoint

/-- The code point of a character. -/
def ofChar (c : Char) : CodePoint :=
  ⟨c.toNat, by
    rcases c.valid with h | ⟨-, h⟩
    · exact lt_trans h (by decide)
    · exact h⟩

/-- The first unit of a pair. -/
def isHigh (c : CodePoint) : Bool := 0xd800 ≤ c.val && c.val < 0xdc00

/-- The second unit of a pair. -/
def isLow (c : CodePoint) : Bool := 0xdc00 ≤ c.val && c.val < 0xe000

/-- The character two units spell. -/
def join (h l : CodePoint) : CodePoint :=
  ⟨0x10000 + h.val % 0x400 * 0x400 + l.val % 0x400, by omega⟩

end CodePoint

namespace PyStr

open CodePoint

/-- The string of a text. -/
def ofText (t : Text) : PyStr := t.map ofChar

/-- The text of a string without surrogates. -/
def toText? (s : PyStr) : Option Text :=
  s.mapM fun c => if isHigh c || isLow c then none else some (Char.ofNat c.val)

end PyStr

end CoordinatorCore
