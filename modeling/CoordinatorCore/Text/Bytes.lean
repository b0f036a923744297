import CoordinatorCore.Text.CodePoints

/-!
# Bytes of a text

`str.encode("utf-8")` and the strict `bytes.decode("utf-8")`.
-/

namespace CoordinatorCore

/-- `bytes`. -/
abbrev Bytes := List UInt8

instance Bytes.instLawfulBEq : LawfulBEq Bytes := List.instLawfulBEq

namespace Text

/-- `text.encode("utf-8")`. -/
def utf8Encode (t : Text) : Bytes := t.flatMap String.utf8EncodeChar

/-- A byte that continues a character. -/
def isContinuation (b : UInt8) : Bool := 0x80 ≤ b && b < 0xc0

/-- The payload of a continuation byte. -/
def continuation (b : UInt8) : Nat := b.toNat % 0x40

/-- `raw.decode("utf-8")`: no character has a spelling longer than it needs, and none is a
surrogate. -/
def utf8Decode : Bytes → Option Text
  | [] => some []
  | a :: t =>
    if a < 0x80 then (utf8Decode t).map (Char.ofNat a.toNat :: ·)
    else
      match t with
      | [] => none
      | b :: t =>
        if 0xc2 ≤ a ∧ a < 0xe0 ∧ isContinuation b then
          (utf8Decode t).map (Char.ofNat (a.toNat % 0x20 * 0x40 + continuation b) :: ·)
        else
          match t with
          | [] => none
          | c :: t =>
            if 0xe0 ≤ a ∧ a < 0xf0 ∧ isContinuation b ∧ isContinuation c ∧
                (a = 0xe0 → 0xa0 ≤ b) ∧ (a = 0xed → b < 0xa0) then
              (utf8Decode t).map (Char.ofNat (a.toNat % 0x10 * 0x1000 + continuation b * 0x40 +
                continuation c) :: ·)
            else
              match t with
              | [] => none
              | d :: t =>
                if 0xf0 ≤ a ∧ a < 0xf5 ∧ isContinuation b ∧ isContinuation c ∧ isContinuation d ∧
                    (a = 0xf0 → 0x90 ≤ b) ∧ (a = 0xf4 → b < 0x90) then
                  (utf8Decode t).map (Char.ofNat (a.toNat % 0x8 * 0x40000 +
                    continuation b * 0x1000 + continuation c * 0x40 + continuation d) :: ·)
                else none

end Text

end CoordinatorCore
