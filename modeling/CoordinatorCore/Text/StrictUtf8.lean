import CoordinatorCore.Text.SurrogateEscape

/-!
# Strict UTF-8

`name.encode("utf-8")` raises on every surrogate. On the strings that are left decoding undoes it
(`fsDecode_of_encodeStrict`), and the order of the bytes is the order of the code points
(`lt_of_encodeStrict`), so what is sorted by its text is sorted by its bytes.
-/

namespace CoordinatorCore

namespace PyStr

open Text

/-- A code point of the surrogate range. -/
def isSurrogate (c : CodePoint) : Bool := 0xd800 ≤ c.val && c.val < 0xe000

/-- `name.encode("utf-8")`; nothing for a `UnicodeEncodeError`. -/
def encodeStrict (s : PyStr) : Option Bytes := if s.any isSurrogate then none else fsEncode s

/-! ### The bytes of a character -/

/-- The four lengths of a character. -/
theorem encodePoint_cases {c : CodePoint} {b : Bytes} (hc : isSurrogate c = false)
    (h : encodePoint c = some b) :
    (c.val < 0x80 ∧ b = [c.val.toUInt8]) ∨
      (0x80 ≤ c.val ∧ c.val < 0x800 ∧
        b = [(0xc0 + c.val / 0x40).toUInt8, (0x80 + c.val % 0x40).toUInt8]) ∨
      (0x800 ≤ c.val ∧ c.val < 0x10000 ∧ (c.val < 0xd800 ∨ 0xe000 ≤ c.val) ∧
        b = [(0xe0 + c.val / 0x1000).toUInt8, (0x80 + c.val / 0x40 % 0x40).toUInt8,
          (0x80 + c.val % 0x40).toUInt8]) ∨
      (0x10000 ≤ c.val ∧ b = [(0xf0 + c.val / 0x40000).toUInt8,
        (0x80 + c.val / 0x1000 % 0x40).toUInt8, (0x80 + c.val / 0x40 % 0x40).toUInt8,
        (0x80 + c.val % 0x40).toUInt8]) := by
  simp only [isSurrogate, Bool.and_eq_false_iff, decide_eq_false_iff_not] at hc
  rw [encodePoint] at h
  split_ifs at h with h1 h2 h3 h4 h5
  · exact .inl ⟨h1, (Option.some.inj h).symm⟩
  · exact .inr (.inl ⟨by omega, h2, (Option.some.inj h).symm⟩)
  · exact .inr (.inr (.inl ⟨by omega, by omega, by omega, (Option.some.inj h).symm⟩))
  · omega
  · exact .inr (.inr (.inr ⟨by omega, (Option.some.inj h).symm⟩))

private theorem toNat_toUInt8 {n : Nat} (h : n < 0x100) : n.toUInt8.toNat = n := by
  rw [Nat.toUInt8, UInt8.toNat_ofNat', Nat.mod_eq_of_lt h]

private theorem isContinuation_toUInt8 (n : Nat) :
    isContinuation (0x80 + n % 0x40).toUInt8 = true := by
  simp only [isContinuation, Bool.and_eq_true, decide_eq_true_eq, UInt8.le_iff_toNat_le,
    UInt8.lt_iff_toNat_lt]
  rw [toNat_toUInt8 (by omega)]
  exact ⟨by simp, by simp; omega⟩

private theorem point_eq {c : CodePoint} {n : Nat} (h : n = c.val) : point n = c :=
  Fin.ext (by rw [point, h]; exact Nat.mod_eq_of_lt c.isLt)

/-- A character in front is read. -/
theorem pointAt_encodePoint {c : CodePoint} {b : Bytes} (hc : isSurrogate c = false)
    (h : encodePoint c = some b) (t : Bytes) :
    ∃ a k, b = a :: k ∧ pointAt (b ++ t) = some (c, k.length) := by
  have hmax := c.isLt
  rcases encodePoint_cases hc h with ⟨h1, rfl⟩ | ⟨h1, h2, rfl⟩ | ⟨h1, h2, h3, rfl⟩ | ⟨h1, rfl⟩
  · refine ⟨_, _, rfl, ?_⟩
    rw [pointAt.eq_def]
    dsimp only [List.cons_append]
    rw [toNat_toUInt8 (by omega), if_pos h1, point_eq rfl]
    rfl
  · refine ⟨_, _, rfl, ?_⟩
    rw [pointAt.eq_def]
    dsimp only [List.cons_append]
    rw [toNat_toUInt8 (by omega), if_neg (by omega),
      if_pos ⟨by omega, by omega, isContinuation_toUInt8 _⟩, continuation,
      toNat_toUInt8 (by omega), point_eq (c := c) (by omega)]
    rfl
  · refine ⟨_, _, rfl, ?_⟩
    rw [pointAt.eq_def]
    dsimp only [List.cons_append]
    rw [toNat_toUInt8 (n := 0xe0 + c.val / 0x1000) (by omega), if_neg (by omega),
      if_neg (by omega), if_pos]
    · rw [continuation, continuation, toNat_toUInt8 (by omega), toNat_toUInt8 (by omega),
        point_eq (c := c) (by omega)]
      rfl
    · rw [toNat_toUInt8 (by omega)]
      exact ⟨by omega, by omega, isContinuation_toUInt8 _, isContinuation_toUInt8 _, by omega,
        by omega⟩
  · refine ⟨_, _, rfl, ?_⟩
    rw [pointAt.eq_def]
    dsimp only [List.cons_append]
    rw [toNat_toUInt8 (n := 0xf0 + c.val / 0x40000) (by omega), if_neg (by omega),
      if_neg (by omega), if_neg (by omega), if_pos]
    · rw [continuation, continuation, continuation, toNat_toUInt8 (by omega),
        toNat_toUInt8 (by omega), toNat_toUInt8 (by omega), point_eq (c := c) (by omega)]
      rfl
    · rw [toNat_toUInt8 (by omega)]
      exact ⟨by omega, by omega, isContinuation_toUInt8 _, isContinuation_toUInt8 _,
        isContinuation_toUInt8 _, by omega, by omega⟩

/-- Two byte strings differ at a byte of both, and the first is smaller there. -/
inductive LtInside : Bytes → Bytes → Prop
  | here {x y : UInt8} {s t : Bytes} : x < y → LtInside (x :: s) (y :: t)
  | there {x y : UInt8} {s t : Bytes} : x = y → LtInside s t → LtInside (x :: s) (y :: t)

theorem LtInside.lt_append {b b' : Bytes} (h : LtInside b b') (s t : Bytes) : b ++ s < b' ++ t := by
  induction h with
  | here hlt => exact List.cons_lt_cons_iff.mpr (.inl hlt)
  | there heq _ ih => exact List.cons_lt_cons_iff.mpr (.inr ⟨heq, ih⟩)

/-- The smaller character has the smaller bytes. -/
theorem encodePoint_lt {c d : CodePoint} {b b' : Bytes} (hc : isSurrogate c = false)
    (hd : isSurrogate d = false) (h : encodePoint c = some b) (h' : encodePoint d = some b')
    (hlt : c < d) : LtInside b b' := by
  have hlt : c.val < d.val := hlt
  have hmax := d.isLt
  have small : ∀ {m n : Nat}, m < n → n < 0x100 → m.toUInt8 < n.toUInt8 := by
    intro m n hmn hn
    rw [UInt8.lt_iff_toNat_lt, toNat_toUInt8 (by omega), toNat_toUInt8 hn]
    exact hmn
  have digit : ∀ {m n : Nat}, m % 0x40 < n % 0x40 →
      (0x80 + m % 0x40).toUInt8 < (0x80 + n % 0x40).toUInt8 := fun h => small (by omega) (by omega)
  rcases encodePoint_cases hc h with ⟨h1, rfl⟩ | ⟨h1, h2, rfl⟩ | ⟨h1, h2, -, rfl⟩ | ⟨h1, rfl⟩ <;>
    rcases encodePoint_cases hd h' with ⟨g1, rfl⟩ | ⟨g1, g2, rfl⟩ | ⟨g1, g2, -, rfl⟩ | ⟨g1, rfl⟩
  -- Of one length the first digits that differ decide.
  case inr.inl.inr.inl =>
    by_cases e1 : c.val / 0x40 = d.val / 0x40
    · exact .there (by rw [e1]) (.here (digit (by omega)))
    · exact .here (small (by omega) (by omega))
  case inr.inr.inl.inr.inr.inl =>
    by_cases e1 : c.val / 0x1000 = d.val / 0x1000
    · by_cases e2 : c.val / 0x40 % 0x40 = d.val / 0x40 % 0x40
      · exact .there (by rw [e1]) (.there (by rw [e2]) (.here (digit (by omega))))
      · exact .there (by rw [e1]) (.here (digit (by omega)))
    · exact .here (small (by omega) (by omega))
  case inr.inr.inr.inr.inr.inr =>
    by_cases e1 : c.val / 0x40000 = d.val / 0x40000
    · by_cases e2 : c.val / 0x1000 % 0x40 = d.val / 0x1000 % 0x40
      · by_cases e3 : c.val / 0x40 % 0x40 = d.val / 0x40 % 0x40
        · exact .there (by rw [e1]) (.there (by rw [e2]) (.there (by rw [e3])
            (.here (digit (by omega)))))
        · exact .there (by rw [e1]) (.there (by rw [e2]) (.here (digit (by omega))))
      · exact .there (by rw [e1]) (.here (digit (by omega)))
    · exact .here (small (by omega) (by omega))
  -- Of two lengths the first bytes differ.
  all_goals first
    | omega
    | exact .here (small (by omega) (by omega))

/-! ### Strings -/

theorem encodeStrict_cons {c : CodePoint} {s : PyStr} {b : Bytes}
    (h : encodeStrict (c :: s) = some b) :
    isSurrogate c = false ∧ ∃ front rest, encodePoint c = some front ∧ encodeStrict s = some rest ∧
      b = front ++ rest := by
  rw [encodeStrict] at h
  split_ifs at h with hany
  rw [Bool.not_eq_true, List.any_cons, Bool.or_eq_false_iff] at hany
  rw [fsEncode, Option.bind_eq_some_iff] at h
  obtain ⟨front, hfront, h⟩ := h
  obtain ⟨rest, hrest, rfl⟩ := Option.map_eq_some_iff.mp h
  refine ⟨hany.1, front, rest, hfront, ?_, rfl⟩
  rw [encodeStrict, hany.2, if_neg Bool.false_ne_true, hrest]

theorem decodeFrom_length (k : Bytes) (t : Bytes) :
    decodeFrom k.length (k ++ t) = decodeFrom 0 t := by
  induction k with
  | nil => rfl
  | cons a k ih => exact ih

/-- A string without surrogates is read back. -/
theorem fsDecode_of_encodeStrict {s : PyStr} {b : Bytes} (h : encodeStrict s = some b) :
    fsDecode b = s := by
  induction s generalizing b with
  | nil =>
    cases h
    rfl
  | cons c s ih =>
    obtain ⟨hc, front, rest, hfront, hrest, rfl⟩ := encodeStrict_cons h
    obtain ⟨a, k, rfl, hat⟩ := pointAt_encodePoint hc hfront rest
    rw [fsDecode, List.cons_append, decodeFrom]
    rw [List.cons_append] at hat
    simp only [hat]
    rw [decodeFrom_length]
    exact congrArg _ (ih hrest)

theorem fsEncode_of_encodeStrict {s : PyStr} {b : Bytes} (h : encodeStrict s = some b) :
    fsEncode s = some b := by
  rw [encodeStrict] at h
  split_ifs at h
  exact h

/-- The order of the code points is the order of the bytes. -/
theorem lt_of_encodeStrict {s t : PyStr} {b b' : Bytes} (h : encodeStrict s = some b)
    (h' : encodeStrict t = some b') (hlt : s < t) : b < b' := by
  induction s generalizing t b b' with
  | nil =>
    cases h
    cases t with
    | nil => exact absurd hlt (List.lt_irrefl _)
    | cons d t =>
      obtain ⟨hd, front, rest, hfront, -, rfl⟩ := encodeStrict_cons h'
      obtain ⟨a, k, rfl, -⟩ := pointAt_encodePoint hd hfront rest
      exact List.nil_lt_cons _ _
  | cons c s ih =>
    cases t with
    | nil => exact absurd hlt (List.not_lt_nil _)
    | cons d t =>
      obtain ⟨hc, front, rest, hfront, hrest, rfl⟩ := encodeStrict_cons h
      obtain ⟨hd, front', rest', hfront', hrest', rfl⟩ := encodeStrict_cons h'
      rcases List.cons_lt_cons_iff.mp hlt with hcd | ⟨rfl, hst⟩
      · exact (encodePoint_lt hc hd hfront hfront' hcd).lt_append rest rest'
      · rw [hfront] at hfront'
        cases hfront'
        exact List.append_left_lt (ih hrest hrest' hst)

end PyStr

end CoordinatorCore
