import CoordinatorCore.Text.Bytes

/-!
# File names as host strings

`name.decode("utf-8", "surrogateescape")` and its inverse. A byte that is no part of a character
becomes a low surrogate and is the byte again when it is encoded, so a name survives the way there
and back whatever its bytes are (`fsEncode_fsDecode`). The way from a string is partial, and two
strings may have the same bytes.
-/

namespace CoordinatorCore

namespace PyStr

open Text

/-! ### One code point -/

/-- The bytes of a code point; nothing for a surrogate that is no escaped byte. -/
def encodePoint (c : CodePoint) : Option Bytes :=
  let n := c.val
  if n < 0x80 then some [n.toUInt8]
  else if n < 0x800 then some [(0xc0 + n / 0x40).toUInt8, (0x80 + n % 0x40).toUInt8]
  else if n < 0xd800 ∨ 0xe000 ≤ n ∧ n < 0x10000 then
    some [(0xe0 + n / 0x1000).toUInt8, (0x80 + n / 0x40 % 0x40).toUInt8,
      (0x80 + n % 0x40).toUInt8]
  else if n < 0xe000 then
    if 0xdc80 ≤ n ∧ n < 0xdd00 then some [(n - 0xdc00).toUInt8] else none
  else some [(0xf0 + n / 0x40000).toUInt8, (0x80 + n / 0x1000 % 0x40).toUInt8,
    (0x80 + n / 0x40 % 0x40).toUInt8, (0x80 + n % 0x40).toUInt8]

/-- A code point with a value below the end of the range. -/
def point (n : Nat) : CodePoint := ⟨n % 0x110000, Nat.mod_lt _ (by decide)⟩

/-- The character at the front, with the number of bytes behind its first. -/
def pointAt : Bytes → Option (CodePoint × Nat)
  | [] => none
  | a :: t =>
    if a.toNat < 0x80 then some (point a.toNat, 0)
    else match t with
    | [] => none
    | b :: t =>
      if 0xc2 ≤ a.toNat ∧ a.toNat < 0xe0 ∧ isContinuation b then
        some (point (a.toNat % 0x20 * 0x40 + continuation b), 1)
      else match t with
      | [] => none
      | c :: t =>
        if 0xe0 ≤ a.toNat ∧ a.toNat < 0xf0 ∧ isContinuation b ∧ isContinuation c ∧
            (a.toNat = 0xe0 → 0xa0 ≤ b.toNat) ∧ (a.toNat = 0xed → b.toNat < 0xa0) then
          some (point (a.toNat % 0x10 * 0x1000 + continuation b * 0x40 + continuation c), 2)
        else match t with
        | [] => none
        | d :: _ =>
          if 0xf0 ≤ a.toNat ∧ a.toNat < 0xf5 ∧ isContinuation b ∧ isContinuation c ∧
              isContinuation d ∧ (a.toNat = 0xf0 → 0x90 ≤ b.toNat) ∧
              (a.toNat = 0xf4 → b.toNat < 0x90) then
            some (point (a.toNat % 0x8 * 0x40000 + continuation b * 0x1000 +
              continuation c * 0x40 + continuation d), 3)
          else none

/-! ### Names -/

/-- `name.encode("utf-8", "surrogateescape")`; nothing for a `UnicodeEncodeError`. -/
def fsEncode : PyStr → Option Bytes
  | [] => some []
  | c :: s => (encodePoint c).bind fun b => (fsEncode s).map (b ++ ·)

/-- The rest of the name, the next `skip` bytes of which are read already. -/
def decodeFrom : Nat → Bytes → PyStr
  | _, [] => []
  | skip + 1, _ :: t => decodeFrom skip t
  | 0, a :: t =>
    match pointAt (a :: t) with
    | some (c, skip) => c :: decodeFrom skip t
    | none => point (0xdc00 + a.toNat) :: decodeFrom 0 t

/-- `name.decode("utf-8", "surrogateescape")`. -/
def fsDecode (b : Bytes) : PyStr := decodeFrom 0 b

private theorem toUInt8_eq {n : Nat} {a : UInt8} (h : n = a.toNat) : n.toUInt8 = a := by
  rw [h, Nat.toUInt8, UInt8.ofNat_toNat]

private theorem isContinuation_iff {b : UInt8} :
    isContinuation b = true ↔ 0x80 ≤ b.toNat ∧ b.toNat < 0xc0 := by
  simp [isContinuation, UInt8.le_iff_toNat_le, UInt8.lt_iff_toNat_lt]

private theorem val_point {n : Nat} (h : n < 0x110000) : (point n).val = n := Nat.mod_eq_of_lt h

/-- A character is spelled by the bytes it was read from. -/
theorem encodePoint_pointAt {a : UInt8} {t : Bytes} {c : CodePoint} {k : Nat}
    (h : pointAt (a :: t) = some (c, k)) :
    encodePoint c = some (a :: t.take k) := by
  have ha := a.toNat_lt
  rw [pointAt.eq_def] at h
  dsimp only at h
  split_ifs at h with h1
  · cases h
    rw [encodePoint, val_point (by omega), if_pos h1, toUInt8_eq rfl]
    rfl
  · cases t with
    | nil => cases h
    | cons b t =>
      dsimp only at h
      -- two bytes
      split_ifs at h with h2
      · cases h
        obtain ⟨hlo, hhi, hb⟩ := h2
        rw [isContinuation_iff] at hb
        unfold continuation
        rw [encodePoint, val_point (by omega), if_neg (by omega), if_pos (by omega),
          toUInt8_eq (a := a) (by omega), toUInt8_eq (a := b) (by omega)]
        rfl
      · cases t with
        | nil => cases h
        | cons d t =>
          dsimp only at h
          -- three bytes, no surrogate and none that two would hold
          split_ifs at h with h3
          · cases h
            obtain ⟨hlo, hhi, hb, hd, hover, hsurr⟩ := h3
            rw [isContinuation_iff] at hb hd
            unfold continuation
            rw [encodePoint, val_point (by omega), if_neg (by omega), if_neg (by omega),
              if_pos (by omega), toUInt8_eq (a := a) (by omega), toUInt8_eq (a := b) (by omega),
              toUInt8_eq (a := d) (by omega)]
            rfl
          · cases t with
            | nil => cases h
            | cons e t =>
              dsimp only at h
              -- four bytes
              split_ifs at h with h4
              cases h
              obtain ⟨hlo, hhi, hb, hd, he, hover, htop⟩ := h4
              rw [isContinuation_iff] at hb hd he
              unfold continuation
              rw [encodePoint, val_point (by omega), if_neg (by omega), if_neg (by omega),
                if_neg (by omega), if_neg (by omega), toUInt8_eq (a := a) (by omega),
                toUInt8_eq (a := b) (by omega), toUInt8_eq (a := d) (by omega),
                toUInt8_eq (a := e) (by omega)]
              rfl

/-- An escaped byte is that byte again. -/
theorem encodePoint_escaped {a : UInt8} (h : 0x80 ≤ a.toNat) :
    encodePoint (point (0xdc00 + a.toNat)) = some [a] := by
  have ha := a.toNat_lt
  rw [encodePoint, val_point (by omega), if_neg (by omega), if_neg (by omega), if_neg (by omega),
    if_pos (by omega), if_pos (by omega), toUInt8_eq (a := a) (by omega)]

private theorem fsEncode_decodeFrom (b : Bytes) (k : Nat) :
    fsEncode (decodeFrom k b) = some (b.drop k) := by
  induction b generalizing k with
  | nil => cases k <;> rfl
  | cons a t ih =>
    cases k with
    | succ k => exact ih k
    | zero =>
      rw [decodeFrom]
      cases hp : pointAt (a :: t) with
      | none =>
        have ha : 0x80 ≤ a.toNat := by
          by_contra hlt
          rw [pointAt.eq_def] at hp
          dsimp only at hp
          rw [if_pos (by omega)] at hp
          cases hp
        dsimp only
        rw [fsEncode, encodePoint_escaped ha, ih 0]
        rfl
      | some p =>
        dsimp only
        rw [fsEncode, encodePoint_pointAt hp, ih p.2]
        simp

/-- A name survives the way to a string and back. -/
theorem fsEncode_fsDecode (b : Bytes) : fsEncode (fsDecode b) = some b :=
  fsEncode_decodeFrom b 0

theorem fsDecode_injective : Function.Injective fsDecode := fun a b h =>
  Option.some.inj (by rw [← fsEncode_fsDecode a, h, fsEncode_fsDecode b])

private theorem ne_toUInt8 {n : Nat} {a : UInt8} (h : n % 0x100 ≠ a.toNat) : a ≠ n.toUInt8 := by
  intro heq
  have := congrArg UInt8.toNat heq
  rw [Nat.toUInt8, UInt8.toNat_ofNat'] at this
  exact h this.symm

/-- Only an ASCII character has its byte. -/
theorem point_of_ascii_mem {c : CodePoint} {b : Bytes} {a : UInt8} (ha : a.toNat < 0x80)
    (h : encodePoint c = some b) (hmem : a ∈ b) : c = point a.toNat := by
  have hc := c.isLt
  rw [encodePoint] at h
  split_ifs at h with h1 h2 h3 h4 h5
  all_goals
    cases h
    simp only [List.mem_cons, List.not_mem_nil, or_false] at hmem
  · by_contra hne
    have : c.val ≠ a.toNat := fun hz => hne (Fin.ext (by rw [val_point (by omega), hz]))
    exact ne_toUInt8 (by omega) hmem
  · rcases hmem with h | h <;> exact absurd h (ne_toUInt8 (by omega))
  · rcases hmem with h | h | h <;> exact absurd h (ne_toUInt8 (by omega))
  · exact absurd hmem (ne_toUInt8 (by omega))
  · rcases hmem with h | h | h | h <;> exact absurd h (ne_toUInt8 (by omega))

/-- An ASCII byte is in a name exactly when its character is. -/
theorem ascii_mem_of_fsEncode {s : PyStr} {b : Bytes} {a : UInt8} (ha : a.toNat < 0x80)
    (h : fsEncode s = some b) : a ∈ b ↔ point a.toNat ∈ s := by
  induction s generalizing b with
  | nil =>
    cases h
    simp
  | cons c s ih =>
    rw [fsEncode, Option.bind_eq_some_iff] at h
    obtain ⟨front, hfront, h⟩ := h
    obtain ⟨rest, hrest, rfl⟩ := Option.map_eq_some_iff.mp h
    rw [List.mem_append, ih hrest, List.mem_cons]
    refine or_congr_left ⟨fun hmem => (point_of_ascii_mem ha hfront hmem).symm, ?_⟩
    rintro rfl
    rw [encodePoint, val_point (by omega), if_pos ha, toUInt8_eq rfl] at hfront
    cases hfront
    exact List.mem_cons_self

end PyStr

end CoordinatorCore
