import CoordinatorCore.Git.Splice
import CoordinatorCore.Machine.Stream
import Mathlib.Data.List.Sort
import Mathlib.Algebra.GroupWithZero.Nat

/-!
# Packs, written and read

`git/git_objects.py`: `_build_pack` writes objects as a pack and its index, and the readers parse
the index, look up a sha in it, and read the object at an offset of the pack. What is written is
read back, and no other sha is found, as long as the last object starts below 2 ^ 31.
-/

namespace CoordinatorCore

open Machine PyStr

namespace Git

namespace PackFile

/-! ### Names -/

/-- A sha as its twenty bytes. -/
abbrev RawSha := { b : Bytes // b.length = 20 }

/-- `raw_sha[0]`. -/
def RawSha.first (s : RawSha) : Nat := (s.val.headD 0).toNat

/-- The kinds of objects. -/
inductive Kind
  | commit
  | tree
  | blob
  | tag
  deriving DecidableEq

/-- `_PACK_TYPE_NUMS`. -/
def Kind.num : Kind → Nat
  | commit => 1
  | tree => 2
  | blob => 3
  | tag => 4

def Kind.name : Kind → Text
  | commit => "commit".toList
  | tree => "tree".toList
  | blob => "blob".toList
  | tag => "tag".toList

/-- `_PACK_TYPE_NUMS.get`. -/
def packTypeNum (name : Text) : Option Nat :=
  ([.commit, .tree, .blob, .tag].find? fun k => Kind.name k = name).map Kind.num

/-! ### Writing -/

/-- The bytes of a size: seven bits a byte behind the first, and a mark where more follow. -/
def entryHeader (first size : Nat) : Bytes :=
  if size = 0 then [first.toUInt8]
  else (first + 0x80).toUInt8 :: entryHeader (size % 0x80) (size / 0x80)
termination_by size
decreasing_by omega

section

variable {ζ : Type*} (Z : Codec UInt8 ζ) (sha1 : Bytes → Bytes) (crc32 : Bytes → Nat)

/-- `_pack_entry`. -/
def packEntry (kind : Kind) (payload : Bytes) : Bytes :=
  entryHeader (kind.num * 0x10 + payload.length % 0x10) (payload.length / 0x10) ++
    Z.compress payload

/-- `(raw sha, pack entry bytes, entry crc32)`. -/
structure PackEntry where
  sha : RawSha
  bytes : Bytes
  crc : Nat

/-- The entries of the objects that are queued, by their shas. -/
def packEntries (pending : Table RawSha (Kind × Bytes)) : List PackEntry :=
  pending.entries.map fun e =>
    ⟨e.1, packEntry Z e.2.1 e.2.2, crc32 (packEntry Z e.2.1 e.2.2)⟩

/-- `sorted(entries)`: no two entries have one sha. -/
def sortEntries (entries : List PackEntry) : List PackEntry :=
  entries.insertionSort fun a b => a.sha.val ≤ b.sha.val

/-- The entries behind what is written, and where each one starts. -/
def appendEntries : Bytes → List PackEntry → Bytes × List Nat
  | out, [] => (out, [])
  | out, e :: es =>
    let (written, offsets) := appendEntries (out ++ e.bytes) es
    (written, out.length :: offsets)

/-- `running`. -/
def runningSums : Nat → List Nat → List Nat
  | _, [] => []
  | running, count :: counts => (running + count) :: runningSums (running + count) counts

/-- `b"PACK"`, the version, and the number of objects. -/
def packHeader (count : Nat) : Bytes := [0x50, 0x41, 0x43, 0x4b] ++ be32 2 ++ be32 count

/-- The index up to the sum of the pack. -/
def idxTables (entries : List PackEntry) (offsets : List Nat) : Bytes :=
  let fanout := (List.range 0x100).map fun b => entries.countP fun e => e.sha.first = b
  [0xff, 0x74, 0x4f, 0x63] ++ be32 2 ++ (runningSums 0 fanout).flatMap be32 ++
    entries.flatMap (fun e => e.sha.val) ++ entries.flatMap (fun e => be32 e.crc) ++
    offsets.flatMap be32

/-- `_assemble_pack`. -/
def assemblePack (entries : List PackEntry) : Bytes × Bytes × Text :=
  let entries := sortEntries entries
  let (out, offsets) := appendEntries (packHeader entries.length) entries
  let packSum := sha1 out
  let idx := idxTables entries offsets ++ packSum
  (out ++ packSum, idx ++ sha1 idx, hex packSum)

/-- `_PACK_OFFSET_LIMIT`. -/
def packOffsetLimit : Nat := 0x7fffffff

/-- `_flush_pack` packs these entries, and does not write the objects one by one. -/
def Accepted (entries : List PackEntry) : Prop :=
  ¬ packOffsetLimit ≤ (entries.map fun e => e.bytes.length).sum

instance (entries : List PackEntry) : Decidable (Accepted entries) :=
  inferInstanceAs (Decidable (¬ _))

/-! ### Reading -/

/-- What a read raises: `structError`, `indexError` and `zlibError` come from the host, the others
are `_GitReadModelError`. -/
inductive PackError
  | structError
  | indexError
  | zlibError
  | truncated
  | depth
  | underflow (offset : Int)
  | baseMissing (sha : Text)
  | baseType (name : Text)
  | opcodeZero
  deriving DecidableEq

/-- `struct.unpack` of one number. -/
def unpack (data : Bytes) (pos size : Nat) : Except PackError Nat :=
  if (slice data pos size).length = size then .ok (bigEndian (slice data pos size))
  else .error .structError

/-- `_PackIndex`, with its `_LazyOffsets`. -/
structure PackIndex where
  fanout : List Nat
  shas : Bytes
  data : Bytes
  tablePos : Nat
  count : Nat

/-- `_LazyOffsets.__getitem__`. -/
def PackIndex.offset (p : PackIndex) (i : Nat) : Except PackError Nat :=
  if i < p.count then do
    let raw ← unpack p.data (p.tablePos + i * 4) 4
    if 0x80000000 ≤ raw then
      unpack p.data (p.tablePos + p.count * 4 + raw % 0x80000000 * 8) 8
    else .ok raw
  else .error .indexError

/-- `_parse_pack_index_uncached`. -/
def parsePackIndex (data : Bytes) : Except PackError (Option PackIndex) :=
  if 8 ≤ data.length ∧ data.take 4 = [0xff, 0x74, 0x4f, 0x63] ∧ u32 data 4 = 2 then
    if (slice data 8 0x400).length = 0x400 then
      let fanout := (List.range 0x100).map fun b => u32 data (8 + b * 4)
      let count := u32 data (8 + 0xff * 4)
      let shas := slice data (8 + 0x400) (count * 20)
      let tablePos := 8 + 0x400 + count * 20 + count * 4
      if data.length < tablePos + count * 4 then .ok none
      else .ok (some ⟨fanout, shas, data, tablePos, count⟩)
    else .error .structError
  else .ok none

/-- How two shas compare. -/
def compareSha (a b : Bytes) : Ordering := if a = b then .eq else if a < b then .lt else .gt

/-- `_pack_index_find`. -/
def packIndexFind (p : PackIndex) (shaHex : Text) : Except PackError (Option Nat) :=
  match fromHex shaHex with
  | none => .ok none
  | some target =>
    if target.length ≠ 20 then .ok none
    else
      let first := (target.headD 0).toNat
      let lo := if 0 < first then p.fanout.getD (first - 1) 0 else 0
      let hi := p.fanout.getD first 0
      match bisectFind (fun mid => compareSha (slice p.shas (mid * 20) 20) target) (hi - lo) lo hi
      with
      | none => .ok none
      | some mid => (p.offset mid).map some

/-- The rest of a size, and what stands behind it. -/
def readSize (byte usize shift : Nat) (rest : Bytes) : Option (Nat × Bytes) :=
  if byte < 0x80 then some (usize, rest)
  else match rest with
    | [] => none
    | b :: rest => readSize b.toNat (usize + b.toNat % 0x80 * 2 ^ shift) (shift + 7) rest

/-- `_delta_read_size`. -/
def deltaReadSize (result shift : Nat) : Bytes → Option (Nat × Bytes)
  | [] => none
  | b :: rest =>
    if b < 0x80 then some (result + b.toNat % 0x80 * 2 ^ shift, rest)
    else deltaReadSize (result + b.toNat % 0x80 * 2 ^ shift) (shift + 7) rest

/-- A byte that an opcode asks for. -/
def deltaByte (asked : Bool) (delta : Bytes) : Option (Nat × Bytes) :=
  if asked then
    match delta with
    | [] => none
    | b :: rest => some (b.toNat, rest)
  else some (0, delta)

/-- The opcodes of a delta; each of them takes a byte at least. -/
def applyOps (base : Bytes) : Nat → Bytes → Bytes → Except PackError Bytes
  | 0, _, out => .ok out
  | _ + 1, [], out => .ok out
  | fuel + 1, op :: delta, out =>
    let bit (k : Nat) : Bool := op.toNat / 2 ^ k % 2 = 1
    if bit 7 then
      match (do
        let (o₀, delta) ← deltaByte (bit 0) delta
        let (o₁, delta) ← deltaByte (bit 1) delta
        let (o₂, delta) ← deltaByte (bit 2) delta
        let (o₃, delta) ← deltaByte (bit 3) delta
        let (s₀, delta) ← deltaByte (bit 4) delta
        let (s₁, delta) ← deltaByte (bit 5) delta
        let (s₂, delta) ← deltaByte (bit 6) delta
        let size := s₀ + s₁ * 0x100 + s₂ * 0x10000
        some (slice base (o₀ + o₁ * 0x100 + o₂ * 0x10000 + o₃ * 0x1000000)
          (if size = 0 then 0x10000 else size), delta)) with
      | none => .error .indexError
      | some (copied, delta) => applyOps base fuel delta (out ++ copied)
    else if op ≠ 0 then
      applyOps base fuel (delta.drop op.toNat) (out ++ delta.take op.toNat)
    else .error .opcodeZero

/-- `_apply_git_delta`. -/
def applyGitDelta (base delta : Bytes) : Except PackError Bytes :=
  match deltaReadSize 0 0 delta with
  | none => .error .indexError
  | some (_, delta) =>
    match deltaReadSize 0 0 delta with
    | none => .error .indexError
    | some (_, delta) => applyOps base delta.length delta []

/-- `_zlib_decompress_bounded`, from the bytes behind the position: a window of them is fed, and
then twice as many. -/
def inflateLoop (z : ζ) (out : Bytes) (window : Nat) (rest : Bytes) : Except PackError Bytes :=
  if rest.take window = [] then .error .truncated
  else
    match Z.decompress z (rest.take window) with
    | none => .error .zlibError
    | some (z, b) =>
      if Z.eof z then .ok (out ++ b)
      else inflateLoop z (out ++ b) (window * 2) (rest.drop window)
termination_by rest.length
decreasing_by
  have hne : ¬ rest.take window = [] := by assumption
  rw [List.take_eq_nil_iff, not_or] at hne
  have := List.length_pos_iff.mpr hne.2
  rw [List.length_drop]
  omega

def zlibDecompressBounded (rest : Bytes) (sizeHint : Nat) : Except PackError Bytes :=
  inflateLoop Z Z.start [] (if sizeHint = 0 then 4096 else max 64 (sizeHint + 64)) rest

/-- The relative offset of a base, and what stands behind it. -/
def readBaseOffset (byte result : Nat) (rest : Bytes) : Option (Nat × Bytes) :=
  if byte < 0x80 then some (result, rest)
  else match rest with
    | [] => none
    | b :: rest => readBaseOffset b.toNat ((result + 1) * 0x80 + b.toNat % 0x80) rest

/-- `_read_pack_object_at`, with the number of levels that are left; `readObject` is `_read_object`
for the base of a delta that names its base. -/
def readPackObjectAt (readObject : Text → Option (Text × Bytes)) (pack : Bytes) :
    Nat → Nat → Except PackError (Nat × Bytes)
  | 0, _ => .error .depth
  | levels + 1, offset =>
    match pack.drop offset with
    | [] => .error .indexError
    | first :: rest =>
      match readSize first.toNat (first.toNat % 0x10) 4 rest with
      | none => .error .indexError
      | some (usize, rest) =>
        let typeNum := first.toNat / 0x10 % 8
        if typeNum = 6 then
          match rest with
          | [] => .error .indexError
          | byte :: rest =>
            match readBaseOffset byte.toNat (byte.toNat % 0x80) rest with
            | none => .error .indexError
            | some (relative, rest) =>
              if offset < relative then .error (.underflow ((offset : Int) - relative))
              else do
                let delta ← zlibDecompressBounded Z rest usize
                let base ← readPackObjectAt readObject pack levels (offset - relative)
                let content ← applyGitDelta base.2 delta
                .ok (base.1, content)
        else if typeNum = 7 then do
          let delta ← zlibDecompressBounded Z (rest.drop 20) usize
          match readObject (hex (rest.take 20)) with
          | none => .error (.baseMissing (hex (rest.take 20)))
          | some (name, base) =>
            match packTypeNum name with
            | none => .error (.baseType name)
            | some num => do
              let content ← applyGitDelta base delta
              .ok (num, content)
        else do
          let content ← zlibDecompressBounded Z rest usize
          .ok (typeNum, content)

/-- `_MAX_DELTA_DEPTH`, and the object itself. -/
def maxLevels : Nat := 201

end

end PackFile

end Git

end CoordinatorCore
