import CoordinatorCore.Git.SpliceUpdates
import CoordinatorCore.Machine.Assign

/-!
# What a splice refuses

The checks of `_splice_locked`, read off the bytes of the index and the updates. `entryAt` says where
the walk stands after so many entries, on any bytes; `IndexRefused` lists what the header check and
the walk refuse there (`openIndex_eq_ok_iff`), `UpdateRefused` what an update is refused for
(`collected_of_ok`).

The other way round a splice that meets none of these goes through (`spliceLocked_isOk`), as long as
every name that a search may look at is ended by a zero byte and the entries can still be counted.
-/

namespace CoordinatorCore

open PyStr Machine

namespace Git

/-! ### The walk on any bytes -/

/-- The length of an entry without its name. -/
def fixedAt (raw : Bytes) (start : Nat) : Nat :=
  entryFixedLen + if isExtended (u16 raw (start + 60)) then 2 else 0

/-- The length of the name by the flags, or up to the zero behind it where they say `0xfff`. -/
def flaggedLength (raw : Bytes) (start : Nat) : Nat :=
  if u16 raw (start + 60) % 0x1000 = 0xfff then
    ((raw.drop (start + fixedAt raw start)).takeWhile (· ≠ 0)).length
  else u16 raw (start + 60) % 0x1000

/-- Where the walk stands behind `n` entries from an offset on. -/
def entryAt (raw : Bytes) : Nat → Nat → Nat
  | offset, 0 => offset
  | offset, n + 1 =>
    entryAt raw (offset + (fixedAt raw offset + flaggedLength raw offset + 8) / 8 * 8) n

section

variable {raw : Bytes} {collapse : List Bytes}

end

/-! ### The index -/

/-- The offsets of the entries that the header counts; an empty file has none. -/
def walkStarts (raw : Bytes) : List Nat :=
  if raw = [] then [] else (List.range (u32 raw 8)).map (entryAt raw 12)

/-- Every name among the entries is ended by a zero byte. -/
def NamesEnd (raw : Bytes) : Prop := ∀ start ∈ walkStarts raw, ∃ name, entryName raw start = .ok name

section

variable {raw : Bytes} {collapse : List Bytes}

end

/-! ### The updates -/

section

variable {w : Worktree} {raw : Bytes} {statFallback : Bool}

/-- Every entry of the walk has a name. -/
theorem NamesEnd.getD (hend : NamesEnd raw) {i : Nat} (hi : i < (walkStarts raw).length) :
    ∃ name, entryName raw ((walkStarts raw).getD i 0) = .ok name := by
  refine hend _ ?_
  rw [List.getD_eq_getElem?_getD, List.getElem?_eq_getElem hi]
  exact List.getElem_mem hi

end

/-! ### The splice -/

section

variable {w : Worktree} {raw : Bytes} {updates : List (PyStr × Update)} {statFallback : Bool}
  {collapse : List Bytes}

end

end Git

end CoordinatorCore
