import CoordinatorCore.Machine.Table
import CoordinatorCore.Text.SurrogateEscape
import Mathlib.Data.Finset.Basic

/-!
# Reading the index

`git/git_index.py`: the index is a header, then the entries, each with a fixed part, its name up to
a zero byte, and padding. One walk reads it. A caller that is about a few paths passes them as a
scope, and the walk leaves out what is outside of it and stops where nothing inside can follow.
-/

namespace CoordinatorCore

open PyStr

namespace Git

/-! ### Bytes -/

/-- The number that bytes spell, the highest first. -/
def bigEndian (b : Bytes) : Nat := b.foldl (fun n x => n * 0x100 + x.toNat) 0

/-- `raw[i : i + n]`. -/
def slice (raw : Bytes) (i n : Nat) : Bytes := (raw.drop i).take n

/-- `struct.unpack(">I", raw[i : i + 4])`. -/
def u32 (raw : Bytes) (i : Nat) : Nat := bigEndian (slice raw i 4)

/-- `struct.unpack(">H", raw[i : i + 2])`. -/
def u16 (raw : Bytes) (i : Nat) : Nat := bigEndian (slice raw i 2)

def hexDigit (n : Nat) : Char := if n < 10 then Char.ofNat (0x30 + n) else Char.ofNat (0x57 + n)

/-- `b.hex()`. -/
def hex (b : Bytes) : Text := b.flatMap fun x => [hexDigit (x.toNat / 16), hexDigit (x.toNat % 16)]

/-- `b"/"` -/
def slashByte : UInt8 := 0x2f

/-! ### Entries -/

/-- What a read of the index raises: `IndexV4Unsupported` is `v4`, the others are
`IndexParseError`. A scope that has no bytes raises `UnicodeEncodeError`. -/
inductive ReadError
  | truncatedHeader (size : Nat)
  | badSignature (signature : Bytes)
  | v4
  | unsupportedVersion (version : Nat)
  | truncatedEntry (offset : Nat)
  | extendedBit (version : Nat)
  | truncatedFlags (offset : Nat)
  | unterminatedName (offset : Nat)
  | nameLength (start field found : Nat)
  | unmerged (name : Bytes) (stage : Nat)
  | noBytes
  deriving DecidableEq

/-- `_SIGNATURE`. -/
def signature : Bytes := [0x44, 0x49, 0x52, 0x43]

/-- `_ENTRY_FIXED_LEN`. -/
def entryFixedLen : Nat := 62

/-- `flags & 0x4000`, of the flags of an entry. -/
def isExtended (flags : Nat) : Bool := flags / 0x4000 % 2 = 1

/-- `(flags >> 12) & 0x3`. -/
def stageOf (flags : Nat) : Nat := flags / 0x1000 % 4

/-- Where an entry starts, its two flag words, and its name. -/
structure RawEntry where
  start : Nat
  flags : Nat
  xflags : Nat
  name : Bytes
  deriving DecidableEq

def RawEntry.stage (e : RawEntry) : Nat := stageOf e.flags

/-- Where the name of an entry starts, behind the extended flags. -/
def nameStart (raw : Bytes) (version start flags : Nat) : Except ReadError Nat :=
  if isExtended flags then
    if version < 3 then throw (.extendedBit version)
    else if raw.length < start + entryFixedLen + 2 then
      throw (.truncatedFlags (start + entryFixedLen))
    else pure (start + entryFixedLen + 2)
  else pure (start + entryFixedLen)

/-- The entry at an offset, with the offset behind its padding. -/
def readEntry (raw : Bytes) (version start : Nat) : Except ReadError (RawEntry × Nat) :=
  if raw.length < start + entryFixedLen then throw (.truncatedEntry start)
  else do
    let flags := u16 raw (start + 60)
    let offset ← nameStart raw version start flags
    let xflags := if isExtended flags then u16 raw (start + entryFixedLen) else 0
    let name := (raw.drop offset).takeWhile (· ≠ 0)
    if 0 ∉ raw.drop offset then throw (.unterminatedName offset)
    else if flags % 0x1000 ≠ 0xfff ∧ name.length ≠ flags % 0x1000 then
      throw (.nameLength start (flags % 0x1000) name.length)
    else
      let entryLen := offset - start + name.length + 1
      pure (⟨start, flags, xflags, name⟩, offset + name.length + 1 + (8 - entryLen % 8) % 8)

/-- The flags of `IndexFlaggedIdentity`. -/
structure Flags where
  assumeValid : Bool
  skipWorktree : Bool
  intentToAdd : Bool
  deriving DecidableEq

/-- `IndexIdentity`, or `IndexFlaggedIdentity`. -/
structure IndexIdentity where
  mode : Nat
  sha : Text
  size : Nat
  mtime : Nat
  mtimeNsec : Nat
  flags : Option Flags
  deriving DecidableEq

/-- What the map says of an entry. -/
def RawEntry.identity (raw : Bytes) (withFlags : Bool) (e : RawEntry) : IndexIdentity where
  mode := u32 raw (e.start + 24)
  sha := hex (slice raw (e.start + 40) 20)
  size := u32 raw (e.start + 36)
  mtime := u32 raw (e.start + 8)
  mtimeNsec := u32 raw (e.start + 12)
  flags :=
    if withFlags then
      some ⟨e.flags / 0x8000 % 2 = 1, e.xflags / 0x4000 % 2 = 1, e.xflags / 0x2000 % 2 = 1⟩
    else none

/-! ### Scopes -/

/-- `max(names)`. -/
def latest : List Bytes → Option Bytes
  | [] => none
  | b :: bs =>
    match latest bs with
    | none => some b
    | some m => some (if m < b then b else m)

/-- What a walk is about: the names, the prefixes and their bound. -/
structure Scope where
  wanted : Option (List Bytes)
  prefixed : Bool
  prefixAll : Bool
  exact : List Bytes
  sortExit : Option Bytes

/-- `p.encode("utf-8", "surrogateescape")` of every path, when paths are given. -/
def encodeAll : Option (List PyStr) → Except ReadError (Option (List Bytes))
  | none => .ok none
  | some paths =>
    match paths.mapM fsEncode with
    | some names => .ok (some names)
    | none => .error .noBytes

/-- The scope of the wanted names and the prefixes without their trailing slashes; nothing where
the call returns `{}` at once. -/
def scopeOfNames (wanted prefixes : Option (List Bytes)) : Option Scope :=
  match prefixes with
  | none =>
    if wanted = some [] then none
    else some ⟨wanted, false, false, [], latest ((wanted.getD []).map (· ++ [0]))⟩
  | some dirs =>
    let exact := (dirs.filter (· ≠ [])).dedup
    if dirs = [] ∧ wanted.getD [] = [] then none
    else if [] ∈ dirs then some ⟨wanted, true, true, exact, none⟩
    else some ⟨wanted, true, false, exact,
      latest (exact.map (· ++ [0x30]) ++ (wanted.getD []).map (· ++ [0]))⟩

/-- The scope of a call. -/
def scopeOf (wanted prefixes : Option (List PyStr)) : Except ReadError (Option Scope) := do
  let names ← encodeAll wanted
  let dirs ← encodeAll prefixes
  return scopeOfNames (names.map List.dedup) (dirs.map (·.map (List.rdropWhile (· = slashByte))))

/-- The walk is past everything the scope is about. -/
def Scope.past (s : Scope) (name : Bytes) : Bool :=
  match s.sortExit with
  | none => false
  | some bound => decide (bound ≤ name)

/-- The walk is about this name. -/
def Scope.selects (s : Scope) (name : Bytes) : Bool :=
  if s.prefixed then
    s.prefixAll || decide (name ∈ s.exact) || s.exact.any (fun p => (p ++ [slashByte]).isPrefixOf name)
      || decide (name ∈ s.wanted.getD [])
  else match s.wanted with
  | none => true
  | some names => decide (name ∈ names)

/-- Every wanted name has been found. -/
def Scope.complete (s : Scope) (found : Nat) : Bool :=
  match s.wanted with
  | none => false
  | some names => !s.prefixed && found = names.length

/-! ### The walk -/

/-- What the walk collects. -/
structure Found where
  entries : Table PyStr IndexIdentity
  unmerged : Finset PyStr
  deriving DecidableEq

/-- The loop, with `count` entries left from `offset` on. An unmerged entry is collected or
raises. -/
def walk (raw : Bytes) (version : Nat) (withFlags collect : Bool) (scope : Scope) :
    Nat → Nat → Found → Except ReadError Found
  | 0, _, found => .ok found
  | count + 1, offset, found => do
    let (e, next) ← readEntry raw version offset
    if scope.past e.name then return found
    if !scope.selects e.name then walk raw version withFlags collect scope count next found
    else if e.stage ≠ 0 then
      if collect then
        walk raw version withFlags collect scope count next
          { found with unmerged := insert (fsDecode e.name) found.unmerged }
      else throw (.unmerged e.name e.stage)
    else
      let found := { found with
        entries := found.entries.set (fsDecode e.name) (e.identity raw withFlags) }
      if scope.complete found.entries.keys.length then return found
      walk raw version withFlags collect scope count next found

/-- The header: the version and the number of entries. -/
def readHeader (raw : Bytes) : Except ReadError (Nat × Nat) := do
  if raw.length < 12 then throw (.truncatedHeader raw.length)
  if raw.take 4 ≠ signature then throw (.badSignature (raw.take 4))
  let version := u32 raw 4
  if version = 4 then throw .v4
  if version ≠ 2 ∧ version ≠ 3 then throw (.unsupportedVersion version)
  return (version, u32 raw 8)

/-- `_parse_index_bytes`: the entries of the scope, and the set the caller passed with the unmerged
names of the scope added. -/
def parseIndexBytes (raw : Bytes) (wanted prefixes : Option (List PyStr)) (withFlags : Bool)
    (unmergedOut : Option (Finset PyStr)) : Except ReadError Found := do
  let (version, count) ← readHeader raw
  match ← scopeOf wanted prefixes with
  | none => return ⟨∅, unmergedOut.getD ∅⟩
  | some scope =>
    walk raw version withFlags unmergedOut.isSome scope count 12 ⟨∅, unmergedOut.getD ∅⟩

end Git

end CoordinatorCore
