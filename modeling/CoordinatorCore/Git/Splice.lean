import CoordinatorCore.Git.IndexEntry
import CoordinatorCore.Machine.Bisect

/-!
# Splicing into the index

`git/index_write.py`, `_splice_locked`: the entries that no update names keep their bytes, the
others are built anew. The entries and the updates are both sorted by name; one pass over the
updates finds the place of each by bisection, and copies what lies between two of them.
-/

namespace CoordinatorCore

open PyStr Machine

namespace Git

/-- What a splice raises: `IndexWriteError`, but for the last four, which are `ValueError`,
`UnicodeEncodeError` and `struct.error`. -/
inductive SpliceError
  | notDirc
  | version (v : Nat)
  | truncated (offset : Nat)
  | unmerged
  | unterminated (offset : Nat)
  | absolutePath (path : PyStr)
  | cannotStat (path : PyStr)
  | badSha (name : Bytes)
  | noUpdate (name : Bytes)
  | noZero
  | badHex
  | noBytes
  | outOfRange
  deriving DecidableEq

/-! ### Looking into the index -/

/-- `raw[start + 60] & 0x40`. -/
def extendedAt (raw : Bytes) (start : Nat) : Bool := (raw.getD (start + 60) 0).toNat / 0x40 % 2 = 1

/-- `_name_offset`. -/
def nameOffset (raw : Bytes) (start : Nat) : Nat :=
  start + entryFixedLen + if extendedAt raw start then 2 else 0

/-- `_entry_name`. -/
def entryName (raw : Bytes) (start : Nat) : Except SpliceError Bytes :=
  let rest := raw.drop (nameOffset raw start)
  if 0 ∈ rest then .ok (rest.takeWhile (· ≠ 0)) else .error .noZero

/-- An unmerged entry stays in the walk when its name is to be collapsed. -/
def checkStage (raw : Bytes) (collapse : List Bytes) (offset : Nat) : Except SpliceError Unit :=
  if stageOf (u16 raw (offset + 60)) = 0 then .ok ()
  else if collapse = [] then .error .unmerged
  else do
    let name ← entryName raw offset
    if name ∈ collapse then pure () else throw .unmerged

/-- The length of a name that starts at an offset, by the flags or by the zero behind it. -/
def nameLength (raw : Bytes) (start nameAt : Nat) : Except SpliceError Nat :=
  let field := u16 raw (start + 60) % 0x1000
  if field = 0xfff then
    if 0 ∈ raw.drop nameAt then .ok ((raw.drop nameAt).takeWhile (· ≠ 0)).length
    else .error (.unterminated start)
  else .ok field

/-- `_walk_entries`, with so many entries left. -/
def walkEntries (raw : Bytes) (collapse : List Bytes) :
    Nat → Nat → Except SpliceError (List Nat × Nat)
  | 0, offset => if raw.length < offset then .error (.truncated offset) else .ok ([], offset)
  | count + 1, offset =>
    if raw.length < offset + entryFixedLen then .error (.truncated offset)
    else do
      checkStage raw collapse offset
      let fixed := entryFixedLen + if isExtended (u16 raw (offset + 60)) then 2 else 0
      if raw.length < offset + fixed then throw (.truncated offset)
      else do
        let nameLen ← nameLength raw offset (offset + fixed)
        let rest ← walkEntries raw collapse count (offset + (fixed + nameLen + 8) / 8 * 8)
        pure (offset :: rest.1, rest.2)

/-! ### Building an entry -/

/-- `os.stat_result`, as far as an entry records it. -/
structure Stat where
  ctime : Int
  ctimeNs : Int
  mtime : Int
  mtimeNs : Int
  dev : Nat
  ino : Nat
  uid : Nat
  gid : Nat
  size : Nat

/-- `_ZERO_STAT`. -/
def zeroStat : Stat := ⟨0, 0, 0, 0, 0, 0, 0, 0, 0⟩

/-- What a splice asks about the worktree: the `stat` of a file, whether it exists, and
`_worktree_matches_blob`; and `str.isalpha`. A path with a zero in it raises. -/
structure Worktree where
  stat : PyStr → Option Stat
  fileExists : PyStr → Bool
  matchesBlob : PyStr → Int → Text → Bool
  isAlpha : CodePoint → Bool

def isHexSpace (c : Char) : Bool := c.toNat = 0x20 || (0x09 ≤ c.toNat && c.toNat ≤ 0x0d)

def hexValue (c : Char) : Option Nat :=
  if '0' ≤ c ∧ c ≤ '9' then some (c.toNat - 0x30)
  else if 'a' ≤ c ∧ c ≤ 'f' then some (c.toNat - 0x57)
  else if 'A' ≤ c ∧ c ≤ 'F' then some (c.toNat - 0x37)
  else none

/-- `bytes.fromhex`: white space may stand between two bytes. -/
def fromHex : Text → Option Bytes
  | [] => some []
  | c :: s =>
    if isHexSpace c then fromHex s
    else match s with
    | [] => none
    | d :: s => do
      let hi ← hexValue c
      let lo ← hexValue d
      let rest ← fromHex s
      pure ((hi * 16 + lo).toUInt8 :: rest)

/-- `struct.pack(">I", n)`. -/
def pack32 (n : Int) : Except SpliceError Bytes :=
  if 0 ≤ n ∧ n < 0x100000000 then .ok (be32 n.toNat) else .error .outOfRange

/-- `_build_entry`. -/
def buildEntry (name : Bytes) (mode : Int) (shaHex : Text) (st : Stat) :
    Except SpliceError Bytes :=
  match fromHex shaHex with
  | none => .error .badHex
  | some sha =>
    if sha.length ≠ 20 then .error (.badSha name)
    else do
      let ctime ← pack32 st.ctime
      let mtime ← pack32 st.mtime
      let mode ← pack32 mode
      let fixed := ctime ++ be32 (st.ctimeNs % 1000000000).toNat ++ mtime ++
        be32 (st.mtimeNs % 1000000000).toNat ++ be32 (st.dev % 0x100000000) ++
        be32 (st.ino % 0x100000000) ++ mode ++ be32 (st.uid % 0x100000000) ++
        be32 (st.gid % 0x100000000) ++ be32 (st.size % 0x100000000) ++ sha ++
        be16 (min name.length 0xfff)
      let out := fixed ++ name ++ [0]
      pure (out ++ List.replicate ((8 - out.length % 8) % 8) 0)

/-! ### The updates -/

/-- `ABSENT`, `DROP_IF_PHANTOM_INTENT_TO_ADD`, or a mode and a hash. -/
inductive Update
  | absent
  | dropIfPhantom
  | entry (mode : Int) (sha : Text)
  deriving DecidableEq

def slashPoint : CodePoint := 0x2f

def backslashPoint : CodePoint := 0x5c

/-- `path.replace("\\", "/")`. -/
def normalized (path : PyStr) : PyStr :=
  path.map fun c => if c = backslashPoint then slashPoint else c

/-- A path that starts at the root or with a drive. -/
def isAbsolutePath (w : Worktree) (path : PyStr) : Bool :=
  match path with
  | c :: s => c = slashPoint || (match s with
    | d :: _ => d = (0x3a : CodePoint) && w.isAlpha c
    | [] => false)
  | [] => false

/-- `_entry_name(raw, starts[i])` against a key, `bisect_left`'s question. -/
def nameBefore (raw : Bytes) (starts : List Nat) (key : Bytes) (i : Nat) :
    Except SpliceError Bool := do
  let name ← entryName raw (starts.getD i 0)
  pure (decide (name < key))

/-- `bisect.bisect_left(starts, key, lo=lo, key=name_at)`. -/
def bisectLeft (raw : Bytes) (starts : List Nat) (key : Bytes) (lo : Nat) :
    Except SpliceError Nat :=
  bisect (nameBefore raw starts key) starts.length lo starts.length

/-- The entry at an index carries this name. -/
def nameIs (raw : Bytes) (starts : List Nat) (key : Bytes) (i : Nat) : Except SpliceError Bool :=
  if i < starts.length then do
    let name ← entryName raw (starts.getD i 0)
    pure (decide (name = key))
  else pure false

/-- `_XFLAG_INTENT_TO_ADD`, of the entry at an offset. -/
def intentToAddAt (raw : Bytes) (start : Nat) : Bool :=
  extendedAt raw start && u16 raw (start + entryFixedLen) / 0x2000 % 2 = 1

/-- What an update puts in the place of its entries; nothing when it leaves them alone. -/
def replacementOf (w : Worktree) (raw : Bytes) (starts : List Nat) (statFallback : Bool)
    (path : PyStr) (key : Bytes) : Update → Except SpliceError (Option (Option Bytes))
  | .absent => .ok (some none)
  | .dropIfPhantom => do
    let idx ← bisectLeft raw starts key 0
    let present ← nameIs raw starts key idx
    pure (if present && intentToAddAt raw (starts.getD idx 0) && !w.fileExists path then some none
      else none)
  | .entry mode sha =>
    if (0 : CodePoint) ∈ path then .error .noZero
    else match w.stat path with
    | none =>
      if statFallback then (buildEntry key mode sha zeroStat).map fun b => some (some b)
      else .error (.cannotStat path)
    | some st =>
      (buildEntry key mode sha (if w.matchesBlob path mode sha then st else zeroStat)).map
        fun b => some (some b)

/-- One update goes into `replacements`. -/
def addUpdate (w : Worktree) (raw : Bytes) (starts : List Nat) (statFallback : Bool)
    (replacements : Table Bytes (Option Bytes)) (update : PyStr × Update) :
    Except SpliceError (Table Bytes (Option Bytes)) :=
  if isAbsolutePath w (normalized update.1) then .error (.absolutePath update.1)
  else match fsEncode (normalized update.1) with
  | none => .error .noBytes
  | some key => do
    let new ← replacementOf w raw starts statFallback update.1 key update.2
    pure (match new with
      | none => replacements
      | some b => replacements.set key b)

/-! ### The splice -/

/-- The loop over the keys: the entries from `lo` on are left, these pieces are out, with their
number of entries and how many of them are extended. -/
structure Splicing where
  lo : Nat
  pieces : List Bytes
  total : Int
  extended : Int

/-- `hi`: behind the entries of one name, `left` of them to look at. -/
def nameEnd (raw : Bytes) (starts : List Nat) (key : Bytes) : Nat → Nat → Except SpliceError Nat
  | 0, i => .ok i
  | left + 1, i => do
    let same ← nameIs raw starts key i
    if same then nameEnd raw starts key left (i + 1) else pure i

/-- One key of `replacements`, the bounds being the starts and the end. -/
def spliceKey (raw : Bytes) (starts : List Nat) (bodyEnd : Nat) (s : Splicing)
    (key : Bytes) (new : Option Bytes) : Except SpliceError Splicing := do
  let bounds := starts ++ [bodyEnd]
  let idx ← bisectLeft raw starts key s.lo
  let present ← nameIs raw starts key idx
  if !present && new.isNone then pure s
  else do
    let before := if s.lo < idx then
      [slice raw (bounds.getD s.lo 0) (bounds.getD idx 0 - bounds.getD s.lo 0)] else []
    let pieces := s.pieces ++ before ++ new.toList
    if present then do
      let hi ← nameEnd raw starts key (starts.length - (idx + 1)) (idx + 1)
      let gone := ((starts.take hi).drop idx).countP (extendedAt raw)
      pure ⟨hi, pieces, s.total - (hi - idx : Nat) + new.toList.length, s.extended - gone⟩
    else pure ⟨idx, pieces, s.total + 1, s.extended⟩

/-- The keys in order. -/
def spliceKeys (raw : Bytes) (starts : List Nat) (bodyEnd : Nat) :
    Splicing → List (Bytes × Option Bytes) → Except SpliceError Splicing
  | s, [] => .ok s
  | s, (key, new) :: rest => do
    let s ← spliceKey raw starts bodyEnd s key new
    spliceKeys raw starts bodyEnd s rest

/-- The offsets of the entries and where they end, with the version; an index that is not there
has no entries. -/
def openIndex (raw : Bytes) (collapse : List Bytes) :
    Except SpliceError (Nat × List Nat × Nat) :=
  if raw = [] then .ok (2, [], 12)
  else if raw.length < 12 ∨ raw.take 4 ≠ signature then .error .notDirc
  else if u32 raw 4 ≠ 2 ∧ u32 raw 4 ≠ 3 then .error (.version (u32 raw 4))
  else do
    let walked ← walkEntries raw collapse (u32 raw 8) 12
    pure (u32 raw 4, walked)

/-- The second half of `_splice_locked`: the loop, the header and the trailer. -/
def assemble (sha1 : Bytes → Bytes) (raw : Bytes) (version : Nat) (starts : List Nat)
    (bodyEnd : Nat) (replacements : Table Bytes (Option Bytes)) : Except SpliceError Bytes := do
  let extended : Int := if version = 3 then starts.countP (extendedAt raw) else 0
  let s ← spliceKeys raw starts bodyEnd ⟨0, [], starts.length, extended⟩
    (replacements.entries.mergeSort fun a b => decide (a.1 ≤ b.1))
  let rest := if s.lo < starts.length then
    [slice raw ((starts ++ [bodyEnd]).getD s.lo 0) (bodyEnd - (starts ++ [bodyEnd]).getD s.lo 0)]
    else []
  let count ← pack32 s.total
  let written := signature ++ be32 (if 0 < s.extended then 3 else 2) ++ count ++
    (s.pieces ++ rest).flatten
  pure (written ++ sha1 written)

/-- Every name to collapse has an update. -/
def checkCollapse (collapse : List Bytes) (replacements : Table Bytes (Option Bytes)) :
    Except SpliceError Unit :=
  match collapse.find? (· ∉ replacements.keys) with
  | some key => .error (.noUpdate key)
  | none => .ok ()

/-- `_splice_locked`: the bytes that are written, under a hash. -/
def spliceLocked (sha1 : Bytes → Bytes) (w : Worktree) (raw : Bytes)
    (updates : List (PyStr × Update)) (statFallback : Bool) (collapse : List Bytes) :
    Except SpliceError Bytes := do
  let (version, starts, bodyEnd) ← openIndex raw collapse
  let replacements ← updates.foldlM (addUpdate w raw starts statFallback) ∅
  checkCollapse collapse replacements
  assemble sha1 raw version starts bodyEnd replacements

end Git

end CoordinatorCore
