import CoordinatorCore.Git.CheckIndex

/-!
# The index parser of the state plane

`_parse_index_bytes` of `git/git_state.py`, the second reader of the index: it takes all of it,
version 4 with its compressed names too, and walks the extensions up to the checksum. `Layout` is
the format: how the fields of the entries stand in the file. An index is well formed when moreover
its fields mean something (`WellFormed`): a version 4 entry takes no more off the previous name than
there is, the flags have the length of the name, and the names ascend.

The parser raises one error type for what it refuses, "instead of ever returning a partial or empty
result for a malformed index". It does so up to two things: it looks for the zero behind a name with
`bytes.index`, and it does not check all of what the fields mean (`state_exact_iff`).
-/

namespace CoordinatorCore

open PyStr

namespace Git

namespace StateIndex

/-! ### The parser -/

/-- What `_parse_index_bytes` raises: `UnmergedIndexEntryError` is `unmerged`, the `ValueError` of
`bytes.index` is `valueError`, and the others are `IndexParseError`. -/
inductive ParseError
  | truncatedHeader
  | badSignature
  | unsupportedVersion (version : Nat)
  | truncatedEntry
  | extendedBit (version : Nat)
  | truncatedFlags
  | truncatedVarint
  | nameLength (field found : Nat)
  | unmerged (name : Bytes) (stage : Nat)
  | shortTrailer
  | badExtension (signature : Bytes)
  | overrun (signature : Bytes)
  | link
  | valueError
  deriving DecidableEq

/-- `IndexParseError` and its subclass. -/
def ParseError.refusal : ParseError → Bool
  | valueError => false
  | _ => true

structure IndexEntry where
  mode : Nat
  sha : Text
  stage : Nat
  deriving DecidableEq

/-- `_SHA_LEN`. -/
def shaLen : Nat := 20

/-- The bytes of a varint behind the first one. -/
def varintLoop (c : UInt8) (val : Nat) (rest : Bytes) : Option (Nat × Bytes) :=
  if c < 0x80 then some (val, rest)
  else match rest with
    | [] => none
    | c :: rest => varintLoop c ((val + 1) * 0x80 + c.toNat % 0x80) rest

/-- `_decode_varint`. -/
def decodeVarint : Bytes → Option (Nat × Bytes)
  | [] => none
  | c :: rest => varintLoop c (c.toNat % 0x80) rest

/-- `prev_name[: len(prev_name) - strip_len]`; a negative end counts from the end. -/
def stripped (prev : Bytes) (stripLen : Nat) : Bytes :=
  if stripLen ≤ prev.length then prev.take (prev.length - stripLen)
  else prev.take (prev.length - (stripLen - prev.length))

/-- `raw[offset : raw.index(b"\x00", offset)]`, and what stands behind the zero. -/
def untilZero (rest : Bytes) : Except ParseError (Bytes × Bytes) :=
  if 0 ∈ rest then
    .ok (rest.takeWhile (· ≠ 0), rest.drop ((rest.takeWhile (· ≠ 0)).length + 1))
  else .error .valueError

/-- The bytes up to the name. -/
def fixedLen (version flags : Nat) (rest : Bytes) : Except ParseError Nat :=
  if isExtended flags then
    if version < 3 then .error (.extendedBit version)
    else if rest.length < entryFixedLen + 2 then .error .truncatedFlags
    else .ok (entryFixedLen + 2)
  else .ok entryFixedLen

/-- The name of an entry, and what stands behind its padding. -/
def readName (version flags fixed : Nat) (prev rest : Bytes) : Except ParseError (Bytes × Bytes) :=
  if version = 4 then
    match decodeVarint rest with
    | none => .error .truncatedVarint
    | some (stripLen, rest) => do
      let (suffix, rest) ← untilZero rest
      .ok ((if stripLen ≠ 0 then stripped prev stripLen else prev) ++ suffix, rest)
  else do
    let (name, rest) ← untilZero rest
    if flags % 0x1000 ≠ 0xfff ∧ name.length ≠ flags % 0x1000 then
      .error (.nameLength (flags % 0x1000) name.length)
    else .ok (name, rest.drop ((8 - (fixed + name.length + 1) % 8) % 8))

/-- One round of the loop: the name of the entry, the entry, and what stands behind it. -/
def readEntry (version : Nat) (prev rest : Bytes) :
    Except ParseError (Bytes × IndexEntry × Bytes) :=
  if rest.length < entryFixedLen then .error .truncatedEntry
  else do
    let flags := u16 rest 60
    let fixed ← fixedLen version flags rest
    let (name, behind) ← readName version flags fixed prev (rest.drop fixed)
    if stageOf flags ≠ 0 then .error (.unmerged name (stageOf flags))
    else .ok (name, ⟨u32 rest 24, hex (slice rest 40 20), stageOf flags⟩, behind)

/-- The loop over the entries. -/
def readEntries (version : Nat) :
    Nat → Bytes → Bytes → Table PyStr IndexEntry → Except ParseError (Table PyStr IndexEntry × Bytes)
  | 0, _, rest, entries => .ok (entries, rest)
  | count + 1, prev, rest, entries => do
    let (name, e, rest) ← readEntry version prev rest
    readEntries version count (if version = 4 then name else prev) rest
      (entries.set (fsDecode name) e)

/-- `sig.isalpha()`. -/
def isAlpha (sig : Bytes) : Bool :=
  !sig.isEmpty && sig.all fun b => (0x41 ≤ b && b ≤ 0x5a) || (0x61 ≤ b && b ≤ 0x7a)

/-- `sig.isupper()`. -/
def isUpper (sig : Bytes) : Bool :=
  sig.any (fun b => 0x41 ≤ b && b ≤ 0x5a) && sig.all fun b => !(0x61 ≤ b && b ≤ 0x7a)

/-- The loop of `_extension_region_start`. -/
def extensionLoop (rest : Bytes) : Except ParseError Unit :=
  if rest.length ≤ shaLen then .ok ()
  else
    if !isAlpha (rest.take 4) || !isUpper (rest.take 4) then .error (.badExtension (rest.take 4))
    else if rest.length < 8 + u32 rest 4 + shaLen then .error (.overrun (rest.take 4))
    else extensionLoop (rest.drop (8 + u32 rest 4))
termination_by rest.length
decreasing_by
  rw [List.length_drop]
  omega

/-- `_extension_region_start`. -/
def extensionRegionStart (rest : Bytes) : Except ParseError Unit :=
  if rest.length < shaLen then .error .shortTrailer else extensionLoop rest

/-- `b"link"` -/
def linkSignature : Bytes := [0x6c, 0x69, 0x6e, 0x6b]

/-- `_reject_link_extension`. -/
def rejectLinkExtension (rest : Bytes) : Except ParseError Unit :=
  if rest.length ≤ shaLen then .ok ()
  else if rest.take 4 = linkSignature then .error .link
  else rejectLinkExtension (rest.drop (8 + u32 rest 4))
termination_by rest.length
decreasing_by
  rw [List.length_drop]
  omega

/-- `_parse_index_bytes`. -/
def parseIndexBytes (raw : Bytes) : Except ParseError (Table PyStr IndexEntry) :=
  if raw.length < 12 then .error .truncatedHeader
  else if raw.take 4 ≠ signature then .error .badSignature
  else if u32 raw 4 ≠ 2 ∧ u32 raw 4 ≠ 3 ∧ u32 raw 4 ≠ 4 then .error (.unsupportedVersion (u32 raw 4))
  else do
    let (entries, rest) ← readEntries (u32 raw 4) (u32 raw 8) [] (raw.drop 12) ∅
    extensionRegionStart rest
    rejectLinkExtension rest
    .ok entries

/-! ### The format -/

/-- The fields of an entry as they stand in the file: `stat` is what comes before the mode, `owner`
what stands between it and the hash, and `text` is the name, or what version 4 adds to the previous
one. -/
structure Fields where
  stat : Bytes
  mode : Bytes
  owner : Bytes
  sha : Bytes
  flags : Bytes
  xflags : Bytes
  strip : Bytes
  text : Bytes
  pad : Bytes

/-- All bytes of a varint but the last have their highest bit set. -/
def IsVarint (bs : Bytes) : Prop :=
  ∃ init last, bs = init ++ [last] ∧ (∀ b ∈ init, ¬ b < 0x80) ∧ last < 0x80

/-- What a varint denotes. -/
def varintValue : Bytes → Nat
  | [] => 0
  | c :: cs => cs.foldl (fun val c => (val + 1) * 0x80 + c.toNat % 0x80) (c.toNat % 0x80)

namespace Fields

/-- What stands before the name. -/
def head (f : Fields) : Bytes :=
  f.stat ++ (f.mode ++ (f.owner ++ (f.sha ++ (f.flags ++ (f.xflags ++ f.strip)))))

def bytes (f : Fields) : Bytes := f.head ++ (f.text ++ 0 :: f.pad)

def flagWord (f : Fields) : Nat := bigEndian f.flags

def stage (f : Fields) : Nat := stageOf f.flagWord

/-- The length of the name, as the flags have it. -/
def lengthField (f : Fields) : Nat := f.flagWord % 0x1000

def entry (f : Fields) : IndexEntry := ⟨bigEndian f.mode, hex f.sha, f.stage⟩

/-- The fields of a fixed size, as version `version` has them. -/
structure Front (version : Nat) (f : Fields) : Prop where
  stat : f.stat.length = 24
  mode : f.mode.length = 4
  owner : f.owner.length = 12
  sha : f.sha.length = 20
  flags : f.flags.length = 2
  extended : isExtended f.flagWord = true → 3 ≤ version
  xflags : f.xflags.length = if isExtended f.flagWord then 2 else 0

/-- The fields up to the padding. -/
structure Fits (version : Nat) (f : Fields) : Prop extends Front version f where
  compressed : version = 4 → IsVarint f.strip
  plain : version ≠ 4 → f.strip = []
  text : 0 ∉ f.text

/-- The length of the padding. -/
def padLength (version : Nat) (f : Fields) : Nat :=
  if version = 4 then 0 else (8 - (62 + f.xflags.length + f.text.length + 1) % 8) % 8

/-- The name, behind the previous one. -/
def name (version : Nat) (prev : Bytes) (f : Fields) : Bytes :=
  if version = 4 then prev.take (prev.length - varintValue f.strip) ++ f.text else f.text

end Fields

/-- An extension. -/
structure Extension where
  signature : Bytes
  data : Bytes

namespace Extension

def bytes (x : Extension) : Bytes := x.signature ++ (be32 x.data.length ++ x.data)

structure Fits (x : Extension) : Prop where
  length : x.signature.length = 4
  upper : ∀ b ∈ x.signature, 0x41 ≤ b ∧ b ≤ 0x5a
  data : x.data.length < 0x100000000

end Extension

/-- The header of an index. -/
def header (version count : Nat) : Bytes := signature ++ (be32 version ++ be32 count)

/-- The file is laid out as an index of these entries. -/
structure Layout (raw : Bytes) (version : Nat) (fs : List Fields) (xs : List Extension)
    (trailer : Bytes) : Prop where
  supported : version = 2 ∨ version = 3 ∨ version = 4
  count : fs.length < 0x100000000
  raw : raw = header version fs.length ++ (fs.flatMap Fields.bytes ++
    (xs.flatMap Extension.bytes ++ trailer))
  fits : ∀ f ∈ fs, f.Fits version ∧ f.pad.length = f.padLength version
  extensions : ∀ x ∈ xs, x.Fits
  trailer : trailer.length = shaLen

/-- The names of the entries. -/
def names (version : Nat) : Bytes → List Fields → List Bytes
  | _, [] => []
  | prev, f :: fs => f.name version prev :: names version (f.name version prev) fs

/-- No entry takes more off the previous name than there is, and its flags have the length of the
name, up to 4095. -/
def Meant (version : Nat) : Bytes → List Fields → Prop
  | _, [] => True
  | prev, f :: fs =>
    (version = 4 → varintValue f.strip ≤ prev.length) ∧
    f.lengthField = min (f.name version prev).length 0xfff ∧
    Meant version (f.name version prev) fs

/-- What the fields of an index without conflicts are to mean, beyond their layout. -/
structure Sound (version : Nat) (fs : List Fields) : Prop where
  merged : ∀ f ∈ fs, f.stage = 0
  meant : Meant version [] fs
  ascending : (names version [] fs).Pairwise (· < ·)

/-- The file is a well-formed index without conflicts, and this is its map. -/
def WellFormed (raw : Bytes) (entries : List (PyStr × IndexEntry)) : Prop :=
  ∃ (version : Nat) (fs : List Fields) (xs : List Extension) (trailer : Bytes),
    Layout raw version fs xs trailer ∧ Sound version fs ∧
    entries = ((names version [] fs).map fsDecode).zip (fs.map Fields.entry)

/-- The parser is exact on these bytes, or refuses them. -/
def Exact (raw : Bytes) : Prop :=
  match parseIndexBytes raw with
  | .ok entries => WellFormed raw entries.entries
  | .error e => e.refusal = true

/-! ### What the parser checks -/

/-- What the code checks of an entry that is laid out. -/
structure Checked (version : Nat) (f : Fields) : Prop where
  merged : f.stage = 0
  length : version ≠ 4 → f.lengthField = 0xfff ∨ f.text.length = f.lengthField

/-- Behind entries that pass its checks, the parser comes to a name without an end. -/
def Unterminated (raw : Bytes) : Prop :=
  ∃ (version count : Nat) (fs : List Fields) (f : Fields),
    (version = 2 ∨ version = 3 ∨ version = 4) ∧ count < 0x100000000 ∧ fs.length < count ∧
    raw = header version count ++ (fs.flatMap Fields.bytes ++ (f.head ++ f.text)) ∧
    (∀ f ∈ fs, (f.Fits version ∧ f.pad.length = f.padLength version) ∧ Checked version f) ∧
    f.Fits version

/-- No name is without an end, and an index whose entries pass the checks is sound. -/
structure Careful (raw : Bytes) : Prop where
  terminated : ¬ Unterminated raw
  sound : ∀ version fs xs trailer, Layout raw version fs xs trailer →
    (∀ f ∈ fs, Checked version f) → Sound version fs

/-! ### Varints -/

/-- The loop reads the bytes up to the first without the high bit. -/
theorem varintLoop_append {init : Bytes} (hinit : ∀ b ∈ init, ¬ b < 0x80) {last : UInt8}
    (hlast : last < 0x80) (c : UInt8) (hc : ¬ c < 0x80) (val : Nat) (rest : Bytes) :
    varintLoop c val (init ++ last :: rest) =
      some ((init ++ [last]).foldl (fun val c => (val + 1) * 0x80 + c.toNat % 0x80) val, rest) := by
  induction init generalizing c val with
  | nil =>
    rw [List.nil_append, varintLoop, if_neg hc]
    unfold varintLoop
    rw [if_pos hlast]
    rfl
  | cons b init ih =>
    rw [List.cons_append, varintLoop, if_neg hc]
    exact ih (fun b hb => hinit b (List.mem_cons_of_mem _ hb)) b (hinit b List.mem_cons_self) _

/-- A varint is decoded in front of any bytes. -/
theorem decodeVarint_append {bs : Bytes} (h : IsVarint bs) (rest : Bytes) :
    decodeVarint (bs ++ rest) = some (varintValue bs, rest) := by
  obtain ⟨init, last, rfl, hinit, hlast⟩ := h
  cases init with
  | nil =>
    rw [List.nil_append, List.singleton_append, decodeVarint]
    unfold varintLoop
    rw [if_pos hlast]
    rfl
  | cons c init =>
    rw [List.cons_append, List.cons_append, decodeVarint, List.append_assoc,
      List.singleton_append, varintLoop_append (fun b hb => hinit b (List.mem_cons_of_mem _ hb))
        hlast c (hinit c List.mem_cons_self)]
    rfl

/-- What the loop has read is a varint. -/
theorem exists_varint_of_loop {c : UInt8} {val n : Nat} {bs rest : Bytes}
    (h : varintLoop c val bs = some (n, rest)) :
    ∃ cs, bs = cs ++ rest ∧ IsVarint (c :: cs) := by
  induction bs generalizing c val with
  | nil =>
    rw [varintLoop] at h
    split_ifs at h with hc
    · obtain ⟨-, rfl⟩ := Prod.mk.inj (Option.some.inj h)
      exact ⟨[], rfl, [], c, rfl, by simp, hc⟩
  | cons b bs ih =>
    rw [varintLoop] at h
    split_ifs at h with hc
    · obtain ⟨-, rfl⟩ := Prod.mk.inj (Option.some.inj h)
      exact ⟨[], rfl, [], c, rfl, by simp, hc⟩
    · obtain ⟨cs, rfl, init, last, heq, hinit, hlast⟩ := ih h
      refine ⟨b :: cs, rfl, c :: init, last, ?_, ?_, hlast⟩
      · rw [heq, List.cons_append]
      · rintro x (_ | ⟨_, hx⟩)
        · exact hc
        · exact hinit x hx

/-- What is decoded is a varint and its value. -/
theorem exists_varint {bs rest : Bytes} {n : Nat} (h : decodeVarint bs = some (n, rest)) :
    ∃ cs, bs = cs ++ rest ∧ IsVarint cs ∧ varintValue cs = n := by
  cases bs with
  | nil => cases h
  | cons c bs =>
    obtain ⟨cs, rfl, hcs⟩ := exists_varint_of_loop (c := c) h
    refine ⟨c :: cs, rfl, hcs, ?_⟩
    have heq := decodeVarint_append hcs rest
    rw [List.cons_append, h] at heq
    exact (Prod.mk.inj (Option.some.inj heq)).1.symm

/-! ### Names -/

/-- A text without zero is taken up to the zero. -/
theorem takeWhile_text {text : Bytes} (h : 0 ∉ text) (rest : Bytes) :
    (text ++ 0 :: rest).takeWhile (· ≠ 0) = text := by
  rw [List.takeWhile_append_of_pos fun b hb => by
    simpa using fun h0 : b = 0 => h (h0 ▸ hb)]
  simp

/-- A text without zero is read up to the zero. -/
theorem untilZero_text {text : Bytes} (h : 0 ∉ text) (rest : Bytes) :
    untilZero (text ++ 0 :: rest) = .ok (text, rest) := by
  rw [untilZero, if_pos (by simp), takeWhile_text h]
  simp

/-- What is read up to a zero has none. -/
theorem untilZero_eq_ok {rest text behind : Bytes} (h : untilZero rest = .ok (text, behind)) :
    0 ∉ text ∧ rest = text ++ 0 :: behind := by
  rw [untilZero] at h
  split_ifs at h with hmem
  obtain ⟨pre, post, rfl, hpre⟩ := List.eq_append_cons_of_mem hmem
  rw [takeWhile_text hpre] at h
  obtain ⟨rfl, rfl⟩ := Prod.mk.inj (Except.ok.inj h)
  exact ⟨hpre, by simp⟩

/-- Only bytes without a zero fail, and with a `ValueError`. -/
theorem untilZero_eq_error {rest : Bytes} {e : ParseError} (h : untilZero rest = .error e) :
    0 ∉ rest ∧ e = .valueError := by
  rw [untilZero] at h
  split_ifs at h with hmem
  exact ⟨hmem, (Except.error.inj h).symm⟩

/-! ### One entry -/

namespace Fields

variable {version : Nat} {f : Fields}

/-- The length of the part of an entry in front of its name. -/
theorem length_head (h : f.Front version) :
    f.head.length = 62 + f.xflags.length + f.strip.length := by
  simp only [head, List.length_append, h.stat, h.mode, h.owner, h.sha, h.flags]
  omega

/-- A slice of the bytes of an entry. -/
theorem slice_head (h : f.Front version) (tail : Bytes) :
    slice (f.head ++ tail) 24 4 = f.mode ∧ slice (f.head ++ tail) 40 20 = f.sha ∧
      slice (f.head ++ tail) 60 2 = f.flags := by
  have hcut (pre b post : Bytes) (i n : Nat) (hi : pre.length = i) (hn : b.length = n) :
      slice (pre ++ (b ++ post)) i n = b := by
    rw [slice, ← hi, ← hn, List.drop_left, List.take_left]
  refine ⟨?_, ?_, ?_⟩
  · rw [head, List.append_assoc, List.append_assoc]
    exact hcut f.stat f.mode _ 24 4 h.stat h.mode
  · have := hcut (f.stat ++ (f.mode ++ f.owner)) f.sha
      (f.flags ++ (f.xflags ++ (f.strip ++ tail))) 40 20
      (by simp [h.stat, h.mode, h.owner]) h.sha
    simpa only [head, List.append_assoc] using this
  · have := hcut (f.stat ++ (f.mode ++ (f.owner ++ f.sha))) f.flags
      (f.xflags ++ (f.strip ++ tail)) 60 2
      (by simp [h.stat, h.mode, h.owner, h.sha]) h.flags
    simpa only [head, List.append_assoc] using this

/-- Behind the fixed fields stand the stripped length and the name. -/
theorem drop_head (h : f.Front version) (tail : Bytes) :
    (f.head ++ tail).drop (62 + f.xflags.length) = f.strip ++ tail := by
  have hlen : (f.stat ++ (f.mode ++ (f.owner ++ (f.sha ++ (f.flags ++ f.xflags))))).length =
      62 + f.xflags.length := by
    simp only [List.length_append, h.stat, h.mode, h.owner, h.sha, h.flags]
    omega
  rw [← hlen]
  simpa only [head, List.append_assoc] using @List.drop_left _
    (f.stat ++ (f.mode ++ (f.owner ++ (f.sha ++ (f.flags ++ f.xflags))))) (f.strip ++ tail)

/-- The length of the fixed fields is read from the flags. -/
theorem fixedLen_head (h : f.Front version) (tail : Bytes) :
    fixedLen version f.flagWord (f.head ++ tail) = .ok (62 + f.xflags.length) := by
  have hx := h.xflags
  rw [fixedLen]
  split_ifs with hext hversion hlen
  · exact absurd (h.extended hext) (by omega)
  · rw [List.length_append, length_head h, hx, if_pos hext, entryFixedLen] at hlen
    omega
  · rw [hx, if_pos hext]
    rfl
  · rw [hx, if_neg hext]
    rfl

/-- An entry is read up to its name. -/
theorem readEntry_head (h : f.Front version) (prev tail : Bytes) :
    readEntry version prev (f.head ++ tail) = (do
      let (name, behind) ←
        readName version f.flagWord (62 + f.xflags.length) prev (f.strip ++ tail)
      if f.stage ≠ 0 then .error (.unmerged name f.stage)
      else .ok (name, f.entry, behind)) := by
  have hlen : ¬ (f.head ++ tail).length < entryFixedLen := by
    rw [List.length_append, length_head h, entryFixedLen]
    omega
  obtain ⟨hmode, hsha, hflags⟩ := slice_head h tail
  have hword : u16 (f.head ++ tail) 60 = f.flagWord := by rw [u16, hflags, flagWord]
  rw [readEntry, if_neg hlen]
  simp only [hword, fixedLen_head h, bind, Except.bind, drop_head h, u32, hmode, hsha]
  rfl

/-- The name that the code makes out of the previous one. -/
def readAs (version : Nat) (prev : Bytes) (f : Fields) : Bytes :=
  if version = 4 then
    (if varintValue f.strip ≠ 0 then stripped prev (varintValue f.strip) else prev) ++ f.text
  else f.text

/-- An entry that passes the checks is read. -/
theorem readEntry_bytes (h : f.Fits version) (hpad : f.pad.length = f.padLength version)
    (hc : Checked version f) (prev rest : Bytes) :
    readEntry version prev (f.bytes ++ rest) = .ok (f.readAs version prev, f.entry, rest) := by
  have hname : readName version f.flagWord (62 + f.xflags.length) prev
      (f.strip ++ (f.text ++ 0 :: (f.pad ++ rest))) = .ok (f.readAs version prev, rest) := by
    rw [readName, readAs]
    by_cases hversion : version = 4
    · rw [padLength, if_pos hversion, List.length_eq_zero_iff] at hpad
      rw [if_pos hversion, if_pos hversion, decodeVarint_append (h.compressed hversion)]
      simp only [untilZero_text h.text, bind, Except.bind, hpad, List.nil_append]
    · rw [padLength, if_neg hversion] at hpad
      have hlen : ¬ (f.flagWord % 0x1000 ≠ 0xfff ∧ f.text.length ≠ f.flagWord % 0x1000) := by
        rintro ⟨hfield, hne⟩
        exact (hc.length hversion).elim hfield hne
      rw [if_neg hversion, if_neg hversion, h.plain hversion]
      simp only [List.nil_append, untilZero_text h.text, bind, Except.bind, if_neg hlen, ← hpad,
        List.drop_left]
  rw [bytes, List.append_assoc, List.append_assoc, List.cons_append, readEntry_head h.toFront, hname]
  simp only [bind, Except.bind, hc.merged, ne_eq, not_true_eq_false, if_false]

/-- Where an entry is long enough, its fields stand in front of its name. -/
theorem exists_front {rest : Bytes} (hlen : ¬ rest.length < entryFixedLen) {fixed : Nat}
    (hfixed : fixedLen version (u16 rest 60) rest = .ok fixed) :
    ∃ f : Fields, f.Front version ∧ f.strip = [] ∧ fixed = 62 + f.xflags.length ∧
      rest = f.head ++ rest.drop fixed ∧ f.flagWord = u16 rest 60 := by
  have hcut (i n : Nat) : slice rest i n ++ rest.drop (i + n) = rest.drop i := by
    rw [slice, ← List.drop_drop, List.take_append_drop]
  have hslice (i n : Nat) (h : i + n ≤ rest.length) : (slice rest i n).length = n := by
    rw [slice, List.length_take, List.length_drop]
    omega
  have hfix : fixed = 62 + (if isExtended (u16 rest 60) then 2 else 0) ∧ fixed ≤ rest.length ∧
      (isExtended (u16 rest 60) = true → 3 ≤ version) := by
    rw [fixedLen] at hfixed
    rw [entryFixedLen] at hlen
    split_ifs at hfixed ⊢ with hext hversion hlen'
    · rw [entryFixedLen] at hlen' hfixed
      have := Except.ok.inj hfixed
      exact ⟨this.symm, by omega, fun _ => by omega⟩
    · rw [entryFixedLen] at hfixed
      have := Except.ok.inj hfixed
      exact ⟨this.symm, by omega, fun h => absurd h hext⟩
  obtain ⟨hfix, hle, hversion⟩ := hfix
  rw [entryFixedLen] at hlen
  refine ⟨⟨slice rest 0 24, slice rest 24 4, slice rest 28 12, slice rest 40 20, slice rest 60 2,
    slice rest 62 (fixed - 62), [], [], []⟩, ⟨hslice 0 24 (by omega), hslice 24 4 (by omega),
      hslice 28 12 (by omega), hslice 40 20 (by omega), hslice 60 2 (by omega), hversion, ?_⟩, rfl,
      ?_, ?_, rfl⟩
  · rw [hslice 62 (fixed - 62) (by omega)]
    change fixed - 62 = if isExtended (u16 rest 60) then 2 else 0
    omega
  · dsimp only
    rw [hslice 62 (fixed - 62) (by omega)]
    omega
  · have hdrop : rest.drop fixed = rest.drop (62 + (fixed - 62)) := by
      congr 1
      omega
    rw [head]
    simp only [List.append_nil, List.append_assoc]
    rw [hdrop, hcut 62, hcut 60 2, hcut 40 20, hcut 28 12, hcut 24 4, hcut 0 24, List.drop_zero]

/-- The same fields with a name behind them. -/
def withName (f : Fields) (strip text pad : Bytes) : Fields :=
  { f with strip := strip, text := text, pad := pad }

/-- Another name leaves the fields in front as they are. -/
theorem Front.withName (h : f.Front version) (strip text pad : Bytes) :
    (f.withName strip text pad).Front version :=
  ⟨h.stat, h.mode, h.owner, h.sha, h.flags, h.extended, h.xflags⟩

theorem head_withName (h : f.strip = []) (strip text pad rest : Bytes) :
    (f.withName strip text pad).head ++ rest = f.head ++ (strip ++ rest) := by
  simp only [head, Fields.withName, h, List.append_assoc, List.append_nil]

/-- What a name that is read looks like. The padding may run off the end. -/
theorem readName_eq_ok {flags fixed : Nat} {prev tail name behind : Bytes}
    (h : readName version flags fixed prev tail = .ok (name, behind)) :
    ∃ strip text pad, 0 ∉ text ∧ (version = 4 → IsVarint strip) ∧ (version ≠ 4 → strip = []) ∧
      (version ≠ 4 → flags % 0x1000 = 0xfff ∨ text.length = flags % 0x1000) ∧
      name = (if version = 4 then
        (if varintValue strip ≠ 0 then stripped prev (varintValue strip) else prev) ++ text
        else text) ∧
      ((pad.length = if version = 4 then 0 else (8 - (fixed + text.length + 1) % 8) % 8) ∧
        tail = strip ++ (text ++ 0 :: (pad ++ behind)) ∨ behind = []) := by
  rw [readName] at h
  -- version 4 strips the name in front and has no padding
  by_cases hversion : version = 4
  · rw [if_pos hversion] at h
    cases hv : decodeVarint tail with
    | none =>
      rw [hv] at h
      cases h
    | some p =>
      obtain ⟨n, rest⟩ := p
      obtain ⟨strip, rfl, hstrip, rfl⟩ := exists_varint hv
      rw [hv] at h
      cases hz : untilZero rest with
      | error e =>
        simp only [hz, bind, Except.bind] at h
        cases h
      | ok q =>
        obtain ⟨text, rest'⟩ := q
        obtain ⟨htext, rfl⟩ := untilZero_eq_ok hz
        simp only [hz, bind, Except.bind] at h
        obtain ⟨rfl, rfl⟩ := Prod.mk.inj (Except.ok.inj h)
        refine ⟨strip, text, [], htext, fun _ => hstrip, absurd hversion, absurd hversion, ?_,
          .inl ⟨?_, rfl⟩⟩
        · rw [if_pos hversion]
        · rw [if_pos hversion]
          rfl
  · rw [if_neg hversion] at h
    cases hz : untilZero tail with
    | error e =>
      simp only [hz, bind, Except.bind] at h
      cases h
    | ok q =>
      obtain ⟨text, rest⟩ := q
      obtain ⟨htext, rfl⟩ := untilZero_eq_ok hz
      simp only [hz, bind, Except.bind] at h
      split_ifs at h with hlen
      obtain ⟨rfl, rfl⟩ := Prod.mk.inj (Except.ok.inj h)
      refine ⟨[], text, rest.take ((8 - (fixed + text.length + 1) % 8) % 8), htext,
        fun hv => absurd hv hversion, fun _ => rfl, fun _ => ?_, ?_, ?_⟩
      · rw [not_and_or, not_not, not_not] at hlen
        exact hlen
      · rw [if_neg hversion]
      · rw [if_neg hversion]
        -- a last entry may lack its padding
        by_cases hle : (8 - (fixed + text.length + 1) % 8) % 8 ≤ rest.length
        · refine .inl ⟨?_, ?_⟩
          · rw [List.length_take, Nat.min_eq_left hle]
          · rw [List.nil_append, List.take_append_drop]
        · exact .inr (List.drop_eq_nil_of_le (by omega))

/-- Only a name without a zero byte breaks off without a refusal. -/
theorem readName_eq_error {flags fixed : Nat} {prev tail : Bytes} {e : ParseError}
    (h : readName version flags fixed prev tail = .error e) (he : e.refusal = false) :
    ∃ strip text, 0 ∉ text ∧ (version = 4 → IsVarint strip) ∧ (version ≠ 4 → strip = []) ∧
      tail = strip ++ text := by
  rw [readName] at h
  by_cases hversion : version = 4
  · rw [if_pos hversion] at h
    cases hv : decodeVarint tail with
    | none =>
      rw [hv] at h
      cases h
      cases he
    | some p =>
      obtain ⟨n, rest⟩ := p
      obtain ⟨strip, rfl, hstrip, rfl⟩ := exists_varint hv
      rw [hv] at h
      cases hz : untilZero rest with
      | error e' => exact ⟨strip, rest, (untilZero_eq_error hz).1, fun _ => hstrip,
          absurd hversion, rfl⟩
      | ok q =>
        simp only [hz, bind, Except.bind] at h
        cases h
  · rw [if_neg hversion] at h
    cases hz : untilZero tail with
    | error e' => exact ⟨[], tail, (untilZero_eq_error hz).1, fun hv => absurd hv hversion,
        fun _ => rfl, rfl⟩
    | ok q =>
      simp only [hz, bind, Except.bind] at h
      split_ifs at h
      cases h
      cases he

/-- An entry comes to its name, or is refused before. -/
theorem exists_readEntry_head {prev rest : Bytes} {r : Except ParseError (Bytes × IndexEntry × Bytes)}
    (h : readEntry version prev rest = r) :
    (∃ e, r = .error e ∧ e.refusal = true) ∨ ∃ (f : Fields) (tail : Bytes), f.Front version ∧
      f.strip = [] ∧ rest = f.head ++ tail ∧ (do
        let (name, behind) ← readName version f.flagWord (62 + f.xflags.length) prev tail
        if f.stage ≠ 0 then .error (.unmerged name f.stage)
        else .ok (name, f.entry, behind)) = r := by
  by_cases hlen : rest.length < entryFixedLen
  · rw [readEntry, if_pos hlen] at h
    exact .inl ⟨_, h.symm, rfl⟩
  cases hfixed : fixedLen version (u16 rest 60) rest with
  | error e =>
    rw [readEntry, if_neg hlen] at h
    simp only [hfixed, bind, Except.bind] at h
    refine .inl ⟨e, h.symm, ?_⟩
    rw [fixedLen] at hfixed
    split_ifs at hfixed <;> cases hfixed <;> rfl
  | ok fixed =>
    obtain ⟨f, hf, hstrip, -, hrest, -⟩ := exists_front hlen hfixed
    rw [hrest, readEntry_head hf, hstrip, List.nil_append] at h
    exact .inr ⟨f, _, hf, hstrip, hrest, h⟩

/-- An entry that is read is one of the format that passes the checks. -/
theorem readEntry_eq_ok {prev rest name behind : Bytes} {e : IndexEntry}
    (h : readEntry version prev rest = .ok (name, e, behind)) :
    ∃ f : Fields, f.Fits version ∧ Checked version f ∧ name = f.readAs version prev ∧
      e = f.entry ∧
      (f.pad.length = f.padLength version ∧ rest = f.bytes ++ behind ∨ behind = []) := by
  obtain ⟨e', he', -⟩ | ⟨f, tail, hf, hstrip, rfl, hread⟩ := exists_readEntry_head h
  · cases he'
  cases hname : readName version f.flagWord (62 + f.xflags.length) prev tail with
  | error e' =>
    simp only [hname, bind, Except.bind] at hread
    cases hread
  | ok q =>
    obtain ⟨name', behind'⟩ := q
    simp only [hname, bind, Except.bind] at hread
    split_ifs at hread with hstage
    rw [not_not] at hstage
    obtain ⟨rfl, hpair⟩ := Prod.mk.inj (Except.ok.inj hread)
    obtain ⟨rfl, rfl⟩ := Prod.mk.inj hpair
    obtain ⟨strip, text, pad, htext, hfour, hplain, hfield, hn, htail⟩ := readName_eq_ok hname
    refine ⟨f.withName strip text pad, ⟨hf.withName strip text pad, hfour, hplain, htext⟩,
      ⟨hstage, hfield⟩, hn, rfl, htail.imp_left ?_⟩
    rintro ⟨hpad, rfl⟩
    refine ⟨hpad, ?_⟩
    rw [bytes, List.append_assoc, head_withName hstrip, List.append_assoc]
    rfl

/-- An entry breaks off without a refusal only in its name. -/
theorem readEntry_eq_error {prev rest : Bytes} {e : ParseError}
    (h : readEntry version prev rest = .error e) (he : e.refusal = false) :
    ∃ f : Fields, f.Fits version ∧ rest = f.head ++ f.text := by
  obtain ⟨e', he', hrefusal⟩ | ⟨f, tail, hf, hstrip, rfl, hread⟩ := exists_readEntry_head h
  · cases he'
    rw [he] at hrefusal
    cases hrefusal
  cases hname : readName version f.flagWord (62 + f.xflags.length) prev tail with
  | error e' =>
    simp only [hname, bind, Except.bind] at hread
    cases hread
    obtain ⟨strip, text, htext, hfour, hplain, rfl⟩ := readName_eq_error hname he
    refine ⟨f.withName strip text [], ⟨hf.withName strip text [], hfour, hplain, htext⟩, ?_⟩
    rw [head_withName hstrip]
    rfl
  | ok q =>
    simp only [hname, bind, Except.bind] at hread
    split_ifs at hread
    cases hread
    cases he

/-- A name without an end is what `bytes.index` raises on. -/
theorem readEntry_unterminated (h : f.Fits version) (prev : Bytes) :
    readEntry version prev (f.head ++ f.text) = .error .valueError := by
  rw [readEntry_head h.toFront, readName]
  by_cases hversion : version = 4
  · rw [if_pos hversion, decodeVarint_append (h.compressed hversion)]
    simp only [untilZero, h.text, if_false, bind, Except.bind]
  · rw [if_neg hversion, h.plain hversion, List.nil_append]
    simp only [untilZero, h.text, if_false, bind, Except.bind]

end Fields

/-! ### The entries -/

/-- The entries with the names that the code makes. -/
def readAll (version : Nat) : Bytes → List Fields → List (Bytes × IndexEntry)
  | _, [] => []
  | prev, f :: fs =>
    (f.readAs version prev, f.entry) ::
      readAll version (if version = 4 then f.readAs version prev else prev) fs

/-- The map of the entries. -/
def collect (entries : Table PyStr IndexEntry) (es : List (Bytes × IndexEntry)) :
    Table PyStr IndexEntry :=
  es.foldl (fun t e => t.set (fsDecode e.1) e.2) entries

/-- Behind entries that are laid out and pass the checks, the loop goes on. -/
theorem readEntries_append {version : Nat} {fs : List Fields}
    (h : ∀ f ∈ fs, (f.Fits version ∧ f.pad.length = f.padLength version) ∧ Checked version f)
    (count : Nat) (prev rest : Bytes) (entries : Table PyStr IndexEntry) :
    ∃ prev', readEntries version (fs.length + count) prev (fs.flatMap Fields.bytes ++ rest) entries =
      readEntries version count prev' rest (collect entries (readAll version prev fs)) := by
  induction fs generalizing prev entries with
  | nil => exact ⟨prev, by rw [List.length_nil, Nat.zero_add]; rfl⟩
  | cons f fs ih =>
    obtain ⟨⟨hf, hpad⟩, hc⟩ := h f List.mem_cons_self
    obtain ⟨prev', heq⟩ := ih (fun g hg => h g (List.mem_cons_of_mem _ hg))
      (if version = 4 then f.readAs version prev else prev)
      (entries.set (fsDecode (f.readAs version prev)) f.entry)
    refine ⟨prev', ?_⟩
    rw [List.flatMap_cons, List.append_assoc, List.length_cons, Nat.add_right_comm, readEntries,
      Fields.readEntry_bytes hf hpad hc]
    exact heq

/-- What is left of the loop, where something is left. -/
theorem readEntries_eq_ok {version count : Nat} {prev rest behind : Bytes}
    {entries t : Table PyStr IndexEntry} (hne : behind ≠ [])
    (h : readEntries version count prev rest entries = .ok (t, behind)) :
    ∃ fs : List Fields, fs.length = count ∧ rest = fs.flatMap Fields.bytes ++ behind ∧
      (∀ f ∈ fs, (f.Fits version ∧ f.pad.length = f.padLength version) ∧ Checked version f) ∧
      t = collect entries (readAll version prev fs) := by
  induction count generalizing prev rest entries with
  | zero =>
    obtain ⟨rfl, rfl⟩ := Prod.mk.inj (Except.ok.inj h)
    exact ⟨[], rfl, rfl, by simp, rfl⟩
  | succ count ih =>
    rw [readEntries] at h
    cases hread : readEntry version prev rest with
    | error e =>
      simp only [hread, bind, Except.bind] at h
      cases h
    | ok q =>
      obtain ⟨name, e, rest'⟩ := q
      simp only [hread, bind, Except.bind] at h
      obtain ⟨f, hf, hc, rfl, rfl, hrest⟩ := Fields.readEntry_eq_ok hread
      obtain ⟨fs, rfl, heq, hfs, rfl⟩ := ih h
      obtain ⟨hpad, rfl⟩ | hnil := hrest
      · refine ⟨f :: fs, rfl, ?_, ?_, rfl⟩
        · rw [heq, List.flatMap_cons, List.append_assoc]
        · rintro g (_ | ⟨_, hg⟩)
          · exact ⟨⟨hf, hpad⟩, hc⟩
          · exact hfs g hg
      · rw [hnil] at heq
        exact absurd (List.append_eq_nil_iff.mp heq.symm).2 hne

/-- Where the loop raises something else than a refusal, it has come to a name without an end. -/
theorem readEntries_eq_error {version count : Nat} {prev rest : Bytes}
    {entries : Table PyStr IndexEntry} {e : ParseError} (he : e.refusal = false)
    (h : readEntries version count prev rest entries = .error e) :
    ∃ (fs : List Fields) (f : Fields), fs.length < count ∧
      rest = fs.flatMap Fields.bytes ++ (f.head ++ f.text) ∧
      (∀ f ∈ fs, (f.Fits version ∧ f.pad.length = f.padLength version) ∧ Checked version f) ∧
      f.Fits version := by
  induction count generalizing prev rest entries with
  | zero => cases h
  | succ count ih =>
    rw [readEntries] at h
    cases hread : readEntry version prev rest with
    | error e' =>
      simp only [hread, bind, Except.bind] at h
      cases h
      obtain ⟨f, hf, rfl⟩ := Fields.readEntry_eq_error hread he
      exact ⟨[], f, Nat.succ_pos _, rfl, by simp, hf⟩
    | ok q =>
      obtain ⟨name, e', rest'⟩ := q
      simp only [hread, bind, Except.bind] at h
      obtain ⟨f, hf, hc, rfl, rfl, hrest⟩ := Fields.readEntry_eq_ok hread
      obtain ⟨fs, g, hlt, heq, hfs, hg⟩ := ih h
      obtain ⟨hpad, rfl⟩ | hnil := hrest
      · refine ⟨f :: fs, g, Nat.succ_lt_succ hlt, ?_, ?_, hg⟩
        · rw [heq, List.flatMap_cons, List.append_assoc]
        · rintro x (_ | ⟨_, hx⟩)
          · exact ⟨⟨hf, hpad⟩, hc⟩
          · exact hfs x hx
      · -- what is left is too short for an entry
        have hlen := congrArg List.length heq
        rw [hnil, List.length_append, List.length_append, Fields.length_head hg.toFront] at hlen
        exact absurd hlen (by simp only [List.length_nil]; omega)

/-! ### The extensions -/

/-- A signature in capital letters, byte by byte. -/
theorem isUpper_iff {sig : Bytes} (hlen : sig.length = 4) :
    (isAlpha sig && isUpper sig) = true ↔ ∀ b ∈ sig, 0x41 ≤ b ∧ b ≤ 0x5a := by
  have hne : sig ≠ [] := by
    rintro rfl
    cases hlen
  simp only [isAlpha, isUpper, Bool.and_eq_true, Bool.not_eq_true', List.all_eq_true,
    List.any_eq_true, Bool.or_eq_true, decide_eq_true_eq, Bool.and_eq_false_iff,
    decide_eq_false_iff_not, List.isEmpty_eq_false_iff]
  constructor
  · rintro ⟨⟨-, halpha⟩, -, hlower⟩ b hb
    obtain h | h := halpha b hb
    · exact h
    · exact ((hlower b hb).elim (absurd h.1) (absurd h.2))
  · intro h
    obtain ⟨b, hb⟩ := List.exists_mem_of_ne_nil sig hne
    refine ⟨⟨hne, fun b hb => .inl (h b hb)⟩, ⟨b, hb, h b hb⟩, fun b hb => .inl fun hlow => ?_⟩
    have hup := (h b hb).2
    rw [UInt8.le_iff_toNat_le] at hlow hup
    have h1 : (0x61 : UInt8).toNat = 0x61 := rfl
    have h2 : (0x5a : UInt8).toNat = 0x5a := rfl
    omega

/-- The size of an extension. -/
theorem u32_extension {x : Extension} (h : x.Fits) (rest : Bytes) :
    (x.bytes ++ rest).take 4 = x.signature ∧ u32 (x.bytes ++ rest) 4 = x.data.length ∧
      (x.bytes ++ rest).drop (8 + x.data.length) = rest ∧
      (x.bytes ++ rest).length = 8 + x.data.length + rest.length := by
  have hsig := h.length
  have hlen : x.bytes.length = 8 + x.data.length := by
    simp only [Extension.bytes, List.length_append, hsig, length_be32]
    omega
  refine ⟨?_, ?_, ?_, ?_⟩
  · rw [Extension.bytes, List.append_assoc, ← hsig, List.take_left]
  · rw [u32, slice, Extension.bytes, List.append_assoc, ← hsig, List.drop_left, hsig,
      List.append_assoc, ← length_be32 x.data.length, List.take_left, bigEndian_be32 h.data]
  · rw [← hlen, List.drop_left]
  · rw [List.length_append, hlen]

/-- The extensions up to the checksum pass. -/
theorem extensionLoop_append {xs : List Extension} (h : ∀ x ∈ xs, x.Fits) {trailer : Bytes}
    (ht : trailer.length = shaLen) :
    extensionLoop (xs.flatMap Extension.bytes ++ trailer) = .ok () ∧
      rejectLinkExtension (xs.flatMap Extension.bytes ++ trailer) = .ok () := by
  induction xs with
  | nil =>
    rw [List.flatMap_nil, List.nil_append, extensionLoop, rejectLinkExtension]
    exact ⟨if_pos ht.le, if_pos ht.le⟩
  | cons x xs ih =>
    have hx := h x List.mem_cons_self
    obtain ⟨hsig, hsize, hdrop, hlen⟩ := u32_extension hx (xs.flatMap Extension.bytes ++ trailer)
    have hrest : shaLen ≤ (xs.flatMap Extension.bytes ++ trailer).length := by
      rw [List.length_append, ht]
      exact Nat.le_add_left _ _
    have hupper := (isUpper_iff hx.length).mpr hx.upper
    rw [Bool.and_eq_true] at hupper
    have hlink : x.signature ≠ linkSignature := by
      intro heq
      have := (hx.upper 0x6c (heq ▸ List.mem_cons_self)).2
      exact absurd this (by decide)
    obtain ⟨ih₁, ih₂⟩ := ih fun y hy => h y (List.mem_cons_of_mem _ hy)
    rw [List.flatMap_cons, List.append_assoc]
    constructor
    · rw [extensionLoop, hsig, hsize, hdrop, if_neg (by omega), hupper.1, hupper.2,
        if_neg (by simp), if_neg (by omega), ih₁]
    · rw [rejectLinkExtension, hsig, hsize, hdrop, if_neg (by omega), if_neg hlink, ih₂]

/-- What passes is a chain of extensions and the checksum. -/
theorem exists_extensions {rest : Bytes} (h : extensionLoop rest = .ok ())
    (hlen : shaLen ≤ rest.length) :
    ∃ (xs : List Extension) (trailer : Bytes), (∀ x ∈ xs, x.Fits) ∧ trailer.length = shaLen ∧
      rest = xs.flatMap Extension.bytes ++ trailer := by
  induction hn : rest.length using Nat.strong_induction_on generalizing rest with
  | _ n ih =>
    rw [extensionLoop] at h
    split_ifs at h with hle hsig hover
    · exact ⟨[], rest, by simp, Nat.le_antisymm hle hlen, rfl⟩
    · have hfour : (rest.take 4).length = 4 := by
        rw [List.length_take, shaLen] at *
        omega
      have hword : (slice rest 4 4).length = 4 := by
        rw [slice, List.length_take, List.length_drop]
        omega
      have hsize : u32 rest 4 < 0x100000000 := by
        have hlt := bigEndian_lt (b := slice rest 4 4)
        rw [hword] at hlt
        exact hlt
      obtain ⟨xs, trailer, hxs, ht, heq⟩ := ih (rest.drop (8 + u32 rest 4)).length
        (by rw [List.length_drop]; omega) h (by rw [List.length_drop]; omega) rfl
      have hdata : (slice rest 8 (u32 rest 4)).length = u32 rest 4 := by
        rw [slice, List.length_take, List.length_drop]
        omega
      refine ⟨⟨rest.take 4, slice rest 8 (u32 rest 4)⟩ :: xs, trailer, ?_, ht, ?_⟩
      · rintro y (_ | ⟨_, hy⟩)
        · refine ⟨hfour, (isUpper_iff hfour).mp ?_, by rw [hdata]; exact hsize⟩
          simpa using hsig
        · exact hxs y hy
      · have hcut (i n : Nat) : slice rest i n ++ rest.drop (i + n) = rest.drop i := by
          rw [slice, ← List.drop_drop, List.take_append_drop]
        rw [List.flatMap_cons, List.append_assoc, ← heq, Extension.bytes, hdata, u32,
          be32_bigEndian hword, List.append_assoc, List.append_assoc, hcut, hcut,
          List.take_append_drop]

/-! ### The whole file -/

/-- The header is read as it is written. -/
theorem read_header {version count : Nat} (hv : version < 0x100000000)
    (hc : count < 0x100000000) (rest : Bytes) :
    ¬ (header version count ++ rest).length < 12 ∧
      (header version count ++ rest).take 4 = signature ∧
      u32 (header version count ++ rest) 4 = version ∧
      u32 (header version count ++ rest) 8 = count ∧
      (header version count ++ rest).drop 12 = rest := by
  refine ⟨?_, rfl, ?_, ?_, rfl⟩
  · simp only [header, signature, List.length_append, length_be32, List.length_cons,
      List.length_nil]
    omega
  · exact bigEndian_be32 hv
  · exact bigEndian_be32 hc

theorem version_lt {version : Nat} (h : version = 2 ∨ version = 3 ∨ version = 4) :
    version < 0x100000000 := by omega

/-- Behind its header, an index is read entry by entry. -/
theorem parseIndexBytes_header {version count : Nat}
    (hv : version = 2 ∨ version = 3 ∨ version = 4) (hc : count < 0x100000000) (rest : Bytes) :
    parseIndexBytes (header version count ++ rest) = (do
      let (entries, rest) ← readEntries version count [] rest ∅
      extensionRegionStart rest
      rejectLinkExtension rest
      .ok entries) := by
  obtain ⟨hlen, hsig, hversion, hcount, hdrop⟩ := read_header (version_lt hv) hc rest
  have hsup : ¬ (version ≠ 2 ∧ version ≠ 3 ∧ version ≠ 4) := by omega
  rw [parseIndexBytes, if_neg hlen, hsig, hversion, hcount, hdrop, if_neg (not_not.mpr rfl),
    if_neg hsup]

/-- What is not refused at its header has one. -/
theorem exists_header {raw : Bytes}
    (h : ∀ e, parseIndexBytes raw = .error e → e.refusal = false) :
    ∃ version count rest, (version = 2 ∨ version = 3 ∨ version = 4) ∧ count < 0x100000000 ∧
      raw = header version count ++ rest := by
  by_cases hlen : raw.length < 12
  · have := h .truncatedHeader (by rw [parseIndexBytes, if_pos hlen])
    cases this
  by_cases hsig : raw.take 4 = signature
  swap
  · have := h .badSignature (by rw [parseIndexBytes, if_neg hlen, if_pos hsig])
    cases this
  by_cases hv : u32 raw 4 ≠ 2 ∧ u32 raw 4 ≠ 3 ∧ u32 raw 4 ≠ 4
  · have := h (.unsupportedVersion (u32 raw 4))
      (by rw [parseIndexBytes, if_neg hlen, if_neg (not_not.mpr hsig), if_pos hv])
    cases this
  have hword (i : Nat) (hi : i + 4 ≤ raw.length) : (slice raw i 4).length = 4 := by
    rw [slice, List.length_take, List.length_drop]
    omega
  have hcut (i n : Nat) : slice raw i n ++ raw.drop (i + n) = raw.drop i := by
    rw [slice, ← List.drop_drop, List.take_append_drop]
  refine ⟨u32 raw 4, u32 raw 8, raw.drop 12, by omega, ?_, ?_⟩
  · have hlt := bigEndian_lt (b := slice raw 8 4)
    rw [hword 8 (by omega)] at hlt
    exact hlt
  · rw [header, ← hsig, u32, u32, be32_bigEndian (hword 4 (by omega)),
      be32_bigEndian (hword 8 (by omega)), List.append_assoc, List.append_assoc, hcut, hcut,
      List.take_append_drop]

/-- A layout whose entries pass the checks is accepted. -/
theorem parseIndexBytes_layout {raw trailer : Bytes} {version : Nat} {fs : List Fields}
    {xs : List Extension} (h : Layout raw version fs xs trailer)
    (hc : ∀ f ∈ fs, Checked version f) :
    parseIndexBytes raw = .ok (collect ∅ (readAll version [] fs)) := by
  obtain ⟨prev', hloop⟩ := readEntries_append (fun f hf => ⟨h.fits f hf, hc f hf⟩) 0 []
    (xs.flatMap Extension.bytes ++ trailer) ∅
  obtain ⟨hext, hlink⟩ := extensionLoop_append h.extensions h.trailer
  have hlen : ¬ (xs.flatMap Extension.bytes ++ trailer).length < shaLen := by
    rw [List.length_append, h.trailer]
    omega
  rw [h.raw, parseIndexBytes_header h.supported h.count, ← Nat.add_zero fs.length, hloop]
  simp only [readEntries, bind, Except.bind, extensionRegionStart, if_neg hlen, hext, hlink]

/-- What is accepted is laid out, and its entries pass the checks. -/
theorem exists_layout {raw : Bytes} {t : Table PyStr IndexEntry}
    (h : parseIndexBytes raw = .ok t) :
    ∃ version fs xs trailer, Layout raw version fs xs trailer ∧
      (∀ f ∈ fs, Checked version f) ∧ t = collect ∅ (readAll version [] fs) := by
  obtain ⟨version, count, rest, hv, hc, rfl⟩ := exists_header
    (fun e he => by rw [h] at he; cases he)
  rw [parseIndexBytes_header hv hc] at h
  cases hloop : readEntries version count [] rest ∅ with
  | error e =>
    simp only [hloop, bind, Except.bind] at h
    cases h
  | ok q =>
    obtain ⟨t', behind⟩ := q
    simp only [hloop, bind, Except.bind] at h
    cases hext : extensionRegionStart behind with
    | error e =>
      simp only [hext] at h
      cases h
    | ok u =>
      simp only [hext] at h
      cases hlink : rejectLinkExtension behind with
      | error e =>
        simp only [hlink] at h
        cases h
      | ok u =>
        simp only [hlink] at h
        obtain rfl := Except.ok.inj h
        rw [extensionRegionStart] at hext
        split_ifs at hext with hlen
        rw [not_lt] at hlen
        have hne : behind ≠ [] := by
          rintro rfl
          exact absurd hlen (by decide)
        obtain ⟨xs, trailer, hxs, ht, rfl⟩ := exists_extensions hext hlen
        obtain ⟨fs, rfl, rfl, hfs, rfl⟩ := readEntries_eq_ok hne hloop
        exact ⟨version, fs, xs, trailer,
          ⟨hv, hc, rfl, fun f hf => (hfs f hf).1, hxs, ht⟩, fun f hf => (hfs f hf).2, rfl⟩

/-- The search for the extensions fails by refusals only. -/
theorem refusal_of_extensionRegionStart {rest : Bytes} {e : ParseError}
    (h : extensionRegionStart rest = .error e) : e.refusal = true := by
  rw [extensionRegionStart] at h
  split_ifs at h with hlen
  · cases h
    rfl
  · induction hn : rest.length using Nat.strong_induction_on generalizing rest with
    | _ n ih =>
      rw [extensionLoop] at h
      split_ifs at h with hle hsig hover
      · cases h
        rfl
      · cases h
        rfl
      · exact ih _ (by rw [List.length_drop]; omega) (by rw [List.length_drop]; omega) h rfl

/-- The check for a link extension fails by refusals only. -/
theorem refusal_of_rejectLinkExtension {rest : Bytes} {e : ParseError}
    (h : rejectLinkExtension rest = .error e) : e.refusal = true := by
  induction hn : rest.length using Nat.strong_induction_on generalizing rest with
  | _ n ih =>
    rw [rejectLinkExtension] at h
    split_ifs at h with hle hsig
    · cases h
      rfl
    · exact ih _ (by rw [List.length_drop]; omega) h rfl

/-- The `ValueError` is a name without an end. -/
theorem unterminated_iff {raw : Bytes} :
    Unterminated raw ↔ ∃ e, parseIndexBytes raw = .error e ∧ e.refusal = false := by
  constructor
  · rintro ⟨version, count, fs, f, hv, hc, hlt, rfl, hfs, hf⟩
    obtain ⟨left, rfl⟩ : ∃ left, count = fs.length + (left + 1) := ⟨count - fs.length - 1, by omega⟩
    obtain ⟨prev', hloop⟩ := readEntries_append hfs (left + 1) [] (f.head ++ f.text) ∅
    refine ⟨.valueError, ?_, rfl⟩
    rw [parseIndexBytes_header hv hc, hloop, readEntries, Fields.readEntry_unterminated hf]
    rfl
  · rintro ⟨e, herr, he⟩
    obtain ⟨version, count, rest, hv, hc, rfl⟩ := exists_header fun e' he' => by
      rw [herr] at he'
      rw [← Except.error.inj he', he]
    rw [parseIndexBytes_header hv hc] at herr
    cases hloop : readEntries version count [] rest ∅ with
    | error e' =>
      simp only [hloop, bind, Except.bind] at herr
      cases herr
      obtain ⟨fs, f, hlt, rfl, hfs, hf⟩ := readEntries_eq_error he hloop
      exact ⟨version, count, fs, f, hv, hc, hlt, rfl, hfs, hf⟩
    | ok q =>
      -- behind the entries there are refusals only
      simp only [hloop, bind, Except.bind] at herr
      cases hext : extensionRegionStart q.2 with
      | error e' =>
        simp only [hext] at herr
        cases herr
        rw [refusal_of_extensionRegionStart hext] at he
        cases he
      | ok u =>
        simp only [hext] at herr
        cases hlink : rejectLinkExtension q.2 with
        | error e' =>
          simp only [hlink] at herr
          cases herr
          rw [refusal_of_rejectLinkExtension hlink] at he
          cases he
        | ok u =>
          simp only [hlink] at herr
          cases herr

/-! ### One layout -/

/-- An entry ends where its fields say. -/
theorem Fields.bytes_append_inj {version : Nat} {f g : Fields} {r r' : Bytes}
    (hf : f.Fits version ∧ f.pad.length = f.padLength version)
    (hg : g.Fits version ∧ g.pad.length = g.padLength version)
    (h : f.bytes ++ r = g.bytes ++ r') : f = g ∧ r = r' := by
  obtain ⟨hf, hfpad⟩ := hf
  obtain ⟨hg, hgpad⟩ := hg
  simp only [bytes, head, List.append_assoc, List.cons_append] at h
  obtain ⟨hstat, h⟩ := List.append_inj h (hf.stat.trans hg.stat.symm)
  obtain ⟨hmode, h⟩ := List.append_inj h (hf.mode.trans hg.mode.symm)
  obtain ⟨howner, h⟩ := List.append_inj h (hf.owner.trans hg.owner.symm)
  obtain ⟨hsha, h⟩ := List.append_inj h (hf.sha.trans hg.sha.symm)
  obtain ⟨hflags, h⟩ := List.append_inj h (hf.flags.trans hg.flags.symm)
  obtain ⟨hxflags, h⟩ := List.append_inj h (by
    rw [hf.xflags, hg.xflags, flagWord, flagWord, hflags])
  have hstrip : f.strip = g.strip := by
    by_cases hversion : version = 4
    · have hcode := congrArg decodeVarint h
      rw [decodeVarint_append (hf.compressed hversion),
        decodeVarint_append (hg.compressed hversion)] at hcode
      have hbehind := (Prod.mk.inj (Option.some.inj hcode)).2
      rw [hbehind] at h
      exact List.append_cancel_right h
    · rw [hf.plain hversion, hg.plain hversion]
  rw [hstrip] at h
  have hname := congrArg untilZero (List.append_cancel_left h)
  rw [untilZero_text hf.text, untilZero_text hg.text] at hname
  obtain ⟨htext, h⟩ := Prod.mk.inj (Except.ok.inj hname)
  obtain ⟨hpad, hrest⟩ := List.append_inj h (by
    rw [hfpad, hgpad, padLength, padLength, hxflags, htext])
  cases f
  cases g
  simp only at hstat hmode howner hsha hflags hxflags hstrip htext hpad
  subst hstat hmode howner hsha hflags hxflags hstrip htext hpad
  exact ⟨rfl, hrest⟩

/-- Entries of the format are told apart by their bytes. -/
theorem flatMap_bytes_inj {version : Nat} {fs gs : List Fields} {r r' : Bytes}
    (hf : ∀ f ∈ fs, f.Fits version ∧ f.pad.length = f.padLength version)
    (hg : ∀ g ∈ gs, g.Fits version ∧ g.pad.length = g.padLength version)
    (hlen : fs.length = gs.length)
    (h : fs.flatMap Fields.bytes ++ r = gs.flatMap Fields.bytes ++ r') : fs = gs := by
  induction fs generalizing gs with
  | nil => exact (List.length_eq_zero_iff.mp hlen.symm).symm
  | cons f fs ih =>
    cases gs with
    | nil => cases hlen
    | cons g gs =>
      rw [List.flatMap_cons, List.flatMap_cons, List.append_assoc, List.append_assoc] at h
      obtain ⟨rfl, hrest⟩ := Fields.bytes_append_inj (hf f List.mem_cons_self)
        (hg g List.mem_cons_self) h
      rw [ih (fun x hx => hf x (List.mem_cons_of_mem _ hx))
        (fun x hx => hg x (List.mem_cons_of_mem _ hx)) (Nat.succ.inj hlen) hrest]

/-- A file is laid out in one way at most. -/
theorem Layout.unique {raw t t' : Bytes} {v v' : Nat} {fs gs : List Fields}
    {xs ys : List Extension} (h : Layout raw v fs xs t) (h' : Layout raw v' gs ys t') :
    v = v' ∧ fs = gs := by
  have heq := h.raw.symm.trans h'.raw
  obtain ⟨-, -, hv, hc, hd⟩ := read_header (version_lt h.supported) h.count
    (fs.flatMap Fields.bytes ++ (xs.flatMap Extension.bytes ++ t))
  obtain ⟨-, -, hv', hc', hd'⟩ := read_header (version_lt h'.supported) h'.count
    (gs.flatMap Fields.bytes ++ (ys.flatMap Extension.bytes ++ t'))
  rw [heq] at hv hc hd
  obtain rfl := hv.symm.trans hv'
  exact ⟨rfl, flatMap_bytes_inj h.fits h'.fits (hc.symm.trans hc') (hd.symm.trans hd')⟩

/-! ### What the names come to -/

/-- Below version 4 the previous name does not matter. -/
theorem readAll_congr {version : Nat} (hversion : version ≠ 4) (prev prev' : Bytes)
    (fs : List Fields) : readAll version prev fs = readAll version prev' fs := by
  cases fs with
  | nil => rfl
  | cons f fs =>
    rw [readAll, readAll, Fields.readAs, Fields.readAs]
    simp only [if_neg hversion]
    rw [readAll_congr hversion prev prev' fs]

/-- Where no entry takes off more than there is, the names are those of the format. -/
theorem readAll_of_meant {version : Nat} {prev : Bytes} {fs : List Fields}
    (h : Meant version prev fs) :
    readAll version prev fs = (names version prev fs).zip (fs.map Fields.entry) := by
  induction fs generalizing prev with
  | nil => rfl
  | cons f fs ih =>
    obtain ⟨hstrip, -, hrest⟩ := h
    have hname : f.readAs version prev = f.name version prev := by
      rw [Fields.readAs, Fields.name]
      by_cases hversion : version = 4
      · rw [if_pos hversion, if_pos hversion]
        split_ifs with hzero
        · rw [stripped, if_pos (hstrip hversion)]
        · rw [not_not.mp hzero, Nat.sub_zero, List.take_length]
      · rw [if_neg hversion, if_neg hversion]
    rw [readAll, names, List.map_cons, List.zip_cons_cons, hname, ← ih hrest]
    split_ifs with hversion
    · rfl
    · rw [readAll_congr hversion]

/-- Entries with names of their own are one entry each of the map. -/
theorem entries_collect {es : List (Bytes × IndexEntry)} (t : Table PyStr IndexEntry)
    (hnodup : (t.keys ++ es.map fun e => fsDecode e.1).Nodup) :
    (collect t es).entries = t.entries ++ es.map fun e => (fsDecode e.1, e.2) := by
  induction es generalizing t with
  | nil => simp [collect]
  | cons e es ih =>
    have hnew : fsDecode e.1 ∉ t.keys := fun hmem =>
      (List.nodup_append.mp hnodup).2.2 _ hmem _ List.mem_cons_self rfl
    have hset := Table.entries_set_of_not_mem hnew e.2
    have hkeys : (t.set (fsDecode e.1) e.2).keys = t.keys ++ [fsDecode e.1] := by
      rw [Table.keys, hset, List.map_append]
      rfl
    change (collect (t.set (fsDecode e.1) e.2) es).entries = _
    rw [ih _ (by rw [hkeys, List.append_assoc]; exact hnodup), hset, List.append_assoc]
    rfl

theorem length_names (version : Nat) (prev : Bytes) (fs : List Fields) :
    (names version prev fs).length = fs.length := by
  induction fs generalizing prev with
  | nil => rfl
  | cons f fs ih => rw [names, List.length_cons, ih, List.length_cons]

/-- The map of a sound index. -/
theorem entries_of_sound {version : Nat} {fs : List Fields} (h : Sound version fs) :
    (collect ∅ (readAll version [] fs)).entries =
      ((names version [] fs).map fsDecode).zip (fs.map Fields.entry) := by
  have hlen : (names version [] fs).length = (fs.map Fields.entry).length := by
    rw [length_names, List.length_map]
  have hmap : (((names version [] fs).zip (fs.map Fields.entry)).map fun e => fsDecode e.1) =
      (names version [] fs).map fsDecode := by
    change ((names version [] fs).zip (fs.map Fields.entry)).map (fsDecode ∘ Prod.fst) = _
    rw [← List.map_map, List.map_fst_zip hlen.le]
  rw [readAll_of_meant h.meant, entries_collect]
  · rw [List.zip_map_left]
    rfl
  · change ([] ++ _ : List PyStr).Nodup
    rw [List.nil_append, hmap]
    refine List.Nodup.map fsDecode_injective (h.ascending.imp fun hlt heq => ?_)
    rw [heq] at hlt
    exact List.lt_irrefl _ hlt

/-! ### The parser is exact where nothing else is wrong -/

/-- **The parser and the format.** The parser is exact or refuses on exactly the files in which it
comes to no name without an end, and whose entries, where they pass its checks, are sound. -/
theorem state_exact_iff (raw : Bytes) : Exact raw ↔ Careful raw := by
  constructor
  · intro h
    refine ⟨fun hun => ?_, fun version fs xs trailer hlayout hc => ?_⟩
    · obtain ⟨e, herr, he⟩ := unterminated_iff.mp hun
      rw [Exact, herr] at h
      change e.refusal = true at h
      rw [he] at h
      cases h
    · rw [Exact, parseIndexBytes_layout hlayout hc] at h
      obtain ⟨version', fs', xs', trailer', hlayout', hsound, -⟩ := h
      obtain ⟨rfl, rfl⟩ := hlayout.unique hlayout'
      exact hsound
  · intro h
    rw [Exact]
    cases hparse : parseIndexBytes raw with
    | error e =>
      by_contra hrefusal
      exact h.terminated (unterminated_iff.mpr ⟨e, hparse, Bool.eq_false_iff.mpr hrefusal⟩)
    | ok t =>
      obtain ⟨version, fs, xs, trailer, hlayout, hc, rfl⟩ := exists_layout hparse
      have hsound := h.sound version fs xs trailer hlayout hc
      exact ⟨version, fs, xs, trailer, hlayout, hsound, entries_of_sound hsound⟩

/-- An entry of version 4 that takes one byte off a previous name which is empty. -/
def overlong : Fields :=
  ⟨List.replicate 24 0, [0, 0, 0x81, 0xa4], List.replicate 12 0, List.replicate 20 0, [0, 1], [],
    [1], [0x61], []⟩

/-- The index of that entry. -/
def overlongIndex : Bytes :=
  header 4 1 ++ (overlong.bytes ++ List.replicate 20 0)

/-- It is read as an index of the entry `a`. -/
theorem overlong_strip_accepted : ¬ Exact overlongIndex := by
  have hlayout : Layout overlongIndex 4 [overlong] [] (List.replicate 20 0) := by
    refine ⟨by decide, by decide, rfl, fun f hf => ?_, by simp, rfl⟩
    obtain rfl := List.mem_singleton.mp hf
    exact ⟨⟨⟨rfl, rfl, rfl, rfl, rfl, by decide, rfl⟩,
      fun _ => ⟨[], 1, rfl, by simp, by decide⟩, fun h => absurd rfl h, by decide⟩, rfl⟩
  have hc : ∀ f ∈ [overlong], Checked 4 f := by
    intro f hf
    obtain rfl := List.mem_singleton.mp hf
    exact ⟨rfl, fun h => absurd rfl h⟩
  intro h
  rw [Exact, parseIndexBytes_layout hlayout hc] at h
  obtain ⟨version, fs, xs, trailer, hlayout', hsound, -⟩ := h
  obtain ⟨rfl, rfl⟩ := hlayout.unique hlayout'
  exact absurd (hsound.meant.1 rfl) (by decide)

end StateIndex

end Git

end CoordinatorCore
