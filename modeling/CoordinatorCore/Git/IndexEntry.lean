import CoordinatorCore.Git.Scoped

/-!
# Well-formed indexes

An index as git writes it, from its entries: each entry carries in its type what makes its bytes
readable, and `indexBytes` puts header, entries and tail together. The reader gets the entries back
(`readEntries_indexBytes`), whatever stands behind them.
-/

namespace CoordinatorCore

open PyStr

namespace Git

/-! ### Numbers -/

/-- `struct.pack(">H", n)`. -/
def be16 (n : Nat) : Bytes := [(n / 0x100).toUInt8, n.toUInt8]

/-- `struct.pack(">I", n)`. -/
def be32 (n : Nat) : Bytes :=
  [(n / 0x1000000).toUInt8, (n / 0x10000).toUInt8, (n / 0x100).toUInt8, n.toUInt8]

/-- Two bytes read back as the number they write. -/
theorem bigEndian_be16 {n : Nat} (h : n < 0x10000) : bigEndian (be16 n) = n := by
  simp only [bigEndian, be16, List.foldl_cons, List.foldl_nil, Nat.toUInt8, UInt8.toNat_ofNat']
  omega

/-- Four bytes read back as the number they write. -/
theorem bigEndian_be32 {n : Nat} (h : n < 0x100000000) : bigEndian (be32 n) = n := by
  simp only [bigEndian, be32, List.foldl_cons, List.foldl_nil, Nat.toUInt8, UInt8.toNat_ofNat']
  omega

@[simp] theorem length_be16 (n : Nat) : (be16 n).length = 2 := rfl

@[simp] theorem length_be32 (n : Nat) : (be32 n).length = 4 := rfl

/-- A slice behind a prefix. -/
theorem slice_append (pre : Bytes) (b : Bytes) (i n : Nat) :
    slice (pre ++ b) (pre.length + i) n = slice b i n := by
  rw [slice, slice, List.drop_length_add_append]

/-- The slice at the front. -/
theorem slice_self (b post : Bytes) : slice (b ++ post) 0 b.length = b := by
  rw [slice, List.drop_zero, List.take_left]

/-! ### Entries -/

/-- An entry: its bytes from the times to the hash, its flags, and its name. -/
structure Entry where
  stat : Bytes
  assumeValid : Bool
  stage : Nat
  xflags : Option Nat
  name : Bytes
  stat_length : stat.length = 60
  stage_lt : stage < 4
  xflags_lt : ∀ x ∈ xflags, x < 0x10000
  no_zero : 0 ∉ name

namespace Entry

/-- The flag word of an entry; the length of a long name is cut off. -/
def flags (e : Entry) : Nat :=
  e.assumeValid.toNat * 0x8000 + e.xflags.isSome.toNat * 0x4000 + e.stage * 0x1000 +
    min e.name.length 0xfff

/-- The extended flag word. -/
def xflagBytes (e : Entry) : Bytes := (e.xflags.map be16).getD []

/-- The zeros behind a name: one at least, up to the next multiple of eight. -/
def padding (e : Entry) : Bytes :=
  List.replicate (8 - (entryFixedLen + e.xflagBytes.length + e.name.length) % 8) 0

def bytes (e : Entry) : Bytes := e.stat ++ be16 e.flags ++ e.xflagBytes ++ e.name ++ e.padding

/-- What a read of the entry at an offset says. -/
def rawAt (e : Entry) (start : Nat) : RawEntry := ⟨start, e.flags, e.xflags.getD 0, e.name⟩

/-- What the map of the index says of the entry. -/
def identity (e : Entry) (withFlags : Bool) : IndexIdentity where
  mode := u32 e.stat 24
  sha := hex (slice e.stat 40 20)
  size := u32 e.stat 36
  mtime := u32 e.stat 8
  mtimeNsec := u32 e.stat 12
  flags :=
    if withFlags then
      some ⟨e.assumeValid, e.xflags.getD 0 / 0x4000 % 2 = 1, e.xflags.getD 0 / 0x2000 % 2 = 1⟩
    else none

variable (e : Entry)

/-- The flags fit into two bytes. -/
theorem flags_lt : e.flags < 0x10000 := by
  have := e.stage_lt
  have := Nat.min_le_right e.name.length 0xfff
  have := Bool.toNat_le e.assumeValid
  have := Bool.toNat_le e.xflags.isSome
  rw [flags]
  omega

/-- The extended bit says whether there are extended flags. -/
theorem isExtended_flags : isExtended e.flags = e.xflags.isSome := by
  have := e.stage_lt
  have := Nat.min_le_right e.name.length 0xfff
  have := Bool.toNat_le e.assumeValid
  rw [isExtended, flags]
  cases e.xflags.isSome
  · simp only [Bool.toNat_false, decide_eq_false_iff_not]
    omega
  · simp only [Bool.toNat_true, decide_eq_true_eq]
    omega

/-- The stage is read back from the flags. -/
theorem stageOf_flags : stageOf e.flags = e.stage := by
  have := e.stage_lt
  have := Nat.min_le_right e.name.length 0xfff
  rw [stageOf, flags]
  omega

/-- The name length in the flags is cut at `0xfff`. -/
theorem flags_mod : e.flags % 0x1000 = min e.name.length 0xfff := by
  have := Nat.min_le_right e.name.length 0xfff
  rw [flags]
  omega

/-- The highest bit says whether the entry is assumed valid. -/
theorem assumeValid_flags : (e.flags / 0x8000 % 2 = 1) ↔ e.assumeValid = true := by
  have := e.stage_lt
  have := Nat.min_le_right e.name.length 0xfff
  have := Bool.toNat_le e.xflags.isSome
  rw [flags]
  cases e.assumeValid
  · simp only [Bool.toNat_false, Bool.false_eq_true, iff_false]
    omega
  · simp only [Bool.toNat_true, iff_true]
    omega

theorem length_xflagBytes : e.xflagBytes.length = if e.xflags.isSome then 2 else 0 := by
  rw [xflagBytes]
  cases e.xflags <;> rfl

/-- The length of an entry: a multiple of eight behind its name. -/
theorem length_bytes :
    e.bytes.length = (entryFixedLen + e.xflagBytes.length + e.name.length + 8) / 8 * 8 := by
  simp only [bytes, padding, List.length_append, List.length_replicate, length_be16, e.stat_length,
    entryFixedLen]
  omega

end Entry

/-! ### Reading an entry -/

section

variable (pre : Bytes) (e : Entry) (post : Bytes)

/-- The bytes of an entry with what follows them, cut at one of its fields. -/
theorem drop_flags :
    (pre ++ e.bytes ++ post).drop (pre.length + 60) =
      be16 e.flags ++ (e.xflagBytes ++ e.name ++ e.padding ++ post) := by
  rw [List.append_assoc, List.drop_length_add_append, Entry.bytes]
  simp only [List.append_assoc]
  rw [List.drop_left' e.stat_length]

/-- Behind the fixed fields stand the extended flags. -/
theorem drop_xflags :
    (pre ++ e.bytes ++ post).drop (pre.length + entryFixedLen) =
      e.xflagBytes ++ (e.name ++ e.padding ++ post) := by
  have h := congrArg (List.drop 2) (drop_flags pre e post)
  rw [List.drop_drop, List.drop_left' (length_be16 _)] at h
  simpa [entryFixedLen, Nat.add_assoc] using h

/-- Behind the extended flags stands the name. -/
theorem drop_name :
    (pre ++ e.bytes ++ post).drop (pre.length + entryFixedLen + e.xflagBytes.length) =
      e.name ++ (e.padding ++ post) := by
  have h := congrArg (List.drop e.xflagBytes.length) (drop_xflags pre e post)
  rw [List.drop_drop, List.drop_left] at h
  simpa using h

/-- The flags stand sixty bytes behind the start. -/
theorem u16_flags : u16 (pre ++ e.bytes ++ post) (pre.length + 60) = e.flags := by
  rw [u16, slice, drop_flags, List.take_left' (length_be16 _), bigEndian_be16 e.flags_lt]

/-- The padding has a zero. -/
theorem padding_eq : ∃ zeros, e.padding = 0 :: zeros := by
  rw [Entry.padding]
  obtain ⟨n, hn⟩ : ∃ n, 8 - (entryFixedLen + e.xflagBytes.length + e.name.length) % 8 = n + 1 :=
    ⟨7 - (entryFixedLen + e.xflagBytes.length + e.name.length) % 8, by omega⟩
  exact ⟨List.replicate n 0, by rw [hn, List.replicate_succ]⟩

/-- The name ends at the first zero. -/
theorem takeWhile_name : (e.name ++ (e.padding ++ post)).takeWhile (· ≠ 0) = e.name := by
  obtain ⟨zeros, hz⟩ := padding_eq e
  rw [List.takeWhile_append_of_pos, hz, List.cons_append, List.takeWhile_cons_of_neg (by simp),
    List.append_nil]
  intro a ha
  simpa using fun h : a = 0 => e.no_zero (h ▸ ha)

theorem zero_mem_name : (0 : UInt8) ∈ e.name ++ (e.padding ++ post) := by
  obtain ⟨zeros, hz⟩ := padding_eq e
  simp [hz]

/-- The name begins where the reader looks for it. -/
theorem nameStart_bytes {version : Nat} (hv : e.xflags.isSome = true → 3 ≤ version) :
    nameStart (pre ++ e.bytes ++ post) version pre.length e.flags =
      .ok (pre.length + entryFixedLen + e.xflagBytes.length) := by
  have hlen := e.length_bytes
  have hx := e.length_xflagBytes
  have hraw : (pre ++ e.bytes ++ post).length = pre.length + e.bytes.length + post.length := by
    rw [List.length_append, List.length_append]
  rw [nameStart, e.isExtended_flags]
  cases hs : e.xflags.isSome with
  | false =>
    rw [hs] at hx
    rw [hx]
    rfl
  | true =>
    rw [hs, if_pos rfl] at hx
    rw [if_pos rfl, if_neg (Nat.not_lt.mpr (hv hs)), if_neg (by omega), hx]
    rfl

/-- The extended flags are read back. -/
theorem xflags_bytes :
    (if e.xflags.isSome then u16 (pre ++ e.bytes ++ post) (pre.length + entryFixedLen) else 0) =
      e.xflags.getD 0 := by
  cases hs : e.xflags with
  | none => rfl
  | some x =>
    have hx : e.xflagBytes = be16 x := by rw [Entry.xflagBytes, hs]; rfl
    rw [Option.isSome_some, if_pos rfl, u16, slice, drop_xflags, hx,
      List.take_left' (length_be16 x), bigEndian_be16 (e.xflags_lt x (by rw [hs]; rfl))]
    rfl

/-- The reader gets an entry back, with the offset behind it. -/
theorem readEntry_bytes {version : Nat} (hv : e.xflags.isSome = true → 3 ≤ version) :
    readEntry (pre ++ e.bytes ++ post) version pre.length =
      .ok (e.rawAt pre.length, pre.length + e.bytes.length) := by
  have hlen := e.length_bytes
  have hraw : (pre ++ e.bytes ++ post).length = pre.length + e.bytes.length + post.length := by
    rw [List.length_append, List.length_append]
  have hfield : ¬(e.flags % 0x1000 ≠ 0xfff ∧ e.name.length ≠ e.flags % 0x1000) := by
    rw [e.flags_mod]
    omega
  have hnext : pre.length + entryFixedLen + e.xflagBytes.length + e.name.length + 1 +
      (8 - (pre.length + entryFixedLen + e.xflagBytes.length - pre.length + e.name.length + 1) % 8)
        % 8 = pre.length + e.bytes.length := by omega
  rw [readEntry, if_neg (by omega)]
  simp only [u16_flags, nameStart_bytes pre e post hv, e.isExtended_flags, xflags_bytes, drop_name,
    takeWhile_name, zero_mem_name, not_true, if_false, hfield, hnext, bind, Except.bind]
  rfl

/-- What the map says of an entry that was read. -/
theorem identity_rawAt (withFlags : Bool) :
    (e.rawAt pre.length).identity (pre ++ e.bytes ++ post) withFlags = e.identity withFlags := by
  have hslice : ∀ i n, i + n ≤ 60 →
      slice (pre ++ e.bytes ++ post) (pre.length + i) n = slice e.stat i n := by
    intro i n hin
    rw [List.append_assoc, slice_append, Entry.bytes]
    simp only [List.append_assoc, slice]
    rw [List.drop_append_of_le_length (by rw [e.stat_length]; omega),
      List.take_append_of_le_length (by rw [List.length_drop, e.stat_length]; omega)]
  simp only [RawEntry.identity, Entry.rawAt, Entry.identity, u32, hslice 24 4 (by decide),
    hslice 40 20 (by decide), hslice 36 4 (by decide), hslice 8 4 (by decide),
    hslice 12 4 (by decide), e.assumeValid_flags, Bool.decide_eq_true]
  cases withFlags <;> rfl

end

/-! ### Whole indexes -/

/-- An index with these entries, and anything behind them. -/
def indexBytes (version : Nat) (es : List Entry) (tail : Bytes) : Bytes :=
  signature ++ be32 version ++ be32 es.length ++ es.flatMap Entry.bytes ++ tail

/-- What a read of the entries from an offset on says. -/
def rawFrom : Nat → List Entry → List RawEntry
  | _, [] => []
  | start, e :: es => e.rawAt start :: rawFrom (start + e.bytes.length) es

/-- A raw entry comes from an entry at its start. -/
theorem mem_rawFrom {es : List Entry} {start : Nat} {r : RawEntry} (h : r ∈ rawFrom start es) :
    ∃ pre e post, es = pre ++ e :: post ∧ r = e.rawAt (start + (pre.flatMap Entry.bytes).length) := by
  induction es generalizing start with
  | nil => cases h
  | cons e es ih =>
    rcases List.mem_cons.mp h with rfl | h
    · exact ⟨[], e, es, rfl, rfl⟩
    · obtain ⟨pre, e', post, rfl, rfl⟩ := ih h
      refine ⟨e :: pre, e', post, rfl, ?_⟩
      rw [List.flatMap_cons, List.length_append, Nat.add_assoc]

/-- An order of the names is one of what is read. -/
theorem pairwise_rawFrom {R : RawEntry → RawEntry → Prop} {S : Entry → Entry → Prop}
    (hRS : ∀ a b i j, S a b → R (a.rawAt i) (b.rawAt j)) {es : List Entry} (h : es.Pairwise S)
    (start : Nat) : (rawFrom start es).Pairwise R := by
  induction es generalizing start with
  | nil => exact List.Pairwise.nil
  | cons e es ih =>
    obtain ⟨hfirst, h⟩ := List.pairwise_cons.mp h
    refine List.pairwise_cons.mpr ⟨fun r hr => ?_, ih h _⟩
    obtain ⟨pre, e', post, rfl, rfl⟩ := mem_rawFrom hr
    exact hRS e e' _ _ (hfirst e' (by simp))

/-- Entries of the format are read back in any surroundings. -/
theorem readEntries_append {version : Nat} {es : List Entry}
    (hv : ∀ e ∈ es, e.xflags.isSome = true → 3 ≤ version) (pre post : Bytes) :
    readEntries (pre ++ es.flatMap Entry.bytes ++ post) version es.length pre.length =
      .ok (rawFrom pre.length es) := by
  induction es generalizing pre with
  | nil => rfl
  | cons e es ih =>
    have hraw : pre ++ (e :: es).flatMap Entry.bytes ++ post =
        pre ++ e.bytes ++ (es.flatMap Entry.bytes ++ post) := by
      simp
    have hread := readEntry_bytes pre e (es.flatMap Entry.bytes ++ post)
      (hv e List.mem_cons_self)
    have hrest := ih (fun e' he' => hv e' (List.mem_cons_of_mem e he')) (pre ++ e.bytes)
    rw [List.length_append, List.append_assoc _ (es.flatMap Entry.bytes)] at hrest
    rw [hraw, List.length_cons, readEntries, hread]
    simp only [bind, Except.bind, hrest]
    rfl

section

variable {version : Nat} {es : List Entry} (tail : Bytes)

/-- What stands in the header. -/
theorem header_indexBytes (hversion : version = 2 ∨ version = 3) (hcount : es.length < 0x100000000) :
    12 ≤ (indexBytes version es tail).length ∧ (indexBytes version es tail).take 4 = signature ∧
      u32 (indexBytes version es tail) 4 = version ∧
      u32 (indexBytes version es tail) 8 = es.length := by
  refine ⟨?_, ?_, ?_, ?_⟩
  · simp only [indexBytes, List.length_append, length_be32, signature, List.length_cons,
      List.length_nil]
    omega
  · simp only [indexBytes, List.append_assoc]
    exact List.take_left' rfl
  · have hslice : slice (indexBytes version es tail) 4 4 = be32 version := by
      simp only [indexBytes, List.append_assoc]
      rfl
    rw [u32, hslice, bigEndian_be32 (by omega)]
  · have hslice : slice (indexBytes version es tail) 8 4 = be32 es.length := by
      simp only [indexBytes, List.append_assoc]
      rfl
    rw [u32, hslice, bigEndian_be32 hcount]

/-- The header of a written index is read back. -/
theorem readHeader_indexBytes (hversion : version = 2 ∨ version = 3)
    (hcount : es.length < 0x100000000) :
    readHeader (indexBytes version es tail) = .ok (version, es.length) := by
  obtain ⟨hlen, htake, hver, hnum⟩ := header_indexBytes tail hversion hcount
  rw [readHeader]
  rcases hversion with rfl | rfl <;>
    simp [Nat.not_lt.mpr hlen, htake, hver, hnum, pure, Except.pure]

end

end Git

end CoordinatorCore
