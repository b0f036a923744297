import CoordinatorCore.Git.PackFile

/-!
# Objects of a pack are read back

Every object of a pack that `_assemble_pack` writes is found through its index and read with its
kind and payload, and no other sha is found (`writeReads_iff`), if and only if the last object starts
below 2 ^ 31. `_flush_pack` bounds the sum of the entries, which leaves out the header of the pack:
behind entries of nearly that size the last object may start at 2 ^ 31 or a little further on, where
the reader takes its offset for a reference (`large_offset_written`).
-/

namespace CoordinatorCore

open Machine PyStr

namespace Git

namespace PackFile

/-! ### Names -/

private theorem hexValue_hexDigit (n : Fin 16) :
    hexValue (hexDigit n) = some n.val ∧ isHexSpace (hexDigit n) = false := by
  revert n
  decide

/-- A sha printed in hexadecimal reads back. -/
theorem fromHex_hex (b : Bytes) : fromHex (hex b) = some b := by
  induction b with
  | nil => rfl
  | cons x b ih =>
    have hx := x.toNat_lt
    obtain ⟨hhigh, hspace⟩ := hexValue_hexDigit ⟨x.toNat / 16, by omega⟩
    obtain ⟨hlow, -⟩ := hexValue_hexDigit ⟨x.toNat % 16, by omega⟩
    have hval : (x.toNat / 16 * 16 + x.toNat % 16).toUInt8 = x := by
      rw [Nat.div_add_mod']
      exact UInt8.ofNat_toNat
    change fromHex (hexDigit (x.toNat / 16) :: hexDigit (x.toNat % 16) :: hex b) = _
    rw [fromHex, if_neg (by rw [hspace]; exact Bool.false_ne_true)]
    simp only [hhigh, hlow, ih, hval, Option.bind_eq_bind, Option.bind_some, Option.pure_def]

theorem RawSha.first_lt (s : RawSha) : s.first < 0x100 := UInt8.toNat_lt _

/-! ### Entries -/

/-- A size is read back, with the first byte. -/
theorem readSize_entryHeader (first size : Nat) (hfirst : first < 0x80) :
    ∃ b t, entryHeader first size = b :: t ∧ b.toNat % 0x80 = first ∧ ∀ usize shift rest,
      readSize b.toNat usize shift (t ++ rest) = some (usize + size * 2 ^ shift, rest) := by
  induction first, size using entryHeader.induct with
  | case1 first =>
    have hb : first.toUInt8.toNat = first := by
      simp only [Nat.toUInt8, UInt8.toNat_ofNat']
      omega
    refine ⟨first.toUInt8, [], by rw [entryHeader, if_pos rfl], by omega,
      fun usize shift rest => ?_⟩
    unfold readSize
    rw [List.nil_append, if_pos (by omega), Nat.zero_mul, Nat.add_zero]
  | case2 first size hsize ih =>
    obtain ⟨b, t, hheader, hb, hread⟩ := ih (Nat.mod_lt _ (by decide))
    have hmark : (first + 0x80).toUInt8.toNat = first + 0x80 := by
      simp only [Nat.toUInt8, UInt8.toNat_ofNat']
      omega
    refine ⟨(first + 0x80).toUInt8, b :: t, by rw [entryHeader, if_neg hsize, hheader], by omega,
      fun usize shift rest => ?_⟩
    have hpow : 2 ^ (shift + 7) = 2 ^ shift * 0x80 := Nat.pow_add 2 shift 7
    have hsplit : size * 2 ^ shift =
        size % 0x80 * 2 ^ shift + size / 0x80 * (2 ^ shift * 0x80) := by
      calc size * 2 ^ shift = (size % 0x80 + size / 0x80 * 0x80) * 2 ^ shift := by
            rw [Nat.mod_add_div']
        _ = size % 0x80 * 2 ^ shift + size / 0x80 * 0x80 * 2 ^ shift := Nat.add_mul _ _ _
        _ = size % 0x80 * 2 ^ shift + size / 0x80 * (2 ^ shift * 0x80) := by
            rw [Nat.mul_assoc, Nat.mul_comm 0x80]
    rw [List.cons_append, readSize, if_neg (by omega), hread, hb, hpow, hsplit, Nat.add_assoc]

variable {ζ : Type*} {Z : Codec UInt8 ζ}

/-- The windows reach the end of the stream. -/
theorem inflateLoop_eq {p : Bytes} (hp : Z.Inverts p) {behind : Bytes} {chunks : List Bytes} {z : ζ}
    {out : Bytes} {window : Nat} {rest : Bytes} (hfed : Z.feedAll Z.start chunks = some (z, out))
    (hrest : chunks.flatten ++ rest = Z.compress p ++ behind)
    (hlt : chunks.flatten.length < (Z.compress p).length) (hwindow : 0 < window) :
    inflateLoop Z z out window rest = .ok p := by
  induction hn : rest.length using Nat.strong_induction_on generalizing chunks z out window rest
  next n ih =>
  have hpos : 0 < rest.length := by
    have := congrArg List.length hrest
    rw [List.length_append, List.length_append] at this
    omega
  have hne : rest.take window ≠ [] := by
    rw [Ne, List.take_eq_nil_iff, not_or]
    exact ⟨by omega, List.length_pos_iff.mp hpos⟩
  have hflat : (chunks ++ [rest.take window]).flatten = chunks.flatten ++ rest.take window := by
    rw [List.flatten_append, List.flatten_singleton]
  have hsplit : (chunks ++ [rest.take window]).flatten ++ rest.drop window =
      Z.compress p ++ behind := by
    rw [hflat, List.append_assoc, List.take_append_drop, hrest]
  obtain ⟨z', out', hfeed, heof, hout⟩ :=
    hp.reads (chunks ++ [rest.take window]) behind ⟨rest.drop window, hsplit⟩
  rw [Codec.feedAll_append, hfed, Option.bind_some] at hfeed
  obtain ⟨⟨z'', b⟩, hstep, heq⟩ := Option.map_eq_some_iff.mp hfeed
  cases heq
  rw [inflateLoop, if_neg hne, hstep]
  dsimp only
  split_ifs with hend
  · rw [hout hend]
  · have hfed' : Z.feedAll Z.start (chunks ++ [rest.take window]) = some (z'', out ++ b) := by
      rw [Codec.feedAll_append, hfed, Option.bind_some, hstep, Option.map_some]
    have hlt' : (rest.drop window).length < n := by
      rw [List.length_drop]
      omega
    exact ih _ hlt' hfed' hsplit (Nat.not_le.mp fun hle => hend (heof.mpr hle)) (by omega) rfl

/-- A stream of the codec decompresses, whatever follows it and whatever the hint says. -/
theorem zlibDecompressBounded_eq {p : Bytes} (hp : Z.Inverts p) (behind : Bytes) (hint : Nat) :
    zlibDecompressBounded Z (Z.compress p ++ behind) hint = .ok p := by
  have hfed : Z.feedAll Z.start [] = some (Z.start, []) := rfl
  refine inflateLoop_eq hp hfed rfl (List.length_pos_iff.mpr hp.nonempty) ?_
  split_ifs <;> omega

/-- The kinds are numbered from one to five. -/
theorem Kind.num_lt (k : Kind) : 0 < k.num ∧ k.num < 6 := by
  cases k <;> decide

/-- The object is read where its entry starts. -/
theorem readPackObjectAt_eq (readObject : Text → Option (Text × Bytes)) {pack : Bytes}
    {offset : Nat} {kind : Kind} {p behind : Bytes} (hp : Z.Inverts p)
    (hpack : pack.drop offset = packEntry Z kind p ++ behind) (levels : Nat) :
    readPackObjectAt Z readObject pack (levels + 1) offset = .ok (kind.num, p) := by
  obtain ⟨hpos, hnum⟩ := kind.num_lt
  obtain ⟨b, t, hheader, hb, hread⟩ := readSize_entryHeader
    (kind.num * 0x10 + p.length % 0x10) (p.length / 0x10) (by omega)
  have hdrop : pack.drop offset = b :: (t ++ (Z.compress p ++ behind)) := by
    rw [hpack, packEntry, hheader, List.cons_append, List.cons_append, List.append_assoc]
  have htype : b.toNat / 0x10 % 8 = kind.num := by omega
  rw [readPackObjectAt, hdrop]
  dsimp only
  rw [hread]
  dsimp only
  rw [htype, if_neg (by omega), if_neg (by omega), zlibDecompressBounded_eq hp]
  rfl

/-! ### What is written -/

/-- Where the entries start. -/
def offsetsFrom : Nat → List PackEntry → List Nat
  | _, [] => []
  | pos, e :: es => pos :: offsetsFrom (pos + e.bytes.length) es

/-- The loop over the entries appends their bytes and collects where each begins. -/
theorem appendEntries_eq (out : Bytes) (es : List PackEntry) :
    appendEntries out es = (out ++ es.flatMap PackEntry.bytes, offsetsFrom out.length es) := by
  induction es generalizing out with
  | nil => rw [appendEntries, List.flatMap_nil, List.append_nil, offsetsFrom]
  | cons e es ih =>
    rw [appendEntries, ih, List.flatMap_cons, List.append_assoc, List.length_append, offsetsFrom]

theorem length_offsetsFrom (pos : Nat) (es : List PackEntry) :
    (offsetsFrom pos es).length = es.length := by
  induction es generalizing pos with
  | nil => rfl
  | cons e es ih => rw [offsetsFrom, List.length_cons, ih, List.length_cons]

/-- An entry starts behind those before it. -/
theorem getElem?_offsetsFrom (pos : Nat) (es : List PackEntry) (i : Nat) :
    (offsetsFrom pos es)[i]? = if i < es.length then
      some (pos + ((es.take i).map fun e => e.bytes.length).sum) else none := by
  induction es generalizing pos i with
  | nil => rfl
  | cons e es ih =>
    rw [offsetsFrom]
    cases i with
    | zero => simp
    | succ i =>
      rw [List.getElem?_cons_succ, ih]
      simp only [List.length_cons, Nat.succ_lt_succ_iff, List.take_succ_cons, List.map_cons,
        List.sum_cons, Nat.add_assoc]

/-- At its offset stands the entry. -/
theorem exists_drop_entries {out : Bytes} {es : List PackEntry} {i : Nat} {e : PackEntry}
    {offset : Nat} (hi : es[i]? = some e) (ho : (offsetsFrom out.length es)[i]? = some offset)
    (tail : Bytes) : ∃ behind,
      (out ++ es.flatMap PackEntry.bytes ++ tail).drop offset = e.bytes ++ behind := by
  induction es generalizing out i with
  | nil => cases hi
  | cons d es ih =>
    rw [offsetsFrom] at ho
    cases i with
    | zero =>
      cases hi
      cases ho
      refine ⟨es.flatMap PackEntry.bytes ++ tail, ?_⟩
      rw [List.append_assoc, List.drop_left, List.flatMap_cons, List.append_assoc]
    | succ i =>
      rw [← List.length_append] at ho
      obtain ⟨behind, hdrop⟩ := @ih (out ++ d.bytes) i hi ho
      refine ⟨behind, ?_⟩
      rw [List.flatMap_cons, ← List.append_assoc]
      exact hdrop

/-! ### The tables of the index -/

section

variable {α : Type*} {f : α → Bytes} {k : Nat}

/-- A table of equally long rows has that many bytes a row. -/
theorem length_table (hf : ∀ x, (f x).length = k) (l : List α) :
    (l.flatMap f).length = l.length * k := by
  induction l with
  | nil => rw [List.flatMap_nil, List.length_nil, List.length_nil, Nat.zero_mul]
  | cons x l ih =>
    rw [List.flatMap_cons, List.length_append, hf, ih, List.length_cons, Nat.succ_mul, Nat.add_comm]

/-- An item of a table whose items have one length. -/
theorem slice_table (hf : ∀ x, (f x).length = k) {l : List α} {i : Nat} {x : α}
    (hi : l[i]? = some x) (pre post : Bytes) :
    slice (pre ++ (l.flatMap f ++ post)) (pre.length + i * k) k = f x := by
  rw [slice_append]
  induction l generalizing i with
  | nil => cases hi
  | cons y l ih =>
    rw [List.flatMap_cons, List.append_assoc]
    cases i with
    | zero =>
      cases hi
      rw [Nat.zero_mul]
      have := slice_self (f x) (l.flatMap f ++ post)
      rwa [hf] at this
    | succ i =>
      have := slice_append (f y) (l.flatMap f ++ post) (i * k) k
      rw [hf] at this
      rw [Nat.succ_mul, Nat.add_comm, this]
      exact ih hi

end

/-- A running sum is the sum of the counts up to its place. -/
theorem getElem?_runningSums (running : Nat) (counts : List Nat) (i : Nat) :
    (runningSums running counts)[i]? =
      if i < counts.length then some (running + (counts.take (i + 1)).sum) else none := by
  induction counts generalizing running i with
  | nil => rfl
  | cons count counts ih =>
    rw [runningSums]
    cases i with
    | zero => simp
    | succ i =>
      rw [List.getElem?_cons_succ, ih]
      simp only [List.length_cons, Nat.succ_lt_succ_iff, List.take_succ_cons, List.sum_cons,
        Nat.add_assoc]

/-- The shas whose first byte is below a bound. -/
def countBelow (es : List PackEntry) (b : Nat) : Nat := es.countP fun e => e.sha.first < b

/-- Another first byte adds the shas that begin with it. -/
theorem countBelow_succ (es : List PackEntry) (b : Nat) :
    countBelow es (b + 1) = countBelow es b + es.countP fun e => e.sha.first = b := by
  simp only [countBelow]
  induction es with
  | nil => rfl
  | cons e es ih =>
    simp only [List.countP_cons, ih, decide_eq_true_eq]
    split_ifs <;> omega

/-- The counts of the first bytes sum to the entries below them. -/
theorem sum_counts (es : List PackEntry) (b : Nat) :
    ((List.range b).map fun b => es.countP fun e => e.sha.first = b).sum = countBelow es b := by
  induction b with
  | zero => simp [countBelow]
  | succ b ih =>
    rw [List.range_succ, List.map_append, List.sum_append, ih, countBelow_succ, List.map_singleton,
      List.sum_singleton]

/-- Every sha begins with a byte. -/
theorem countBelow_all (es : List PackEntry) : countBelow es 0x100 = es.length :=
  List.countP_eq_length.mpr fun e _ => decide_eq_true e.sha.first_lt

theorem countBelow_le (es : List PackEntry) (b : Nat) : countBelow es b ≤ es.length :=
  List.countP_le_length

/-- The fan-out says how many shas begin with a byte or a lower one. -/
theorem getElem?_fanout (es : List PackEntry) {b : Nat} (hb : b < 0x100) :
    (runningSums 0 ((List.range 0x100).map fun b => es.countP fun e => e.sha.first = b))[b]? =
      some (countBelow es (b + 1)) := by
  rw [getElem?_runningSums, List.length_map, List.length_range, if_pos hb, Nat.zero_add,
    ← List.map_take, List.take_range, Nat.min_eq_left (by omega), sum_counts]

/-- The fan-out as it is written. -/
def fanoutBytes (es : List PackEntry) : Bytes :=
  (runningSums 0 ((List.range 0x100).map fun b => es.countP fun e => e.sha.first = b)).flatMap be32

theorem length_fanoutBytes (es : List PackEntry) : (fanoutBytes es).length = 0x400 := by
  have hlen : ∀ (k : Nat) (l : List Nat), (runningSums k l).length = l.length := by
    intro k l
    induction l generalizing k with
    | nil => rfl
    | cons c l ih => rw [runningSums, List.length_cons, ih, List.length_cons]
  rw [fanoutBytes, length_table length_be32, hlen, List.length_map, List.length_range]

/-- The index that is parsed. -/
def parsedIndex (es : List PackEntry) (data : Bytes) : PackIndex :=
  ⟨(List.range 0x100).map fun b => countBelow es (b + 1), es.flatMap fun e => e.sha.val, data,
    8 + 0x400 + es.length * 20 + es.length * 4, es.length⟩

section

variable {es : List PackEntry} {offsets : List Nat} (tail : Bytes)

/-- The tables of an index one behind the other. -/
theorem idxTables_append : idxTables es offsets ++ tail =
    ([0xff, 0x74, 0x4f, 0x63] ++ be32 2) ++ (fanoutBytes es ++ (es.flatMap (fun e => e.sha.val) ++
      (es.flatMap (fun e => be32 e.crc) ++ (offsets.flatMap be32 ++ tail)))) := by
  simp only [idxTables, fanoutBytes, List.append_assoc]

/-- A word of the fan-out table is the number of shas up to its byte. -/
theorem u32_fanout (hcount : es.length < 0x100000000) {b : Nat} (hb : b < 0x100) :
    u32 (idxTables es offsets ++ tail) (8 + b * 4) = countBelow es (b + 1) := by
  rw [u32, idxTables_append, fanoutBytes]
  have hlen : ([0xff, 0x74, 0x4f, 0x63] ++ be32 2 : Bytes).length = 8 := rfl
  rw [← hlen, slice_table length_be32 (getElem?_fanout es hb)]
  exact bigEndian_be32 (Nat.lt_of_le_of_lt (countBelow_le es _) hcount)

/-- The offset of an entry. -/
theorem slice_offsets {i offset : Nat} (hi : offsets[i]? = some offset) :
    slice (idxTables es offsets ++ tail)
      (8 + 0x400 + es.length * 20 + es.length * 4 + i * 4) 4 = be32 offset := by
  set pre : Bytes := ([0xff, 0x74, 0x4f, 0x63] ++ be32 2) ++ fanoutBytes es ++
    es.flatMap (fun e => e.sha.val) ++ es.flatMap (fun e => be32 e.crc) with hpre
  have hdata : idxTables es offsets ++ tail = pre ++ (offsets.flatMap be32 ++ tail) := by
    rw [idxTables_append, hpre]
    simp only [List.append_assoc]
  have hlen : pre.length = 8 + 0x400 + es.length * 20 + es.length * 4 := by
    rw [hpre, List.length_append, List.length_append, List.length_append, length_fanoutBytes,
      length_table (fun e : PackEntry => e.sha.property),
      length_table (fun e : PackEntry => length_be32 e.crc)]
    rfl
  rw [hdata, ← hlen]
  exact slice_table length_be32 hi pre tail

/-- The written index is parsed. -/
theorem parsePackIndex_idxTables (hcount : es.length < 0x100000000)
    (hoffsets : offsets.length = es.length) :
    parsePackIndex (idxTables es offsets ++ tail) =
      .ok (some (parsedIndex es (idxTables es offsets ++ tail))) := by
  have hlen : (idxTables es offsets ++ tail).length =
      8 + 0x400 + es.length * 20 + es.length * 4 + es.length * 4 + tail.length := by
    rw [idxTables_append]
    simp only [List.length_append, length_fanoutBytes, length_table length_be32, hoffsets,
      length_table (fun e : PackEntry => e.sha.property),
      length_table (fun e : PackEntry => length_be32 e.crc)]
    change 8 + _ = _
    omega
  have hmagic : (idxTables es offsets ++ tail).take 4 = [0xff, 0x74, 0x4f, 0x63] := by
    rw [idxTables_append]
    rfl
  have hversion : u32 (idxTables es offsets ++ tail) 4 = 2 := by
    rw [idxTables_append]
    rfl
  have hn : u32 (idxTables es offsets ++ tail) (8 + 0xff * 4) = es.length := by
    rw [u32_fanout tail hcount (by decide), countBelow_all]
  have hshas : slice (idxTables es offsets ++ tail) (8 + 0x400) (es.length * 20) =
      es.flatMap fun e => e.sha.val := by
    have hpre : (([0xff, 0x74, 0x4f, 0x63] ++ be32 2) ++ fanoutBytes es : Bytes).length =
        8 + 0x400 := by
      rw [List.length_append, length_fanoutBytes]
      rfl
    rw [idxTables_append, ← List.append_assoc _ _ (_ ++ (_ ++ (_ ++ tail))), ← hpre,
      ← length_table (fun e : PackEntry => e.sha.property) es]
    exact (slice_append _ _ 0 _).trans (slice_self _ _)
  rw [parsePackIndex, if_pos ⟨by omega, hmagic, hversion⟩, if_pos]
  · dsimp only
    rw [hn, hshas, if_neg (by omega), parsedIndex]
    refine congrArg (fun fanout => Except.ok (some (PackIndex.mk fanout _ _ _ _))) ?_
    exact List.map_congr_left fun b hb => u32_fanout tail hcount (List.mem_range.mp hb)
  · rw [slice, List.length_take, List.length_drop]
    omega

/-- An offset below `2^31` is read back from the table of the written index. -/
theorem parsedIndex_offset {i offset : Nat} (hi : offsets[i]? = some offset)
    (hoffsets : offsets.length = es.length) (hoffset : offset < 0x80000000) :
    (parsedIndex es (idxTables es offsets ++ tail)).offset i = .ok offset := by
  have hlt : i < es.length := hoffsets ▸ (List.getElem?_eq_some_iff.mp hi).1
  have hraw : unpack (idxTables es offsets ++ tail)
      (8 + 0x400 + es.length * 20 + es.length * 4 + i * 4) 4 = .ok offset := by
    rw [unpack, slice_offsets tail hi, length_be32, if_pos rfl, bigEndian_be32 (by omega)]
  rw [PackIndex.offset, parsedIndex, if_pos hlt, hraw]
  change (if 0x80000000 ≤ offset then _ else _) = _
  rw [if_neg (by omega)]

end

/-! ### Looking a sha up -/

section

variable {es : List PackEntry} {data : Bytes}

/-- Shas in order have first bytes in order. -/
theorem first_le {a b : RawSha} (h : a.val < b.val) : a.first ≤ b.first := by
  obtain ⟨a, ha⟩ := a
  obtain ⟨b, hb⟩ := b
  rcases a with _ | ⟨x, s⟩
  · cases ha
  rcases b with _ | ⟨y, t⟩
  · cases hb
  rcases List.cons_lt_cons_iff.mp h with hxy | ⟨hxy, -⟩
  · exact Nat.le_of_lt hxy
  · exact Nat.le_of_eq (congrArg UInt8.toNat hxy)

/-- The shas below a first byte are the first ones. -/
theorem lt_countBelow_iff (hes : es.Pairwise fun a b => a.sha.val < b.sha.val) {i : Nat}
    {e : PackEntry} (hi : es[i]? = some e) (b : Nat) : i < countBelow es b ↔ e.sha.first < b := by
  have hdown : ∀ a c : PackEntry, a.sha.val < c.sha.val → decide (c.sha.first < b) = true →
      decide (a.sha.first < b) = true := by
    intro a c hac hc
    exact decide_eq_true (Nat.lt_of_le_of_lt (first_le hac) (of_decide_eq_true hc))
  exact (lt_countP_iff hes hdown hi).trans decide_eq_true_iff

/-- The sha at a place of the table is that entry's. -/
theorem slice_shas {i : Nat} {e : PackEntry} (hi : es[i]? = some e) :
    slice (es.flatMap fun e => e.sha.val) (i * 20) 20 = e.sha.val := by
  have h := slice_table (fun e : PackEntry => e.sha.property) hi [] []
  rwa [List.nil_append, List.append_nil, List.length_nil, Nat.zero_add] at h

/-- The comparison with the sha of an entry is the comparison of the positions. -/
theorem compareSha_eq (hes : es.Pairwise fun a b => a.sha.val < b.sha.val) {i j : Nat}
    {d e : PackEntry} (hj : es[j]? = some d) (hi : es[i]? = some e) :
    compareSha d.sha.val e.sha.val = compare j i := by
  obtain ⟨hjlt, rfl⟩ := List.getElem?_eq_some_iff.mp hj
  obtain ⟨hilt, rfl⟩ := List.getElem?_eq_some_iff.mp hi
  rw [List.pairwise_iff_getElem] at hes
  rw [compareSha]
  rcases Nat.lt_trichotomy j i with hlt | rfl | hgt
  · have h := hes j i hjlt hilt hlt
    rw [if_neg (fun heq => List.lt_irrefl _ (heq ▸ h)), if_pos h, Nat.compare_eq_lt.mpr hlt]
  · rw [if_pos rfl, Nat.compare_eq_eq.mpr rfl]
  · have h := hes i j hilt hjlt hgt
    rw [if_neg (fun heq => List.lt_irrefl _ (heq ▸ h)), if_neg (List.lt_asymm h),
      Nat.compare_eq_gt.mpr hgt]

/-- The bounds that the fan-out gives. -/
theorem packIndexFind_eq {t : Text} {target : RawSha} (ht : fromHex t = some target.val) :
    packIndexFind (parsedIndex es data) t =
      (bisectFind
        (fun mid => compareSha (slice (es.flatMap fun e => e.sha.val) (mid * 20) 20) target.val)
        (countBelow es (target.first + 1) - countBelow es target.first)
        (countBelow es target.first) (countBelow es (target.first + 1))).elim (.ok none)
          fun mid => ((parsedIndex es data).offset mid).map some := by
  have hfirst := target.first_lt
  have hget : ∀ b < 0x100,
      ((List.range 0x100).map fun b => countBelow es (b + 1)).getD b 0 = countBelow es (b + 1) := by
    intro b hb
    rw [List.getD_eq_getElem?_getD, List.getElem?_map, List.getElem?_range hb, Option.map_some,
      Option.getD_some]
  have hlo : (if 0 < target.first then
      ((List.range 0x100).map fun b => countBelow es (b + 1)).getD (target.first - 1) 0 else 0) =
      countBelow es target.first := by
    split_ifs with hpos
    · rw [hget _ (by omega), Nat.sub_add_cancel hpos]
    · have hzero : target.first = 0 := by omega
      rw [hzero]
      simp [countBelow]
  have hhead : (target.val.headD 0).toNat = target.first := rfl
  rw [packIndexFind, ht]
  dsimp only
  rw [if_neg (not_not_intro target.property), hhead, parsedIndex]
  rw [hlo, hget _ hfirst]
  cases bisectFind _ _ _ _ <;> rfl

/-- The search in the written index finds an entry's sha, at the entry's place. -/
theorem packIndexFind_of_mem (hes : es.Pairwise fun a b => a.sha.val < b.sha.val) {i : Nat}
    {e : PackEntry} (hi : es[i]? = some e) {t : Text} (ht : fromHex t = some e.sha.val) :
    packIndexFind (parsedIndex es data) t = ((parsedIndex es data).offset i).map some := by
  rw [packIndexFind_eq ht, @bisectFind_eq_some _ _ _ i, Option.elim_some]
  · exact Nat.not_lt.mp fun hlt => Nat.lt_irrefl _ ((lt_countBelow_iff hes hi _).mp hlt)
  · exact (lt_countBelow_iff hes hi _).mpr (Nat.lt_succ_self _)
  · intro j _ hj
    have hlt := Nat.lt_of_lt_of_le hj (countBelow_le es _)
    have hj' : es[j]? = some es[j] := List.getElem?_eq_getElem hlt
    rw [slice_shas hj']
    exact compareSha_eq hes hj' hi
  · exact Nat.le_refl _

/-- The search finds no sha that is not there. -/
theorem packIndexFind_of_not_mem {t : Text} (ht : ∀ e ∈ es, fromHex t ≠ some e.sha.val) :
    packIndexFind (parsedIndex es data) t = .ok none := by
  rcases hhex : fromHex t with _ | target
  · rw [packIndexFind, hhex]
  by_cases hlen : target.length = 20
  · rw [@packIndexFind_eq _ _ _ ⟨target, hlen⟩ hhex, bisectFind_eq_none, Option.elim_none]
    intro j _ hj
    have hlt := Nat.lt_of_lt_of_le hj (countBelow_le es _)
    have hj' : es[j]? = some es[j] := List.getElem?_eq_getElem hlt
    have hne : es[j].sha.val ≠ target := fun heq =>
      ht es[j] (List.getElem_mem hlt) (by rw [heq]; exact hhex)
    rw [slice_shas hj', compareSha, if_neg hne]
    split_ifs <;> decide
  · rw [packIndexFind, hhex]
    exact if_pos hlen

end

/-! ### What is written is read -/

section

variable (Z) (sha1 : Bytes → Bytes) (crc32 : Bytes → Nat)
  (readObject : Text → Option (Text × Bytes)) (pending : Table RawSha (Kind × Bytes))

/-- The entries of the pack, in its order. -/
def packed : List PackEntry := sortEntries (packEntries Z crc32 pending)

/-- The offsets that are written into the index, in the order of the shas. -/
def writtenOffsets : List Nat :=
  (appendEntries (packHeader (packed Z crc32 pending).length) (packed Z crc32 pending)).2

/-- Pack and index of the objects give them back: no offset looks like a reference, every object is
found and read where its entry starts, and no other sha is found. -/
structure WriteReads : Prop where
  below : ∀ offset ∈ writtenOffsets Z crc32 pending, offset < 0x80000000
  found : ∀ sha kind payload, pending.get sha = some (kind, payload) →
    ∃ (i : Nat) (e : PackEntry) (offset : Nat) (p : PackIndex),
      (packed Z crc32 pending)[i]? = some e ∧ e.sha = sha ∧
      (writtenOffsets Z crc32 pending)[i]? = some offset ∧
      parsePackIndex (assemblePack sha1 (packEntries Z crc32 pending)).2.1 = .ok (some p) ∧
      packIndexFind p (hex sha.val) = .ok (some offset) ∧
      readPackObjectAt Z readObject (assemblePack sha1 (packEntries Z crc32 pending)).1 maxLevels
        offset = .ok (kind.num, payload)
  missing : ∀ t, (∀ sha ∈ pending.keys, fromHex t ≠ some sha.val) →
    ∃ p, parsePackIndex (assemblePack sha1 (packEntries Z crc32 pending)).2.1 = .ok (some p) ∧
      packIndexFind p t = .ok none

variable {Z crc32 pending}

/-- What is packed are the pending objects, each under its sha. -/
theorem mem_packed {e : PackEntry} : e ∈ packed Z crc32 pending ↔
    ∃ sha kind payload, pending.get sha = some (kind, payload) ∧
      e = ⟨sha, packEntry Z kind payload, crc32 (packEntry Z kind payload)⟩ := by
  rw [packed, sortEntries, (List.perm_insertionSort _ _).mem_iff, packEntries, List.mem_map]
  constructor
  · rintro ⟨⟨sha, kind, payload⟩, hmem, rfl⟩
    exact ⟨sha, kind, payload, Table.get_eq_some_iff.mpr hmem, rfl⟩
  · rintro ⟨sha, kind, payload, hget, rfl⟩
    exact ⟨(sha, kind, payload), Table.get_eq_some_iff.mp hget, rfl⟩

/-- No sha has two entries, so they stand in strict order. -/
theorem packed_sorted : (packed Z crc32 pending).Pairwise fun a b => a.sha.val < b.sha.val := by
  have hperm := List.perm_insertionSort (fun a b : PackEntry => a.sha.val ≤ b.sha.val)
    (packEntries Z crc32 pending)
  have hnodup : ((packed Z crc32 pending).map PackEntry.sha).Nodup := by
    refine (hperm.map _).nodup_iff.mpr ?_
    rw [packEntries, List.map_map]
    exact pending.nodup
  have hsorted : (packed Z crc32 pending).Pairwise fun a b => a.sha.val ≤ b.sha.val :=
    List.pairwise_insertionSort _ _
  refine (hsorted.and (List.pairwise_map.mp hnodup)).imp fun {a b} hab => ?_
  exact Std.lt_of_le_of_ne hab.1 fun heq => hab.2 (Subtype.ext heq)

/-- The offsets begin behind the header of the pack. -/
theorem writtenOffsets_eq :
    writtenOffsets Z crc32 pending = offsetsFrom 12 (packed Z crc32 pending) := by
  rw [writtenOffsets, appendEntries_eq]
  rfl

/-- The two files that are assembled: header, entries and sum; tables, sum and sum. -/
theorem assemblePack_eq : ∃ packSum, assemblePack sha1 (packEntries Z crc32 pending) =
    (packHeader (packed Z crc32 pending).length ++
        (packed Z crc32 pending).flatMap PackEntry.bytes ++ packSum,
      idxTables (packed Z crc32 pending) (writtenOffsets Z crc32 pending) ++
        (packSum ++ sha1 (idxTables (packed Z crc32 pending)
          (writtenOffsets Z crc32 pending) ++ packSum)),
      hex packSum) := by
  refine ⟨sha1 (packHeader (packed Z crc32 pending).length ++
    (packed Z crc32 pending).flatMap PackEntry.bytes), ?_⟩
  have hpacked : sortEntries (packEntries Z crc32 pending) = packed Z crc32 pending := rfl
  rw [assemblePack]
  dsimp only
  rw [hpacked, writtenOffsets, appendEntries_eq]
  dsimp only
  rw [List.append_assoc (idxTables _ _)]

/-- The sum of an initial part of the lengths. -/
theorem sum_take_le {l : List Nat} {i : Nat} (hi : i < l.length) :
    (l.take i).sum ≤ l.dropLast.sum := by
  have hsplit := congrArg List.sum (List.take_append_drop i l.dropLast)
  rw [List.sum_append, List.dropLast_eq_take, List.take_take, Nat.min_eq_left (by omega)] at hsplit
  rw [List.dropLast_eq_take]
  omega

/-- A sum of positive numbers is no less than how many there are. -/
theorem length_le_sum {l : List Nat} (h : ∀ n ∈ l, 0 < n) : l.length ≤ l.sum := by
  induction l with
  | nil => exact Nat.le_refl _
  | cons n l ih =>
    have hn := h n List.mem_cons_self
    have := ih fun m hm => h m (List.mem_cons_of_mem n hm)
    rw [List.length_cons, List.sum_cons]
    omega

/-- An accepted pack has fewer than `2^32` entries. -/
theorem count_lt (hacc : Accepted (packEntries Z crc32 pending)) :
    (packed Z crc32 pending).length < 0x100000000 := by
  have hperm := List.perm_insertionSort (fun a b : PackEntry => a.sha.val ≤ b.sha.val)
    (packEntries Z crc32 pending)
  have hpos : ∀ n ∈ (packed Z crc32 pending).map fun e => e.bytes.length, 0 < n := by
    intro n hn
    obtain ⟨e, he, rfl⟩ := List.mem_map.mp hn
    obtain ⟨sha, kind, payload, -, rfl⟩ := mem_packed.mp he
    obtain ⟨-, hnum⟩ := kind.num_lt
    obtain ⟨b, t, hheader, -⟩ := readSize_entryHeader
      (kind.num * 0x10 + payload.length % 0x10) (payload.length / 0x10) (by omega)
    rw [packEntry, hheader]
    exact Nat.succ_pos _
  have hle := length_le_sum hpos
  have hsum := (hperm.map fun e => e.bytes.length).sum_nat
  rw [Accepted, packOffsetLimit] at hacc
  rw [List.length_map] at hle
  change _ ≤ ((sortEntries (packEntries Z crc32 pending)).map fun e => e.bytes.length).sum at hle
  rw [sortEntries, hsum] at hle
  omega

/-- All offsets are small if and only if the last one is. -/
theorem offsets_below_iff : (∀ offset ∈ writtenOffsets Z crc32 pending, offset < 0x80000000) ↔
    12 + ((packed Z crc32 pending).dropLast.map fun e => e.bytes.length).sum < 0x80000000 := by
  rw [writtenOffsets_eq]
  generalize packed Z crc32 pending = es
  rw [List.map_dropLast]
  constructor
  · intro h
    rcases es with _ | ⟨e, es⟩
    · decide
    · refine h _ (List.mem_of_getElem? (i := es.length) ?_)
      rw [getElem?_offsetsFrom, if_pos (by rw [List.length_cons]; omega), List.dropLast_eq_take,
        List.map_take]
      simp
  · intro h offset hmem
    obtain ⟨i, hi⟩ := List.mem_iff_getElem?.mp hmem
    rw [getElem?_offsetsFrom] at hi
    split_ifs at hi with hlt
    · cases hi
      have hle := sum_take_le (l := es.map fun e => e.bytes.length) (i := i)
        (by rw [List.length_map]; exact hlt)
      rw [← List.map_take] at hle
      omega

/-- **Packs are read back.** For objects that `_flush_pack` packs, what is written is read, if and
only if the last object of the pack starts below 2 ^ 31. -/
theorem writeReads_iff (hinverts : ∀ sha kind payload, pending.get sha = some (kind, payload) →
      Z.Inverts payload)
    (hacc : Accepted (packEntries Z crc32 pending)) :
    WriteReads Z sha1 crc32 readObject pending ↔
      12 + ((packed Z crc32 pending).dropLast.map fun e => e.bytes.length).sum < 0x80000000 := by
  rw [← offsets_below_iff]
  refine ⟨fun h => h.below, fun hbelow => ?_⟩
  obtain ⟨packSum, hpack⟩ := @assemblePack_eq _ Z sha1 crc32 pending
  have hlen : (writtenOffsets Z crc32 pending).length = (packed Z crc32 pending).length := by
    rw [writtenOffsets_eq, length_offsetsFrom]
  have hparse := parsePackIndex_idxTables (packSum ++ sha1 (idxTables (packed Z crc32 pending)
    (writtenOffsets Z crc32 pending) ++ packSum)) (count_lt hacc) hlen
  refine ⟨hbelow, fun sha kind payload hget => ?_, fun t ht => ?_⟩
  · have hmem : (⟨sha, packEntry Z kind payload, crc32 (packEntry Z kind payload)⟩ : PackEntry) ∈
        packed Z crc32 pending := mem_packed.mpr ⟨sha, kind, payload, hget, rfl⟩
    obtain ⟨i, hi⟩ := List.mem_iff_getElem?.mp hmem
    obtain ⟨offset, ho⟩ : ∃ offset, (writtenOffsets Z crc32 pending)[i]? = some offset :=
      ⟨_, List.getElem?_eq_getElem (hlen ▸ (List.getElem?_eq_some_iff.mp hi).1)⟩
    refine ⟨i, _, offset, _, hi, rfl, ho, by rw [hpack]; exact hparse, ?_, ?_⟩
    · rw [packIndexFind_of_mem packed_sorted hi (fromHex_hex _),
        parsedIndex_offset _ ho hlen (hbelow offset (List.mem_of_getElem? ho))]
      rfl
    · rw [writtenOffsets_eq] at ho
      obtain ⟨behind, hdrop⟩ := @exists_drop_entries
        (packHeader (packed Z crc32 pending).length) _ _ _ _ hi ho packSum
      rw [hpack]
      exact readPackObjectAt_eq readObject (hinverts sha kind payload hget) hdrop 200
  · refine ⟨_, by rw [hpack]; exact hparse, packIndexFind_of_not_mem fun e he => ?_⟩
    obtain ⟨sha, kind, payload, hget, rfl⟩ := mem_packed.mp he
    exact ht sha (Table.mem_keys_iff.mpr ⟨_, hget⟩)

end

/-! ### Two small objects, and one that is too large -/

theorem mem_payloads {pending : Table RawSha (Kind × Bytes)} {sha : RawSha} {kind : Kind}
    {payload : Bytes} (h : pending.get sha = some (kind, payload)) :
    payload ∈ pending.entries.map fun e => e.2.2 :=
  List.mem_map.mpr ⟨_, Table.get_eq_some_iff.mp h, rfl⟩

/-- `hello`, and a new line. -/
def helloPayload : Bytes := [0x68, 0x65, 0x6c, 0x6c, 0x6f, 0x0a]

/-- The streams of the empty payload and of `hello`. -/
def helloCodec : Codec UInt8 Bytes :=
  knownCodec (fun p =>
    if p = [] then [0x78, 0x9c, 0x03, 0x00, 0x00, 0x00, 0x00, 0x01]
    else [0x78, 0x9c, 0xcb, 0x48, 0xcd, 0xc9, 0xc9, 0xe7, 0x02, 0x00, 0x08, 0x4b, 0x02, 0x1f])
    [[], helloPayload]

def emptySha : RawSha := ⟨[0xe6, 0x9d, 0xe2, 0x9b, 0xb2, 0xd1, 0xd6, 0x43, 0x4b, 0x8b, 0x29, 0xae,
  0x77, 0x5a, 0xd8, 0xc2, 0xe4, 0x8c, 0x53, 0x91], rfl⟩

def helloSha : RawSha := ⟨[0xce, 0x01, 0x36, 0x25, 0x03, 0x0b, 0xa8, 0xdb, 0xa9, 0x06, 0xf7, 0x56,
  0x96, 0x7f, 0x9e, 0x9c, 0xa3, 0x94, 0x46, 0x4a], rfl⟩

def helloPending : Table RawSha (Kind × Bytes) where
  entries := [(emptySha, .blob, []), (helloSha, .blob, helloPayload)]
  nodup := by decide

/-- The sums of the two entries. -/
def helloCrc32 (b : Bytes) : Nat := if b.length = 9 then 0x6e760029 else 0x52941500

/-- The sums of the pack and of its index. -/
def helloSha1 (b : Bytes) : Bytes :=
  if b.length = 36 then
    [0xd2, 0xde, 0xa3, 0xd1, 0xd5, 0x8c, 0xef, 0x6c, 0x6d, 0x58, 0x0c, 0x2f, 0xd5, 0x94, 0xfe, 0x44,
      0x65, 0x25, 0x06, 0x2b]
  else
    [0x4a, 0x59, 0xb6, 0xc3, 0xdf, 0xe3, 0x8e, 0x50, 0xce, 0xe3, 0x64, 0x70, 0xec, 0xd3, 0x7b, 0x38,
      0xa5, 0xe2, 0x37, 0xed]

/-- The codec reads back what it has compressed. -/
theorem helloCodec_inverts {p : Bytes} (hp : p ∈ [[], helloPayload]) : helloCodec.Inverts p := by
  refine known_inverts hp ?_ ?_
  · split_ifs <;> exact List.cons_ne_nil _ _
  · have hfree : ∀ p ∈ [[], helloPayload], ∀ q ∈ [[], helloPayload], q ≠ p →
        ¬ helloCodec.compress q <+: helloCodec.compress p ∧
          ¬ helloCodec.compress p <+: helloCodec.compress q := by decide
    exact hfree p hp

theorem writeReads_hello :
    WriteReads helloCodec helloSha1 helloCrc32 (fun _ => none) helloPending :=
  (writeReads_iff helloSha1 (fun _ => none)
    (fun _ _ _ hget => helloCodec_inverts (@mem_payloads helloPending _ _ _ hget))
    (by decide +kernel)).mpr (by decide +kernel)

/-- `zlib.adler32`. -/
def adler32 (p : Bytes) : Nat :=
  let sums := p.foldl (fun s x => ((s.1 + x.toNat) % 65521,
    (s.2 + (s.1 + x.toNat) % 65521) % 65521)) (1, 0)
  sums.2 * 0x10000 + sums.1

/-- A number of two bytes, the low one first. -/
def le16 (n : Nat) : Bytes := [n.toUInt8, (n / 0x100).toUInt8]

/-- The blocks of a deflate stream that compresses nothing. -/
def storedBlocks (p : Bytes) : Bytes :=
  if p.length ≤ 0x3fff then 1 :: (le16 p.length ++ le16 (0xffff - p.length) ++ p)
  else 0 :: (le16 0x3fff ++ le16 0xc000 ++ p.take 0x3fff) ++ storedBlocks (p.drop 0x3fff)
termination_by p.length
decreasing_by
  rw [List.length_drop]
  omega

/-- A stored block costs five bytes beside its content. -/
theorem length_storedBlocks (p : Bytes) (hp : 0 < p.length) :
    (storedBlocks p).length = p.length + 5 * ((p.length + 0x3ffe) / 0x3fff) := by
  induction p using storedBlocks.induct with
  | case1 p hle =>
    have hdiv : (p.length + 0x3ffe) / 0x3fff = 1 := by omega
    rw [storedBlocks, if_pos hle, hdiv]
    simp only [le16, List.length_cons, List.length_append, List.length_nil]
    omega
  | case2 p hle ih =>
    have hdrop : (p.drop 0x3fff).length = p.length - 0x3fff := List.length_drop
    have htake : (p.take 0x3fff).length = 0x3fff := by
      rw [List.length_take]
      omega
    rw [storedBlocks, if_neg hle]
    simp only [le16, List.length_cons, List.length_append, List.length_nil, htake,
      ih (by omega), hdrop]
    omega

/-- The one block of a payload of one byte or none, in the fixed code. -/
def fixedBlock : Bytes → Bytes
  | [] => [0x03, 0x00]
  | k :: _ => [0x63 + 0x80 * (k / 8), k / 4 % 2 + 2 * (k / 2 % 2) + 4 * (k % 2), 0x00]

/-- The stream of a payload of one byte below 16, or of one that does not compress. -/
def zlibStream (p : Bytes) : Bytes :=
  [0x78, 0x9c] ++ (if 1 < p.length then storedBlocks p else fixedBlock p) ++ be32 (adler32 p)

/-- Bytes without a repeat that `zlib` could use: it stores them. -/
def noise (n : Nat) : Bytes :=
  (List.range n).map fun i => (85 * (i % 3) + i / 3 % (85 - i % 3)).toUInt8

/-- A sha by its first byte, which tells the nine objects apart. -/
def shaFrom (b : UInt8) : RawSha := ⟨b :: List.replicate 19 0, rfl⟩

/-- Eight small blobs and one large one, by their shas; more than eight go into a pack. -/
def nineBlobs (large : Bytes) : List (RawSha × Bytes) :=
  [(shaFrom 0x25, [2]), (shaFrom 0x30, [7]), (shaFrom 0x45, [4]), (shaFrom 0x56, noise 100),
    (shaFrom 0x5a, [8]), (shaFrom 0x65, large), (shaFrom 0x6b, [1]), (shaFrom 0xb0, [5]),
    (emptySha, [])]

/-- What `zlib` does with these nine. -/
def nineCodec (large : Bytes) : Codec UInt8 Bytes :=
  knownCodec zlibStream ((nineBlobs large).map Prod.snd)

def ninePending (large : Bytes) : Table RawSha (Kind × Bytes) where
  entries := (nineBlobs large).map fun e => (e.1, .blob, e.2)
  nodup := by
    change [shaFrom 0x25, shaFrom 0x30, shaFrom 0x45, shaFrom 0x56, shaFrom 0x5a, shaFrom 0x65,
      shaFrom 0x6b, shaFrom 0xb0, emptySha].Nodup
    decide

theorem length_noise (n : Nat) : (noise n).length = n := by
  rw [noise, List.length_map, List.length_range]

/-- The length of a stored stream: header, blocks and checksum. -/
theorem length_zlibStream {p : Bytes} (hp : 1 < p.length) :
    (zlibStream p).length = 2 + (p.length + 5 * ((p.length + 0x3ffe) / 0x3fff)) + 4 := by
  rw [zlibStream, if_pos hp, List.length_append, List.length_append,
    length_storedBlocks p (by omega), length_be32]
  rfl

/-- The length of an entry: its header and its stream. -/
theorem length_packEntry_blob {large p : Bytes} :
    (packEntry (nineCodec large) .blob p).length =
      (entryHeader (0x30 + p.length % 0x10) (p.length / 0x10)).length + (zlibStream p).length :=
  List.length_append

theorem four_le_length_zlibStream (p : Bytes) : 4 ≤ (zlibStream p).length := by
  rw [zlibStream, List.length_append, length_be32]
  omega

section

variable {large : Bytes} (hlong : 0x3fff < large.length)

include hlong in
/-- The first four bytes of the streams are enough to tell them apart. -/
theorem nineHeads : ((nineBlobs large).map Prod.snd).map (fun p => (zlibStream p).take 4) =
    [[0x78, 0x9c, 0x63, 0x02], [0x78, 0x9c, 0x63, 0x07], [0x78, 0x9c, 0x63, 0x01],
      [0x78, 0x9c, 0x01, 0x64], [0x78, 0x9c, 0xe3, 0x00], [0x78, 0x9c, 0x00, 0xff],
      [0x78, 0x9c, 0x63, 0x04], [0x78, 0x9c, 0x63, 0x05], [0x78, 0x9c, 0x03, 0x00]] := by
  have hlarge : (zlibStream large).take 4 = [0x78, 0x9c, 0x00, 0xff] := by
    rw [zlibStream, if_pos (by omega), storedBlocks, if_neg (by omega)]
    rfl
  have hnoise : (zlibStream (noise 100)).take 4 = [0x78, 0x9c, 0x01, 0x64] := by
    rw [zlibStream, if_pos (by decide), storedBlocks, if_pos (by decide), length_noise]
    rfl
  simp only [nineBlobs, List.map_cons, List.map_nil, hlarge, hnoise]
  rfl

include hlong in
/-- The codec reads back each of the nine blobs. -/
theorem nineCodec_inverts {p : Bytes} (hp : p ∈ (nineBlobs large).map Prod.snd) :
    (nineCodec large).Inverts p := by
  have hstream : ∀ a b : Bytes, 4 ≤ a.length → a <+: b → a.take 4 = b.take 4 := by
    rintro a _ ha ⟨t, rfl⟩
    exact (List.take_append_of_le_length ha).symm
  have hnodup : (((nineBlobs large).map Prod.snd).map fun p => (zlibStream p).take 4).Nodup := by
    rw [nineHeads hlong]
    decide
  have hinj := List.inj_on_of_nodup_map hnodup
  refine known_inverts hp ?_ fun q hq hqp => ⟨fun h => hqp (hinj hq hp ?_), fun h => hqp
    (hinj hq hp ?_)⟩
  · exact List.ne_nil_of_length_pos (by have := four_le_length_zlibStream p; omega)
  · exact hstream _ _ (four_le_length_zlibStream q) h
  · exact (hstream _ _ (four_le_length_zlibStream p) h).symm

variable (crc32 : Bytes → Nat)

/-- The blobs stand in the order of their shas, the empty one last. -/
theorem packed_ninePending : packed (nineCodec large) crc32 (ninePending large) =
    packEntries (nineCodec large) crc32 (ninePending large) := by
  refine List.Pairwise.insertionSort_eq ?_
  have hshas : ((nineBlobs large).map Prod.fst).Pairwise fun a b => a.val ≤ b.val := by
    change [shaFrom 0x25, shaFrom 0x30, shaFrom 0x45, shaFrom 0x56, shaFrom 0x5a, shaFrom 0x65,
      shaFrom 0x6b, shaFrom 0xb0, emptySha].Pairwise fun a b => a.val ≤ b.val
    decide
  rw [List.pairwise_map] at hshas
  rw [packEntries, ninePending, List.map_map, List.pairwise_map]
  exact hshas

end

/-- The entries of the nine come to 2 ^ 31 - 2 bytes, which goes into a pack, and the last one then
starts behind 2 ^ 31. -/
theorem ninePending_offset {large : Bytes} (hlen : large.length = 2146828253)
    (crc32 : Bytes → Nat) :
    Accepted (packEntries (nineCodec large) crc32 (ninePending large)) ∧
      ¬ 12 + ((packed (nineCodec large) crc32 (ninePending large)).dropLast.map
        fun e => e.bytes.length).sum < 0x80000000 := by
  have hheader : ∀ first, (entryHeader first 134176765).length = 5 := by
    intro first
    simp [entryHeader]
  have hlarge : (packEntry (nineCodec large) .blob large).length = 2147483464 := by
    rw [length_packEntry_blob, length_zlibStream (by omega), hlen, hheader]
  have hnoise : (packEntry (nineCodec large) .blob (noise 100)).length = 113 := by
    rw [length_packEntry_blob, length_zlibStream (by decide), length_noise]
    simp [entryHeader]
  have hone : ∀ k, (packEntry (nineCodec large) .blob [k]).length = 10 := by
    intro k
    rw [length_packEntry_blob, zlibStream, List.length_append, length_be32]
    simp [entryHeader, fixedBlock]
  have hempty : (packEntry (nineCodec large) .blob []).length = 9 := by
    rw [length_packEntry_blob, zlibStream, List.length_append, length_be32]
    simp [entryHeader, fixedBlock]
  rw [packed_ninePending, Accepted, packOffsetLimit]
  simp [packEntries, ninePending, nineBlobs, hlarge, hnoise, hone, hempty]

/-- Nine objects are packed of which the last starts where the index can give no offset. -/
theorem large_offset_written :
    (∀ sha kind payload, (ninePending (noise 2146828253)).get sha = some (kind, payload) →
      (nineCodec (noise 2146828253)).Inverts payload) ∧
    Accepted (packEntries (nineCodec (noise 2146828253)) (fun _ => 0)
      (ninePending (noise 2146828253))) ∧
    ¬ WriteReads (nineCodec (noise 2146828253)) (fun _ => List.replicate 20 0)
      (fun _ => 0) (fun _ => none) (ninePending (noise 2146828253)) := by
  have hlen := length_noise 2146828253
  generalize noise 2146828253 = large at hlen
  obtain ⟨hacc, hlast⟩ := ninePending_offset hlen fun _ => 0
  refine ⟨fun sha kind p hget => nineCodec_inverts (by omega) ?_, hacc,
    fun h => hlast (offsets_below_iff.mp h.below)⟩
  simpa [ninePending] using mem_payloads hget

end PackFile

end Git

end CoordinatorCore
