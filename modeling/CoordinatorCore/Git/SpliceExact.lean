import CoordinatorCore.Git.Splice

/-!
# A splice is exact

On a well-formed index the splice writes a well-formed index: the old entries that no update names,
byte for byte, and the updated ones. The pass over the sorted keys is `spliceEntries` on the entries
(`spliceKeys_eq`), and that is described by what is in it and by its order.
-/

namespace CoordinatorCore

open PyStr Machine

namespace Git

/-! ### Looking at an entry -/

/-- These bytes hold this entry at this offset. -/
def At (raw : Bytes) (start : Nat) (e : Entry) : Prop :=
  ∃ pre post, raw = pre ++ e.bytes ++ post ∧ start = pre.length

section

variable {raw : Bytes} {start : Nat} {e : Entry}

/-- The flags stand sixty bytes behind an entry's start. -/
theorem At.u16_flags (h : At raw start e) : u16 raw (start + 60) = e.flags := by
  obtain ⟨pre, post, rfl, rfl⟩ := h
  exact Git.u16_flags pre e post

/-- Whether an entry is extended is read from its flags. -/
theorem At.extendedAt (h : At raw start e) : extendedAt raw start = e.xflags.isSome := by
  obtain ⟨pre, post, rfl, rfl⟩ := h
  have hlt := e.flags_lt
  have hdrop := drop_flags pre e post
  have hget : (pre ++ e.bytes ++ post).getD (pre.length + 60) 0 = (e.flags / 0x100).toUInt8 := by
    rw [List.getD_eq_getElem?_getD, ← Nat.add_zero (pre.length + 60), ← List.getElem?_drop, hdrop]
    rfl
  rw [← e.isExtended_flags, Git.extendedAt, hget, isExtended]
  have hval : (e.flags / 0x100).toUInt8.toNat = e.flags / 0x100 := by
    rw [Nat.toUInt8, UInt8.toNat_ofNat']
    omega
  rw [hval]
  congr 1
  exact propext ⟨fun h => by omega, fun h => by omega⟩

/-- A name starts behind the fixed fields and the extended flags. -/
theorem At.nameOffset (h : At raw start e) :
    nameOffset raw start = start + entryFixedLen + e.xflagBytes.length := by
  rw [Git.nameOffset, h.extendedAt, e.length_xflagBytes]

/-- The name that is read is the entry's. -/
theorem At.entryName (h : At raw start e) : entryName raw start = .ok e.name := by
  have hoff := h.nameOffset
  obtain ⟨pre, post, rfl, rfl⟩ := h
  rw [Git.entryName, hoff, drop_name]
  simp only [zero_mem_name, if_true, takeWhile_name]

theorem At.intentToAddAt (h : At raw start e) :
    intentToAddAt raw start = decide (e.xflags.getD 0 / 0x2000 % 2 = 1) := by
  have hext := h.extendedAt
  obtain ⟨pre, post, rfl, rfl⟩ := h
  have hx := xflags_bytes pre e post
  rw [Git.intentToAddAt, hext, ← hx]
  cases e.xflags <;> simp

/-- The length of a name is read up to its zero byte. -/
theorem At.nameLength (h : At raw start e) :
    nameLength raw start (start + entryFixedLen + e.xflagBytes.length) = .ok e.name.length := by
  have hflags := h.u16_flags
  obtain ⟨pre, post, rfl, rfl⟩ := h
  rw [Git.nameLength, hflags, e.flags_mod]
  simp only [drop_name, zero_mem_name, if_true, takeWhile_name]
  split_ifs with hlong
  · rfl
  · rw [Nat.min_eq_left (by omega)]

/-- An entry lies within the bytes. -/
theorem At.length_le (h : At raw start e) : start + e.bytes.length ≤ raw.length := by
  obtain ⟨pre, post, rfl, rfl⟩ := h
  rw [List.length_append, List.length_append]
  omega

end

/-! ### The walk -/

/-- The offsets of entries. -/
def startsFrom : Nat → List Entry → List Nat
  | _, [] => []
  | start, e :: es => start :: startsFrom (start + e.bytes.length) es

@[simp] theorem length_startsFrom (start : Nat) (es : List Entry) :
    (startsFrom start es).length = es.length := by
  induction es generalizing start with
  | nil => rfl
  | cons e es ih => rw [startsFrom, List.length_cons, ih, List.length_cons]

/-- These bytes hold these entries from an offset on. -/
def Holds (raw : Bytes) (start : Nat) (es : List Entry) : Prop :=
  ∃ pre post, raw = pre ++ es.flatMap Entry.bytes ++ post ∧ start = pre.length

section

variable {raw : Bytes} {start : Nat} {es : List Entry} {collapse : List Bytes}

theorem Holds.head {e : Entry} (h : Holds raw start (e :: es)) : At raw start e := by
  obtain ⟨pre, post, rfl, rfl⟩ := h
  exact ⟨pre, es.flatMap Entry.bytes ++ post, by simp, rfl⟩

theorem Holds.tail {e : Entry} (h : Holds raw start (e :: es)) :
    Holds raw (start + e.bytes.length) es := by
  obtain ⟨pre, post, rfl, rfl⟩ := h
  exact ⟨pre ++ e.bytes, post, by simp, by simp⟩

theorem Holds.getD (h : Holds raw start es) {i : Nat} (hi : i < es.length) :
    At raw ((startsFrom start es).getD i 0) es[i] := by
  induction es generalizing start i with
  | nil => cases hi
  | cons e es ih =>
    cases i with
    | zero => exact h.head
    | succ i => exact ih h.tail (Nat.lt_of_succ_lt_succ hi)

/-- Every unmerged entry is to be collapsed. -/
def Collapsed (collapse : List Bytes) (es : List Entry) : Prop :=
  ∀ e ∈ es, e.stage ≠ 0 → e.name ∈ collapse

/-- An entry with a stage passes when its name is collapsed. -/
theorem checkStage_ok {e : Entry} (h : At raw start e)
    (hok : checkStage raw collapse start = .ok ()) : e.stage ≠ 0 → e.name ∈ collapse := by
  intro h0
  rw [checkStage, h.u16_flags, e.stageOf_flags, if_neg h0] at hok
  split_ifs at hok with hc
  rw [h.entryName] at hok
  by_contra hn
  simp [bind, Except.bind, hn, throw, throwThe, MonadExceptOf.throw] at hok

/-- The walk of a well-formed index finds the entries, and refuses what is not to be collapsed. -/
theorem walkEntries_ok (h : Holds raw start es) {res : List Nat × Nat}
    (hok : walkEntries raw collapse es.length start = .ok res) :
    res = (startsFrom start es, start + (es.flatMap Entry.bytes).length) ∧
      Collapsed collapse es := by
  induction es generalizing start res with
  | nil =>
    rw [List.length_nil, walkEntries] at hok
    split_ifs at hok
    cases hok
    exact ⟨rfl, nofun⟩
  | cons e es ih =>
    have hat := h.head
    have hle := hat.length_le
    have hbytes := e.length_bytes
    have hx := e.length_xflagBytes
    have hfix : entryFixedLen = 62 := rfl
    rw [List.length_cons, walkEntries, if_neg (by omega)] at hok
    cases hc : checkStage raw collapse start with
    | error err =>
      rw [hc] at hok
      cases hok
    | ok u =>
      -- the lengths read are those of the entry
      have hfixed : entryFixedLen + (if isExtended (u16 raw (start + 60)) then 2 else 0) =
          entryFixedLen + e.xflagBytes.length := by
        rw [hat.u16_flags, e.isExtended_flags, hx]
      have h2 : ¬raw.length < start + (entryFixedLen + e.xflagBytes.length) := by omega
      have hlen := hat.nameLength
      rw [Nat.add_assoc] at hlen
      simp only [hc, bind, Except.bind, hfixed, h2, if_false, hlen, ← hbytes] at hok
      cases hr : walkEntries raw collapse es.length (start + e.bytes.length) with
      | error err =>
        rw [hr] at hok
        cases hok
      | ok rest =>
        rw [hr] at hok
        cases hok
        obtain ⟨rfl, hcol⟩ := ih h.tail hr
        refine ⟨?_, ?_⟩
        · rw [List.flatMap_cons, List.length_append, ← Nat.add_assoc]
          rfl
        · intro e' he'
          rcases List.mem_cons.mp he' with rfl | he'
          · exact checkStage_ok hat hc
          · exact hcol e' he'

end

/-! ### Sorted entries around a key -/

/-- By name, several of one name being possible. -/
def NameSorted (es : List Entry) : Prop := es.Pairwise fun a b => a.name ≤ b.name

/-- The entries before a name. -/
def below (key : Bytes) (es : List Entry) : List Entry := es.filter fun e => decide (e.name < key)

/-- The entries of a name. -/
def at_ (key : Bytes) (es : List Entry) : List Entry := es.filter fun e => decide (e.name = key)

/-- The entries behind a name. -/
def above (key : Bytes) (es : List Entry) : List Entry := es.filter fun e => decide (key < e.name)

/-- Sorted entries are those before a name, those of it, and those behind it. -/
theorem split_at_name {es : List Entry} (h : NameSorted es) (key : Bytes) :
    es = below key es ++ (at_ key es ++ above key es) := by
  induction es with
  | nil => rfl
  | cons e es ih =>
    obtain ⟨hfirst, h⟩ := List.pairwise_cons.mp h
    have hes := ih h
    rcases Std.lt_trichotomy e.name key with hlt | heq | hgt
    · have hne : e.name ≠ key := fun heq => Std.lt_irrefl (heq ▸ hlt)
      have hng : ¬key < e.name := fun hgt => Std.lt_irrefl (Std.lt_trans hlt hgt)
      simp only [below, at_, above, List.filter_cons, hlt, hne, hng, decide_true, decide_false,
        if_true, Bool.false_eq_true, if_false, List.cons_append]
      exact congrArg _ hes
    · have hbelow : below key es = [] := List.filter_eq_nil_iff.mpr fun e' he' => by
        simpa using (heq ▸ hfirst e' he' : key ≤ e'.name)
      rw [hbelow, List.nil_append] at hes
      simp only [below, at_, above, List.filter_cons, heq, Std.lt_irrefl, decide_true, decide_false,
        if_true, Bool.false_eq_true, if_false]
      change e :: es = below key es ++ _
      rw [hbelow, List.nil_append, List.cons_append]
      exact congrArg _ hes
    · have hall : ∀ e' ∈ es, key < e'.name := fun e' he' => Std.lt_of_lt_of_le hgt (hfirst e' he')
      have hbelow : below key es = [] := List.filter_eq_nil_iff.mpr fun e' he' => by
        simpa using Std.not_lt.mpr (Std.le_of_lt (hall e' he'))
      have hat : at_ key es = [] := List.filter_eq_nil_iff.mpr fun e' he' => by
        simpa using fun heq : e'.name = key => Std.lt_irrefl (heq ▸ hall e' he')
      have hne : e.name ≠ key := fun heq => Std.lt_irrefl (heq ▸ hgt)
      have hnl : ¬e.name < key := fun hlt => Std.lt_irrefl (Std.lt_trans hlt hgt)
      rw [hbelow, hat, List.nil_append, List.nil_append] at hes
      simp only [below, at_, above, List.filter_cons, hgt, hne, hnl, decide_true, decide_false,
        if_true, Bool.false_eq_true, if_false]
      change e :: es = below key es ++ (at_ key es ++ e :: above key es)
      rw [hbelow, hat, List.nil_append, List.nil_append]
      exact congrArg _ hes

theorem NameSorted.drop {es : List Entry} (h : NameSorted es) (n : Nat) : NameSorted (es.drop n) :=
  List.Pairwise.sublist (List.drop_sublist n es) h

section

variable {raw : Bytes} {start : Nat} {es : List Entry} {key : Bytes}

/-- The test for a name compares with the entry at that place. -/
theorem nameIs_eq (h : Holds raw start es) (key : Bytes) (i : Nat) :
    nameIs raw (startsFrom start es) key i =
      .ok (decide (∃ e, es[i]? = some e ∧ e.name = key)) := by
  rw [nameIs, length_startsFrom]
  by_cases hi : i < es.length
  · rw [if_pos hi, (h.getD hi).entryName]
    simp [hi, bind, Except.bind, pure, Except.pure]
  · rw [if_neg hi]
    simp [hi, pure, Except.pure]

/-- The entries of a name end where another one begins. -/
theorem nameEnd_eq (h : Holds raw start es) {same rest : List Entry}
    (hsame : ∀ e ∈ same, e.name = key) (hrest : ∀ e ∈ rest, e.name ≠ key) {i left : Nat}
    (hdrop : es.drop i = same ++ rest) (hleft : left = es.length - i) :
    nameEnd raw (startsFrom start es) key left i = .ok (i + same.length) := by
  induction left generalizing i same with
  | zero =>
    have hnil : es.drop i = [] := List.drop_eq_nil_of_le (by omega)
    rw [hnil] at hdrop
    rw [(List.nil_eq_append_iff.mp hdrop).1, nameEnd]
    rfl
  | succ left ih =>
    have hget : es[i]? = (same ++ rest)[0]? := by rw [← hdrop, List.getElem?_drop, Nat.add_zero]
    rw [nameEnd, nameIs_eq h, hget]
    cases same with
    | nil =>
      have hno : ¬∃ e, ([] ++ rest)[0]? = some e ∧ e.name = key := by
        rintro ⟨e, he, hkey⟩
        exact hrest e (List.mem_of_getElem? he) hkey
      rw [decide_eq_false hno]
      rfl
    | cons e same =>
      have hyes : ∃ e', ((e :: same) ++ rest)[0]? = some e' ∧ e'.name = key :=
        ⟨e, rfl, hsame e List.mem_cons_self⟩
      have hdrop' : es.drop (i + 1) = same ++ rest := by
        rw [← List.drop_drop, hdrop]
        rfl
      have := ih (fun e' he' => hsame e' (List.mem_cons_of_mem e he')) hdrop' (by omega)
      simp only [hyes, decide_true, bind, Except.bind, if_true, this, List.length_cons]
      congr 1
      omega

/-- The bounds of the pieces are the offsets of the entries and the end. -/
theorem bounds_getD {i : Nat} (hi : i ≤ es.length) :
    (startsFrom start es ++ [start + (es.flatMap Entry.bytes).length]).getD i 0 =
      start + ((es.take i).flatMap Entry.bytes).length := by
  induction es generalizing start i with
  | nil =>
    rw [Nat.le_zero.mp hi]
    rfl
  | cons e es ih =>
    cases i with
    | zero => simp [startsFrom]
    | succ i =>
      simp only [startsFrom, List.cons_append, List.getD_cons_succ, List.flatMap_cons,
        List.length_append, List.take_succ_cons, ← Nat.add_assoc]
      exact ih (Nat.le_of_succ_le_succ hi)

/-- A piece is the bytes of the entries between two bounds. -/
theorem slice_bounds (h : Holds raw start es) {a b : Nat} (hab : a ≤ b) :
    slice raw (start + ((es.take a).flatMap Entry.bytes).length)
        (start + ((es.take b).flatMap Entry.bytes).length -
          (start + ((es.take a).flatMap Entry.bytes).length)) =
      ((es.take b).drop a).flatMap Entry.bytes := by
  obtain ⟨pre, post, rfl, rfl⟩ := h
  have htake : es.take b = es.take a ++ (es.take b).drop a := by
    conv_lhs => rw [← List.take_append_drop a (es.take b)]
    rw [List.take_take, Nat.min_eq_left hab]
  have hes : es.flatMap Entry.bytes = (es.take a).flatMap Entry.bytes ++
      (((es.take b).drop a).flatMap Entry.bytes ++ (es.drop b).flatMap Entry.bytes) := by
    rw [← List.append_assoc, ← List.flatMap_append, ← htake, ← List.flatMap_append,
      List.take_append_drop]
  have hlen : ((es.take b).flatMap Entry.bytes).length =
      ((es.take a).flatMap Entry.bytes).length +
        (((es.take b).drop a).flatMap Entry.bytes).length := by
    conv_lhs => rw [htake, List.flatMap_append, List.length_append]
  rw [hlen, ← Nat.add_assoc, Nat.add_sub_cancel_left, hes]
  simp only [List.append_assoc]
  rw [slice, List.drop_length_add_append, List.drop_left, List.take_left]

/-- The extended entries are told from the bytes. -/
theorem map_extendedAt (h : Holds raw start es) :
    (startsFrom start es).map (extendedAt raw) = es.map (·.xflags.isSome) := by
  induction es generalizing start with
  | nil => rfl
  | cons e es ih => rw [startsFrom, List.map_cons, List.map_cons, h.head.extendedAt, ih h.tail]

/-- The extended entries between two indices. -/
theorem countP_extendedAt (h : Holds raw start es) (a b : Nat) :
    (((startsFrom start es).take b).drop a).countP (extendedAt raw) =
      ((es.take b).drop a).countP (·.xflags.isSome) := by
  have hmap := map_extendedAt h
  have := congrArg (fun l => ((l.take b).drop a).countP id) hmap
  simpa [← List.map_take, ← List.map_drop, List.countP_map] using this

end

/-! ### The pass over the keys -/

/-- The entries with those of each key replaced. -/
def spliceEntries : List (Bytes × Option Entry) → List Entry → List Entry
  | [], es => es
  | (key, new) :: ks, es => below key es ++ (new.toList ++ spliceEntries ks (above key es))

/-- A key without entries and without a replacement changes nothing. -/
theorem spliceEntries_skip {es : List Entry} (hs : NameSorted es) {key : Bytes}
    (hat : at_ key es = []) {ks : List (Bytes × Option Entry)} (hks : ∀ k ∈ ks, key < k.1) :
    below key es ++ spliceEntries ks (above key es) = spliceEntries ks es := by
  have hsplit := split_at_name hs key
  rw [hat, List.nil_append] at hsplit
  cases ks with
  | nil => exact hsplit.symm
  | cons k ks =>
    obtain ⟨key', new⟩ := k
    have hlt : key < key' := hks _ List.mem_cons_self
    have hbelow : below key' es = below key es ++ below key' (above key es) := by
      conv_lhs => rw [hsplit]
      rw [below, List.filter_append]
      refine congrArg (· ++ _) (List.filter_eq_self.mpr fun e he => ?_)
      have : e.name < key := by simpa using (List.mem_filter.mp he).2
      simpa using Std.lt_trans this hlt
    have habove : above key' es = above key' (above key es) := by
      conv_lhs => rw [hsplit]
      rw [above, List.filter_append, List.filter_eq_nil_iff.mpr, List.nil_append]
      · rfl
      · intro e he
        have : e.name < key := by simpa using (List.mem_filter.mp he).2
        simpa using Std.le_of_lt (Std.lt_trans this hlt)
    rw [spliceEntries, spliceEntries, ← habove, hbelow, List.append_assoc]

/-- How many entries carry extended flags. -/
def extendedCount (es : List Entry) : Nat := es.countP (·.xflags.isSome)

@[simp] theorem extendedCount_nil : extendedCount [] = 0 := rfl

@[simp] theorem extendedCount_append (es es' : List Entry) :
    extendedCount (es ++ es') = extendedCount es + extendedCount es' := List.countP_append ..

/-- The entries from an index on: before a name, of it, and behind it. -/
structure Around (es : List Entry) (lo : Nat) (key : Bytes) (A S T : List Entry) : Prop where
  lo_le : lo ≤ es.length
  drop : es.drop lo = A ++ (S ++ T)
  before : ∀ e ∈ A, e.name < key
  same : ∀ e ∈ S, e.name = key
  behind : ∀ e ∈ T, key < e.name

/-- A sorted list splits around a key into what is below, at and above it. -/
theorem around_of_sorted {es : List Entry} (hs : NameSorted es) {lo : Nat} (hlo : lo ≤ es.length)
    (key : Bytes) : Around es lo key (below key (es.drop lo)) (at_ key (es.drop lo))
      (above key (es.drop lo)) where
  lo_le := hlo
  drop := split_at_name (hs.drop lo) key
  before e he := by simpa using (List.mem_filter.mp he).2
  same e he := by simpa using (List.mem_filter.mp he).2
  behind e he := by simpa using (List.mem_filter.mp he).2

section

variable {raw : Bytes} {start : Nat} {es : List Entry} {lo : Nat} {key : Bytes} {A S T : List Entry}

/-- The four parts make up the entries. -/
theorem Around.length (ha : Around es lo key A S T) :
    es.length = lo + A.length + S.length + T.length := by
  have h := congrArg List.length ha.drop
  have := ha.lo_le
  rw [List.length_drop, List.length_append, List.length_append] at h
  omega

theorem Around.drop_same (ha : Around es lo key A S T) : es.drop (lo + A.length) = S ++ T := by
  rw [← List.drop_drop, ha.drop, List.drop_left]

theorem Around.drop_behind (ha : Around es lo key A S T) :
    es.drop (lo + A.length + S.length) = T := by
  rw [← List.drop_drop, ha.drop_same, List.drop_left]

theorem Around.take_before (ha : Around es lo key A S T) :
    (es.take (lo + A.length)).drop lo = A := by
  rw [List.drop_take, ha.drop, Nat.add_sub_cancel_left, List.take_left]

/-- The search finds the place behind the entries before the key. -/
theorem Around.bisectLeft (ha : Around es lo key A S T) (h : Holds raw start es) :
    bisectLeft raw (startsFrom start es) key lo = .ok (lo + A.length) := by
  have hlen := ha.length
  rw [Git.bisectLeft, length_startsFrom]
  refine bisect_eq (Nat.le_add_right ..) (by omega) (fun i hi hi' => ?_) (Nat.sub_le ..)
  have hget : es[i]? = (A ++ (S ++ T))[i - lo]? := by
    rw [← ha.drop, List.getElem?_drop]
    congr 1
    omega
  rw [List.getElem?_eq_getElem hi'] at hget
  have hiff : es[i].name < key ↔ i < lo + A.length := by
    by_cases hlt : i - lo < A.length
    · rw [List.getElem?_append_left hlt] at hget
      exact iff_of_true (ha.before _ (List.mem_of_getElem? hget.symm)) (by omega)
    · rw [List.getElem?_append_right (by omega)] at hget
      refine iff_of_false (fun hbefore => ?_) (by omega)
      rcases List.mem_append.mp (List.mem_of_getElem? hget.symm) with hm | hm
      · exact Std.lt_irrefl (ha.same _ hm ▸ hbefore)
      · exact Std.lt_irrefl (Std.lt_trans (ha.behind _ hm) hbefore)
  rw [nameBefore, (h.getD hi').entryName]
  simp [hiff, bind, Except.bind, pure, Except.pure]

/-- The entry behind those below has the key if there is one. -/
theorem Around.nameIs (ha : Around es lo key A S T) (h : Holds raw start es) :
    nameIs raw (startsFrom start es) key (lo + A.length) = .ok (decide (S ≠ [])) := by
  have hget : es[lo + A.length]? = (S ++ T)[0]? := by
    rw [← ha.drop_same, List.getElem?_drop, Nat.add_zero]
  rw [nameIs_eq h, hget]
  congr 2
  refine propext ⟨?_, fun hne => ?_⟩
  · rintro ⟨e, he, hkey⟩ hnil
    rw [hnil, List.nil_append] at he
    exact Std.lt_irrefl (hkey ▸ ha.behind e (List.mem_of_getElem? he))
  · obtain ⟨e, rest, rfl⟩ := List.exists_cons_of_ne_nil hne
    exact ⟨e, rfl, ha.same e List.mem_cons_self⟩

/-- The entries with the key end where those above begin. -/
theorem Around.nameEnd (ha : Around es lo key A S T) (h : Holds raw start es) (hS : S ≠ []) :
    nameEnd raw (startsFrom start es) key (es.length - (lo + A.length + 1)) (lo + A.length + 1) =
      .ok (lo + A.length + S.length) := by
  obtain ⟨e, same, rfl⟩ := List.exists_cons_of_ne_nil hS
  have hdrop : es.drop (lo + A.length + 1) = same ++ T := by
    rw [← List.drop_drop, ha.drop_same]
    rfl
  rw [nameEnd_eq h (fun e' he' => ha.same e' (List.mem_cons_of_mem e he'))
    (fun e' he' heq => Std.lt_irrefl (heq ▸ ha.behind e' he')) hdrop rfl, List.length_cons]
  congr 1
  omega

/-- The piece in front of the key. -/
theorem Around.piece (ha : Around es lo key A S T) (h : Holds raw start es) :
    (if lo < lo + A.length then
      [slice raw ((startsFrom start es ++ [start + (es.flatMap Entry.bytes).length]).getD lo 0)
        ((startsFrom start es ++ [start + (es.flatMap Entry.bytes).length]).getD (lo + A.length) 0 -
          (startsFrom start es ++ [start + (es.flatMap Entry.bytes).length]).getD lo 0)]
      else []).flatten = A.flatMap Entry.bytes := by
  have hlen := ha.length
  split_ifs with hlt
  · rw [bounds_getD ha.lo_le, bounds_getD (by omega), slice_bounds h (Nat.le_of_lt hlt),
      ha.take_before, List.flatten_singleton]
  · rw [List.eq_nil_of_length_eq_zero (l := A) (by omega)]
    rfl

/-- The extended entries that go are those with the key. -/
theorem Around.gone (ha : Around es lo key A S T) (h : Holds raw start es) :
    (((startsFrom start es).take (lo + A.length + S.length)).drop (lo + A.length)).countP
      (Git.extendedAt raw) = extendedCount S := by
  rw [countP_extendedAt h, List.drop_take, ha.drop_same, Nat.add_sub_cancel_left, List.take_left]
  rfl

end

/-- The loop has put out these entries, and counts them with those that are left. -/
structure Reached (es : List Entry) (s : Splicing) (out : List Entry) : Prop where
  lo_le : s.lo ≤ es.length
  pieces : s.pieces.flatten = out.flatMap Entry.bytes
  total : s.total = out.length + (es.drop s.lo).length
  extended : s.extended = extendedCount out + extendedCount (es.drop s.lo)

section

variable {raw : Bytes} {start : Nat} {es : List Entry} {s : Splicing} {out : List Entry}

/-- A key does nothing, when it has no entries and no replacement, or puts out the entries in front
of it and its replacement, and goes on behind it. -/
theorem spliceKey_eq (h : Holds raw start es) (hr : Reached es s out) {key : Bytes}
    {A S T : List Entry} (ha : Around es s.lo key A S T) {new : Option Entry}
    (hnew : ∀ e ∈ new, e.xflags = none) :
    ∃ s', spliceKey raw (startsFrom start es) (start + (es.flatMap Entry.bytes).length) s key
        (new.map Entry.bytes) = .ok s' ∧
      ((s' = s ∧ new = none ∧ S = []) ∨
        Reached es s' (out ++ A ++ new.toList) ∧ es.drop s'.lo = T) := by
  have hlen := ha.length
  have hmid : s.lo + A.length ≤ es.length := by omega
  have hend : s.lo + A.length + S.length ≤ es.length := by omega
  have hnewBytes : (new.map Entry.bytes).toList.flatten = new.toList.flatMap Entry.bytes := by
    cases new <;> simp
  have hnewLen : (new.map Entry.bytes).toList.length = new.toList.length := by
    cases new <;> rfl
  -- a new entry is not extended
  have hnewExt : extendedCount new.toList = 0 := by
    cases new with
    | none => rfl
    | some e => simp [extendedCount, hnew e rfl]
  have hpiece := ha.piece h
  have htotal := hr.total
  have hext := hr.extended
  rw [ha.drop] at htotal hext
  rw [spliceKey]
  simp only [ha.bisectLeft h, ha.nameIs h, bind, Except.bind]
  generalize (if s.lo < s.lo + A.length then _ else []) = before at hpiece
  by_cases hS : S = []
  -- no entry has the name: what is kept in front of it is written only where something is added
  · have hdrop : es.drop (s.lo + A.length) = T := by rw [ha.drop_same, hS, List.nil_append]
    cases hn : new with
    | none => exact ⟨s, by simp [hS, pure, Except.pure], .inl ⟨rfl, rfl, hS⟩⟩
    | some e =>
      refine ⟨⟨s.lo + A.length, s.pieces ++ before ++ [e.bytes], s.total + 1, s.extended⟩,
        by simp [hS, pure, Except.pure], .inr ⟨⟨hmid, ?_, ?_, ?_⟩, hdrop⟩⟩
      · simp [hr.pieces, hpiece]
      · rw [hdrop, htotal, hS]
        simp
        omega
      · rw [hn] at hnewExt
        have hone : extendedCount [e] = 0 := hnewExt
        rw [hdrop, hext, hS]
        simp [hone]
        omega
  -- the entries of the name give way, and leave the counts
  · refine ⟨⟨s.lo + A.length + S.length, s.pieces ++ before ++ (new.map Entry.bytes).toList,
      s.total - (s.lo + A.length + S.length - (s.lo + A.length) : Nat) +
        (new.map Entry.bytes).toList.length, s.extended - extendedCount S⟩, ?_,
      .inr ⟨⟨hend, ?_, ?_, ?_⟩, ha.drop_behind⟩⟩
    · simp [hS, ha.nameEnd h hS, ha.gone h, pure, Except.pure]
    · simp [hr.pieces, hpiece, hnewBytes]
    · rw [ha.drop_behind, htotal, hnewLen, Nat.add_sub_cancel_left]
      simp
      omega
    · rw [ha.drop_behind, hext]
      simp [hnewExt]
      omega

/-- The pass over the sorted keys: what is out and what is left is `spliceEntries`. -/
theorem spliceKeys_eq (h : Holds raw start es) (hs : NameSorted es)
    {ks : List (Bytes × Option Entry)} (hks : (ks.map Prod.fst).Pairwise (· < ·))
    (hnew : ∀ k ∈ ks, ∀ e ∈ k.2, e.xflags = none) (hr : Reached es s out) :
    ∃ s' out', spliceKeys raw (startsFrom start es) (start + (es.flatMap Entry.bytes).length) s
        (ks.map fun k => (k.1, k.2.map Entry.bytes)) = .ok s' ∧
      Reached es s' out' ∧ out' ++ es.drop s'.lo = out ++ spliceEntries ks (es.drop s.lo) := by
  induction ks generalizing s out with
  | nil => exact ⟨s, out, rfl, hr, rfl⟩
  | cons k ks ih =>
    obtain ⟨key, new⟩ := k
    obtain ⟨hfirst, hks'⟩ := List.pairwise_cons.mp hks
    have hlater : ∀ k ∈ ks, key < k.1 := fun k hk => hfirst k.1 (List.mem_map_of_mem hk)
    have ha := around_of_sorted hs hr.lo_le key
    obtain ⟨s₁, hs₁, hcase⟩ := spliceKey_eq h hr ha (hnew _ List.mem_cons_self)
    have hnew' : ∀ k ∈ ks, ∀ e ∈ k.2, e.xflags = none := fun k hk =>
      hnew k (List.mem_cons_of_mem _ hk)
    rw [List.map_cons, spliceKeys, hs₁]
    rcases hcase with ⟨rfl, rfl, hat⟩ | ⟨hr₁, hdrop⟩
    · obtain ⟨s', out', hrun, hr', heq⟩ := ih hks' hnew' hr
      refine ⟨s', out', hrun, hr', ?_⟩
      rw [heq, ← spliceEntries_skip (hs.drop s₁.lo) hat hlater]
      rfl
    · obtain ⟨s', out', hrun, hr', heq⟩ := ih hks' hnew' hr₁
      refine ⟨s', out', hrun, hr', ?_⟩
      rw [heq, hdrop, spliceEntries]
      simp only [List.append_assoc]

end

/-! ### What is spliced -/

/-- The spliced entries are the old ones that no key names, and the new ones. -/
theorem mem_spliceEntries {ks : List (Bytes × Option Entry)}
    (hks : (ks.map Prod.fst).Pairwise (· < ·)) {es : List Entry} {e : Entry} :
    e ∈ spliceEntries ks es ↔
      (e ∈ es ∧ e.name ∉ ks.map Prod.fst) ∨ ∃ k ∈ ks, k.2 = some e := by
  induction ks generalizing es with
  | nil => simp [spliceEntries]
  | cons k ks ih =>
    obtain ⟨key, new⟩ := k
    obtain ⟨hfirst, hks⟩ := List.pairwise_cons.mp hks
    rw [spliceEntries, List.mem_append, List.mem_append, ih hks, below, above, List.mem_filter,
      List.mem_filter, Option.mem_toList, List.map_cons, List.mem_cons, List.exists_mem_cons_iff]
    simp only [decide_eq_true_eq]
    constructor
    · rintro (⟨hmem, hlt⟩ | hnew | ⟨⟨hmem, hgt⟩, hnot⟩ | hk)
      · refine .inl ⟨hmem, ?_⟩
        rintro (heq | hin)
        · exact Std.lt_irrefl (heq ▸ hlt)
        · exact Std.lt_irrefl (Std.lt_trans hlt (hfirst _ hin))
      · exact .inr (.inl hnew)
      · exact .inl ⟨hmem, fun h => h.elim (fun heq => Std.lt_irrefl (heq ▸ hgt)) hnot⟩
      · exact .inr (.inr hk)
    · rintro (⟨hmem, hnot⟩ | hnew | hk)
      · rcases Std.lt_trichotomy e.name key with hlt | heq | hgt
        · exact .inl ⟨hmem, hlt⟩
        · exact absurd (.inl heq) hnot
        · exact .inr (.inr (.inl ⟨⟨hmem, hgt⟩, fun h => hnot (.inr h)⟩))
      · exact .inr (.inl hnew)
      · exact .inr (.inr (.inr hk))

/-- Where only the names of keys come twice, the spliced entries are strictly sorted by name. -/
theorem pairwise_spliceEntries {ks : List (Bytes × Option Entry)}
    (hks : (ks.map Prod.fst).Pairwise (· < ·)) (hname : ∀ k ∈ ks, ∀ e ∈ k.2, e.name = k.1)
    {es : List Entry}
    (hes : es.Pairwise fun a b => a.name < b.name ∨ a.name = b.name ∧ a.name ∈ ks.map Prod.fst) :
    (spliceEntries ks es).Pairwise fun a b => a.name < b.name := by
  induction ks generalizing es with
  | nil => exact hes.imp fun h => h.resolve_right (by simp)
  | cons k ks ih =>
    obtain ⟨key, new⟩ := k
    obtain ⟨hfirst, hks'⟩ := List.pairwise_cons.mp hks
    have hname' : ∀ k ∈ ks, ∀ e ∈ k.2, e.name = k.1 := fun k hk =>
      hname k (List.mem_cons_of_mem _ hk)
    have hbelow : ∀ a ∈ below key es, a.name < key := fun a ha => by
      simpa using (List.mem_filter.mp ha).2
    -- behind the key stand the entries above it and the later keys
    have hrest : ∀ b ∈ spliceEntries ks (above key es), key < b.name := by
      intro b hb
      rcases (mem_spliceEntries hks').mp hb with ⟨hb, -⟩ | ⟨k, hk, hkb⟩
      · simpa using (List.mem_filter.mp hb).2
      · rw [hname' k hk b hkb]
        exact hfirst _ (List.mem_map_of_mem hk)
    have hnew : ∀ b ∈ new.toList, b.name = key := fun b hb =>
      hname _ List.mem_cons_self b (Option.mem_toList.mp hb)
    rw [spliceEntries]
    refine List.pairwise_append.mpr ⟨?_, List.pairwise_append.mpr ⟨?_, ?_, ?_⟩, ?_⟩
    · refine (hes.sublist List.filter_sublist).imp_of_mem fun {a b} ha _ h =>
        h.resolve_right fun hr => ?_
      have hlt := hbelow a ha
      rcases List.mem_cons.mp hr.2 with heq | hin
      · exact Std.lt_irrefl (heq ▸ hlt)
      · exact Std.lt_irrefl (Std.lt_trans hlt (hfirst _ hin))
    · cases new <;> simp
    · refine ih hks' hname' ((hes.sublist List.filter_sublist).imp_of_mem fun {a b} ha _ h =>
        h.imp_right fun hr => ⟨hr.1, (List.mem_cons.mp hr.2).resolve_left fun heq => ?_⟩)
      have hgt : key < a.name := by simpa using (List.mem_filter.mp ha).2
      exact Std.lt_irrefl (heq ▸ hgt)
    · intro a ha b hb
      rw [hnew a ha]
      exact hrest b hb
    · intro a ha b hb
      rcases List.mem_append.mp hb with hb | hb
      · rw [hnew b hb]
        exact hbelow a ha
      · exact Std.lt_trans (hbelow a ha) (hrest b hb)

end Git

end CoordinatorCore
