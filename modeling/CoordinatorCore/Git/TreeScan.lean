import CoordinatorCore.Git.TreeBytes
import CoordinatorCore.Machine.Keeping

/-!
# One entry of a tree, without a parse

`_tree_entry` of `git/rollback_check.py` looks for `<mode> <name>` and a zero in the bytes of a tree
and parses nothing, unless a space stands in front of the mode. What it finds need not be an entry:
a name may end in `<mode> <name>`, and so may the bytes of a hash, alone or together with the front
of the entry behind them. `Exact` says that this does not happen, and then the result is what
`_parse_tree_entries` has for the name (`scanTree_eq`).

A name is a string that `os.fsdecode` gives, and stands here by its bytes. Results are kept in a
cache, in which all values stay right (`treeEntry_ensures`).
-/

namespace CoordinatorCore

open PyStr Text

namespace Git

namespace RollbackCheck

open TreeBytes

/-- What `_tree_entry` returns: `None`, `ABSENT`, or an entry. -/
inductive Entry
  | unreadable
  | absent
  | found (mode : Int) (sha : Text)
deriving DecidableEq

/-! ### The scan -/

/-- `_MODES6` -/
def modes6 : List Bytes :=
  [[0x31, 0x30, 0x30, 0x36, 0x34, 0x34], [0x31, 0x30, 0x30, 0x37, 0x35, 0x35],
    [0x31, 0x32, 0x30, 0x30, 0x30, 0x30], [0x31, 0x36, 0x30, 0x30, 0x30, 0x30]]

/-- `b"40000"` -/
def modeTree : Bytes := [0x34, 0x30, 0x30, 0x30, 0x30]

/-- `raw[pos - n : pos]`; where that begins in front of the bytes, the slice is empty. -/
def bytesBefore (raw : Bytes) (pos n : ℕ) : Bytes :=
  if n ≤ pos then (raw.drop (pos - n)).take n else []

/-- The mode that ends at `pos`. -/
def modeBefore (raw : Bytes) (pos : ℕ) : Option Bytes :=
  if bytesBefore raw pos 6 ∈ modes6 then some (bytesBefore raw pos 6)
  else if bytesBefore raw pos 5 = modeTree then some (bytesBefore raw pos 5)
  else none

/-- The positions of `raw.find(needle, ..)`, one behind the other. -/
def hits (raw needle : Bytes) : List ℕ :=
  (List.range (raw.length + 1)).filter fun pos => needle.isPrefixOf (raw.drop pos)

/-- What a full parse has for the name. -/
def fullEntry (raw name : Bytes) : Entry :=
  match parseTreeEntries raw with
  | none => .unreadable
  | some full =>
    match full.get (fsDecode name) with
    | none => .absent
    | some e => .found e.1 e.2

/-- `name.encode("utf-8", "surrogateescape")` between a space and a zero. -/
def needleOf (name : Bytes) : Bytes := 0x20 :: (name ++ [0])

/-- The loop over the hits. -/
def scanHits (raw name : Bytes) : List ℕ → Entry
  | [] => .absent
  | pos :: rest =>
    if pos + (needleOf name).length + 20 ≤ raw.length then
      match modeBefore raw pos with
      | none => scanHits raw name rest
      | some mode =>
        if bytesBefore raw (pos - mode.length) 1 = [0x20] then fullEntry raw name
        else
          match octalInt mode with
          | none => .absent
          | some m => .found m (hex ((raw.drop (pos + (needleOf name).length)).take 20))
    else scanHits raw name rest

/-- The body of `_tree_entry`, for a tree that can be read. -/
def scanTree (raw name : Bytes) : Entry := scanHits raw name (hits raw (needleOf name))

/-! ### The cache -/

/-- `_ENTRY_CACHE`, for one repository. -/
abbrev Cache := Table (Text × Bytes) Entry

def entryCacheMax : ℕ := 16384

section

variable (readObject : Text → Option (Text × Bytes))

/-- The bytes of a tree. -/
def readTree (sha : Text) : Option Bytes :=
  match readObject sha with
  | some (kind, raw) => if kind = "tree".toList then some raw else none
  | none => none

/-- `_tree_entry`. -/
def treeEntry (sha : Text) (name : Bytes) : StateM Cache Entry := fun cache =>
  match cache.get (sha, name) with
  | some entry => (entry, cache)
  | none =>
    match readTree readObject sha with
    | none => (.unreadable, cache)
    | some raw =>
      let result := scanTree raw name
      let cache := if entryCacheMax ≤ cache.entries.length then ∅ else cache
      (result, cache.set (sha, name) result)

/-- The result without the cache. -/
def plainEntry (sha : Text) (name : Bytes) : Entry :=
  match readTree readObject sha with
  | none => .unreadable
  | some raw => scanTree raw name

/-- All that is kept is right. -/
def Sound (cache : Cache) : Prop :=
  ∀ sha name entry, cache.get (sha, name) = some entry → entry = plainEntry readObject sha name

/-- The cache behind earlier calls. -/
def cacheAfter (calls : List (Text × Bytes)) : Cache :=
  calls.foldl (fun cache call => ((treeEntry readObject call.1 call.2).run cache).2) ∅

variable {readObject}

/-- A lookup is right whatever the cache holds, and what it keeps is right. -/
theorem treeEntry_ensures (sha : Text) (name : Bytes) :
    Ensures (Sound readObject) (treeEntry readObject sha name)
      fun entry => entry = plainEntry readObject sha name := by
  intro cache hsound
  change (treeEntry readObject sha name cache).1 = _ ∧ Sound readObject
    (treeEntry readObject sha name cache).2
  rw [treeEntry, plainEntry]
  cases hget : cache.get (sha, name) with
  | some entry => exact ⟨hsound sha name entry hget, hsound⟩
  | none =>
    cases hread : readTree readObject sha with
    | none => exact ⟨rfl, hsound⟩
    | some raw =>
      refine ⟨rfl, fun sha' name' entry h => ?_⟩
      simp only at h
      rw [Table.get_set] at h
      split_ifs at h with hkey hfull
      · obtain ⟨rfl, rfl⟩ := Prod.mk.inj hkey
        rw [plainEntry, hread]
        exact (Option.some.inj h).symm
      · cases h
      · exact hsound sha' name' entry h

theorem sound_cacheAfter (calls : List (Text × Bytes)) :
    Sound readObject (cacheAfter readObject calls) := by
  have hempty : Sound readObject ∅ := fun sha name entry h => by cases h
  rw [cacheAfter]
  generalize (∅ : Cache) = cache at hempty
  induction calls generalizing cache with
  | nil => exact hempty
  | cons call calls ih => exact ih _ ((treeEntry_ensures call.1 call.2).state hempty)

end

/-! ### What a scan finds -/

/-- The modes that `_tree_entry` knows. -/
def knownModes : List Bytes := modeTree :: modes6

/-- Wherever a mode, a space, the name and a zero stand with no space in front, and twenty bytes
behind, an entry of this name begins. -/
def Exact (es : List (TreeEntry Text)) (raw name : Bytes) : Prop :=
  ∀ front mode behind, raw = front ++ mode ++ needleOf name ++ behind → mode ∈ knownModes →
    20 ≤ behind.length → front.getLast? ≠ some 0x20 →
    ∃ es₁ e es₂, es = es₁ ++ e :: es₂ ∧ e.name = name ∧ Payload es₁ front

/-- A hit that the loop takes. -/
structure Taken (raw name : Bytes) (pos : ℕ) (mode : Bytes) : Prop where
  hit : needleOf name <+: raw.drop pos
  room : pos + (needleOf name).length + 20 ≤ raw.length
  mode_eq : modeBefore raw pos = some mode

theorem mem_hits {raw needle : Bytes} {pos : ℕ} (h : needle ≠ []) :
    pos ∈ hits raw needle ↔ needle <+: raw.drop pos := by
  rw [hits, List.mem_filter, List.isPrefixOf_iff_prefix, List.mem_range]
  refine ⟨fun h => h.2, fun hpre => ⟨?_, hpre⟩⟩
  by_contra hle
  rw [List.drop_eq_nil_of_le (by omega), List.prefix_nil] at hpre
  exact h hpre

/-- The bytes in front of a position. -/
theorem exists_bytesBefore {raw m : Bytes} {pos n : ℕ} (hpos : pos ≤ raw.length) (hn : m.length = n)
    (hne : m ≠ []) (h : bytesBefore raw pos n = m) :
    ∃ front, raw.take pos = front ++ m ∧ front.length = pos - n := by
  rw [bytesBefore] at h
  split_ifs at h with hle
  · refine ⟨raw.take (pos - n), ?_, by simp; omega⟩
    rw [← h, ← List.take_add, Nat.sub_add_cancel hle]
  · exact absurd h.symm hne

theorem length_of_mem_modes6 {m : Bytes} (h : m ∈ modes6) : m.length = 6 := by
  revert m
  decide

theorem exists_modeBefore {raw mode : Bytes} {pos : ℕ} (hpos : pos ≤ raw.length)
    (h : modeBefore raw pos = some mode) :
    mode ∈ knownModes ∧ ∃ front, raw.take pos = front ++ mode ∧
      front.length = pos - mode.length := by
  rw [modeBefore] at h
  split_ifs at h with hsix hfive
  · obtain rfl := Option.some.inj h
    have hlen := length_of_mem_modes6 hsix
    refine ⟨List.mem_cons_of_mem _ hsix, ?_⟩
    rw [hlen]
    exact exists_bytesBefore hpos hlen (by rintro hnil; rw [hnil] at hlen; cases hlen) rfl
  · obtain rfl := Option.some.inj h
    rw [hfive]
    exact ⟨List.mem_cons_self, exists_bytesBefore hpos rfl (by decide) hfive⟩

/-- In front of the space of an entry its mode is found. -/
theorem modeBefore_append {front mode rest : Bytes} (h : mode ∈ knownModes) :
    modeBefore (front ++ mode ++ rest) (front ++ mode).length = some mode := by
  have hbefore (n : ℕ) (hn : n = mode.length) :
      bytesBefore (front ++ mode ++ rest) (front ++ mode).length n = mode := by
    rw [bytesBefore, if_pos (by simp; omega), hn]
    simp
  rw [modeBefore]
  obtain rfl | h := List.mem_cons.mp h
  · rw [if_neg, if_pos (hbefore 5 rfl), hbefore 5 rfl]
    intro hsix
    obtain ⟨front', hfront, -⟩ := @exists_bytesBefore (front ++ modeTree ++ rest) _
      (front ++ modeTree).length 6 (by simp) (length_of_mem_modes6 hsix)
      (fun hnil => absurd (length_of_mem_modes6 hsix) (by rw [hnil]; decide)) rfl
    rw [List.take_left] at hfront
    -- none of the six digits ends in those of a directory
    have hsuffix : ∀ m ∈ modes6, ¬ modeTree <:+ m := by decide
    refine hsuffix _ hsix (List.suffix_of_suffix_length_le (List.suffix_append front modeTree)
      ?_ (by rw [length_of_mem_modes6 hsix]; decide))
    exact ⟨front', hfront.symm⟩
  · have hlen := length_of_mem_modes6 h
    rw [hbefore 6 hlen.symm, if_pos h]

/-- What is made of a hit. -/
def entryAt (raw name : Bytes) (pos : ℕ) (mode : Bytes) : Entry :=
  if bytesBefore raw (pos - mode.length) 1 = [0x20] then fullEntry raw name
  else
    match octalInt mode with
    | none => .absent
    | some m => .found m (hex ((raw.drop (pos + (needleOf name).length)).take 20))

/-- The loop ends at the first hit that it takes. -/
theorem scanHits_cases (raw name : Bytes) {l : List ℕ} (hl : ∀ pos ∈ l, needleOf name <+: raw.drop pos) :
    (scanHits raw name l = .absent ∧ ∀ pos ∈ l, ∀ mode, ¬ Taken raw name pos mode) ∨
      ∃ pos mode, Taken raw name pos mode ∧ scanHits raw name l = entryAt raw name pos mode := by
  induction l with
  | nil => exact .inl ⟨rfl, by simp⟩
  | cons pos l ih =>
    obtain ⟨hpos, hl⟩ := List.forall_mem_cons.mp hl
    have hgoOn (h : scanHits raw name (pos :: l) = scanHits raw name l)
        (hnot : ∀ mode, ¬ Taken raw name pos mode) :
        (scanHits raw name (pos :: l) = .absent ∧
            ∀ pos' ∈ pos :: l, ∀ mode, ¬ Taken raw name pos' mode) ∨
          ∃ pos' mode, Taken raw name pos' mode ∧
            scanHits raw name (pos :: l) = entryAt raw name pos' mode := by
      rw [h]
      exact (ih hl).imp_left fun h => ⟨h.1, List.forall_mem_cons.mpr ⟨hnot, h.2⟩⟩
    by_cases hroom : pos + (needleOf name).length + 20 ≤ raw.length
    · cases hmode : modeBefore raw pos with
      | none =>
        refine hgoOn (by rw [scanHits, if_pos hroom, hmode]) fun mode h => ?_
        have := h.mode_eq
        rw [hmode] at this
        cases this
      | some mode =>
        refine .inr ⟨pos, mode, ⟨hpos, hroom, hmode⟩, ?_⟩
        rw [scanHits, if_pos hroom, hmode]
        rfl
    · exact hgoOn (by rw [scanHits, if_neg hroom]) fun mode h => hroom h.room

theorem needleOf_ne_nil (name : Bytes) : needleOf name ≠ [] := List.cons_ne_nil _ _

/-- The bytes about a hit. -/
theorem Taken.exists_cut {raw name mode : Bytes} {pos : ℕ} (h : Taken raw name pos mode) :
    mode ∈ knownModes ∧ ∃ front behind, raw = front ++ mode ++ needleOf name ++ behind ∧
      pos = (front ++ mode).length ∧ 20 ≤ behind.length := by
  have hroom := h.room
  obtain ⟨hmode, front, hfront, hlen⟩ := exists_modeBefore (by omega) h.mode_eq
  obtain ⟨behind, hbehind⟩ := h.hit
  have hraw : raw = front ++ mode ++ needleOf name ++ behind := by
    rw [← hfront, List.append_assoc, hbehind, List.take_append_drop]
  have hpos : pos = (front ++ mode).length := by
    rw [← hfront, List.length_take]
    omega
  refine ⟨hmode, front, behind, hraw, hpos, ?_⟩
  rw [hpos, hraw] at hroom
  simp only [List.length_append] at hroom
  omega

section

variable {es : List (TreeEntry Text)} {raw name : Bytes}

/-- What the full parse has. -/
theorem fullEntry_eq (hP : Payload es raw) (hnd : (es.map TreeEntry.name).Nodup) :
    (∀ e ∈ es, fullEntry raw e.name = .found e.mode e.sha) ∧
      ∀ name ∉ es.map TreeEntry.name, fullEntry raw name = .absent := by
  have hkeys : ((es.map entryOf).map Prod.fst).Nodup := by
    have hmap : (es.map entryOf).map Prod.fst = (es.map TreeEntry.name).map fsDecode := by
      simp only [List.map_map]
      rfl
    rw [hmap]
    exact hnd.map fsDecode_injective
  constructor
  · intro e he
    have hget := (Table.get_ofPairs_of_nodup hkeys).mpr (List.mem_map_of_mem he)
    rw [fullEntry, parseTreeEntries_payload hP]
    simp only
    rw [show fsDecode e.name = e.text from rfl, hget]
  · intro name hname
    rw [fullEntry, parseTreeEntries_payload hP]
    simp only
    cases hget : (Table.ofPairs (es.map entryOf)).get (fsDecode name) with
    | none => rfl
    | some v =>
      obtain ⟨e, he, heq⟩ := List.mem_map.mp ((Table.get_ofPairs_of_nodup hkeys).mp hget)
      have hdec : fsDecode e.name = fsDecode name := congrArg Prod.fst heq
      exact absurd (List.mem_map.mpr ⟨e, he, fsDecode_injective hdec⟩) hname

/-- The mode and the name in front of an entry's hash are a hit that the loop takes. -/
theorem taken_of_mem (hP : Payload es raw) {e : TreeEntry Text} (he : e ∈ es)
    (hmode : octal e.mode ∈ knownModes) : ∃ pos mode, Taken raw e.name pos mode := by
  obtain ⟨es₁, es₂, rfl⟩ := List.append_of_mem he
  obtain ⟨front, sha, rest, hraw, -, hlen, -⟩ := hP.split
  have hcut : raw = front ++ octal e.mode ++ (needleOf e.name ++ (sha ++ rest)) := by
    rw [hraw, lineBytes, needleOf]
    simp only [List.append_assoc, List.cons_append, List.nil_append]
  refine ⟨(front ++ octal e.mode).length, octal e.mode, ?_, ?_, ?_⟩
  · rw [hcut, List.drop_left]
    exact List.prefix_append _ _
  · rw [hcut]
    simp only [List.length_append, hlen]
    omega
  · rw [hcut]
    exact modeBefore_append hmode

/-- The bytes of an entry say what the parse says. -/
theorem lineBytes_eq {e : TreeEntry Text} {sha rest mode behind : Bytes} (hmode : mode ∈ knownModes)
    (h : lineBytes e sha ++ rest = mode ++ (needleOf e.name ++ behind)) :
    mode = octal e.mode ∧ behind = sha ++ rest := by
  have hline : lineBytes e sha ++ rest = octal e.mode ++ 0x20 :: (e.name ++ 0 :: (sha ++ rest)) := by
    simp [lineBytes]
  have hneedle : needleOf e.name ++ behind = 0x20 :: (e.name ++ 0 :: behind) := by
    simp [needleOf]
  rw [hline, hneedle] at h
  have hmodes : ∀ b ∈ mode, decide (b ≠ 0x20) = true := by
    have : ∀ m ∈ knownModes, m.all (fun b => decide (b ≠ 0x20)) = true := by decide
    exact List.all_eq_true.mp (this mode hmode)
  have hspan := congrArg (List.takeWhile (fun b => decide (b ≠ 0x20))) h
  rw [(span_mode _ _).1, List.takeWhile_append_of_pos hmodes] at hspan
  have heq : octal e.mode = mode := by simpa using hspan
  refine ⟨heq.symm, ?_⟩
  rw [heq] at h
  have h := List.append_cancel_left h
  have h := (List.cons.inj h).2
  have h := List.append_cancel_left h
  exact ((List.cons.inj h).2).symm

/-- **The scan has what the parse has**, where nothing but an entry looks like one. -/
theorem scanTree_eq (hP : Payload es raw) (hmodes : ∀ e ∈ es, octal e.mode ∈ knownModes)
    (hnd : (es.map TreeEntry.name).Nodup) (hex : Exact es raw name) :
    scanTree raw name = fullEntry raw name := by
  obtain ⟨hmem, habsent⟩ := fullEntry_eq hP hnd
  obtain ⟨heq, hnone⟩ | ⟨pos, mode, htaken, heq⟩ := scanHits_cases raw name
    (l := hits raw (needleOf name)) fun pos h => (mem_hits (needleOf_ne_nil name)).mp h
  · rw [scanTree, heq, habsent]
    intro hname
    obtain ⟨e, he, rfl⟩ := List.mem_map.mp hname
    obtain ⟨pos, mode, htaken⟩ := taken_of_mem hP he (hmodes e he)
    exact hnone pos ((mem_hits (needleOf_ne_nil e.name)).mpr htaken.hit) mode htaken
  · rw [scanTree, heq, entryAt]
    split_ifs with hspace
    · rfl
    obtain ⟨hmode, front, behind, hraw, hpos, hbehind⟩ := htaken.exists_cut
    have hfront : front.getLast? ≠ some 0x20 := by
      intro hlast
      refine hspace ?_
      obtain ⟨front, rfl⟩ := List.getLast?_eq_some_iff.mp hlast
      have hidx : pos - mode.length = front.length + 1 := by
        rw [hpos]
        simp only [List.length_append, List.length_singleton]
        omega
      rw [bytesBefore, hidx, if_pos (Nat.le_add_left 1 _), Nat.add_sub_cancel, hraw]
      simp only [List.append_assoc]
      rw [List.drop_left]
      rfl
    obtain ⟨es₁, e, es₂, rfl, rfl, hP₁⟩ := hex front mode behind hraw hmode hbehind hfront
    obtain ⟨front', sha, rest, hraw', hP₁', hlen, hsha, -⟩ := hP.split
    -- the same entry, by its place
    rw [hraw, List.append_assoc, List.append_assoc, List.append_assoc] at hraw'
    obtain ⟨rfl, hcut⟩ := List.append_inj hraw' (hP₁.length_eq hP₁')
    obtain ⟨rfl, rfl⟩ := lineBytes_eq hmode hcut.symm
    have hdrop : (raw.drop (pos + (needleOf e.name).length)).take 20 = sha := by
      rw [hraw, hpos, ← List.length_append, List.drop_left, ← hlen, List.take_left]
    rw [octalInt_octal, hmem e (by simp)]
    simp only
    rw [hdrop, hsha]

end

end RollbackCheck

end Git

end CoordinatorCore
