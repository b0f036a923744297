import CoordinatorCore.Git.SpliceExact
import CoordinatorCore.Machine.Run

/-!
# The spliced index

What the updates put in the place of their entries, and with it what the bytes of a splice read as:
the theorem about `_splice_locked` as a whole (`spliceLocked_exact`). Paths are taken with slashes
for their backslashes, as the index is written.
-/

namespace CoordinatorCore

open PyStr Machine

namespace Git

/-- The name of a path in the index. -/
def nameOf (path : PyStr) : Option Bytes := fsEncode (normalized path)

/-- The entry carries the intent-to-add flag. -/
def Entry.intentToAdd (e : Entry) : Bool := e.xflags.getD 0 / 0x2000 % 2 = 1

/-! ### Built entries -/

/-- The entry is what an update with a mode and a hash asks for. -/
structure Recorded (key : Bytes) (mode : Int) (sha : Text) (e : Entry) : Prop where
  name : e.name = key
  stage : e.stage = 0
  xflags : e.xflags = none
  assumeValid : e.assumeValid = false
  mode : mode = u32 e.stat 24
  sha : fromHex sha = some (slice e.stat 40 20)

theorem pack32_ok {n : Int} {b : Bytes} (h : pack32 n = .ok b) :
    b = be32 n.toNat ∧ 0 ≤ n ∧ n < 0x100000000 := by
  rw [pack32] at h
  split_ifs at h with hn
  cases h
  exact ⟨rfl, hn⟩

/-- A built entry is well formed. -/
theorem buildEntry_ok {key : Bytes} {mode : Int} {sha : Text} {st : Stat} {b : Bytes}
    (hkey : 0 ∉ key) (h : buildEntry key mode sha st = .ok b) :
    ∃ e : Entry, e.bytes = b ∧ Recorded key mode sha e := by
  rw [buildEntry] at h
  cases hsha : fromHex sha with
  | none =>
    rw [hsha] at h
    cases h
  | some hash =>
    rw [hsha] at h
    dsimp only at h
    split_ifs at h with hlen
    cases hc : pack32 st.ctime with
    | error err => simp [hc, bind, Except.bind] at h
    | ok ctime =>
      cases hm : pack32 st.mtime with
      | error err => simp [hc, hm, bind, Except.bind] at h
      | ok mtime =>
        cases hmode : pack32 mode with
        | error err => simp [hc, hm, hmode, bind, Except.bind] at h
        | ok modeBytes =>
          obtain ⟨rfl, -⟩ := pack32_ok hc
          obtain ⟨rfl, -⟩ := pack32_ok hm
          obtain ⟨rfl, hpos, hlt⟩ := pack32_ok hmode
          simp only [hc, hm, hmode, bind, Except.bind, pure, Except.pure, Except.ok.injEq] at h
          have hlen : hash.length = 20 := by simpa using hlen
          -- the ten words of the stat, the hash, the flags and the name
          refine ⟨⟨be32 st.ctime.toNat ++ be32 (st.ctimeNs % 1000000000).toNat ++
            be32 st.mtime.toNat ++ be32 (st.mtimeNs % 1000000000).toNat ++
            be32 (st.dev % 0x100000000) ++ be32 (st.ino % 0x100000000) ++ be32 mode.toNat ++
            be32 (st.uid % 0x100000000) ++ be32 (st.gid % 0x100000000) ++
            be32 (st.size % 0x100000000) ++ hash, false, 0, none, key,
            by simp [hlen], by decide, nofun, hkey⟩, ?_, rfl, rfl, rfl, rfl, ?_, ?_⟩
          · rw [← h]
            simp only [Entry.bytes, Entry.padding, Entry.xflagBytes, Entry.flags, Option.map_none,
              Option.getD_none, Option.isSome_none, Bool.toNat_false, List.append_nil,
              List.length_nil, Nat.zero_mul, Nat.zero_add, Nat.add_zero, List.length_append,
              length_be32, length_be16, hlen, List.append_assoc]
            -- the padding fills up to a multiple of eight
            have hpad : ∀ n : Nat, [0] ++ List.replicate ((8 - (62 + n + 1) % 8) % 8) (0 : UInt8) =
                List.replicate (8 - (62 + n) % 8) 0 := by
              intro n
              rw [List.singleton_append, ← List.replicate_succ]
              congr 1
              omega
            have := hpad key.length
            simp only [entryFixedLen, ← this, List.length_singleton]
            simp only [List.singleton_append, Nat.add_assoc]
            congr 18
            omega
          · have : u32 (be32 st.ctime.toNat ++ be32 (st.ctimeNs % 1000000000).toNat ++
                be32 st.mtime.toNat ++ be32 (st.mtimeNs % 1000000000).toNat ++
                be32 (st.dev % 0x100000000) ++ be32 (st.ino % 0x100000000) ++ be32 mode.toNat ++
                be32 (st.uid % 0x100000000) ++ be32 (st.gid % 0x100000000) ++
                be32 (st.size % 0x100000000) ++ hash) 24 = bigEndian (be32 mode.toNat) := by
              simp only [List.append_assoc]
              rfl
            rw [this, bigEndian_be32 (by omega)]
            omega
          · have : slice (be32 st.ctime.toNat ++ be32 (st.ctimeNs % 1000000000).toNat ++
                be32 st.mtime.toNat ++ be32 (st.mtimeNs % 1000000000).toNat ++
                be32 (st.dev % 0x100000000) ++ be32 (st.ino % 0x100000000) ++ be32 mode.toNat ++
                be32 (st.uid % 0x100000000) ++ be32 (st.gid % 0x100000000) ++
                be32 (st.size % 0x100000000) ++ hash) 40 20 = hash := by
              simp only [List.append_assoc]
              rw [← hlen]
              exact List.take_length
            rw [this, hsha]

/-! ### Replacements -/

/-- What an update puts in the place of the entries of its name. -/
def Answers (es : List Entry) (key : Bytes) (o : Option Entry) : Update → Prop
  | .absent => o = none
  | .dropIfPhantom => o = none ∧ ∃ e ∈ es, e.name = key ∧ e.intentToAdd = true
  | .entry mode sha => ∃ e, o = some e ∧ Recorded key mode sha e

section

variable {w : Worktree} {raw : Bytes} {start : Nat} {es : List Entry} {fallback : Bool}

theorem zero_not_mem_name {path : PyStr} {key : Bytes} (hkey : nameOf path = some key)
    (h : (0 : CodePoint) ∉ path) : 0 ∉ key := by
  intro h0
  have hmem := (ascii_mem_of_fsEncode (a := 0) (by decide) hkey).mp h0
  obtain ⟨c, hc, heq⟩ := List.mem_map.mp hmem
  split_ifs at heq with hb
  · exact absurd heq (by decide)
  · rw [heq] at hc
    exact h hc

/-- An update leaves the entries of its name alone, which only a phantom does, or replaces them. -/
theorem replacementOf_ok (h : Holds raw start es) (hs : NameSorted es) {path : PyStr}
    {key : Bytes} (hkey : nameOf path = some key) {u : Update} {new : Option (Option Bytes)}
    (hok : replacementOf w raw (startsFrom start es) fallback path key u = .ok new) :
    (new = none ∧ u = .dropIfPhantom) ∨
      ∃ o, new = some (o.map Entry.bytes) ∧ Answers es key o u := by
  -- what is built answers an entry update
  have hbuild : ∀ {mode sha st}, (buildEntry key mode sha st).map (fun b => some (some b)) =
      .ok new → (0 : CodePoint) ∉ path →
      ∃ o, new = some (o.map Entry.bytes) ∧ Answers es key o (.entry mode sha) := by
    intro mode sha st hb hz
    cases hbe : buildEntry key mode sha st with
    | error err =>
      rw [hbe] at hb
      cases hb
    | ok b =>
      rw [hbe] at hb
      cases hb
      obtain ⟨e, rfl, hrec⟩ := buildEntry_ok (zero_not_mem_name hkey hz) hbe
      exact ⟨some e, rfl, e, rfl, hrec⟩
  cases u with
  | absent =>
    cases hok
    exact .inr ⟨none, rfl, rfl⟩
  | dropIfPhantom =>
    have ha := around_of_sorted hs (Nat.zero_le es.length) key
    have hidx := ha.bisectLeft h
    have hat := ha.nameIs h
    rw [replacementOf] at hok
    simp only [hidx, hat, bind, Except.bind, pure, Except.pure] at hok
    cases hok
    -- the entry at the place of the key is dropped where it is a phantom
    split_ifs with hdrop
    · refine .inr ⟨none, rfl, rfl, ?_⟩
      simp only [Bool.and_eq_true, decide_eq_true_eq] at hdrop
      obtain ⟨⟨hne, hita⟩, -⟩ := hdrop
      obtain ⟨e, rest, hcons⟩ := List.exists_cons_of_ne_nil hne
      have hdropIdx := ha.drop_same
      rw [hcons] at hdropIdx
      have hget : es[0 + (below key (es.drop 0)).length]? = some e := by
        rw [← Nat.add_zero (0 + _), ← List.getElem?_drop, hdropIdx]
        rfl
      obtain ⟨hlt, hgetElem⟩ := List.getElem?_eq_some_iff.mp hget
      rw [(h.getD hlt).intentToAddAt, hgetElem] at hita
      exact ⟨e, List.mem_of_getElem? hget, ha.same e (by rw [hcons]; exact List.mem_cons_self),
        hita⟩
    · exact .inl ⟨rfl, rfl⟩
  | entry mode sha =>
    rw [replacementOf] at hok
    by_cases hz : (0 : CodePoint) ∈ path
    · rw [if_pos hz] at hok
      cases hok
    · rw [if_neg hz] at hok
      cases hst : w.stat path with
      | none =>
        rw [hst] at hok
        dsimp only at hok
        split_ifs at hok
        exact .inr (hbuild hok hz)
      | some st =>
        rw [hst] at hok
        exact .inr (hbuild hok hz)

/-- One update goes in under its name, unless it is for a phantom that is none. -/
theorem addUpdate_ok (h : Holds raw start es) (hs : NameSorted es)
    {reps reps' : Table Bytes (Option Bytes)} {u : PyStr × Update}
    (hok : addUpdate w raw (startsFrom start es) fallback reps u = .ok reps') :
    ∃ key, nameOf u.1 = some key ∧ ((reps' = reps ∧ u.2 = .dropIfPhantom) ∨
      ∃ o, reps' = reps.set key (o.map Entry.bytes) ∧ Answers es key o u.2) := by
  rw [addUpdate] at hok
  split_ifs at hok
  cases hkey : fsEncode (normalized u.1) with
  | none =>
    rw [hkey] at hok
    cases hok
  | some key =>
    rw [hkey] at hok
    refine ⟨key, hkey, ?_⟩
    cases hrep : replacementOf w raw (startsFrom start es) fallback u.1 key u.2 with
    | error err => simp [hrep, bind, Except.bind] at hok
    | ok r =>
      rcases replacementOf_ok h hs hkey hrep with ⟨rfl, hphantom⟩ | ⟨o, rfl, hans⟩
      · simp only [hrep, bind, Except.bind, pure, Except.pure, Except.ok.injEq] at hok
        exact .inl ⟨hok.symm, hphantom⟩
      · simp only [hrep, bind, Except.bind, pure, Except.pure, Except.ok.injEq] at hok
        exact .inr ⟨o, hok.symm, hans⟩

/-- The replacements collected so far, as entries. -/
structure Collected (es : List Entry) (ups : List (PyStr × Update))
    (reps : Table Bytes (Option Bytes)) (new : Bytes → Option (Option Entry)) : Prop where
  get : ∀ key, reps.get key = (new key).map (·.map Entry.bytes)
  source : ∀ key o, new key = some o → ∃ u ∈ ups, nameOf u.1 = some key ∧ Answers es key o u.2
  each : ∀ u ∈ ups, ∃ key, nameOf u.1 = some key ∧
    ((new key = none ∧ u.2 = .dropIfPhantom) ∨ ∃ o, new key = some o ∧ Answers es key o u.2)

theorem get_set_update {reps : Table Bytes (Option Bytes)} {new : Bytes → Option (Option Entry)}
    (hget : ∀ key, reps.get key = (new key).map (·.map Entry.bytes)) (key : Bytes)
    (o : Option Entry) (k : Bytes) : (reps.set key (o.map Entry.bytes)).get k =
      (Function.update new key (some o) k).map (·.map Entry.bytes) := by
  rw [Table.get_set]
  by_cases hkk : k = key
  · rw [if_pos hkk, hkk, Function.update_self]
    rfl
  · rw [if_neg hkk, Function.update_of_ne hkk, hget]

theorem source_update {ups : List (PyStr × Update)} {new : Bytes → Option (Option Entry)}
    (hsource : ∀ key o, new key = some o →
      ∃ u ∈ ups, nameOf u.1 = some key ∧ Answers es key o u.2)
    {u : PyStr × Update} {key : Bytes} {o : Option Entry} (hname : nameOf u.1 = some key)
    (hans : Answers es key o u.2) (k : Bytes) (o' : Option Entry)
    (hk : Function.update new key (some o) k = some o') :
    ∃ u' ∈ ups ++ [u], nameOf u'.1 = some k ∧ Answers es k o' u'.2 := by
  by_cases hkk : k = key
  · subst hkk
    rw [Function.update_self] at hk
    cases hk
    exact ⟨u, List.mem_append_right _ (List.mem_singleton_self u), hname, hans⟩
  · rw [Function.update_of_ne hkk] at hk
    obtain ⟨d, hd, hrest⟩ := hsource k o' hk
    exact ⟨d, List.mem_append_left _ hd, hrest⟩

/-- The updates of different names are collected one after the other. -/
theorem foldlM_addUpdate_ok (h : Holds raw start es) (hs : NameSorted es)
    {ups done : List (PyStr × Update)} {reps reps' : Table Bytes (Option Bytes)}
    {new : Bytes → Option (Option Entry)} (hc : Collected es done reps new)
    (hkeys : ((done ++ ups).map fun u => nameOf u.1).Nodup)
    (hok : ups.foldlM (addUpdate w raw (startsFrom start es) fallback) reps = .ok reps') :
    ∃ new', Collected es (done ++ ups) reps' new' := by
  induction ups generalizing done reps new with
  | nil =>
    cases hok
    exact ⟨new, by rwa [List.append_nil]⟩
  | cons u ups ih =>
    rw [List.foldlM_cons] at hok
    cases hu : addUpdate w raw (startsFrom start es) fallback reps u with
    | error err =>
      rw [hu] at hok
      cases hok
    | ok reps₁ =>
      rw [hu] at hok
      have hsnoc : done ++ u :: ups = done ++ [u] ++ ups := by simp
      rw [hsnoc] at hkeys ⊢
      have hfresh : ∀ d ∈ done, nameOf d.1 ≠ nameOf u.1 := by
        intro d hd heq
        have hnd := (List.nodup_append.mp ((List.map_append ▸ hkeys))).1
        rw [List.map_append, List.nodup_append] at hnd
        exact hnd.2.2 _ (List.mem_map_of_mem hd) _ (List.mem_map_of_mem List.mem_cons_self) heq
      obtain ⟨key, hname, hcase⟩ := addUpdate_ok h hs hu
      rcases hcase with ⟨rfl, hphantom⟩ | ⟨o, rfl, hans⟩
      · -- A phantom that is none.
        have hnone : new key = none := by
          cases hn : new key with
          | none => rfl
          | some o =>
            obtain ⟨d, hd, hdn, -⟩ := hc.source key o hn
            exact absurd (hdn.trans hname.symm) (hfresh d hd)
        refine ih ⟨hc.get, fun k o hk => ?_, fun d hd => ?_⟩ hkeys hok
        · obtain ⟨d, hd, hrest⟩ := hc.source k o hk
          exact ⟨d, List.mem_append_left _ hd, hrest⟩
        · rcases List.mem_append.mp hd with hd | hd
          · exact hc.each d hd
          · rw [List.mem_singleton.mp hd]
            exact ⟨key, hname, .inl ⟨hnone, hphantom⟩⟩
      · refine ih (?_ : Collected es (done ++ [u]) _ (Function.update new key (some o))) hkeys hok
        refine ⟨get_set_update hc.get key o, source_update hc.source hname hans, fun d hd => ?_⟩
        rcases List.mem_append.mp hd with hd' | hd'
        · obtain ⟨k, hk, hrest⟩ := hc.each d hd'
          have hkk : k ≠ key := by
            rintro rfl
            exact hfresh d hd' (hk.trans hname.symm)
          exact ⟨k, hk, by rwa [Function.update_of_ne hkk]⟩
        · rw [List.mem_singleton.mp hd']
          exact ⟨key, hname, .inr ⟨o, Function.update_self .., hans⟩⟩

end

/-! ### Reading the result -/

/-- By name, then by stage. -/
def EntryOrder (a b : Entry) : Prop := a.name < b.name ∨ a.name = b.name ∧ a.stage < b.stage

instance : DecidableRel EntryOrder := fun a b =>
  inferInstanceAs (Decidable (a.name < b.name ∨ a.name = b.name ∧ a.stage < b.stage))

/-- The map after entries of different names have been added. -/
theorem get_foldl_add {raw : Bytes} {start : Nat} {es : List Entry} (h : Holds raw start es)
    (hs : es.Pairwise fun a b => a.name < b.name) (h0 : ∀ e ∈ es, e.stage = 0) (withFlags : Bool)
    (found : Found) :
    ((rawFrom start es).foldl (Found.add raw withFlags wholeScope) found).unmerged =
        found.unmerged ∧
      ∀ path v,
        ((rawFrom start es).foldl (Found.add raw withFlags wholeScope) found).entries.get path =
            some v ↔
          (∃ e ∈ es, fsDecode e.name = path ∧ e.identity withFlags = v) ∨
            found.entries.get path = some v ∧ ∀ e ∈ es, fsDecode e.name ≠ path := by
  induction es generalizing start found with
  | nil => exact ⟨rfl, fun path v => by simp [rawFrom]⟩
  | cons e es ih =>
    obtain ⟨hfirst, hs⟩ := List.pairwise_cons.mp hs
    have hid : (e.rawAt start).identity raw withFlags = e.identity withFlags := by
      obtain ⟨pre, post, rfl, rfl⟩ := h.head
      exact identity_rawAt pre e post withFlags
    have hadd : found.add raw withFlags wholeScope (e.rawAt start) =
        { found with entries := found.entries.set (fsDecode e.name) (e.identity withFlags) } := by
      have hst : (e.rawAt start).stage = 0 := by
        rw [RawEntry.stage, Entry.rawAt, e.stageOf_flags, h0 e List.mem_cons_self]
      rw [Found.add, if_neg (by simp [selects_wholeScope]), if_neg (by simpa using hst), hid]
      rfl
    -- no later entry has this path
    have hne : ∀ e' ∈ es, fsDecode e'.name ≠ fsDecode e.name := fun e' he' heq =>
      Std.lt_irrefl (fsDecode_injective heq ▸ hfirst e' he')
    obtain ⟨hun, hget⟩ := ih h.tail hs (fun e' he' => h0 e' (List.mem_cons_of_mem e he'))
      (found.add raw withFlags wholeScope (e.rawAt start))
    rw [rawFrom, List.foldl_cons]
    refine ⟨by rw [hun, hadd], fun path v => ?_⟩
    rw [hget, hadd, Table.get_set, List.exists_mem_cons_iff, List.forall_mem_cons]
    by_cases hp : path = fsDecode e.name
    · subst hp
      have hno : ¬∃ e' ∈ es, fsDecode e'.name = fsDecode e.name ∧ e'.identity withFlags = v := by
        rintro ⟨e', he', heq, -⟩
        exact hne e' he' heq
      simp only [if_true, hno, false_or, Option.some.injEq, ne_eq, not_true, false_and, and_false,
        or_false, true_and]
      exact and_iff_left hne
    · rw [if_neg hp]
      have hpe : fsDecode e.name ≠ path := fun h => hp h.symm
      simp [hpe]

/-- A well-formed index without unmerged entries reads as the map of its entries. -/
theorem parseIndexBytes_indexBytes {version : Nat} {es : List Entry} (tail : Bytes)
    (hversion : version = 2 ∨ version = 3) (hcount : es.length < 0x100000000)
    (hv : ∀ e ∈ es, e.xflags.isSome = true → version = 3)
    (hs : es.Pairwise fun a b => a.name < b.name) (h0 : ∀ e ∈ es, e.stage = 0)
    (withFlags : Bool) :
    ∃ found, parseIndexBytes (indexBytes version es tail) none none withFlags none = .ok found ∧
      ∀ path v, found.entries.get path = some v ↔
        ∃ e ∈ es, fsDecode e.name = path ∧ e.identity withFlags = v := by
  have hv' : ∀ e ∈ es, e.xflags.isSome = true → 3 ≤ version := fun e he hx => (hv e he hx).ge
  have hread := readEntries_append hv' (signature ++ be32 version ++ be32 es.length) tail
  have hord : (rawFrom 12 es).Pairwise GitOrder :=
    pairwise_rawFrom (fun a b i j h => Or.inl h) hs 12
  have hmerged : ∀ e ∈ rawFrom 12 es, wholeScope.selects e.name = true → e.stage = 0 := by
    intro r hr _
    obtain ⟨pre, e, post, rfl, rfl⟩ := mem_rawFrom hr
    rw [RawEntry.stage, Entry.rawAt, e.stageOf_flags, h0 e (by simp)]
  have hbehind : Found.Behind wholeScope ⟨∅, ∅⟩ (rawFrom 12 es) := fun k hk => by cases hk
  have hwalk : walk (indexBytes version es tail) version withFlags false wholeScope es.length 12
      ⟨∅, ∅⟩ = _ := walk_eq sound_wholeScope false hread hord hbehind (.inr hmerged)
  have hholds : Holds (indexBytes version es tail) 12 es :=
    ⟨signature ++ be32 version ++ be32 es.length, tail, rfl, rfl⟩
  obtain ⟨-, hget⟩ := get_foldl_add hholds hs h0 withFlags ⟨∅, ∅⟩
  refine ⟨_, ?_, fun path v => (hget path v).trans (by simp)⟩
  rw [parseIndexBytes, readHeader_indexBytes tail hversion hcount]
  exact hwalk

/-! ### The splice -/

/-- The new entries are the old ones with the updates applied. -/
structure Spliced (updates : List (PyStr × Update)) (es es' : List Entry) : Prop where
  /-- They are strictly sorted by name. -/
  sorted : es'.Pairwise fun a b => a.name < b.name
  /-- None is unmerged. -/
  merged : ∀ e ∈ es', e.stage = 0
  /-- What no update names stays. -/
  untouched : ∀ e, (∀ u ∈ updates, nameOf u.1 ≠ some e.name) → (e ∈ es' ↔ e ∈ es)
  /-- An absent path has no entry. -/
  absent : ∀ path, (path, .absent) ∈ updates → ∀ e ∈ es', nameOf path ≠ some e.name
  /-- An updated path has the entry it is given. -/
  entry : ∀ path mode sha, (path, .entry mode sha) ∈ updates →
    ∃ key, nameOf path = some key ∧ ∃ e ∈ es', Recorded key mode sha e
  /-- A phantom path goes only if its old entry is an intent to add. -/
  phantom : ∀ path, (path, .dropIfPhantom) ∈ updates → ∃ key, nameOf path = some key ∧
    ((∀ e, e.name = key → (e ∈ es' ↔ e ∈ es)) ∨
      (∀ e ∈ es', e.name ≠ key) ∧ ∃ e ∈ es, e.name = key ∧ e.intentToAdd = true)
  /-- Extended flags are those of old entries. -/
  extended : ∀ e ∈ es', e.xflags.isSome = true → e ∈ es

/-- The collected replacements as keys with entries, sorted. -/
theorem exists_keys {reps : Table Bytes (Option Bytes)} {new : Bytes → Option (Option Entry)}
    (hget : ∀ key, reps.get key = (new key).map (·.map Entry.bytes)) :
    ∃ ks : List (Bytes × Option Entry),
      (reps.entries.mergeSort fun a b => decide (a.1 ≤ b.1)) =
        ks.map (fun k => (k.1, k.2.map Entry.bytes)) ∧
      (ks.map Prod.fst).Pairwise (· < ·) ∧ (∀ key o, (key, o) ∈ ks ↔ new key = some o) ∧
      ∀ key, key ∈ ks.map Prod.fst ↔ key ∈ reps.keys := by
  have hmem : ∀ p, p ∈ (reps.entries.mergeSort fun a b => decide (a.1 ≤ b.1)) ↔
      reps.get p.1 = some p.2 := fun p => List.mem_mergeSort.trans Table.get_eq_some_iff.symm
  -- each replacement is the bytes of an entry
  have hnew : ∀ p ∈ (reps.entries.mergeSort fun a b => decide (a.1 ≤ b.1)),
      ∃ o, new p.1 = some o ∧ p.2 = o.map Entry.bytes := by
    intro p hp
    have := (hmem p).mp hp
    rw [hget] at this
    obtain ⟨o, ho, hb⟩ := Option.map_eq_some_iff.mp this
    exact ⟨o, ho, hb.symm⟩
  have hfst : ((reps.entries.mergeSort fun a b => decide (a.1 ≤ b.1)).map fun p =>
      (p.1, (new p.1).getD none)).map Prod.fst =
        (reps.entries.mergeSort fun a b => decide (a.1 ≤ b.1)).map Prod.fst := by
    rw [List.map_map]
    rfl
  have hperm := (List.mergeSort_perm reps.entries fun a b => decide (a.1 ≤ b.1)).map Prod.fst
  refine ⟨(reps.entries.mergeSort fun a b => decide (a.1 ≤ b.1)).map fun p =>
    (p.1, (new p.1).getD none), ?_, ?_, fun key o => ?_, fun key => ?_⟩
  · rw [List.map_map]
    refine (List.map_id' _).symm.trans (List.map_congr_left fun p hp => ?_)
    obtain ⟨o, ho, hb⟩ := hnew p hp
    rw [Function.comp_apply, ho, Option.getD_some, ← hb]
  · rw [hfst]
    have hsorted : (reps.entries.mergeSort fun a b => decide (a.1 ≤ b.1)).Pairwise
        fun a b => decide (a.1 ≤ b.1) = true :=
      List.pairwise_mergeSort (fun a b c h h' => by
        simp only [decide_eq_true_eq] at h h' ⊢
        exact Std.le_trans h h') (fun a b => by
        simpa using (Std.le_total : a.1 ≤ b.1 ∨ b.1 ≤ a.1)) reps.entries
    -- sorted, and without two keys alike
    have hnd : (reps.entries.mergeSort fun a b => decide (a.1 ≤ b.1)).Pairwise
        fun a b => a.1 ≠ b.1 := List.pairwise_map.mp (hperm.nodup_iff.mpr reps.nodup)
    refine List.pairwise_map.mpr ((hsorted.and hnd).imp fun {a b} h => ?_)
    exact Std.lt_of_le_of_ne (by simpa using h.1) h.2
  · rw [List.mem_map]
    constructor
    · rintro ⟨p, hp, heq⟩
      cases heq
      obtain ⟨o, ho, -⟩ := hnew p hp
      rw [ho]
      rfl
    · intro ho
      refine ⟨(key, o.map Entry.bytes), (hmem _).mpr ?_, by rw [ho]; rfl⟩
      rw [hget, ho]
      rfl
  · rw [hfst]
    exact hperm.mem_iff

theorem Answers.recorded {es : List Entry} {key : Bytes} {e : Entry} {u : Update}
    (h : Answers es key (some e) u) : ∃ mode sha, u = .entry mode sha ∧ Recorded key mode sha e := by
  cases u with
  | absent => cases h
  | dropIfPhantom => cases h.1
  | entry mode sha =>
    obtain ⟨e', he, hrec⟩ := h
    cases he
    exact ⟨mode, sha, rfl, hrec⟩

/-- The entries spliced in by the collected replacements. -/
theorem spliced_of_collected {es : List Entry} (hes : es.Pairwise EntryOrder)
    {updates : List (PyStr × Update)} {reps : Table Bytes (Option Bytes)}
    {new : Bytes → Option (Option Entry)} (hc : Collected es updates reps new)
    {ks : List (Bytes × Option Entry)}
    (hks : (ks.map Prod.fst).Pairwise (· < ·)) (hmem : ∀ key o, (key, o) ∈ ks ↔ new key = some o)
    (hcol : ∀ e ∈ es, e.stage ≠ 0 → e.name ∈ ks.map Prod.fst) :
    Spliced updates es (spliceEntries ks es) := by
  have hin : ∀ key, key ∈ ks.map Prod.fst ↔ ∃ o, new key = some o := by
    intro key
    rw [List.mem_map]
    constructor
    · rintro ⟨⟨k, o⟩, hk, rfl⟩
      exact ⟨o, (hmem k o).mp hk⟩
    · rintro ⟨o, ho⟩
      exact ⟨(key, o), (hmem key o).mpr ho, rfl⟩
  have hmem' : ∀ e, e ∈ spliceEntries ks es ↔
      (e ∈ es ∧ new e.name = none) ∨ ∃ key, new key = some (some e) := by
    intro e
    rw [mem_spliceEntries hks, hin, ← Option.isSome_iff_exists, Option.not_isSome_iff_eq_none]
    refine or_congr Iff.rfl ⟨?_, ?_⟩
    · rintro ⟨⟨key, o⟩, hk, rfl⟩
      exact ⟨key, (hmem key _).mp hk⟩
    · rintro ⟨key, hk⟩
      exact ⟨(key, some e), (hmem key _).mpr hk, rfl⟩
  have hrec : ∀ key e, new key = some (some e) → ∃ u ∈ updates, nameOf u.1 = some key ∧
      ∃ mode sha, u.2 = .entry mode sha ∧ Recorded key mode sha e := by
    intro key e hk
    obtain ⟨u, hu, hname, hans⟩ := hc.source key _ hk
    exact ⟨u, hu, hname, hans.recorded⟩
  have hname : ∀ key e, new key = some (some e) → e.name = key := by
    intro key e hk
    obtain ⟨_, _, _, _, _, _, h⟩ := hrec key e hk
    exact h.name
  -- An update is found under its own name.
  have hown : ∀ u ∈ updates, ∀ key, nameOf u.1 = some key →
      (new key = none ∧ u.2 = .dropIfPhantom) ∨ ∃ o, new key = some o ∧ Answers es key o u.2 := by
    intro u hu key hkey
    obtain ⟨key', hkey', h⟩ := hc.each u hu
    rw [hkey] at hkey'
    cases hkey'
    exact h
  have hnone : ∀ key, new key = some none → ∀ e ∈ spliceEntries ks es, e.name ≠ key := by
    rintro key hk e he rfl
    rcases (hmem' e).mp he with ⟨-, hno⟩ | ⟨key, hk'⟩
    · rw [hno] at hk
      cases hk
    · rw [hname key e hk', hk'] at hk
      cases hk
  refine ⟨?_, ?_, ?_, ?_, ?_, ?_, ?_⟩
  · refine pairwise_spliceEntries hks (fun k hk e he => ?_) (hes.imp_of_mem fun {a b} ha hb h =>
      h.imp_right fun heq => ⟨heq.1, ?_⟩)
    · obtain ⟨key, o⟩ := k
      cases he
      exact hname key e ((hmem key _).mp hk)
    · rw [heq.1]
      exact hcol b hb (by omega)
  · intro e he
    rcases (hmem' e).mp he with ⟨hmem, hno⟩ | ⟨key, hk⟩
    · by_contra h0
      obtain ⟨o, ho⟩ := (hin _).mp (hcol e hmem h0)
      rw [hno] at ho
      cases ho
    · obtain ⟨_, _, _, _, _, _, h⟩ := hrec key e hk
      exact h.stage
  · intro e hno
    rw [hmem']
    constructor
    · rintro (⟨hmem, -⟩ | ⟨key, hk⟩)
      · exact hmem
      · obtain ⟨u, hu, hkey, -⟩ := hrec key e hk
        exact absurd (hkey.trans (by rw [hname key e hk])) (hno u hu)
    · intro hmem
      refine .inl ⟨hmem, ?_⟩
      cases hn : new e.name with
      | none => rfl
      | some o =>
        obtain ⟨u, hu, hkey, -⟩ := hc.source _ o hn
        exact absurd hkey (hno u hu)
  · intro path hu e he hpath
    rcases hown _ hu _ hpath with ⟨-, h⟩ | ⟨o, ho, hans⟩
    · cases h
    · cases hans
      exact hnone _ ho e he rfl
  · intro path mode sha hu
    obtain ⟨key, hkey, -⟩ := hc.each _ hu
    rcases hown _ hu _ hkey with ⟨-, h⟩ | ⟨o, ho, e, rfl, hr⟩
    · cases h
    · exact ⟨key, hkey, e, (hmem' e).mpr (.inr ⟨key, ho⟩), hr⟩
  · intro path hu
    obtain ⟨key, hkey, hcase⟩ := hc.each _ hu
    refine ⟨key, hkey, ?_⟩
    rcases hcase with ⟨hno, -⟩ | ⟨o, ho, rfl, hita⟩
    · refine .inl fun e he => (hmem' e).trans ⟨?_, fun hmem => .inl ⟨hmem, he ▸ hno⟩⟩
      rintro (⟨hmem, -⟩ | ⟨key', hk⟩)
      · exact hmem
      · rw [← hname key' e hk, he, hno] at hk
        cases hk
    · exact .inr ⟨hnone key ho, hita⟩
  · intro e he hx
    rcases (hmem' e).mp he with ⟨hmem, -⟩ | ⟨key, hk⟩
    · exact hmem
    · obtain ⟨_, _, _, _, _, _, h⟩ := hrec key e hk
      rw [h.xflags] at hx
      cases hx

/-- The index is opened: the version, the offsets of the entries and their end. -/
theorem openIndex_ok {version : Nat} {es : List Entry} {tail : Bytes}
    (hversion : version = 2 ∨ version = 3) (hcount : es.length < 0x100000000)
    {collapse : List Bytes} {res : Nat × List Nat × Nat}
    (hok : openIndex (indexBytes version es tail) collapse = .ok res) :
    res = (version, startsFrom 12 es, 12 + (es.flatMap Entry.bytes).length) ∧
      Collapsed collapse es := by
  obtain ⟨hlen, htake, hver, hnum⟩ := header_indexBytes tail hversion hcount
  have hholds : Holds (indexBytes version es tail) 12 es :=
    ⟨signature ++ be32 version ++ be32 es.length, tail, rfl, rfl⟩
  have hne : indexBytes version es tail ≠ [] := by
    rintro h
    rw [h] at hlen
    exact absurd hlen (by decide)
  rw [openIndex, if_neg hne, if_neg (by rw [htake]; simp; omega),
    if_neg (by rw [hver]; omega), hnum, hver] at hok
  cases hw : walkEntries (indexBytes version es tail) collapse es.length 12 with
  | error err =>
    rw [hw] at hok
    cases hok
  | ok walked =>
    rw [hw] at hok
    cases hok
    obtain ⟨rfl, hcol⟩ := walkEntries_ok hholds hw
    exact ⟨rfl, hcol⟩

theorem extendedCount_pos {es : List Entry} :
    0 < extendedCount es ↔ ∃ e ∈ es, e.xflags.isSome = true := List.countP_pos_iff

/-- What is put together is the index of the spliced entries. -/
theorem assemble_ok {sha1 : Bytes → Bytes} {version : Nat} {es : List Entry} {tail out : Bytes}
    (hext : ∀ e ∈ es, e.xflags.isSome = true → version = 3) (hes : NameSorted es)
    {reps : Table Bytes (Option Bytes)} {ks : List (Bytes × Option Entry)}
    (hsort : (reps.entries.mergeSort fun a b => decide (a.1 ≤ b.1)) =
      ks.map fun k => (k.1, k.2.map Entry.bytes))
    (hks : (ks.map Prod.fst).Pairwise (· < ·)) (hnew : ∀ k ∈ ks, ∀ e ∈ k.2, e.xflags = none)
    (hok : assemble sha1 (indexBytes version es tail) version (startsFrom 12 es)
      (12 + (es.flatMap Entry.bytes).length) reps = .ok out) :
    (spliceEntries ks es).length < 0x100000000 ∧ ∃ version',
      version' = (if ∃ e ∈ spliceEntries ks es, e.xflags.isSome = true then 3 else 2) ∧
      out = indexBytes version' (spliceEntries ks es)
        (sha1 (indexBytes version' (spliceEntries ks es) [])) := by
  have hholds : Holds (indexBytes version es tail) 12 es :=
    ⟨signature ++ be32 version ++ be32 es.length, tail, rfl, rfl⟩
  -- the run over the keys starts with nothing written and all entries ahead
  have hstart : Reached es ⟨0, [], (startsFrom 12 es).length, if version = 3 then
      ((startsFrom 12 es).countP (extendedAt (indexBytes version es tail)) : Int) else 0⟩ [] := by
    refine ⟨Nat.zero_le _, rfl, by simp, ?_⟩
    have hcount := countP_extendedAt hholds 0 (startsFrom 12 es).length
    rw [List.take_length, List.drop_zero, List.drop_zero, length_startsFrom, List.take_length]
      at hcount
    rw [List.drop_zero]
    split_ifs with hv
    · rw [hcount]
      simp [extendedCount]
    · have : extendedCount es = 0 := List.countP_eq_zero.mpr fun e he hx => hv (hext e he hx)
      simp [this]
  obtain ⟨s, out', hrun, hr, heq⟩ := spliceKeys_eq hholds hes hks hnew hstart
  rw [List.nil_append, List.drop_zero] at heq
  -- its pieces and what is left over are the bytes of the spliced entries
  have hpieces : (s.pieces ++ if s.lo < (startsFrom 12 es).length then
      [slice (indexBytes version es tail)
        ((startsFrom 12 es ++ [12 + (es.flatMap Entry.bytes).length]).getD s.lo 0)
        (12 + (es.flatMap Entry.bytes).length -
          (startsFrom 12 es ++ [12 + (es.flatMap Entry.bytes).length]).getD s.lo 0)]
      else []).flatten = (spliceEntries ks es).flatMap Entry.bytes := by
    rw [← heq, List.flatten_append, hr.pieces, List.flatMap_append]
    congr 1
    split_ifs with hlt
    · have hslice := slice_bounds hholds hr.lo_le
      rw [List.take_length] at hslice
      rw [bounds_getD hr.lo_le, hslice, List.flatten_singleton]
    · rw [length_startsFrom] at hlt
      rw [List.drop_eq_nil_of_le (by omega)]
      rfl
  have htotal : s.total = (spliceEntries ks es).length := by
    rw [hr.total, ← heq, List.length_append]
    push_cast
    rfl
  -- its counts are those of the spliced entries
  have hextended : s.extended = extendedCount (spliceEntries ks es) := by
    rw [hr.extended, ← heq, extendedCount_append]
    push_cast
    rfl
  have hver : (0 < s.extended) = ∃ e ∈ spliceEntries ks es, e.xflags.isSome = true := by
    rw [hextended, Int.natCast_pos, extendedCount_pos]
  rw [assemble, hsort] at hok
  cases hpack : pack32 s.total with
  | error err => simp only [hrun, hpack, bind, Except.bind, reduceCtorEq] at hok
  | ok count =>
    simp only [hrun, hpack, bind, Except.bind, pure, Except.pure, hpieces, Except.ok.injEq] at hok
    obtain ⟨rfl, -, hlt⟩ := pack32_ok hpack
    rw [htotal] at hlt hok
    refine ⟨by omega, _, rfl, ?_⟩
    rw [← hok, indexBytes, indexBytes, List.append_nil, Int.toNat_natCast]
    simp only [hver]

/-- The stages of a splice that goes through. -/
theorem spliceLocked_stages {sha1 : Bytes → Bytes} {w : Worktree} {raw out : Bytes}
    {updates : List (PyStr × Update)} {fallback : Bool} {collapse : List Bytes}
    (hok : spliceLocked sha1 w raw updates fallback collapse = .ok out) :
    ∃ version starts bodyEnd reps, openIndex raw collapse = .ok (version, starts, bodyEnd) ∧
      updates.foldlM (addUpdate w raw starts fallback) ∅ = .ok reps ∧
      (∀ key ∈ collapse, key ∈ reps.keys) ∧
      assemble sha1 raw version starts bodyEnd reps = .ok out := by
  rw [spliceLocked] at hok
  rcases hopen : openIndex raw collapse with err | ⟨version, starts, bodyEnd⟩
  · simp only [hopen, bind, Except.bind, reduceCtorEq] at hok
  · simp only [hopen, bind, Except.bind] at hok
    cases hreps : updates.foldlM (addUpdate w raw starts fallback) ∅ with
    | error err => simp only [hreps, reduceCtorEq] at hok
    | ok reps =>
      cases hfind : collapse.find? (· ∉ reps.keys) with
      | some key =>
        have hcheck : checkCollapse collapse reps = .error (.noUpdate key) := by
          rw [checkCollapse, hfind]
        simp only [hreps, hcheck, reduceCtorEq] at hok
      | none =>
        have hcheck : checkCollapse collapse reps = .ok () := by rw [checkCollapse, hfind]
        simp only [hreps, hcheck] at hok
        exact ⟨version, starts, bodyEnd, reps, rfl, hreps, by simpa using hfind, hok⟩

/-- A splice that goes through writes the index of the spliced entries, of version 3 exactly when
one of them carries extended flags, under its hash; and that reads as the map of these entries. -/
theorem spliceLocked_exact {sha1 : Bytes → Bytes} {w : Worktree} {version : Nat}
    {es : List Entry} {tail : Bytes} {updates : List (PyStr × Update)} {fallback : Bool}
    {collapse : List Bytes} {out : Bytes} (hversion : version = 2 ∨ version = 3)
    (hcount : es.length < 0x100000000)
    (hext : ∀ e ∈ es, e.xflags.isSome = true → version = 3) (hes : es.Pairwise EntryOrder)
    (hkeys : (updates.map fun u => nameOf u.1).Nodup)
    (hok : spliceLocked sha1 w (indexBytes version es tail) updates fallback collapse =
      .ok out) :
    ∃ es' version', Spliced updates es es' ∧ es'.length < 0x100000000 ∧
      version' = (if ∃ e ∈ es', e.xflags.isSome = true then 3 else 2) ∧
      out = indexBytes version' es' (sha1 (indexBytes version' es' [])) ∧
      ∀ withFlags, ∃ found, parseIndexBytes out none none withFlags none = .ok found ∧
        ∀ path v, found.entries.get path = some v ↔
          ∃ e ∈ es', fsDecode e.name = path ∧ e.identity withFlags = v := by
  have hholds : Holds (indexBytes version es tail) 12 es :=
    ⟨signature ++ be32 version ++ be32 es.length, tail, rfl, rfl⟩
  have hsorted : NameSorted es := hes.imp fun h => h.elim Std.le_of_lt fun h => h.1 ▸ Std.le_refl _
  obtain ⟨_, _, _, reps, hopen, hreps, hcolKeys, hassemble⟩ := spliceLocked_stages hok
  obtain ⟨heq, hcol⟩ := openIndex_ok hversion hcount hopen
  cases heq
  have hnone : Collected es [] ∅ fun _ => none := ⟨fun _ => rfl, nofun, nofun⟩
  -- the updates are collected by key, then the keys are run over the entries
  obtain ⟨new, hc⟩ := foldlM_addUpdate_ok hholds hsorted hnone hkeys hreps
  rw [List.nil_append] at hc
  obtain ⟨ks, hsort, hks, hmem, hin⟩ := exists_keys hc.get
  have hspliced := spliced_of_collected hes hc hks hmem fun e he h0 =>
    (hin _).mpr (hcolKeys _ (hcol e he h0))
  have hnew : ∀ k ∈ ks, ∀ e ∈ k.2, e.xflags = none := by
    rintro ⟨key, o⟩ hk e he
    cases he
    obtain ⟨u, -, -, hans⟩ := hc.source key _ ((hmem key _).mp hk)
    obtain ⟨_, _, -, hr⟩ := hans.recorded
    exact hr.xflags
  obtain ⟨hlen, version', hver, rfl⟩ := assemble_ok hext hsorted hsort hks hnew hassemble
  refine ⟨_, version', hspliced, hlen, hver, rfl, fun withFlags => ?_⟩
  refine parseIndexBytes_indexBytes _ ?_ hlen ?_ hspliced.sorted hspliced.merged withFlags
  · rw [hver]
    split_ifs
    · exact .inr rfl
    · exact .inl rfl
  · intro e he hx
    rw [hver, if_pos ⟨e, he, hx⟩]

/-! ### A splice that runs -/

/-- An entry of no time and size, under a short name. -/
def sampleEntry (stage : Fin 4) (xflags : Option UInt16) (name : Bytes) (h : 0 ∉ name) : Entry where
  stat := List.replicate 60 0
  assumeValid := false
  stage := stage
  xflags := xflags.map UInt16.toNat
  name := name
  stat_length := by decide
  stage_lt := stage.isLt
  xflags_lt := fun x hx => by
    obtain ⟨n, -, rfl⟩ := Option.mem_map.mp hx
    exact n.toNat_lt
  no_zero := h

/-- `a` is an intent to add, `b` is unmerged. -/
def sampleEntries : List Entry :=
  [sampleEntry 0 (some 0x2000) [0x61] (by decide), sampleEntry 1 none [0x62] (by decide),
    sampleEntry 2 none [0x62] (by decide), sampleEntry 0 none [0x63] (by decide)]

/-- Nothing is on disk. -/
def bareWorktree : Worktree := ⟨fun _ => none, fun _ => false, fun _ _ _ => false, fun _ => false⟩

def sampleSha : Text := List.replicate 40 'a'

/-- `b` is merged. -/
def sampleUpdates : List (PyStr × Update) := [(ofText ['b'], .entry 0o100755 sampleSha)]

def sampleSplice : Except SpliceError Bytes :=
  spliceLocked (fun _ => List.replicate 20 0) bareWorktree (indexBytes 3 sampleEntries [])
    sampleUpdates true [[0x62]]

theorem spliceLocked_exact_sample :
    ∃ out es' version', sampleSplice = .ok out ∧ Spliced sampleUpdates sampleEntries es' ∧
      out = indexBytes version' es' (List.replicate 20 0) := by
  have hrun : sampleSplice.toBool = true := by decide +kernel
  cases hok : sampleSplice with
  | error err =>
    rw [hok] at hrun
    cases hrun
  | ok out =>
    have hes : sampleEntries.Pairwise EntryOrder := by decide
    obtain ⟨es', version', hs, -, -, hout, -⟩ := spliceLocked_exact (.inr rfl) (by decide)
      (fun _ _ _ => rfl) hes (by decide) hok
    exact ⟨out, es', version', rfl, hs, hout⟩

/-- A backslash in a path is taken for a slash: the entry of the path that is made absent stays,
and the entry of a path that no update names goes. -/
theorem spliceLocked_backslash :
    let slashed := sampleEntry 0 none [0x61, 0x2f, 0x62] (by decide)
    let backslashed := sampleEntry 0 none [0x61, 0x5c, 0x62] (by decide)
    let raw := indexBytes 2 [slashed, backslashed] (List.replicate 20 0)
    [slashed, backslashed].Pairwise EntryOrder ∧
      (parseIndexBytes raw none none false none).map (·.entries.keys) =
        .ok [ofText ['a', '/', 'b'], ofText ['a', '\\', 'b']] ∧
      ((spliceLocked (fun _ => List.replicate 20 0) bareWorktree raw
          [(ofText ['a', '\\', 'b'], .absent)] true []).toOption.map fun out =>
            (parseIndexBytes out none none false none).map (·.entries.keys)) =
        some (.ok [ofText ['a', '\\', 'b']]) := by
  decide +kernel

end Git

end CoordinatorCore
