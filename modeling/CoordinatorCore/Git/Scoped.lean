import CoordinatorCore.Git.IndexFile

/-!
# The scoped walk of the index

A scoped walk stops at the first name past its bound, and where only names are wanted, as soon as
it has found them all. Neither exit comes before an entry of the scope, in an index as git orders
it: by name and stage, a merged entry being the only one of its name. So the scoped map is the whole
map restricted to the scope (`parseIndexBytes_scoped`). What carries it is `Scope.Sound`, the three
facts about a scope that the walk uses, and that the names found so far do not come again.
-/

namespace CoordinatorCore

open PyStr

namespace Git

/-! ### The entries and their order -/

/-- The entries, read to the last. -/
def readEntries (raw : Bytes) (version : Nat) : Nat → Nat → Except ReadError (List RawEntry)
  | 0, _ => .ok []
  | count + 1, offset => do
    let (e, next) ← readEntry raw version offset
    let es ← readEntries raw version count next
    return e :: es

/-- The entries of an index. -/
def indexEntries (raw : Bytes) : Except ReadError (List RawEntry) := do
  let (version, count) ← readHeader raw
  readEntries raw version count 12

/-- By name, then by stage. -/
def StageOrder (a b : RawEntry) : Prop := a.name < b.name ∨ a.name = b.name ∧ a.stage < b.stage

/-- By name, then by stage, and a merged entry is alone. -/
def GitOrder (a b : RawEntry) : Prop :=
  a.name < b.name ∨ a.name = b.name ∧ a.stage ≠ 0 ∧ a.stage < b.stage

/-- The entries of an index stand in an order. -/
def EntriesIn (order : RawEntry → RawEntry → Prop) (raw : Bytes) : Prop :=
  ∀ es, indexEntries raw = .ok es → es.Pairwise order

/-- Entries in git's order have names in order. -/
theorem GitOrder.name_le {a b : RawEntry} (h : GitOrder a b) : a.name ≤ b.name := by
  rcases h with h | ⟨h, -⟩
  · exact Std.le_of_lt h
  · exact h ▸ Std.le_refl _

/-- No name comes again behind stage zero. -/
theorem GitOrder.name_ne {a b : RawEntry} (h : GitOrder a b) (h0 : a.stage = 0) :
    a.name ≠ b.name := by
  rcases h with h | ⟨-, h, -⟩
  · rintro heq
    exact Std.lt_irrefl (heq ▸ h)
  · exact absurd h0 h

/-! ### What a scope is about -/

/-- At a directory or under it, the empty one being the root. -/
def AtOrUnder (dir name : Bytes) : Prop := dir = [] ∨ name = dir ∨ dir ++ [slashByte] <+: name

/-- A path is wanted, or at or under a prefix: by the bytes of its name. -/
def InScope (wanted prefixes : Option (List PyStr)) (path : PyStr) : Prop :=
  (wanted = none ∧ prefixes = none) ∨ (∃ p ∈ wanted.getD [], fsEncode p = fsEncode path) ∨
    ∃ p ∈ prefixes.getD [], ∃ dir name, fsEncode p = some dir ∧ fsEncode path = some name ∧
      AtOrUnder (dir.rdropWhile (· = slashByte)) name

/-- What the walk uses of its scope. -/
structure Scope.Sound (s : Scope) : Prop where
  /-- Behind a name past the bound nothing is selected. -/
  past : ∀ {a b : Bytes}, s.past a = true → a ≤ b → s.selects b = false
  /-- Where the walk counts, it selects a list of names. -/
  complete : ∀ {n : Nat}, s.complete n = true →
    ∃ names : List Bytes, names.length = n ∧ ∀ a, s.selects a = true → a ∈ names

/-! ### The walk without its exits -/

/-- One entry is added. -/
noncomputable def Found.add (raw : Bytes) (withFlags : Bool) (s : Scope) (found : Found)
    (e : RawEntry) : Found :=
  if s.selects e.name = false then found
  else if e.stage ≠ 0 then { found with unmerged := insert (fsDecode e.name) found.unmerged }
  else { found with entries := found.entries.set (fsDecode e.name) (e.identity raw withFlags) }

/-- Entries out of scope add nothing. -/
theorem Found.foldl_add_of_unselected {raw : Bytes} {withFlags : Bool} {s : Scope}
    {es : List RawEntry} (h : ∀ e ∈ es, s.selects e.name = false) (found : Found) :
    es.foldl (Found.add raw withFlags s) found = found := by
  induction es with
  | nil => rfl
  | cons e es ih =>
    rw [List.foldl_cons, Found.add, if_pos (h e List.mem_cons_self)]
    exact ih fun e' he' => h e' (List.mem_cons_of_mem e he')

/-- The names found so far are selected, and do not come again. -/
def Found.Behind (s : Scope) (found : Found) (es : List RawEntry) : Prop :=
  ∀ k ∈ found.entries.keys, ∃ a, k = fsDecode a ∧ s.selects a = true ∧ ∀ e ∈ es, e.name ≠ a

section

variable {raw : Bytes} {version : Nat} {withFlags : Bool} {s : Scope}

/-- What is behind a list is behind its tail. -/
theorem Found.Behind.tail {found : Found} {e : RawEntry} {es : List RawEntry}
    (h : found.Behind s (e :: es)) : found.Behind s es := fun k hk =>
  (h k hk).imp fun _ ha => ⟨ha.1, ha.2.1, fun e' he' => ha.2.2 e' (List.mem_cons_of_mem e he')⟩

/-- A merged entry is found, and is the only one of its name. -/
theorem Found.Behind.set {found : Found} {e : RawEntry} {es : List RawEntry}
    (h : found.Behind s (e :: es)) (hord : ∀ e' ∈ es, GitOrder e e') (h0 : e.stage = 0)
    (hsel : s.selects e.name = true) (v : IndexIdentity) :
    Found.Behind s { found with entries := found.entries.set (fsDecode e.name) v } es := by
  intro k hk
  by_cases hke : k = fsDecode e.name
  · exact ⟨e.name, hke, hsel, fun e' he' heq => (hord e' he').name_ne h0 heq.symm⟩
  · refine h.tail k ?_
    obtain ⟨w, hw⟩ := Table.mem_keys_iff.mp hk
    rw [Table.get_set, if_neg hke] at hw
    exact Table.mem_keys_iff.mpr ⟨w, hw⟩

/-- Once all wanted names are found, none of them is left. -/
theorem unselected_of_complete (hs : s.Sound) {found : Found} {es : List RawEntry}
    (h : found.Behind s es) (hc : s.complete found.entries.keys.length = true) :
    ∀ e ∈ es, s.selects e.name = false := by
  obtain ⟨names, hlen, hnames⟩ := hs.complete hc
  -- As many different names as there are to find: all of them.
  have hsub : found.entries.keys ⊆ names.map fsDecode := by
    intro k hk
    obtain ⟨a, rfl, ha, -⟩ := h k hk
    exact List.mem_map_of_mem (hnames a ha)
  have hperm := (List.subperm_of_subset found.entries.nodup hsub).perm_of_length_le
    (by rw [List.length_map, hlen]; exact Nat.le_refl _)
  intro e he
  rw [Bool.eq_false_iff]
  intro hsel
  have hmem : fsDecode e.name ∈ found.entries.keys :=
    hperm.mem_iff.mpr (List.mem_map_of_mem (hnames e.name hsel))
  obtain ⟨a, ha, -, hne⟩ := h _ hmem
  exact hne e he (fsDecode_injective ha)

/-- The entries are read one by one. -/
theorem readEntries_succ {count offset : Nat} {es : List RawEntry}
    (h : readEntries raw version (count + 1) offset = .ok es) :
    ∃ e next es', readEntry raw version offset = .ok (e, next) ∧
      readEntries raw version count next = .ok es' ∧ es = e :: es' := by
  rw [readEntries] at h
  cases hr : readEntry raw version offset with
  | error err =>
    rw [hr] at h
    cases h
  | ok p =>
    rw [hr] at h
    cases hrs : readEntries raw version count p.2 with
    | error err =>
      simp [hrs, bind, Except.bind] at h
    | ok es' =>
      refine ⟨p.1, p.2, es', rfl, hrs, ?_⟩
      have : (Except.ok (p.1 :: es') : Except ReadError (List RawEntry)) = .ok es := by
        simpa [hrs, bind, Except.bind, pure, Except.pure] using h
      exact (Except.ok.inj this).symm

/-- One round of the walk, behind its read. -/
theorem walk_succ {collect : Bool} {count offset next : Nat} {e : RawEntry}
    (h : readEntry raw version offset = .ok (e, next)) (found : Found) :
    walk raw version withFlags collect s (count + 1) offset found =
      if s.past e.name then .ok found
      else if !s.selects e.name then walk raw version withFlags collect s count next found
      else if e.stage ≠ 0 then
        if collect then walk raw version withFlags collect s count next
          (found.add raw withFlags s e)
        else .error (.unmerged e.name e.stage)
      else if s.complete (found.add raw withFlags s e).entries.keys.length then
        .ok (found.add raw withFlags s e)
      else walk raw version withFlags collect s count next (found.add raw withFlags s e) := by
  rw [walk, h]
  cases hsel : s.selects e.name with
  | false =>
    by_cases hp : s.past e.name = true <;> simp [hp, hsel, bind, Except.bind, pure, Except.pure]
  | true =>
    by_cases h0 : e.stage = 0
    · by_cases hp : s.past e.name = true
      · simp [hp, bind, Except.bind, pure, Except.pure]
      · by_cases hc : s.complete (found.entries.set (fsDecode e.name)
            (e.identity raw withFlags)).keys.length = true <;>
          simp [hp, h0, hc, hsel, Found.add, bind, Except.bind, pure, Except.pure]
    · by_cases hp : s.past e.name = true <;> cases collect <;>
        simp [hp, h0, hsel, Found.add, bind, Except.bind, pure, Except.pure, throw, throwThe,
          MonadExceptOf.throw]

/-- The walk misses nothing: it collects what the scope selects, or raises when that is unmerged
and is not to be collected. -/
theorem walk_eq (hs : s.Sound) (collect : Bool) {count offset : Nat} {es : List RawEntry}
    (hread : readEntries raw version count offset = .ok es) (hord : es.Pairwise GitOrder)
    {found : Found} (hb : found.Behind s es) :
    (collect = true ∨ ∀ e ∈ es, s.selects e.name = true → e.stage = 0) →
      walk raw version withFlags collect s count offset found =
        .ok (es.foldl (Found.add raw withFlags s) found) := by
  intro hcol
  induction count generalizing offset es found with
  | zero =>
    cases hread
    rfl
  | succ count ih =>
    obtain ⟨e, next, es', hr, hrest, rfl⟩ := readEntries_succ hread
    obtain ⟨hfirst, hord⟩ := List.pairwise_cons.mp hord
    have hcol' : collect = true ∨ ∀ e' ∈ es', s.selects e'.name = true → e'.stage = 0 :=
      hcol.imp_right fun h e' he' => h e' (List.mem_cons_of_mem e he')
    rw [walk_succ hr, List.foldl_cons]
    split_ifs with hp hsel h0 hc hdone
    · -- Past the bound: nothing selected is left.
      have hall : ∀ e' ∈ e :: es', s.selects e'.name = false := by
        intro e' he'
        rcases List.mem_cons.mp he' with rfl | he'
        · exact hs.past hp (Std.le_refl _)
        · exact hs.past hp (hfirst e' he').name_le
      rw [← List.foldl_cons, Found.foldl_add_of_unselected hall]
    · have hadd : found.add raw withFlags s e = found := if_pos (by simpa using hsel)
      rw [hadd]
      exact ih hrest hord hb.tail hcol'
    · have hadd : (found.add raw withFlags s e).Behind s es' := by
        rw [Found.add, if_neg (by simpa using hsel), if_pos h0]
        exact hb.tail
      exact ih hrest hord hadd hcol'
    · exact absurd (hcol.resolve_left hc e List.mem_cons_self (by simpa using hsel)) h0
    · have hadd : (found.add raw withFlags s e).Behind s es' := by
        rw [Found.add, if_neg (by simpa using hsel), if_neg h0]
        exact hb.set hfirst (by simpa using h0) (by simpa using hsel) _
      rw [Found.foldl_add_of_unselected (unselected_of_complete hs hadd hdone)]
    · have hadd : (found.add raw withFlags s e).Behind s es' := by
        rw [Found.add, if_neg (by simpa using hsel), if_neg h0]
        exact hb.set hfirst (by simpa using h0) (by simpa using hsel) _
      exact ih hrest hord hadd hcol'

/-- A walk that is not to collect raises at an unmerged entry of its scope. -/
theorem walk_unmerged (hs : s.Sound) {count offset : Nat} {es : List RawEntry}
    (hread : readEntries raw version count offset = .ok es) (hord : es.Pairwise GitOrder)
    {found : Found} (hb : found.Behind s es)
    (hun : ∃ e ∈ es, s.selects e.name = true ∧ e.stage ≠ 0) :
    ∃ name stage, walk raw version withFlags false s count offset found =
      .error (.unmerged name stage) := by
  induction count generalizing offset es found with
  | zero =>
    cases hread
    obtain ⟨e, he, -⟩ := hun
    cases he
  | succ count ih =>
    obtain ⟨e, next, es', hr, hrest, rfl⟩ := readEntries_succ hread
    obtain ⟨hfirst, hord⟩ := List.pairwise_cons.mp hord
    obtain ⟨e', he', hsel', h0'⟩ := hun
    rw [walk_succ hr]
    simp only [Bool.false_eq_true, if_false]
    split_ifs with hp hsel h0 hdone
    · have hle : e.name ≤ e'.name := by
        rcases List.mem_cons.mp he' with rfl | he'
        · exact Std.le_refl _
        · exact (hfirst e' he').name_le
      rw [hs.past hp hle] at hsel'
      cases hsel'
    · refine ih hrest hord hb.tail ⟨e', ?_, hsel', h0'⟩
      refine (List.mem_cons.mp he').resolve_left fun heq => ?_
      rw [← heq, hsel'] at hsel
      cases hsel
    · exact ⟨_, _, rfl⟩
    all_goals
      have hadd : (found.add raw withFlags s e).Behind s es' := by
        rw [Found.add, if_neg (by simpa using hsel), if_neg h0]
        exact hb.set hfirst (by simpa using h0) (by simpa using hsel) _
      have hmem : e' ∈ es' := (List.mem_cons.mp he').resolve_left fun heq => h0 (heq ▸ h0')
    · rw [unselected_of_complete hs hadd hdone e' hmem] at hsel'
      cases hsel'
    · exact ih hrest hord hadd ⟨e', hmem, hsel', h0'⟩

end

/-! ### Scopes -/

/-- The latest name is the greatest. -/
theorem latest_spec {bs : List Bytes} {m : Bytes} (h : latest bs = some m) : ∀ b ∈ bs, b ≤ m := by
  induction bs generalizing m with
  | nil => nofun
  | cons b bs ih =>
    rw [latest] at h
    intro c hc
    cases hl : latest bs with
    | none =>
      rw [hl] at h
      cases h
      cases bs with
      | nil => rw [List.mem_singleton.mp hc]; exact Std.le_refl _
      | cons d bs =>
        rw [latest] at hl
        split at hl <;> cases hl
    | some n =>
      rw [hl] at h
      cases h
      split_ifs with hlt
      · rcases List.mem_cons.mp hc with rfl | hc
        · exact Std.le_refl _
        · exact Std.le_trans (ih hl c hc) (Std.le_of_lt hlt)
      · rcases List.mem_cons.mp hc with rfl | hc
        · exact Std.not_lt.mp hlt
        · exact ih hl c hc

/-- A longer name is behind its prefix. -/
theorem lt_append_singleton (b : Bytes) (x : UInt8) : b < b ++ [x] := by
  have h : b ++ [] < b ++ [x] := List.append_left_lt (List.nil_lt_cons x [])
  rwa [List.append_nil] at h

/-- What is under a directory comes before the bound behind it. -/
theorem under_lt {dir name : Bytes} (h : dir ++ [slashByte] <+: name) : name < dir ++ [0x30] := by
  obtain ⟨rest, rfl⟩ := h
  rw [List.append_assoc]
  exact List.append_left_lt (List.cons_lt_cons_iff.mpr (.inl (by decide)))

/-- Names that can be encoded are all encoded. -/
theorem mapM_fsEncode {ps : List PyStr} (h : ∀ p ∈ ps, (fsEncode p).isSome = true) :
    ∃ names, ps.mapM fsEncode = some names ∧ ∀ b, b ∈ names ↔ ∃ p ∈ ps, fsEncode p = some b := by
  induction ps with
  | nil => exact ⟨[], rfl, by simp⟩
  | cons p ps ih =>
    obtain ⟨names, hnames, hmem⟩ := ih fun q hq => h q (List.mem_cons_of_mem p hq)
    obtain ⟨b, hb⟩ := Option.isSome_iff_exists.mp (h p List.mem_cons_self)
    refine ⟨b :: names, by simp [hb, hnames], fun c => ?_⟩
    simp [hmem, hb, eq_comm]

/-- What a scope of names selects. -/
def SelectsName (wanted prefixes : Option (List Bytes)) (name : Bytes) : Prop :=
  (wanted = none ∧ prefixes = none) ∨ name ∈ wanted.getD [] ∨
    ∃ dir ∈ prefixes.getD [], AtOrUnder dir name

section

variable {wanted prefixes : Option (List Bytes)} {s : Scope}

/-- A call that returns `{}` at once has an empty scope. -/
theorem scopeOfNames_none (h : scopeOfNames wanted prefixes = none) (name : Bytes) :
    ¬SelectsName wanted prefixes name := by
  cases prefixes with
  | none =>
    rw [scopeOfNames] at h
    split_ifs at h with hw
    simp [SelectsName, hw]
  | some dirs =>
    rw [scopeOfNames] at h
    split_ifs at h with hw
    simp [SelectsName, hw]

/-- The scope selects the names and what is below the prefixes. -/
theorem selects_iff (h : scopeOfNames wanted prefixes = some s) (name : Bytes) :
    s.selects name = true ↔ SelectsName wanted prefixes name := by
  cases prefixes with
  | none =>
    rw [scopeOfNames] at h
    split_ifs at h
    cases h
    cases wanted <;> simp [Scope.selects, SelectsName]
  | some dirs =>
    simp only [scopeOfNames] at h
    split_ifs at h with hw hall
    · cases h
      simp only [Scope.selects, SelectsName, if_true, Bool.true_or, true_iff]
      exact .inr (.inr ⟨[], hall, .inl rfl⟩)
    · cases h
      have hdirs : ∀ dir ∈ dirs, dir ≠ [] := fun dir hd heq => hall (heq ▸ hd)
      simp only [Scope.selects, SelectsName, if_true, Bool.false_or, Bool.or_eq_true,
        decide_eq_true_eq, List.mem_dedup, List.mem_filter, List.any_eq_true, Option.getD_some,
        reduceCtorEq, and_false, false_or, List.isPrefixOf_iff_prefix]
      constructor
      · rintro ((⟨hmem, -⟩ | ⟨dir, ⟨hmem, -⟩, hpre⟩) | hmem)
        · exact .inr ⟨name, hmem, .inr (.inl rfl)⟩
        · exact .inr ⟨dir, hmem, .inr (.inr hpre)⟩
        · exact .inl hmem
      · rintro (hmem | ⟨dir, hmem, hdir | rfl | hpre⟩)
        · exact .inr hmem
        · exact absurd hdir (hdirs dir hmem)
        · exact .inl (.inl ⟨hmem, hdirs name hmem⟩)
        · exact .inl (.inr ⟨dir, ⟨hmem, hdirs dir hmem⟩, hpre⟩)

/-- The scope of a call is sound: its bound is behind every name it selects. -/
theorem sound_of_scopeOfNames (h : scopeOfNames wanted prefixes = some s) : s.Sound := by
  -- names behind one that is past are past too
  have hbound : ∀ {bound a b : Bytes}, s.sortExit = some bound → s.past a = true → a ≤ b →
      bound ≤ b := by
    intro bound a b hs hp hab
    rw [Scope.past, hs] at hp
    exact Std.le_trans (of_decide_eq_true hp) hab
  cases prefixes with
  | none =>
    rw [scopeOfNames] at h
    split_ifs at h with hw
    cases h
    refine ⟨fun {a b} hp hab => ?_, fun {n} hc => ?_⟩
    · cases hm : latest ((wanted.getD []).map (· ++ [0])) with
      | none =>
        rw [Scope.past, hm] at hp
        cases hp
      | some bound =>
        have hle := hbound hm hp hab
        cases wanted with
        | none => cases hm
        | some names =>
          rw [Bool.eq_false_iff]
          intro hsel
          have hmem : b ∈ names := by simpa [Scope.selects] using hsel
          have hb : b ++ [0] ≤ bound := latest_spec hm _ (List.mem_map_of_mem hmem)
          exact Std.lt_irrefl (Std.lt_of_lt_of_le (lt_append_singleton b 0) (Std.le_trans hb hle))
    · cases wanted with
      | none => cases hc
      | some names =>
        refine ⟨names, ?_, fun a ha => by simpa [Scope.selects] using ha⟩
        have : n = names.length := by simpa [Scope.complete] using hc
        exact this.symm
  | some dirs =>
    simp only [scopeOfNames] at h
    split_ifs at h with hw hall
    · cases h
      refine ⟨fun {a b} hp _ => by simp [Scope.past] at hp, fun {n} hc => ?_⟩
      cases wanted <;> simp [Scope.complete] at hc
    · cases h
      refine ⟨fun {a b} hp hab => ?_, fun {n} hc => ?_⟩
      · generalize hm : latest (((dirs.filter (· ≠ [])).dedup).map (· ++ [0x30]) ++
          (wanted.getD []).map (· ++ [0])) = m at hp hbound
        cases m with
        | none => simp [Scope.past] at hp
        | some bound =>
          have hle := hbound rfl hp hab
          have hspec := latest_spec hm
          rw [Bool.eq_false_iff]
          intro hsel
          simp only [Scope.selects, if_true, Bool.false_or, Bool.or_eq_true, decide_eq_true_eq,
            List.any_eq_true, List.isPrefixOf_iff_prefix] at hsel
          -- each selected name sorts in front of the bound: a directory in front of its last byte
          -- plus one
          have hlt : b < bound := by
            rcases hsel with (hmem | ⟨dir, hmem, hpre⟩) | hmem
            · exact Std.lt_of_lt_of_le (lt_append_singleton b 0x30)
                (hspec _ (List.mem_append_left _ (List.mem_map_of_mem hmem)))
            · exact Std.lt_of_lt_of_le (under_lt hpre)
                (hspec _ (List.mem_append_left _ (List.mem_map_of_mem hmem)))
            · exact Std.lt_of_lt_of_le (lt_append_singleton b 0)
                (hspec _ (List.mem_append_right _ (List.mem_map_of_mem hmem)))
          exact Std.lt_irrefl (Std.lt_of_lt_of_le hlt hle)
      · cases wanted <;> simp [Scope.complete] at hc

end

/-! ### The restriction -/

/-- An optional list of names is encoded name by name. -/
theorem encodeAll_eq {ps : Option (List PyStr)}
    (h : ∀ p ∈ ps.getD [], (fsEncode p).isSome = true) :
    ∃ names, encodeAll ps = .ok names ∧ (names = none ↔ ps = none) ∧
      ∀ b, b ∈ names.getD [] ↔ ∃ p ∈ ps.getD [], fsEncode p = some b := by
  cases ps with
  | none => exact ⟨none, rfl, by simp, by simp⟩
  | some ps =>
    have h' : ∀ p ∈ ps, (fsEncode p).isSome = true := h
    obtain ⟨names, hnames, hmem⟩ := mapM_fsEncode h'
    exact ⟨some names, by rw [encodeAll, hnames], by simp, hmem⟩

/-- The scope of a call whose paths all have bytes selects what is in scope. -/
theorem scopeOf_eq {wanted prefixes : Option (List PyStr)}
    (hw : ∀ p ∈ wanted.getD [], (fsEncode p).isSome = true)
    (hp : ∀ p ∈ prefixes.getD [], (fsEncode p).isSome = true) :
    ∃ names dirs, scopeOf wanted prefixes = .ok (scopeOfNames names dirs) ∧
      ∀ name, SelectsName names dirs name ↔ InScope wanted prefixes (fsDecode name) := by
  obtain ⟨names, hn, hnone, hmem⟩ := encodeAll_eq hw
  obtain ⟨dirs, hd, hdnone, hdmem⟩ := encodeAll_eq hp
  refine ⟨names.map List.dedup, dirs.map (·.map (List.rdropWhile (· = slashByte))), ?_,
    fun name => ?_⟩
  · rw [scopeOf, hn, hd]
    rfl
  · have hnames : name ∈ (names.map List.dedup).getD [] ↔
        ∃ p ∈ wanted.getD [], fsEncode p = some name := by
      rw [← hmem]
      cases names <;> simp
    have hdirs : ∀ dir, dir ∈ (dirs.map (·.map (List.rdropWhile (· = slashByte)))).getD [] ↔
        ∃ b ∈ dirs.getD [], b.rdropWhile (· = slashByte) = dir := by
      intro dir
      cases dirs <;> simp
    rw [SelectsName, InScope, Option.map_eq_none_iff, Option.map_eq_none_iff, hnone, hdnone, hnames,
      fsEncode_fsDecode]
    refine or_congr Iff.rfl (or_congr Iff.rfl ?_)
    constructor
    · rintro ⟨d, hd, hat⟩
      obtain ⟨b, hb, rfl⟩ := (hdirs d).mp hd
      obtain ⟨p, hp, hpb⟩ := (hdmem b).mp hb
      exact ⟨p, hp, b, name, hpb, rfl, hat⟩
    · rintro ⟨p, hp, b, name', hb, hname, hat⟩
      cases hname
      exact ⟨_, (hdirs _).mpr ⟨b, (hdmem b).mpr ⟨p, hp, hb⟩, rfl⟩, hat⟩

section

open Classical

variable {raw : Bytes} {withFlags : Bool} {s full : Scope} {P : PyStr → Prop} {seen : Finset PyStr}

/-- What was found, restricted. -/
noncomputable def Found.restrict (P : PyStr → Prop) (seen : Finset PyStr) (found : Found) : Found :=
  ⟨found.entries.filter fun e => decide (P e.1), seen ∪ found.unmerged.filter P⟩

/-- Adding an entry within a scope is adding it, restricted. -/
theorem Found.add_restrict (hsel : ∀ a, s.selects a = true ↔ P (fsDecode a))
    (hfull : ∀ a, full.selects a = true) (e : RawEntry) (found : Found) :
    (found.restrict P seen).add raw withFlags s e =
      (found.add raw withFlags full e).restrict P seen := by
  by_cases hP : P (fsDecode e.name)
  · have hs : s.selects e.name = true := (hsel _).mpr hP
    by_cases h0 : e.stage = 0
    · simp [Found.add, hs, hfull, h0, Found.restrict, Table.filter_set (fun k => decide (P k)), hP]
    · have hins : seen ∪ insert (fsDecode e.name) (found.unmerged.filter P) =
          insert (fsDecode e.name) (seen ∪ found.unmerged.filter P) := by
        ext k
        simp only [Finset.mem_union, Finset.mem_insert, or_left_comm]
      simp [Found.add, hs, hfull, h0, Found.restrict, Finset.filter_insert, hP, hins]
  · have hs : s.selects e.name = false := by
      rw [Bool.eq_false_iff]
      exact fun h => hP ((hsel _).mp h)
    by_cases h0 : e.stage = 0
    · simp [Found.add, hs, hfull, h0, Found.restrict, Table.filter_set (fun k => decide (P k)), hP]
    · simp [Found.add, hs, hfull, h0, Found.restrict, Finset.filter_insert, hP]

/-- Adding in scope is adding everything and restricting. -/
theorem Found.foldl_add_restrict (hsel : ∀ a, s.selects a = true ↔ P (fsDecode a))
    (hfull : ∀ a, full.selects a = true) (es : List RawEntry) (found : Found) :
    es.foldl (Found.add raw withFlags s) (found.restrict P seen) =
      (es.foldl (Found.add raw withFlags full) found).restrict P seen := by
  induction es generalizing found with
  | nil => rfl
  | cons e es ih => rw [List.foldl_cons, List.foldl_cons, Found.add_restrict hsel hfull, ih]

/-- The unmerged names of the walk without exits. -/
theorem Found.mem_unmerged_foldl (es : List RawEntry) (found : Found) (path : PyStr) :
    path ∈ (es.foldl (Found.add raw withFlags s) found).unmerged ↔
      path ∈ found.unmerged ∨
        ∃ e ∈ es, s.selects e.name = true ∧ e.stage ≠ 0 ∧ path = fsDecode e.name := by
  induction es generalizing found with
  | nil => simp
  | cons e es ih =>
    rw [List.foldl_cons, ih, List.exists_mem_cons_iff, ← or_assoc]
    refine or_congr ?_ Iff.rfl
    cases hs : s.selects e.name with
    | false => simp [Found.add, hs]
    | true =>
      by_cases h0 : e.stage = 0
      · simp [Found.add, hs, h0]
      · simp [Found.add, hs, h0, or_comm]

end

/-! ### Calls -/

/-- The scope of a call without one. -/
def wholeScope : Scope := ⟨none, false, false, [], none⟩

/-- The whole scope selects every name. -/
theorem selects_wholeScope (a : Bytes) : wholeScope.selects a = true := rfl

theorem sound_wholeScope : wholeScope.Sound :=
  have h : scopeOfNames none none = some wholeScope := rfl
  sound_of_scopeOfNames h

/-- A walk of the whole index that succeeds has read all entries. -/
theorem readEntries_of_walk {raw : Bytes} {version : Nat} {withFlags collect : Bool} {count offset : Nat}
    {found res : Found}
    (h : walk raw version withFlags collect wholeScope count offset found = .ok res) :
    ∃ es, readEntries raw version count offset = .ok es := by
  induction count generalizing offset found with
  | zero => exact ⟨[], rfl⟩
  | succ count ih =>
    cases hr : readEntry raw version offset with
    | error err =>
      rw [walk, hr] at h
      cases h
    | ok p =>
      obtain ⟨e, next⟩ := p
      have hnext : ∃ found', walk raw version withFlags collect wholeScope count next found' =
          .ok res := by
        rw [walk_succ hr] at h
        split_ifs at h with hp hsel h0 hc hdone
        · cases hp
        · exact ⟨_, h⟩
        · exact ⟨_, h⟩
        · cases hdone
        · exact ⟨_, h⟩
      obtain ⟨found', hfound'⟩ := hnext
      obtain ⟨es, hes⟩ := ih hfound'
      refine ⟨e :: es, ?_⟩
      rw [readEntries, hr]
      simp [hes, bind, Except.bind, pure, Except.pure]

section

open Classical

variable {raw : Bytes} {wanted prefixes : Option (List PyStr)} {withFlags : Bool} {full : Found}

/-- The scoped map is the whole map restricted to the scope, and the unmerged names of the scope
are collected, or raise when they are not to be. -/
theorem parseIndexBytes_scoped
    (hfull : parseIndexBytes raw none none withFlags (some ∅) = .ok full)
    (hord : EntriesIn GitOrder raw)
    (hw : ∀ p ∈ wanted.getD [], (fsEncode p).isSome = true)
    (hp : ∀ p ∈ prefixes.getD [], (fsEncode p).isSome = true) (seen : Finset PyStr) :
    parseIndexBytes raw wanted prefixes withFlags (some seen) =
        .ok (full.restrict (InScope wanted prefixes) seen) ∧
      ((∀ path ∈ full.unmerged, ¬InScope wanted prefixes path) →
        parseIndexBytes raw wanted prefixes withFlags none =
          .ok (full.restrict (InScope wanted prefixes) ∅)) ∧
      ((∃ path ∈ full.unmerged, InScope wanted prefixes path) → ∃ name stage,
        parseIndexBytes raw wanted prefixes withFlags none = .error (.unmerged name stage)) := by
  rw [parseIndexBytes] at hfull
  cases hh : readHeader raw with
  | error err =>
    rw [hh] at hfull
    cases hfull
  | ok h =>
    obtain ⟨version, count⟩ := h
    rw [hh] at hfull
    have hwalk : walk raw version withFlags true wholeScope count 12 ⟨∅, ∅⟩ = .ok full := hfull
    -- the full read gives the entries, in the order of git
    obtain ⟨es, hes⟩ := readEntries_of_walk hwalk
    have hind : indexEntries raw = .ok es := by
      rw [indexEntries, hh]
      exact hes
    have hpw := hord es hind
    have hempty : ∀ (s : Scope) (u : Finset PyStr), Found.Behind s ⟨∅, u⟩ es := by
      intro s u k hk
      cases hk
    -- what it gathers is a fold over them
    have hgather : es.foldl (Found.add raw withFlags wholeScope) ⟨∅, ∅⟩ = full := by
      have heq : walk raw version withFlags true wholeScope count 12 ⟨∅, ∅⟩ = _ :=
        walk_eq sound_wholeScope true hes hpw (hempty _ ∅) (.inl rfl)
      exact Except.ok.inj (heq.symm.trans hwalk)
    obtain ⟨names, dirs, hscope, hsel⟩ := scopeOf_eq hw hp
    -- the scoped read is a walk over the same bytes
    have hparse : ∀ u, parseIndexBytes raw wanted prefixes withFlags u =
        (scopeOfNames names dirs).elim (.ok ⟨∅, u.getD ∅⟩) fun s =>
          walk raw version withFlags u.isSome s count 12 ⟨∅, u.getD ∅⟩ := by
      intro u
      rw [parseIndexBytes, hh]
      simp only [bind, Except.bind, hscope]
      cases scopeOfNames names dirs <;> rfl
    -- and a fold that skips what the scope does not select
    have hrestrict : ∀ s : Scope,
        (∀ a, s.selects a = true ↔ InScope wanted prefixes (fsDecode a)) →
        ∀ u, es.foldl (Found.add raw withFlags s) ⟨∅, u⟩ =
          full.restrict (InScope wanted prefixes) u := by
      intro s hselects u
      rw [← hgather, ← Found.foldl_add_restrict hselects selects_wholeScope]
      congr 1
      simp [Found.restrict]
      rfl
    have hun : ∀ path, path ∈ full.unmerged ↔ ∃ e ∈ es, e.stage ≠ 0 ∧ path = fsDecode e.name := by
      intro path
      rw [← hgather, Found.mem_unmerged_foldl]
      simp [selects_wholeScope]
    simp only [hparse]
    cases hs : scopeOfNames names dirs with
    -- an empty scope selects nothing
    | none =>
      have hnone : ∀ a, ¬InScope wanted prefixes (fsDecode a) := fun a h =>
        scopeOfNames_none hs a ((hsel a).mpr h)
      have hempty' : ∀ u, full.restrict (InScope wanted prefixes) u = ⟨∅, u⟩ := by
        intro u
        rw [← hrestrict ⟨some [], false, false, [], none⟩ (fun a => by simp [Scope.selects, hnone])]
        exact Found.foldl_add_of_unselected (fun e _ => rfl) _
      refine ⟨by rw [hempty']; rfl, fun _ => by rw [hempty']; rfl, ?_⟩
      rintro ⟨path, hmem, hin⟩
      obtain ⟨e, -, -, rfl⟩ := (hun path).mp hmem
      exact absurd hin (hnone e.name)
    -- else the walk may stop early: behind it no entry is selected
    | some s =>
      have hsound := sound_of_scopeOfNames hs
      have hselects : ∀ a, s.selects a = true ↔ InScope wanted prefixes (fsDecode a) := fun a =>
        (selects_iff hs a).trans (hsel a)
      refine ⟨?_, fun hno => ?_, fun hyes => ?_⟩
      · rw [← hrestrict s hselects seen]
        exact walk_eq hsound true hes hpw (hempty s seen) (.inl rfl)
      · rw [← hrestrict s hselects ∅]
        refine walk_eq hsound false hes hpw (hempty s ∅) (.inr fun e he hsel' => ?_)
        by_contra h0
        exact hno _ ((hun _).mpr ⟨e, he, h0, rfl⟩) ((hselects _).mp hsel')
      · obtain ⟨path, hmem, hin⟩ := hyes
        obtain ⟨e, he, h0, rfl⟩ := (hun path).mp hmem
        exact walk_unmerged hsound hes hpw (hempty s ∅) ⟨e, he, (hselects _).mpr hin, h0⟩

end

/-! ### Small indexes -/

/-- An entry of stage `stage`, all zeros but for its flags and its name. -/
def plainEntry (stage : UInt8) (name : Bytes) : Bytes :=
  List.replicate 60 0 ++ [stage * 0x10, name.length.toUInt8] ++ name ++
    List.replicate (8 - (62 + name.length) % 8) 0

/-- A version 2 index of entries. -/
def plainIndex (entries : List Bytes) : Bytes :=
  signature ++ [0, 0, 0, 2] ++ [0, 0, 0, entries.length.toUInt8] ++ entries.flatten

instance (a b : RawEntry) : Decidable (GitOrder a b) := by
  unfold GitOrder
  infer_instance

instance (a b : RawEntry) : Decidable (StageOrder a b) := by
  unfold StageOrder
  infer_instance

/-- The entries of a file are in an order when they are in it wherever the file parses. -/
theorem entriesIn_iff {order : RawEntry → RawEntry → Prop} {raw : Bytes} :
    EntriesIn order raw ↔ ∀ es ∈ (indexEntries raw).toOption, es.Pairwise order := by
  rw [EntriesIn]
  cases indexEntries raw <;> simp [Except.toOption]

instance (order : RawEntry → RawEntry → Prop) [DecidableRel order] (raw : Bytes) :
    Decidable (EntriesIn order raw) := decidable_of_iff' _ entriesIn_iff

/-- `a`, `a-b`, `a/x`, and `b` with its three sides. -/
def sampleIndex : Bytes :=
  plainIndex [plainEntry 0 [0x61], plainEntry 0 [0x61, 0x2d, 0x62], plainEntry 0 [0x61, 0x2f, 0x78],
    plainEntry 1 [0x62], plainEntry 2 [0x62], plainEntry 3 [0x62]]

theorem parseIndexBytes_scoped_sample :
    ∃ full, parseIndexBytes sampleIndex none none false (some ∅) = .ok full ∧
      parseIndexBytes sampleIndex (some [ofText ['b']]) (some [ofText ['a', '/']]) false (some ∅) =
        .ok (full.restrict (InScope (some [ofText ['b']]) (some [ofText ['a', '/']])) ∅) := by
  have hok : (parseIndexBytes sampleIndex none none false (some ∅)).toBool = true := by
    decide +kernel
  cases hfull : parseIndexBytes sampleIndex none none false (some ∅) with
  | error err =>
    rw [hfull] at hok
    cases hok
  | ok full =>
    exact ⟨full, rfl, (parseIndexBytes_scoped hfull (by decide +kernel) (by decide +kernel)
      (by decide) ∅).1⟩

/-- A name that is merged and has a side as well: the walk stops at the merged entry, so the side
is neither collected nor raised. And a path is found under another spelling of its bytes. -/
theorem parseIndexBytes_stops_early :
    let conflicted := plainIndex [plainEntry 0 [0x61], plainEntry 1 [0x61]]
    let accented := plainIndex [plainEntry 0 [0xc3, 0xa9]]
    let escaped : PyStr := [0xdcc3, 0xdca9]
    EntriesIn StageOrder conflicted ∧
      (parseIndexBytes conflicted none none false (some ∅)).map (·.unmerged) =
        .ok {ofText ['a']} ∧
      (parseIndexBytes conflicted (some [ofText ['a']]) none false (some ∅)).map (·.unmerged) =
        .ok ∅ ∧
      (parseIndexBytes conflicted (some [ofText ['a']]) none false none).map (·.entries.keys) =
        .ok [ofText ['a']] ∧
      EntriesIn GitOrder accented ∧
      (parseIndexBytes accented (some [escaped]) none false (some ∅)).map (·.entries.keys) =
        .ok [ofText ['é']] ∧ ofText ['é'] ≠ escaped := by
  decide +kernel

end Git

end CoordinatorCore
