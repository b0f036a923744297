import CoordinatorCore.Spine.Approved
import CoordinatorCore.Spine.WriteRead

/-!
# What a membership digest tells

The digest of a grouping is a hash of the sorted pairs of id and disposition of its rows. The
payload names the pairs one to a line, the id in front of a NUL, so they can be read back from it
(`digestPayload_inj`) when no line feed stands in a disposition, and no line feed and no NUL in an
id. Then two digests agree exactly when the sets of pairs do, and a row that comes, goes or changes
its disposition moves the digests of the groupings that it leaves or enters, and no others.
-/

namespace CoordinatorCore

open Text BodyBlocks Frontmatter

namespace Spine

variable {E : Engine}

/-! ### The payload can be read back -/

/-- A pair that the payload keeps apart from its neighbours. -/
structure PlainMember (m : Text × Text) : Prop where
  id_newline : '\n' ∉ m.1
  id_nul : Char.ofNat 0 ∉ m.1
  disposition : '\n' ∉ m.2

/-- The line of a pair. -/
def memberLine (m : Text × Text) : Text := m.1 ++ Char.ofNat 0 :: m.2

/-- Plain members are told by their lines. -/
theorem PlainMember.eq_of_line {m m' : Text × Text} (hm : PlainMember m) (hm' : PlainMember m')
    (h : memberLine m = memberLine m') : m = m' := by
  -- the id is what stands in front of the first NUL
  have hid : ∀ {m : Text × Text}, PlainMember m →
      (memberLine m).takeWhile (· ≠ Char.ofNat 0) = m.1 := by
    intro m hm
    rw [memberLine, List.takeWhile_append_of_pos fun c hc => ?_]
    · simp
    · simpa using ne_of_mem_of_not_mem hc hm.id_nul
  have hfst : m.1 = m'.1 := by rw [← hid hm, ← hid hm', h]
  rw [memberLine, memberLine, hfst] at h
  exact Prod.ext hfst (List.cons.inj (List.append_cancel_left h)).2

/-- The line of a plain member is one line. -/
theorem PlainMember.newline_not_mem {m : Text × Text} (hm : PlainMember m) :
    '\n' ∉ memberLine m := by
  have hnul : '\n' ≠ Char.ofNat 0 := by decide
  simp [memberLine, hm.id_newline, hm.disposition, hnul]

/-- Plain pairs can be read back from the payload. -/
theorem digestPayload_inj {ms ms' : List (Text × Text)} (hms : ∀ m ∈ ms, PlainMember m)
    (hms' : ∀ m ∈ ms', PlainMember m) (h : digestPayload ms = digestPayload ms') : ms = ms' := by
  have hlines : ∀ {ms : List (Text × Text)}, (∀ m ∈ ms, PlainMember m) → ms ≠ [] →
      lines (digestPayload ms) = ms.map memberLine := by
    intro ms hms hne
    refine lines_unlines (fun l hl => ?_) (by simpa using hne)
    obtain ⟨m, hm, rfl⟩ := List.mem_map.mp hl
    exact (hms m hm).newline_not_mem
  -- no line of a pair is empty, so only the empty list has the empty payload
  have hnil : ∀ {ms : List (Text × Text)}, (∀ m ∈ ms, PlainMember m) → digestPayload ms = [] →
      ms = [] := by
    intro ms hms h
    by_contra hne
    have := hlines hms hne
    rw [h] at this
    obtain ⟨m, ms, rfl⟩ := List.exists_cons_of_ne_nil hne
    simp [memberLine, lines] at this
  by_cases hne : ms = []
  · subst hne
    exact (hnil hms' h.symm).symm
  by_cases hne' : ms' = []
  · subst hne'
    exact hnil hms h
  · have hmap := hlines hms hne
    rw [h, hlines hms' hne'] at hmap
    clear hne hne' h hlines hnil
    induction ms generalizing ms' with
    | nil => simpa using hmap
    | cons m ms ih =>
      cases ms' with
      | nil => simp at hmap
      | cons m' ms' =>
        obtain ⟨hline, hrest⟩ := List.cons.inj hmap
        rw [(hms' m' List.mem_cons_self).eq_of_line (hms m List.mem_cons_self) hline,
          ih (fun x hx => hms x (List.mem_cons_of_mem m hx))
            (fun x hx => hms' x (List.mem_cons_of_mem m' hx)) hrest]

/-! ### Membership -/

/-- The pairs of id and disposition of the rows of a grouping. -/
def memberPairs (E : Engine) (rows : List Dict) (g : Grouping) : List (Text × Text) :=
  (rows.filter fun row => rowGrouping row = g).map fun row => (memberId E row, rowDisposition row)

/-- Two row lists have the same pairs in a grouping. -/
def SameMembers (E : Engine) (a b : List Dict) (g : Grouping) : Prop :=
  ∀ m, m ∈ memberPairs E a g ↔ m ∈ memberPairs E b g

/-- The members of a grouping are its rows. -/
theorem mem_memberPairs {rows : List Dict} {g : Grouping} {m : Text × Text} :
    m ∈ memberPairs E rows g ↔
      ∃ row ∈ rows, rowGrouping row = g ∧ (memberId E row, rowDisposition row) = m := by
  simp [memberPairs, and_assoc]

theorem mem_groupingMembers {rows : List Dict} {g : Grouping} {m : Text × Text} :
    m ∈ groupingMembers E rows g ↔ m ∈ memberPairs E rows g := by
  rw [groupingMembers, List.mem_insertionSort, List.mem_dedup]
  rfl

/-- The same members have the same digest. -/
theorem SameMembers.digest_eq {a b : List Dict} {g : Grouping} (h : SameMembers E a b g) :
    computeGroupingDigest E a g = computeGroupingDigest E b g := by
  have hperm : (memberPairs E a g).dedup.Perm (memberPairs E b g).dedup :=
    (List.perm_ext_iff_of_nodup (List.nodup_dedup _) (List.nodup_dedup _)).mpr fun m => by
      rw [List.mem_dedup, List.mem_dedup, h m]
  exact congrArg (fun members => "sha256:".toList ++ E.sha256 (digestPayload members))
    (insertionSort_memberLe_congr hperm)

/-- Rows with unique ids that are strings; the payload keeps their ids and dispositions apart. -/
structure PlainRows (rows : List Dict) : Prop where
  ids : ∀ row ∈ rows, ∃ s, rowId row = .str s ∧ '\n' ∉ s ∧ Char.ofNat 0 ∉ s
  unique : (rows.map rowId).Nodup
  dispositions : ∀ row ∈ rows, '\n' ∉ rowDisposition row

theorem memberId_eq {row : Dict} {s : Text} (h : rowId row = .str s) : memberId E row = s := by
  have hmem : row.mem "id".toList = true := by
    by_contra hno
    rw [rowId, Dict.get_eq_null_of_not_mem (by simpa using hno)] at h
    cases h
  rw [memberId, hmem, if_pos rfl, h]
  rfl

/-- The members of plain rows are plain. -/
theorem PlainRows.plainMember {rows : List Dict} (h : PlainRows rows) {g : Grouping}
    {m : Text × Text} (hm : m ∈ memberPairs E rows g) : PlainMember m := by
  obtain ⟨row, hrow, -, rfl⟩ := mem_memberPairs.mp hm
  obtain ⟨s, hs, hn, hz⟩ := h.ids row hrow
  rw [memberId_eq hs]
  exact ⟨hn, hz, h.dispositions row hrow⟩

/-- Two digests agree exactly when the sets of pairs do. -/
theorem digest_eq_iff (hsha : Function.Injective E.sha256) {a b : List Dict} (ha : PlainRows a)
    (hb : PlainRows b) (g : Grouping) :
    computeGroupingDigest E a g = computeGroupingDigest E b g ↔ SameMembers E a b g := by
  refine ⟨fun h m => ?_, SameMembers.digest_eq⟩
  have hmembers : groupingMembers E a g = groupingMembers E b g := by
    refine digestPayload_inj (fun m hm => ?_) (fun m hm => ?_)
      (hsha (List.append_cancel_left h))
    · exact ha.plainMember (mem_groupingMembers.mp hm)
    · exact hb.plainMember (mem_groupingMembers.mp hm)
  rw [← mem_groupingMembers, ← mem_groupingMembers, hmembers]

/-! ### One row -/

section OneRow

variable {xs ys : List Dict} {row row' : Dict}

/-- Another row adds itself as a member. -/
theorem mem_memberPairs_insert {g : Grouping} {m : Text × Text} :
    m ∈ memberPairs E (xs ++ row :: ys) g ↔
      (rowGrouping row = g ∧ (memberId E row, rowDisposition row) = m) ∨
        m ∈ memberPairs E (xs ++ ys) g := by
  simp only [mem_memberPairs, List.mem_append, List.mem_cons]
  constructor
  · rintro ⟨r, hr | rfl | hr, hg, hm⟩
    · exact .inr ⟨r, .inl hr, hg, hm⟩
    · exact .inl ⟨hg, hm⟩
    · exact .inr ⟨r, .inr hr, hg, hm⟩
  · rintro (⟨hg, hm⟩ | ⟨r, hr | hr, hg, hm⟩)
    · exact ⟨row, .inr (.inl rfl), hg, hm⟩
    · exact ⟨r, .inl hr, hg, hm⟩
    · exact ⟨r, .inr (.inr hr), hg, hm⟩

/-- No other row has the id of this one. -/
theorem PlainRows.id_not_mem (h : PlainRows (xs ++ row :: ys)) {g : Grouping} {d : Text} :
    (memberId E row, d) ∉ memberPairs E (xs ++ ys) g := by
  intro hm
  obtain ⟨r, hr, -, heq⟩ := mem_memberPairs.mp hm
  have hid := (Prod.mk.inj heq).1
  have hperm := (@List.perm_middle _ row xs ys).map rowId
  have hnot := List.nodup_cons.mp (hperm.nodup h.unique)
  have hin : ∀ x ∈ row :: (xs ++ ys), x ∈ xs ++ row :: ys := fun x hx =>
    List.perm_middle.mem_iff.mpr hx
  obtain ⟨s, hs, -⟩ := h.ids row (hin row List.mem_cons_self)
  obtain ⟨s', hs', -⟩ := h.ids r (hin r (List.mem_cons_of_mem row hr))
  rw [memberId_eq hs, memberId_eq hs'] at hid
  exact hnot.1 (List.mem_map.mpr ⟨r, hr, by rw [hs, hs', hid]⟩)

/-- Plain rows stay plain without one of them. -/
theorem PlainRows.erase (h : PlainRows (xs ++ row :: ys)) : PlainRows (xs ++ ys) := by
  have hsub : (xs ++ ys).Sublist (xs ++ row :: ys) := (List.sublist_cons_self row ys).append_left xs
  exact ⟨fun r hr => h.ids r (hsub.subset hr), h.unique.sublist (hsub.map rowId),
    fun r hr => h.dispositions r (hsub.subset hr)⟩

end OneRow

/-- **What a digest tells**: the set of pairs of its grouping, and nothing else. -/
structure DigestExact (E : Engine) : Prop where
  /-- Two digests agree exactly when the sets of pairs do. -/
  members : ∀ {a b}, PlainRows a → PlainRows b → ∀ g,
    computeGroupingDigest E a g = computeGroupingDigest E b g ↔ SameMembers E a b g
  /-- The order of the rows moves no digest. -/
  reorder : ∀ {a b : List Dict}, a.Perm b → ∀ g,
    computeGroupingDigest E a g = computeGroupingDigest E b g
  /-- Another field of a row moves no digest. -/
  edit : ∀ {xs ys row row'}, PlainRows (xs ++ row :: ys) → rowId row' = rowId row →
    rowDisposition row' = rowDisposition row → ∀ g,
      computeGroupingDigest E (xs ++ row' :: ys) g = computeGroupingDigest E (xs ++ row :: ys) g
  /-- A row that comes or goes moves the digest of its grouping. -/
  add : ∀ {xs ys row}, PlainRows (xs ++ row :: ys) → ∀ g,
    computeGroupingDigest E (xs ++ row :: ys) g ≠ computeGroupingDigest E (xs ++ ys) g ↔
      g = rowGrouping row
  /-- A row with a new disposition moves the digests of the groupings it leaves and enters. -/
  redispose : ∀ {xs ys row row'}, PlainRows (xs ++ row :: ys) → PlainRows (xs ++ row' :: ys) →
    rowId row' = rowId row → rowDisposition row' ≠ rowDisposition row → ∀ g,
      computeGroupingDigest E (xs ++ row' :: ys) g ≠ computeGroupingDigest E (xs ++ row :: ys) g ↔
        g = rowGrouping row ∨ g = rowGrouping row'

theorem digestExact (hsha : Function.Injective E.sha256) : DigestExact E where
  members ha hb g := digest_eq_iff hsha ha hb g
  reorder h g := computeGroupingDigest_congr (h.map rowState) g
  edit {xs ys row row'} h hid hdisp g := by
    obtain ⟨s, hs, -⟩ := h.ids row (by simp)
    refine SameMembers.digest_eq fun m => ?_
    have hgroup : rowGrouping row' = rowGrouping row := by rw [rowGrouping, hdisp, rowGrouping]
    rw [mem_memberPairs_insert, mem_memberPairs_insert, hgroup, hdisp, memberId_eq hs,
      memberId_eq (hid.trans hs)]
  add {xs ys row} h g := by
    rw [ne_eq, digest_eq_iff hsha h h.erase]
    constructor
    · intro hne
      by_contra hg
      refine hne fun m => ?_
      rw [mem_memberPairs_insert, or_iff_right fun hm => hg hm.1.symm]
    · rintro rfl hsame
      exact h.id_not_mem ((hsame _).mp (mem_memberPairs_insert.mpr (.inl ⟨rfl, rfl⟩)))
  redispose {xs ys row row'} h h' hid hdisp g := by
    obtain ⟨s, hs, -⟩ := h.ids row (by simp)
    have hmid : memberId E row' = memberId E row := by
      rw [memberId_eq hs, memberId_eq (hid.trans hs)]
    rw [ne_eq, digest_eq_iff hsha h' h]
    constructor
    · intro hne
      by_contra hg
      rw [not_or] at hg
      refine hne fun m => ?_
      rw [mem_memberPairs_insert, mem_memberPairs_insert, or_iff_right fun hm => hg.2 hm.1.symm,
        or_iff_right fun hm => hg.1 hm.1.symm]
    · rintro (rfl | rfl) hsame
      · -- the old pair is gone
        rcases mem_memberPairs_insert.mp ((hsame (memberId E row, rowDisposition row)).mpr
          (mem_memberPairs_insert.mpr (.inl ⟨rfl, rfl⟩))) with ⟨-, heq⟩ | hm
        · exact hdisp (Prod.mk.inj heq).2
        · exact h.id_not_mem hm
      · -- the new pair was not there
        rcases mem_memberPairs_insert.mp ((hsame (memberId E row', rowDisposition row')).mp
          (mem_memberPairs_insert.mpr (.inl ⟨rfl, rfl⟩))) with ⟨-, heq⟩ | hm
        · exact hdisp (Prod.mk.inj heq).2.symm
        · rw [hmid] at hm
          exact h.id_not_mem hm

/-- A hash that is its payload. -/
theorem digestExact_flatEngine : DigestExact (flatEngine []) := digestExact Function.injective_id

/-- A row with an id and a disposition. -/
def disposedRow (id disposition : Text) : Dict :=
  [(.str "id".toList, .str id), (.str "disposition".toList, .str disposition)]

/-- A disposition that no grouping knows can spell the pair of another row. -/
theorem digest_collides :
    ((disposedRow ['A'] ['x', '\n', 'B', Char.ofNat 0, 'y'] :: []).map rowId).Nodup ∧
      ([disposedRow ['A'] ['x'], disposedRow ['B'] ['y']].map rowId).Nodup ∧
      computeGroupingDigest (flatEngine []) [disposedRow ['A'] ['x', '\n', 'B', Char.ofNat 0, 'y']]
          .do_ =
        computeGroupingDigest (flatEngine []) [disposedRow ['A'] ['x'], disposedRow ['B'] ['y']]
          .do_ ∧
      ¬ SameMembers (flatEngine []) [disposedRow ['A'] ['x', '\n', 'B', Char.ofNat 0, 'y']]
        [disposedRow ['A'] ['x'], disposedRow ['B'] ['y']] .do_ := by
  refine ⟨by simp, ?_, by decide, fun h => ?_⟩
  · simp [disposedRow, rowId, Dict.get, Dict.hasKey]
  · have hmem : (['A'], ['x']) ∈ memberPairs (flatEngine [])
        [disposedRow ['A'] ['x'], disposedRow ['B'] ['y']] .do_ := by decide
    have hnot : (['A'], ['x']) ∉ memberPairs (flatEngine [])
        [disposedRow ['A'] ['x', '\n', 'B', Char.ofNat 0, 'y']] .do_ := by decide
    exact hnot ((h _).mpr hmem)

end Spine

end CoordinatorCore
