import CoordinatorCore.Spine.Atomic
import CoordinatorCore.Spine.Order
import Mathlib.Data.Char
import Mathlib.Data.List.Dedup
import Mathlib.Data.List.Lex
import Mathlib.Data.Prod.Lex

/-!
# Does `resolve` keep a spine approved?

The predicate looks at every grouping that has members, `resolve` only at the groupings its batch
moves rows into. `resolve_keeps_approval_iff` says what is left to ask of the other groupings and
of a grouping that gets its first members: nobody may leave a grouping that keeps members unless
the batch also moves rows into it, and the block of a grouping without members must already be
signed and hold a digest.
-/

namespace CoordinatorCore

open Text BodyBlocks Frontmatter

namespace Spine

variable {E : Engine}

/-! ### The digest reads the states, in no order -/

/-- Texts are compared as the order on texts does. -/
theorem textLe_iff {s t : Text} : textLe s t = true ↔ s ≤ t := by
  induction s generalizing t with
  | nil => cases t <;> simp [textLe, le_iff_lt_or_eq]
  | cons c s ih =>
    cases t with
    | nil => simp [textLe, le_iff_lt_or_eq]
    | cons d t =>
      rw [textLe, Bool.or_eq_true, Bool.and_eq_true, decide_eq_true_eq, beq_iff_eq, ih,
        le_iff_lt_or_eq, le_iff_lt_or_eq, List.cons_lt_cons_iff, List.cons.injEq]
      tauto

/-- Members are compared by id and then by state. -/
theorem memberLe_iff {a b : Text × Text} : memberLe a b = true ↔ toLex a ≤ toLex b := by
  rw [memberLe, Prod.Lex.toLex_le_toLex]
  split_ifs with h
  · simp [h, textLe_iff]
  · rw [textLe_iff, or_iff_left fun hb => h hb.1]
    exact ⟨fun hle => lt_of_le_of_ne hle h, le_of_lt⟩

/-- The pair that a row in this state puts into a digest. -/
def RowState.member (E : Engine) (s : RowState) : Text × Text :=
  (if s.hasId then pyStr E s.id else [], rowDisposition s.row)

/-- The sort of pairs does not depend on their order. -/
theorem insertionSort_memberLe_congr {l l' : List (Text × Text)} (h : l.Perm l') :
    (l.insertionSort fun a b => memberLe a b = true) =
      l'.insertionSort fun a b => memberLe a b = true := by
  have htotal : Std.Total fun a b => memberLe a b = true :=
    ⟨fun a b => by simpa only [memberLe_iff] using le_total (toLex a) (toLex b)⟩
  have htrans : IsTrans (Text × Text) fun a b => memberLe a b = true :=
    ⟨fun a b c => by simpa only [memberLe_iff] using le_trans⟩
  have hantisymm : ∀ a b, memberLe a b = true → memberLe b a = true → a = b := fun a b hab hba =>
    toLex.injective (le_antisymm (memberLe_iff.mp hab) (memberLe_iff.mp hba))
  exact List.Perm.eq_of_pairwise (fun a b _ _ => hantisymm a b)
    (List.pairwise_insertionSort _ _) (List.pairwise_insertionSort _ _)
    ((List.perm_insertionSort _ _).trans (h.trans (List.perm_insertionSort _ _).symm))

/-- The members of a grouping are read off the states of the rows, in any order. -/
theorem groupingMembers_congr {rows rows' : List Dict}
    (h : (rows.map rowState).Perm (rows'.map rowState)) (g : Grouping) :
    groupingMembers E rows g = groupingMembers E rows' g := by
  have hstates : ∀ l : List Dict, ((l.filter fun row => rowGrouping row = g).map fun row =>
      (memberId E row, rowDisposition row)) =
        ((l.map rowState).filter fun s => rowGrouping s.row = g).map (RowState.member E) := by
    intro l
    rw [List.filter_map, List.map_map]
    rfl
  have hperm := ((h.filter fun s => rowGrouping s.row = g).map (RowState.member E)).dedup
  rw [groupingMembers, groupingMembers, hstates, hstates]
  exact insertionSort_memberLe_congr hperm

/-- The digest of a grouping depends on the states of the rows, in any order. -/
theorem computeGroupingDigest_congr {rows rows' : List Dict}
    (h : (rows.map rowState).Perm (rows'.map rowState)) (g : Grouping) :
    computeGroupingDigest E rows g = computeGroupingDigest E rows' g :=
  congrArg (fun members => "sha256:".toList ++ E.sha256 (digestPayload members))
    (groupingMembers_congr h g)

/-- The grouping has a row. -/
def hasMember (rows : List Dict) (g : Grouping) : Bool := rows.any fun row => rowGrouping row = g

/-- Whether a grouping has a member depends on the states of the rows, in any order. -/
theorem hasMember_congr {rows rows' : List Dict}
    (h : (rows.map rowState).Perm (rows'.map rowState)) (g : Grouping) :
    hasMember rows g = hasMember rows' g := by
  have hany : ∀ l : List Dict, hasMember l g =
      (l.map rowState).any fun s => rowGrouping s.row = g := by
    intro l
    rw [List.any_map]
    rfl
  rw [hany, hany]
  exact h.any_eq

/-! ### The predicate, grouping by grouping -/

/-- The grouping is approved and signed, and its block holds this digest. -/
def Records (E : Engine) (blocks : Dict) (g : Grouping) (digest : Text) : Prop :=
  ∃ block, approvedBlock blocks g = some block ∧ groupingSignoffError E g block = none ∧
    block.get "digest".toList = .str digest ∧ wellFormedDigest digest = true

/-- A block holds one digest. -/
theorem Records.eq {blocks : Dict} {g : Grouping} {digest : Text} {block : Dict} {v : Val}
    (h : Records E blocks g digest) (hblock : approvedBlock blocks g = some block)
    (hv : block.get "digest".toList = v) : v = .str digest := by
  obtain ⟨block', hblock', -, hdigest, -⟩ := h
  obtain rfl := Option.some.inj (hblock.symm.trans hblock')
  exact hv.symm.trans hdigest

/-- A row passes when its grouping's digest is on record. -/
theorem rowApprovalError_eq_none_iff {blocks : Dict} {rows : List Dict} {row : Dict} :
    rowApprovalError E blocks rows row = none ↔
      Records E blocks (rowGrouping row) (computeGroupingDigest E rows (rowGrouping row)) := by
  rw [rowApprovalError, Records]
  dsimp only
  cases hblock : approvedBlock blocks (rowGrouping row) with
  | none => simp
  | some block =>
    cases hsignoff : groupingSignoffError E (rowGrouping row) block with
    | some e => simp [hsignoff]
    | none =>
      simp only [Option.some.injEq, exists_eq_left', hsignoff, true_and]
      cases block.get "digest".toList with
      | str recorded =>
        dsimp only
        rw [Val.str.injEq]
        split_ifs with hform heq
        · simp only [false_iff, not_and]
          rintro rfl
          simp [hform]
        · subst heq
          simpa using hform
        · simp [heq]
      | _ => simp

/-- The gated dispositions are those of the groupings behind `do`. -/
theorem mem_governedGated_iff (row : Dict) :
    rowDisposition row ∈ governedGated ↔ rowGrouping row ≠ .do_ := by
  rw [rowGrouping]
  generalize rowDisposition row = d
  rw [groupingByDisposition]
  split_ifs with h1 h2 h3 h4 h5 h6
  · subst h1
    decide
  · subst h2
    decide
  · subst h3
    decide
  · subst h4
    decide
  · subst h5
    decide
  · subst h6
    decide
  · simp only [governedGated, List.mem_cons, List.not_mem_nil, or_false, Option.getD_none, ne_eq,
      not_true_eq_false, iff_false, not_or]
    exact ⟨h5, h6, h4⟩

/-- The predicate asks of every grouping behind `do` that has members that its block records the
digest of these members. -/
theorem approvalErrors_eq_none_iff_records {blocks : Dict} {rows : List Dict} :
    approvalErrors E blocks rows rows = none ↔ ∀ g, g ≠ .do_ → hasMember rows g = true →
      Records E blocks g (computeGroupingDigest E rows g) := by
  simp only [approvalErrors_eq_none_iff, rowApprovalError_eq_none_iff, mem_governedGated_iff,
    hasMember, List.any_eq_true, decide_eq_true_eq]
  constructor
  · rintro h g hg ⟨row, hrow, rfl⟩
    exact h row hrow hg
  · exact fun h row hrow hg => h _ hg ⟨row, hrow, rfl⟩

/-- The value of `grouping_approvals` in a governed plan. -/
def groupingApprovals (E : Engine) (text : Text) : Option Val :=
  (parseFrontmatter E.parseYaml text).bind fun fm =>
    if isGovernedPlan fm then some (fm.get "grouping_approvals".toList) else none

/-- A plan passes when every gated grouping with a member has its digest on record. -/
theorem checkPlanTasksGroupingApproval_eq_none_iff {text : Text} {blocks : Dict}
    {rows : List Dict} (hblocks : groupingApprovals E text = some (.map blocks))
    (hrows : spineRows E text = some rows) :
    checkPlanTasksGroupingApproval E text = none ↔ ∀ g, g ≠ .do_ → hasMember rows g = true →
      Records E blocks g (computeGroupingDigest E rows g) := by
  obtain ⟨fm, hfm, hgov⟩ := Option.bind_eq_some_iff.mp hblocks
  split_ifs at hgov with hgoverned
  rw [← approvalErrors_eq_none_iff_records, checkPlanTasksGroupingApproval, hfm]
  simp only [hgoverned, hrows, Option.some.inj hgov, Val.asDict_map, Bool.not_true,
    Bool.false_eq_true, if_false]

/-! ### What a batch does to the groupings -/

/-- The batch puts a row into the grouping. -/
def receives (batch : Batch) (g : Grouping) : Bool :=
  batch.any fun r => gatedGrouping true r = some g

/-- The rows with the dispositions of the batch. -/
def disposed (batch : Batch) (rows : List Dict) : List Dict :=
  (disposeRows batch (rows.map .map)).filterMap Val.asDict

/-- The rows behind a resolve. -/
theorem disposeRows_map {batch : Batch} {rows after : List Dict}
    (h : disposeRows batch (rows.map .map) = after.map .map) : disposed batch rows = after := by
  rw [disposed, h, List.filterMap_map]
  exact List.filterMap_some

/-- A row behind the first writes is an old one or one that the batch names. -/
theorem mem_disposed {batch : Batch} {rows : List Dict} {row : Dict}
    (h : row ∈ disposed batch rows) :
    row ∈ rows ∨ ∃ r ∈ batch, ∃ old, row = disposeRow r old := by
  -- a round leaves the rows or disposes one of them
  have hfold : ∀ f : List Val → Params → List Val,
      (∀ acc r, f acc r = acc ∨ ∃ i, f acc r = modifyRow acc i (disposeRow r)) →
      ∀ (l : Batch) (acc : List Val), (∀ r ∈ l, r ∈ batch) →
      (∀ v ∈ acc, ∀ d, v = .map d → d ∈ rows ∨ ∃ r ∈ batch, ∃ old, d = disposeRow r old) →
      ∀ v ∈ l.foldl f acc, ∀ d, v = .map d →
          d ∈ rows ∨ ∃ r ∈ batch, ∃ old, d = disposeRow r old := by
    intro f hf l
    induction l with
    | nil => exact fun acc _ hacc => hacc
    | cons r l ih =>
      intro acc hl hacc
      rw [List.foldl_cons]
      refine ih _ (fun r' hr' => hl r' (List.mem_cons_of_mem r hr')) ?_
      rcases hf acc r with heq | ⟨i, heq⟩ <;> rw [heq]
      · exact hacc
      · intro v hv d hd
        obtain ⟨j, hj⟩ := List.mem_iff_getElem?.mp hv
        rw [getElem?_modifyRow, Option.map_eq_some_iff] at hj
        obtain ⟨v', hv', heq⟩ := hj
        have hmem := List.mem_of_getElem? hv'
        split_ifs at heq
        · cases v' with
          | map old =>
            obtain rfl := Val.map.inj (heq.trans hd)
            exact .inr ⟨r, hl r (List.mem_cons_self ..), old, rfl⟩
          | _ => rw [← heq] at hd; cases hd
        · exact hacc v' hmem d (heq.trans hd)
  obtain ⟨v, hv, hd⟩ := List.mem_filterMap.mp h
  refine hfold _ (fun acc r => ?_) batch (rows.map .map) (fun _ hr => hr) ?_ v hv row
    (Val.asDict_eq_some.mp hd)
  · split
    · exact .inr ⟨_, rfl⟩
    · exact .inl rfl
  · intro v hv d hd
    obtain ⟨d', hd', rfl⟩ := List.mem_map.mp hv
    exact .inl (Val.map.inj hd ▸ hd')

/-- An entry that puts a row into a grouping behind `do` is gated. -/
theorem gatedGrouping_of_disposeRow {r : Params} {row : Dict} {g : Grouping} (hg : g ≠ .do_)
    (h : rowGrouping (disposeRow r row) = g) : gatedGrouping true r = some g := by
  have hget : (disposeRow r row).get "disposition".toList = r.disposition := by
    rw [disposeRow, keeps_setUnlessNone (g := fun d : Dict => d.get "disposition".toList)
      (fun row v => Dict.get_set_of_ne (by decide) row v), Dict.get_set_self]
  rw [rowGrouping, rowDisposition, hget] at h
  cases hr : r.disposition with
  | str s =>
    rw [hr] at h
    dsimp only at h
    split_ifs at h with hs
    · exact absurd h.symm hg
    · cases hgrouping : groupingByDisposition s with
      | none => rw [hgrouping] at h; exact absurd h.symm hg
      | some g' =>
        rw [hgrouping, Option.getD_some] at h
        have hdisposes : r.disposes = fun d => s == d := by
          funext d
          rw [Params.disposes, hr, Val.pyEq]
        rw [gatedGrouping, hdisposes]
        subst h
        rw [groupingByDisposition] at hgrouping
        split_ifs at hgrouping with h1 h2 h3 h4 h5 h6 <;>
          first
          | exact absurd (Option.some.inj hgrouping).symm hg
          | (obtain rfl := Option.some.inj hgrouping; subst_vars; decide)
  | _ => rw [hr] at h; exact absurd h.symm hg

/-- A grouping behind `do` that the batch puts no row into has the members it had, less some. -/
theorem hasMember_of_not_receives {batch : Batch} {rows : List Dict} {g : Grouping}
    (hg : g ≠ .do_) (hreceives : receives batch g = false)
    (h : hasMember (disposed batch rows) g = true) : hasMember rows g = true := by
  obtain ⟨row, hrow, hrowg⟩ := List.any_eq_true.mp h
  rw [decide_eq_true_eq] at hrowg
  rcases mem_disposed hrow with hold | ⟨r, hr, old, rfl⟩
  · exact List.any_eq_true.mpr ⟨row, hold, decide_eq_true hrowg⟩
  · have hgated := gatedGrouping_of_disposeRow hg hrowg
    rw [receives, List.any_eq_false] at hreceives
    exact absurd (decide_eq_true hgated) (hreceives r hr)

/-- The gate in front of an entry that puts a row into a grouping. -/
theorem digest_of_governedGate {fm blocks : Dict} {batch : Batch} {rows : List Val} {r : Params}
    {g : Grouping} (hblocks : fm.get "grouping_approvals".toList = .map blocks)
    (hr : gatedGrouping true r = some g) (h : governedGate E fm batch rows r = .ok ()) :
    ∃ block, approvedBlock blocks g = some block ∧ block.get "digest".toList =
      .str (computeGroupingDigest E (prospectiveRows batch rows) g) := by
  unfold governedGate at h
  rw [hr] at h
  dsimp only at h
  rw [hblocks, Val.asDict_map, Option.bind_some] at h
  cases hblock : approvedBlock blocks g with
  | none => rw [hblock] at h; cases h
  | some block =>
    rw [hblock] at h
    dsimp only at h
    split_ifs at h with hdigest
    exact ⟨block, rfl, Val.pyEq_str_right.mp hdigest⟩

/-! ### The law -/

/-- What the checks of `resolve` leave open for a grouping that has members behind the batch. -/
structure KeepsApproval (E : Engine) (blocks : Dict) (batch : Batch) (rows : List Dict)
    (g : Grouping) : Prop where
  /-- A grouping that gets its first members is signed and holds a digest. -/
  signed : receives batch g = true → hasMember rows g = false →
    ∃ digest, Records E blocks g digest
  /-- The members are the ones that the authorization gate looked at. -/
  received : receives batch g = true → computeGroupingDigest E (disposed batch rows) g =
    computeGroupingDigest E (prospectiveRows batch (rows.map .map)) g
  /-- Nobody leaves a grouping that receives nobody. -/
  kept : receives batch g = false →
    computeGroupingDigest E (disposed batch rows) g = computeGroupingDigest E rows g

section Law

variable {blocks : Dict} {batch : Batch} {rows : List Dict} {anchors : Text → List Text}

/-- One grouping behind the batch, when its block was in order and the gate let the batch pass. -/
theorem records_disposed_iff {g : Grouping} (hg : g ≠ .do_)
    (hmember : hasMember (disposed batch rows) g = true)
    (hold : hasMember rows g = true → Records E blocks g (computeGroupingDigest E rows g))
    (hgate : receives batch g = true → ∃ block, approvedBlock blocks g = some block ∧
      block.get "digest".toList =
        .str (computeGroupingDigest E (prospectiveRows batch (rows.map .map)) g)) :
    Records E blocks g (computeGroupingDigest E (disposed batch rows) g) ↔
      KeepsApproval E blocks batch rows g := by
  constructor
  · intro hnew
    refine ⟨fun _ _ => ⟨_, hnew⟩, fun hreceives => ?_, fun hreceives => ?_⟩
    · obtain ⟨block, hblock, hdigest⟩ := hgate hreceives
      exact (Val.str.inj (hnew.eq hblock hdigest)).symm
    · obtain ⟨block, hblock, -, hdigest, -⟩ := hold (hasMember_of_not_receives hg hreceives hmember)
      exact (Val.str.inj (hnew.eq hblock hdigest)).symm
  · rintro ⟨hsigned, hreceived, hkept⟩
    cases hreceives : receives batch g with
    | false =>
      rw [hkept hreceives]
      exact hold (hasMember_of_not_receives hg hreceives hmember)
    | true =>
      -- the block is signed already: the grouping had members, or the condition says so
      obtain ⟨digest, hrecords⟩ : ∃ digest, Records E blocks g digest := by
        cases hhad : hasMember rows g with
        | false => exact hsigned hreceives hhad
        | true => exact ⟨_, hold hhad⟩
      obtain ⟨block, hblock, hdigest⟩ := hgate hreceives
      rw [hreceived hreceives, Val.str.inj (hrecords.eq hblock hdigest)]
      exact hrecords

/-- A safe `resolve` on an approved governed plan leaves an approved plan if and only if every
grouping behind `do` that has members behind the batch keeps its approval. -/
theorem resolve_keeps_approval_iff (hE : YamlLaws E anchors) {w : World} {store : Store}
    {old new body : Text} {start stop : Nat} (halike : ReadsAlike E old) (halike' : ReadsAlike E new)
    (hloc : locateFencedBlock old = .located body start stop)
    (hrows : parseRows E body = .ok (rows.map .map))
    (hblocks : groupingApprovals E old = some (.map blocks))
    (happroved : checkPlanTasksGroupingApproval E old = none)
    (hsafe : StepSafe E old anchors (.resolve w batch store))
    (hok : (resolve E w batch old store).1 = .ok new)
    (hfm : groupingApprovals E new = groupingApprovals E old) :
    checkPlanTasksGroupingApproval E new = none ↔
      ∀ g, g ≠ .do_ → hasMember (disposed batch rows) g = true →
        KeepsApproval E blocks batch rows g := by
  have hstates : spineStates E old = some (rows.map rowState) :=
    spineStates_eq_some.mpr ⟨body, start, stop, hloc, by
      rw [bodyStates_of_parseRows hrows]
      exact rowsStates_eq_some.mpr ⟨rows, rfl, rfl⟩⟩
  -- the approval check reads the rows of either spine up to their order
  obtain ⟨oldRows, hspine, holdRows⟩ := spineRows_of_spineStates halike hstates
  rw [checkPlanTasksGroupingApproval_eq_none_iff hblocks hspine] at happroved
  have hpermOld : (oldRows.map rowState).Perm (rows.map rowState) := List.Perm.of_eq holdRows
  have hcall : (Call.resolve w batch store).mutate E old = .ok new := hok
  rcases Call.mutate_eq_ok hloc hrows hcall with
    ⟨newRows, B, hw, hnew⟩ | ⟨-, hnot, -⟩
  · have hwritten := spineStates_of_writes hE hloc hrows hsafe hw hnew
    cases hw with
    | @resolve _ _ _ store' p tagged evidence _ hp hrun hB =>
      obtain ⟨hloc', hrows', hchecks, -⟩ := prepareResolve_eq_ok hp
      rw [hloc] at hloc'
      obtain ⟨rfl, rfl, rfl⟩ := LocateResult.located.inj hloc'
      have hprows : p.rows = rows.map .map := Except.ok.inj (hrows'.symm.trans hrows)
      obtain ⟨after, hafter, hsorted⟩ := rowsStates_resolve hp hrun
      rw [hprows] at hafter hchecks
      rw [hsorted] at hwritten
      obtain ⟨spine, hspineNew, hspineStates⟩ := spineRows_of_spineStates halike' hwritten
      have hpermNew : (spine.map rowState).Perm ((disposed batch rows).map rowState) := by
        rw [hspineStates, disposeRows_map hafter]
        exact (Ranked.sort_perm rowRank after).map rowState
      rw [checkPlanTasksGroupingApproval_eq_none_iff (hfm.trans hblocks) hspineNew]
      obtain ⟨fm, hfmOld, hgov⟩ := Option.bind_eq_some_iff.mp hblocks
      split_ifs at hgov with hgoverned
      -- what a resolve disposes of must have had the approval already
      have hgates := (resolveChecks_eq_ok hchecks).2.2 fm hfmOld hgoverned
      refine forall_congr' fun g => imp_congr_right fun hg => ?_
      rw [hasMember_congr hpermNew, computeGroupingDigest_congr hpermNew]
      refine imp_congr_right fun hmember => records_disposed_iff hg hmember ?_ ?_
      · intro hhad
        rw [← hasMember_congr hpermOld] at hhad
        rw [← computeGroupingDigest_congr hpermOld]
        exact happroved g hg hhad
      · intro hreceives
        obtain ⟨r, hr, hgated⟩ := List.any_eq_true.mp hreceives
        exact digest_of_governedGate (Option.some.inj hgov) (of_decide_eq_true hgated)
          (hgates r hr)
  · exact absurd trivial hnot

end Law

/-! ### Two batches -/

/-- A backlogged row, with what its schema asks for: where it went, why, and what speaks against
it. -/
def backloggedRow (id : Text) : Dict :=
  sampleRow id ['t'] ++ [(.str "disposition".toList, .str "backlogged".toList),
    (.str "disposition_ref".toList, .str "docs/backlog.md".toList),
    (.str "disposition_detail".toList, .str ['w']), (.str "case_against".toList, .str ['n'])]

/-- The row is closed as coded. -/
def codedEntry (id : Text) : Params :=
  [("id".toList, .str id), ("disposition".toList, .str "coded".toList),
    ("disposition_ref".toList, .str "abcdef1".toList), ("disposition_detail".toList, .str ['d'])]

/-- What the row schema asks of a disposition: of `coded` a commit, of `backlogged` a reference, a
detail and the case against it. -/
def closureShape (row : Dict) : Bool :=
  if rowDisposition row = "coded".toList then
    match row.get "disposition_ref".toList with
    | .str ref => 7 ≤ ref.length && ref.length ≤ 40 &&
      ref.all fun c => isDigit c || ('a' ≤ c && c ≤ 'f')
    | _ => false
  else if rowDisposition row = "backlogged".toList then
    row.mem "disposition_ref".toList && row.mem "disposition_detail".toList &&
      row.mem "case_against".toList
  else true

/-- Approval of the `defer` grouping, with the digest of this payload. -/
def deferApproval (sha256 : Text → Text) (payload : Text) : Dict :=
  [(.str "defer".toList, .map [(.str "status".toList, .str "approved".toList),
    (.str "digest".toList, .str ("sha256:".toList ++ sha256 payload))])]

/-- SHA-256 on the two memberships of the samples: the rows A and B, and the row B alone. -/
def sampleSha256 (payload : Text) : Text :=
  if payload = "A\x00backlogged\nB\x00backlogged".toList then
    Nat.toDigits 16 0xfdbbcd0d1ef6985ce778a4c201efe82dea118fd15e9d9eb1065b5dd05668fb71
  else Nat.toDigits 16 0x33c07ee660c7846379f48b3255d6a4b6737fc3e3de2664ba8f230f07b8ac40d1

/-- The row A as the batch closes it. -/
def closedRow (a : Dict) : Dict :=
  ((disposeRow (codedEntry ['A']) a).set "disposition_ref".toList (.str "abcdef1".toList)).set
    "disposition_detail".toList (.str ['d'])

private theorem rowState_closedRow (a : Dict) :
    rowState (closedRow a) = rowState (disposeRow (codedEntry ['A']) a) := by
  rw [closedRow, rowState_set (by decide) (by decide), rowState_set (by decide) (by decide)]

/-- The rows of the governed plan: the row `a`, which is closed as coded, and the row B in
`defer`. -/
def governedTable (a : Dict) : List Dict := [a, backloggedRow ['B'], closedRow a]

/-- The engine on these rows, in a plan whose approval of `defer` is for this payload. -/
def governedEngine (a : Dict) (payload : Text) : Engine :=
  { tableEngine (flatEngine []) (governedTable a) with
    parseYaml := fun _ => some
      (.map [(.str "grouping_approvals".toList, .map (deferApproval sampleSha256 payload))])
    rowShapeOk := fun _ _ row => closureShape row
    sha256 := sampleSha256 }

/-- The governed plan with the rows `a` and B. -/
def governedPlan (a : Dict) : Text :=
  "---\ng\n---\n\n".toList ++ samplePlan (flatDump [.map a, .map (backloggedRow ['B'])])

private theorem groupingApprovals_governedEngine {a : Dict} {p t : Text}
    (h : (frontmatterBlock t).isSome = true) :
    groupingApprovals (governedEngine a p) t = some (.map (deferApproval sampleSha256 p)) := by
  obtain ⟨block, hblock⟩ := Option.isSome_iff_exists.mp h
  rw [groupingApprovals, parseFrontmatter, hblock]
  rfl

/-- The rows of the witness: an open row, and one in `defer`. -/
private def openRows : List Dict := [sampleRow ['A'] ['t'], backloggedRow ['B']]

/-- The rows behind the batch. -/
private def closedRows : List Dict := [closedRow (sampleRow ['A'] ['t']), backloggedRow ['B']]

private def openEngine : Engine :=
  governedEngine (sampleRow ['A'] ['t']) "B\x00backlogged".toList

private def openPlan : Text := governedPlan (sampleRow ['A'] ['t'])

/-- What the kernel finds on the sample: the texts of the three rows; how the plan, its body and the
rows are cut; what the batch dispatches, with the body that it writes for it; that this body can be
read, with no gates in the frontmatter; and what becomes of the approved plan. -/
private theorem openPlan_runs :
    (∀ row ∈ governedTable (sampleRow ['A'] ['t']),
      OneChunk (tableDump (.map row)) ∧ OneChunk (tableDump (.map row)).dropLast ∧
        ended (tableDump (.map row)).dropLast = tableDump (.map row)) ∧
    (locateFencedBlock openPlan =
        .located (flatDump (openRows.map .map)) 40 (40 + (flatDump (openRows.map .map)).length) ∧
      splitRowChunks (flatDump (openRows.map .map)) =
        ([], [flatRow (sampleRow ['A'] ['t']), flatRow (backloggedRow ['B'])]) ∧
      ([flatRow (sampleRow ['A'] ['t']), flatRow (backloggedRow ['B'])].map fun c =>
        (governedTable (sampleRow ['A'] ['t'])).findIdx? fun row =>
          tableDump (.map row) == ended c) = [some 0, some 1] ∧
      ∀ e ∈ (governedTable (sampleRow ['A'] ['t'])).zipIdx,
        ((governedTable (sampleRow ['A'] ['t'])).findIdx? fun r =>
          tableDump (.map r) == tableDump (.map e.1)) = some e.2) ∧
    ((prepareResolve openEngine harvestWorld [codedEntry ['A']] openPlan).toOption.any fun p =>
      (dispatchRows openEngine harvestWorld openPlan p.rows (openGateRows openEngine openPlan)
        p.receipts [codedEntry ['A']] p.tagged [] []).1.toOption.any fun t =>
          (patchBody openEngine p.body p.rows (untag t.1)).any fun B =>
            decide (p.start = 40 ∧ p.stop = 40 + (flatDump (openRows.map .map)).length ∧
              B = flatDump (closedRows.map .map) ∧
                (untag t.1).map flatTexts = (closedRows.map .map).map flatTexts)) = true ∧
    (keepsChunks openEngine (flatDump (openRows.map .map)) (openRows.map .map) = true ∧
      SpliceSafe (openPlan.take 40) (flatDump (closedRows.map .map))
        (openPlan.drop (40 + (flatDump (openRows.map .map)).length)) ∧
      (flatDump (closedRows.map .map)).getLast? = some '\n' ∧
      (lines (flatDump (closedRows.map .map))).all
        (fun l => l.head? != some '`' && l.head? != some '#') = true ∧
      OneDocument (flatDump (closedRows.map .map)) ∧
      (∀ w ∈ closedRows.map .map, (flatTexts w).isSome) ∧
      (∀ c ∈ [flatRow (sampleRow ['A'] ['t']), flatRow (backloggedRow ['B'])],
        ∀ ln ∈ splitlinesKeep (ended c), Whole ln) ∧
      (rowGateHits openEngine (frontmatterLines (spliceBody openPlan 40
        (40 + (flatDump (openRows.map .map)).length)
          (flatDump (closedRows.map .map))))).isEmpty = true) ∧
    (checkPlanTasksGroupingApproval openEngine openPlan).isNone = true ∧
      (resolve openEngine harvestWorld [codedEntry ['A']] openPlan []).1.toOption =
        some (governedPlan (closedRow (sampleRow ['A'] ['t']))) ∧
      (frontmatterBlock openPlan).isSome = true ∧
      (frontmatterBlock (governedPlan (closedRow (sampleRow ['A'] ['t'])))).isSome = true := by
  decide +kernel

private theorem tableRow_of_mem {row : Dict} (hkeyed : Keyed row)
    (hrow : row ∈ governedTable (sampleRow ['A'] ['t'])) : TableRow row :=
  have h := openPlan_runs.1 row hrow
  ⟨hkeyed, h.1, h.2.1, h.2.2⟩

private theorem tableRow_sampleRow_A : TableRow (sampleRow ['A'] ['t']) :=
  tableRow_of_mem (keyed_of_keys ["id".toList, "title".toList, "change_kind".toList,
    "surface".toList] rfl (by decide) (by decide)) List.mem_cons_self

private theorem tableRow_backloggedRow : TableRow (backloggedRow ['B']) :=
  tableRow_of_mem (keyed_of_keys ["id".toList, "title".toList, "change_kind".toList,
    "surface".toList, "disposition".toList, "disposition_ref".toList, "disposition_detail".toList,
    "case_against".toList] rfl (by decide) (by decide)) (List.mem_cons_of_mem _ List.mem_cons_self)

private theorem tableRow_closedRow : TableRow (closedRow (sampleRow ['A'] ['t'])) :=
  tableRow_of_mem (keyed_of_keys ["id".toList, "title".toList, "change_kind".toList,
    "surface".toList, "disposition".toList, "disposition_ref".toList,
    "disposition_detail".toList] rfl (by decide) (by decide))
    (List.mem_cons_of_mem _ (List.mem_cons_of_mem _ List.mem_cons_self))

private theorem yamlLaws_openEngine : YamlLaws openEngine fun _ => [] := by
  have hknown : ∀ row ∈ governedTable (sampleRow ['A'] ['t']), TableRow row := by
    rw [governedTable, List.forall_mem_cons, List.forall_mem_cons, List.forall_mem_singleton]
    exact ⟨tableRow_sampleRow_A, tableRow_backloggedRow, tableRow_closedRow⟩
  obtain ⟨hrows, hchomp, hkeys, hdump, hrow⟩ :=
    yamlLaws_tableEngine (E := flatEngine []) hknown
  exact ⟨hrows, hchomp, hkeys, hdump, hrow⟩

private theorem located_openPlan : locateFencedBlock openPlan =
    .located (flatDump (openRows.map .map)) 40 (40 + (flatDump (openRows.map .map)).length) :=
  openPlan_runs.2.1.1

private theorem splitRowChunks_openRows : splitRowChunks (flatDump (openRows.map .map)) =
    ([], [flatRow (sampleRow ['A'] ['t']), flatRow (backloggedRow ['B'])]) :=
  openPlan_runs.2.1.2.1

private theorem parseRows_openRows :
    parseRows openEngine (flatDump (openRows.map .map)) = .ok (openRows.map .map) := by
  have hload : tableLoad (governedTable (sampleRow ['A'] ['t'])) (flatDump (openRows.map .map)) =
      some (.seq (openRows.map .map)) := by
    refine tableLoad_of_findIdx [0, 1] rfl (by rw [splitRowChunks_openRows]) ?_ rfl
      (List.cons_ne_nil _ _)
    rw [splitRowChunks_openRows]
    exact openPlan_runs.2.1.2.2.1
  have hload : openEngine.loadSpineYaml (flatDump (openRows.map .map)) = _ := hload
  rw [parseRows, hload]
  rfl

private theorem readsAs_openEngine {row : Dict} (hrow : TableRow row) {i : Nat}
    (hi : (row, i) ∈ (governedTable (sampleRow ['A'] ['t'])).zipIdx) :
    ReadsAs openEngine (tableDump (.map row)) (rowState row) :=
  readsAs_tableDump (E := flatEngine []) hrow (openPlan_runs.2.1.2.2.2 _ hi)
    (List.mem_zipIdx_iff_getElem?.mp hi)

private theorem stepSafe_openPlan : StepSafe openEngine openPlan (fun _ => [])
    (.resolve harvestWorld [codedEntry ['A']] []) := by
  have hdispatched := openPlan_runs.2.2.1
  obtain ⟨hkeeps, hsplice, hend, hlines, hdocument, hflat, hwhole, hgates⟩ := openPlan_runs.2.2.2.1
  refine ⟨?_, ?_⟩
  · intro body start stop rows newRows B hloc hparse hw
    rw [located_openPlan] at hloc
    obtain ⟨rfl, rfl, rfl⟩ := LocateResult.located.inj hloc
    obtain rfl := Except.ok.inj (parseRows_openRows.symm.trans hparse)
    -- the one write of this call is the one that was run
    cases hw with
    | @resolve _ _ _ store' p tagged evidence _ hp hrun hB =>
      obtain ⟨hloc', hrows', -, -⟩ := prepareResolve_eq_ok hp
      rw [located_openPlan] at hloc'
      obtain ⟨hbody, -, -⟩ := LocateResult.located.inj hloc'
      rw [← hbody, parseRows_openRows] at hrows'
      have hprows := Except.ok.inj hrows'
      rw [hp, Except.toOption, Option.any_some, hrun, ← hbody, ← hprows] at hdispatched
      simp only [Except.toOption, Option.any_some, hB, decide_eq_true_eq] at hdispatched
      obtain ⟨-, -, rfl, htexts⟩ := hdispatched
      have hnew : untag tagged = closedRows.map .map :=
        eq_of_map_flatTexts htexts hflat
      rw [hnew]
      refine ⟨hsplice, (dumpShape_of_lines hend hlines).bodyLines,
        fun h => absurd ⟨trivial, hkeeps⟩ h, fun _ _ => ?_, fun _ _ => ⟨hdocument, by simp⟩⟩
      rw [List.forall_mem_cons, List.forall_mem_singleton] at hwhole
      constructor
      · rw [splitRowChunks_openRows]
        exact ⟨.inl rfl, by simp⟩
      · rw [splitRowChunks_openRows]
        rfl
      · rw [splitRowChunks_openRows]
        change ∀ e ∈ [(Val.map (sampleRow ['A'] ['t']), flatRow (sampleRow ['A'] ['t'])),
          (Val.map (backloggedRow ['B']), flatRow (backloggedRow ['B']))], _
        rw [List.forall_mem_cons, List.forall_mem_singleton]
        exact ⟨⟨⟨_, rfl, readsAs_openEngine (i := 0) tableRow_sampleRow_A List.mem_cons_self⟩,
          hwhole.1⟩,
          ⟨_, rfl, readsAs_openEngine (i := 1) tableRow_backloggedRow
            (List.mem_cons_of_mem _ List.mem_cons_self)⟩, hwhole.2⟩
      · change ∀ v ∈ [Val.map (closedRow (sampleRow ['A'] ['t'])), Val.map (backloggedRow ['B'])], _
        rw [List.forall_mem_cons, List.forall_mem_singleton]
        exact ⟨⟨_, rfl, rfl, rfl, .inr ⟨tableRow_closedRow.keyed, exact_str _, exact_str _,
          readsAs_openEngine (i := 2) tableRow_closedRow
            (List.mem_cons_of_mem _ (List.mem_cons_of_mem _ List.mem_cons_self))⟩⟩,
          _, rfl, rfl, rfl, .inl (List.mem_cons_of_mem _ List.mem_cons_self)⟩
  · intro before new hw
    cases hw with
    | @resolve _ _ _ store' p tagged evidence B hp hrun hB =>
      rw [hp, Except.toOption, Option.any_some, hrun] at hdispatched
      simp only [Except.toOption, Option.any_some, hB, decide_eq_true_eq] at hdispatched
      obtain ⟨hstart, hstop, rfl, -⟩ := hdispatched
      rw [hstart, hstop]
      -- there is no gate to clear in the frontmatter
      have hsame : ∀ text, (rowGateHits openEngine (frontmatterLines text)).isEmpty = true →
          clearFrontmatterGates openEngine text evidence = text := by
        intro text htext
        rw [clearFrontmatterGates, List.isEmpty_iff.mp htext]
        rfl
      rw [hsame _ hgates]
      exact fun body i j hloc => ⟨i, j, hloc⟩

/-- An open row is closed as coded; `defer` keeps the row B. -/
theorem resolve_keeps_approval_iff_open :
    checkPlanTasksGroupingApproval openEngine
      (governedPlan (closedRow (sampleRow ['A'] ['t']))) = none := by
  obtain ⟨happroved, hresolved, hblock, hblockNew⟩ := openPlan_runs.2.2.2.2
  have hblocks := groupingApprovals_governedEngine (a := sampleRow ['A'] ['t'])
    (p := "B\x00backlogged".toList) hblock
  have hblocksNew := groupingApprovals_governedEngine (a := sampleRow ['A'] ['t'])
    (p := "B\x00backlogged".toList) hblockNew
  refine (resolve_keeps_approval_iff yamlLaws_openEngine (fun _ _ _ _ => rfl) (fun _ _ _ _ => rfl)
    located_openPlan parseRows_openRows hblocks (Option.isNone_iff_eq_none.mp happroved)
    stepSafe_openPlan (eq_ok_of_toOption hresolved) (hblocksNew.trans hblocks.symm)).mpr ?_
  intro g hg hmember
  have hreceives : receives [codedEntry ['A']] g = false := by
    cases g <;> decide
  refine ⟨fun h => absurd (h.symm.trans hreceives) (by decide),
    fun h => absurd (h.symm.trans hreceives) (by decide), fun _ => ?_⟩
  cases g with
  | do_ => exact absurd rfl hg
  | spun_off => exact absurd hmember (by decide)
  | defer => decide
  | ruled_out => exact absurd hmember (by decide)

/-- A deferred row is closed as coded, under an engine whose row schema asks for a commit: the
other row stays, under a digest for both. -/
theorem resolve_leaves_stale_digest :
    ∃ (E : Engine) (w : World) (batch : Batch) (old new : Text) (store : Store),
      (∀ row, rowDisposition row = "coded".toList → row.get "disposition_ref".toList = .str ['c'] →
        E.rowShapeOk true .null row = false) ∧
        (groupingApprovals E old).isSome = true ∧ checkPlanTasksGroupingApproval E old = none ∧
          (resolve E w batch old store).1 = .ok new ∧
            checkPlanTasksGroupingApproval E new ≠ none := by
  have hruns : (groupingApprovals
        (governedEngine (backloggedRow ['A']) "A\x00backlogged\nB\x00backlogged".toList)
        (governedPlan (backloggedRow ['A']))).isSome = true ∧
      (checkPlanTasksGroupingApproval
        (governedEngine (backloggedRow ['A']) "A\x00backlogged\nB\x00backlogged".toList)
        (governedPlan (backloggedRow ['A']))).isNone = true ∧
      (resolve (governedEngine (backloggedRow ['A']) "A\x00backlogged\nB\x00backlogged".toList)
        harvestWorld [codedEntry ['A']] (governedPlan (backloggedRow ['A'])) []).1.toOption =
          some (governedPlan (closedRow (backloggedRow ['A']))) ∧
      (checkPlanTasksGroupingApproval
        (governedEngine (backloggedRow ['A']) "A\x00backlogged\nB\x00backlogged".toList)
        (governedPlan (closedRow (backloggedRow ['A'])))).isSome = true := by
    decide +kernel
  obtain ⟨hsome, hchecked, hresolved, hrefused⟩ := hruns
  refine ⟨governedEngine (backloggedRow ['A']) "A\x00backlogged\nB\x00backlogged".toList,
    harvestWorld, [codedEntry ['A']], governedPlan (backloggedRow ['A']),
    governedPlan (closedRow (backloggedRow ['A'])), [], fun row hcoded href => ?_, hsome,
    Option.isNone_iff_eq_none.mp hchecked, eq_ok_of_toOption hresolved,
    Option.isSome_iff_ne_none.mp hrefused⟩
  change closureShape row = false
  rw [closureShape, if_pos hcoded, href]
  decide

end Spine

end CoordinatorCore
