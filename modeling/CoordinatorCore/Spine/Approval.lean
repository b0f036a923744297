import CoordinatorCore.Frontmatter.Primitives
import CoordinatorCore.Spine.Verbs

/-!
# Grouping approvals

The authorization predicate of `frontmatter/schema_validate.py`. A plan is governed when its
frontmatter carries `grouping_approvals`; then every closed row needs an approved block for its
grouping, signed by one of the known sources, over the membership the spine now has. The
membership is recorded as a digest of the sorted `(id, disposition)` pairs of the grouping; the
hash function is a parameter.
-/

namespace CoordinatorCore

open Text BodyBlocks Frontmatter

namespace Spine

variable (E : Engine)

/-! ### Reading the spine -/

/-- `_plan_tasks_spine_rows`. -/
def spineRows (source : Text) : Option (List Dict) :=
  match locateFencedBlock source with
  | .located body _ _ =>
    match E.safeLoad body with
    | none => none
    | some v =>
      if !v.truthy then some []
      else match v with
        | .seq items => items.mapM Val.asDict
        | _ => none
  | _ => none

/-- `check_plan_tasks_ordering`. -/
def checkPlanTasksOrdering (source : Text) : Option OrderingError :=
  (spineRows E source).bind (orderingScan none)

/-! ### The membership digest -/

/-- `<=` on strings, by code points. -/
def textLe : Text → Text → Bool
  | [], _ => true
  | _ :: _, [] => false
  | c :: s, d :: t => c < d || (c == d && textLe s t)

/-- `<=` on pairs of strings. -/
def memberLe (a b : Text × Text) : Bool := if a.1 = b.1 then textLe a.2 b.2 else textLe a.1 b.1

/-- `str(row.get("id", ""))`. -/
def memberId (row : Dict) : Text := if row.mem "id".toList then pyStr E (rowId row) else []

/-- The sorted set of the members of a grouping. -/
def groupingMembers (rows : List Dict) (grouping : Grouping) : List (Text × Text) :=
  (((rows.filter fun row => rowGrouping row = grouping).map fun row =>
    (memberId E row, rowDisposition row)).dedup).insertionSort fun a b => memberLe a b = true

/-- The payload of the digest. -/
def digestPayload (members : List (Text × Text)) : Text :=
  ['\n'].intercalate (members.map fun m => m.1 ++ Char.ofNat 0 :: m.2)

/-- `compute_grouping_digest`. -/
def computeGroupingDigest (rows : List Dict) (grouping : Grouping) : Text :=
  "sha256:".toList ++ E.sha256 (digestPayload (groupingMembers E rows grouping))

/-- `_GROUPING_DIGEST_RE`; its `$` also matches in front of a final line feed. -/
def wellFormedDigest (recorded : Text) : Bool :=
  match stripPrefix? "sha256:".toList (chopFinalNewline recorded) with
  | some hex => hex.length == 64 && hex.all fun c => isDigit c || ('a' ≤ c && c ≤ 'f')
  | none => false

/-! ### Signoffs -/

/-- `DELEGATED_SOURCES`. -/
def delegatedSources : List Text := ["apm".toList, "g-em".toList, "uhura".toList]

/-- The source of the signoff that `read_grouping` reads; `none` is no record or an unrecorded
one. -/
def signoffSource (block : Dict) : Option Text :=
  match block.get "signoff".toList with
  | .map sig =>
    match Dict.get sig "source".toList with
    | .str s => if s = "pm".toList ∨ s ∈ delegatedSources then some s else none
    | _ => none
  | _ => none

/-- The ruling reference of the signoff record. -/
def hasRulingRef (block : Dict) : Bool :=
  match block.get "signoff".toList with
  | .map sig =>
    match Dict.get sig "ruling_ref".toList with
    | .str s => s != []
    | _ => false
  | _ => false

/-- Why the predicate refuses. -/
inductive ApprovalError
  | notMapping
  | unapproved (grouping : Grouping) (rowId : Val)
  | unreadableSignoff (grouping : Grouping)
  | withoutRulingRef (grouping : Grouping) (source : Text)
  | approverDisagrees (grouping : Grouping) (approver : Val) (source : Text)
  | malformedDigest (grouping : Grouping) (recorded : Val)
  | staleDigest (grouping : Grouping) (rowId : Val) (recorded fresh : Text)

/-- The frontmatter path that the error names. -/
def ApprovalError.field : ApprovalError → Text
  | .notMapping => "grouping_approvals".toList
  | .unapproved g _ => "grouping_approvals.".toList ++ g.name
  | .unreadableSignoff g => "grouping_approvals.".toList ++ g.name ++ ".signoff".toList
  | .withoutRulingRef g _ => "grouping_approvals.".toList ++ g.name ++ ".signoff".toList
  | .approverDisagrees g _ _ => "grouping_approvals.".toList ++ g.name ++ ".signoff".toList
  | .malformedDigest g _ => "grouping_approvals.".toList ++ g.name ++ ".digest".toList
  | .staleDigest g _ _ _ => "grouping_approvals.".toList ++ g.name ++ ".digest".toList

/-- `_grouping_signoff_error`; a block without `signoff` is admitted. -/
def groupingSignoffError (grouping : Grouping) (block : Dict) : Option ApprovalError :=
  if !block.mem "signoff".toList then none
  else
    match signoffSource block with
    | none => some (.unreadableSignoff grouping)
    | some source =>
      if source ∈ delegatedSources ∧ hasRulingRef block = false then
        some (.withoutRulingRef grouping source)
      else
        match block.get "approver".toList with
        | .str a =>
          if E.casefold (strip a) = source then none
          else some (.approverDisagrees grouping (.str a) source)
        | v => some (.approverDisagrees grouping v source)

/-! ### The predicate -/

/-- `_PLAN_TASKS_GOVERNED_PM_APPROVAL_GATED_DISPOSITIONS`. -/
def governedGated : List Text := ["backlogged".toList, "wont_do".toList, "spun_off".toList]

/-- `_PLAN_TASKS_PM_APPROVAL_GATED_DISPOSITIONS`. -/
def legacyGated : List Text := ["backlogged".toList, "wont_do".toList]

/-- `block.get("status") == "approved"` on a mapping. -/
def approvedBlock (blocks : Dict) (grouping : Grouping) : Option Dict :=
  (blocks.get grouping.name).asDict.filter fun block =>
    (block.get "status".toList).pyEq (.str "approved".toList)

/-- What the predicate checks of one gated row. -/
def rowApprovalError (blocks : Dict) (rows : List Dict) (row : Dict) : Option ApprovalError :=
  let grouping := rowGrouping row
  match approvedBlock blocks grouping with
  | none => some (.unapproved grouping (rowId row))
  | some block =>
    match groupingSignoffError E grouping block with
    | some e => some e
    | none =>
      let fresh := computeGroupingDigest E rows grouping
      match block.get "digest".toList with
      | .str recorded =>
        if wellFormedDigest recorded = false then some (.malformedDigest grouping (.str recorded))
        else if recorded = fresh then none
        else some (.staleDigest grouping (rowId row) recorded fresh)
      | v => some (.malformedDigest grouping v)

/-- The loop over the rows. -/
def approvalErrors (blocks : Dict) (rows : List Dict) : List Dict → Option ApprovalError
  | [] => none
  | row :: rest =>
    if rowDisposition row ∈ governedGated then
      match rowApprovalError E blocks rows row with
      | some e => some e
      | none => approvalErrors blocks rows rest
    else approvalErrors blocks rows rest

/-- `check_plan_tasks_grouping_approval`. -/
def checkPlanTasksGroupingApproval (source : Text) : Option ApprovalError :=
  match parseFrontmatter E.parseYaml source with
  | none => none
  | some fm =>
    if !isGovernedPlan fm then none
    else
      match spineRows E source with
      | none => none
      | some rows =>
        match (fm.get "grouping_approvals".toList).asDict with
        | none => some .notMapping
        | some blocks => approvalErrors E blocks rows rows

/-- The predicate accepts exactly when it accepts each gated row. -/
theorem approvalErrors_eq_none_iff {blocks : Dict} {rows : List Dict} (rest : List Dict) :
    approvalErrors E blocks rows rest = none ↔
      ∀ row ∈ rest, rowDisposition row ∈ governedGated → rowApprovalError E blocks rows row = none := by
  induction rest with
  | nil => simp [approvalErrors]
  | cons row rest ih =>
    rw [approvalErrors, List.forall_mem_cons]
    split_ifs with hgated
    · cases hrow : rowApprovalError E blocks rows row with
      | some e => simp [hgated]
      | none => simpa [hgated] using ih
    · rw [ih]
      simp [hgated]

end Spine

end CoordinatorCore
