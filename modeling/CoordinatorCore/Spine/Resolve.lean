import CoordinatorCore.Spine.Approval

/-!
# resolve

The `resolve` verb: a batch of dispositions is checked as a whole, written onto the rows, the
spine is put in order, and then each row is routed. A `backlogged` row is handed to the harvest
store on the way, so the closure has an effect besides its result; it returns the store it leaves
together with the new text or the refusal.

Two things make the row list awkward. `rows_by_id` holds the row objects, and the reordering
moves them, so a row is followed by its position in the loaded list (its tag). And the checks in
front of the writes look at prospective rows, in which every row of a named id changes, while the
writes change only the row that `rows_by_id` holds.
-/

namespace CoordinatorCore

open Text BodyBlocks Frontmatter

namespace Spine

/-! ### The world around the plan -/

/-- An entry of the harvest store: written by lesson-promote or by queue-append, under a key. -/
structure HarvestEntry where
  lesson : Bool
  key : Text
deriving DecidableEq

/-- The harvest store; it only grows. -/
abbrev Store := List HarvestEntry

/-- What `resolve` asks the file system, git, the clock and the harvest module. -/
structure World where
  /-- `_coded_sha_refusal` names a commit that touches none of the row's writes. -/
  codedShaRefused : List Params → List Val → Bool
  /-- `_memo_receipt_refusal`: the receipts by row id; `none` is its refusal. -/
  memoReceipts : List Params → List Val → Option (List (Val × Text))
  /-- The repo-relative path of an existing file. -/
  resolveFile : Text → Option Text
  /-- `_verify_disposition_ref`. -/
  verifyDispositionRef : Val → Option Text
  /-- The UTC date. -/
  today : Text
  /-- `_parse_plan_id`. -/
  parsePlanId : Text → Option Text
  /-- `_harvest_key`. -/
  harvestKey : Text → Val → Text
  /-- `_already_harvested`, in the search directories of the row. -/
  alreadyHarvested : Store → Dict → Text → Bool
  /-- `_LESSON_PROMOTE_CHANGE_KINDS`. -/
  lessonPromoteKinds : List Text
  /-- `_QUEUE_ELIGIBLE_CHANGE_KINDS`. -/
  queueEligibleKinds : List Text
  /-- The append of this row succeeds. -/
  appendOk : Store → Dict → Text → Bool
  /-- `_find_evidence_file`, repo-relative. -/
  findEvidence : Store → Dict → Text → Option Text

variable (E : Engine) (w : World)

/-! ### The checks -/

/-- The batch of a `resolve` call. -/
abbrev Batch := List Params

namespace Params

def id (r : Params) : Val := r.get "id".toList

def disposition (r : Params) : Val := r.get "disposition".toList

/-- The disposition is this one. -/
def disposes (r : Params) (d : Text) : Bool := (Params.disposition r).pyEq (.str d)

end Params

/-- `_DELIVERED_VIA`. -/
def deliveredVia : List Text := ["direct-message".toList, "memo".toList, "other".toList]

/-- `_resolve_field_defects` reports nothing of this entry. -/
def fieldsComplete (r : Params) : Bool :=
  r.id.truthy && r.disposition.truthy &&
    (!r.disposes "delivered_elsewhere".toList ||
      (strippedStr E (r.get "disposition_ref".toList) != [] &&
        strippedStr E (r.get "disposition_detail".toList) != [] &&
          deliveredVia.any fun v => (r.get "delivered_via".toList).pyEq (.str v)))

/-- The grouping that a gated disposition puts its row into. -/
def gatedGrouping (governed : Bool) (r : Params) : Option Grouping :=
  ((if governed then governedGated else legacyGated).find? fun d => r.disposes d).bind
    groupingByDisposition

/-- `_prospective_rows`. -/
def prospectiveRows (batch : Batch) (rows : List Val) : List Dict :=
  (rows.filterMap Val.asDict).map fun row =>
    match batch.find? fun r => (rowId row).pyEq r.id with
    | some r => row.set "disposition".toList r.disposition
    | none => row

/-- The authorization gate on one entry of a governed batch. -/
def governedGate (fm : Dict) (batch : Batch) (rows : List Val) (r : Params) :
    Except Refusal Unit :=
  match gatedGrouping true r with
  | none => .ok ()
  | some grouping =>
    match ((fm.get "grouping_approvals".toList).asDict).bind fun blocks =>
        approvedBlock blocks grouping with
    | none => .error (.groupingNotApproved grouping)
    | some block =>
      if (block.get "digest".toList).pyEq
          (.str (computeGroupingDigest E (prospectiveRows batch rows) grouping)) then .ok ()
      else .error (.digestMismatch grouping)

/-- The row that `rows_by_id` holds for an entry. -/
def rowOf (rows : List Val) (r : Params) : Dict :=
  (((lastWithId r.id rows).bind fun i => rows[i]?).bind Val.asDict).getD []

/-- The authorization gate on one entry of a legacy batch. -/
def legacyGate (rows : List Val) (r : Params) : Except Refusal Unit :=
  match gatedGrouping false r with
  | none => .ok ()
  | some _ =>
    if isTrue ((rowOf rows r).get "pm_approved".toList) then .ok () else .error .notRatified

/-- Run a check on every entry. -/
def forBatch (batch : Batch) (check : Params → Except Refusal Unit) : Except Refusal Unit :=
  match batch with
  | [] => .ok ()
  | r :: rest =>
    match check r with
    | .error e => .error e
    | .ok () => forBatch rest check

/-- `_PLAN_TASKS_DETAIL_REQUIRED_DISPOSITIONS`. -/
def detailRequired : List Text := ["spun_off".toList, "backlogged".toList, "wont_do".toList]

/-- `_PLAN_TASKS_CASE_AGAINST_REQUIRED_DISPOSITIONS`. -/
def caseAgainstRequired : List Text := ["backlogged".toList, "wont_do".toList]

/-- Refuse with `e` where `bad` holds. -/
def refuseIf (bad : Bool) (e : Refusal) : Except Refusal Unit := if bad then .error e else .ok ()

/-- The checks of `resolve` in front of the first write, and the memo receipts they find. -/
def resolveChecks (old : Text) (batch : Batch) (rows : List Val) :
    Except Refusal (List (Val × Text)) := do
  refuseIf (unhashableId rows) .crash
  forBatch batch fun r => refuseIf (lastWithId r.id rows).isNone (.notFound r.id)
  refuseIf (w.codedShaRefused batch rows) .codedSha
  forBatch batch fun r =>
    let deferred := (rowOf rows r).get "deferred_until".toList
    refuseIf (!deferred.pyEq .null && !deferred.pyEq (.str [])) (.deferred r.id)
  -- the gate asks a set for each disposition
  forBatch batch fun r => refuseIf (!r.disposition.hashable) .crash
  match parseFrontmatter E.parseYaml old with
  | some fm =>
    if isGovernedPlan fm then forBatch batch (governedGate E fm batch rows)
    else forBatch batch (legacyGate rows)
  | none => forBatch batch (legacyGate rows)
  forBatch batch fun r =>
    refuseIf (detailRequired.any r.disposes &&
      strippedStr E (r.get "disposition_detail".toList) == []) (.detailRequired r.id)
  forBatch batch fun r =>
    refuseIf (caseAgainstRequired.any r.disposes &&
      strippedStr E (r.get "case_against".toList) == []) (.caseAgainstRequired r.id)
  match w.memoReceipts batch rows with
  | none => .error .memoReceipt
  | some receipts => do
    forBatch batch fun r =>
      refuseIf (r.disposes "voided".toList && strippedStr E (r.get "reason".toList) == [])
        (.reasonRequired r.id)
    return receipts

/-! ### Writing the dispositions -/

/-- `row[k] = v` unless `v is None`. -/
def setUnlessNone (row : Dict) (k : Text) (v : Val) : Dict :=
  match v with
  | .null => row
  | v => row.set k v

/-- The first write on a row: its disposition and the case against it. -/
def disposeRow (r : Params) (row : Dict) : Dict :=
  setUnlessNone (row.set "disposition".toList r.disposition) "case_against".toList
    (r.get "case_against".toList)

/-- The first write on each row of the batch. -/
def disposeRows (batch : Batch) (rows : List Val) : List Val :=
  batch.foldl (fun acc r =>
    match lastWithId r.id rows with
    | some i => modifyRow acc i (disposeRow r)
    | none => acc) rows

/-- A row with its position in the loaded list. -/
abbrev Tagged := Nat × Dict

/-- `_reposition_rows_for_d5` on the row objects. -/
def repositionTagged (rows : List Val) : Except Refusal (List Tagged) :=
  match rows.mapM Val.asDict with
  | none => .error .crash
  | some ds => .ok (repositionRowsForD5 (fun t => rowRank t.2) (ds.zipIdx.map fun d => (d.2, d.1)))

/-- The values of the tagged rows. -/
def untag (rows : List Tagged) : List Val := rows.map fun t => .map t.2

/-- Edit the row of a tag. -/
def editTagged (i : Nat) (f : Dict → Dict) (rows : List Tagged) : List Tagged :=
  rows.map fun t => if t.1 = i then (t.1, f t.2) else t

/-- The row of a tag. -/
def taggedRow (i : Nat) (rows : List Tagged) : Dict :=
  ((rows.find? fun t => t.1 = i).map (·.2)).getD []

/-! ### Gates -/

/-- `_gate_blocks_execution`. -/
def gateBlocksExecution (g : Val) : Bool :=
  match g.asDict with
  | none => true
  | some d =>
    !isTrue (d.get "cleared".toList) &&
      ((d.get "blocks".toList).pyEq .null || (d.get "blocks".toList).pyEq (.str "execution".toList))

/-- One gate of `_clear_own_gates`; a gate that is no mapping becomes one. -/
def clearOwnGate (evidence : Text) (g : Val) : Val :=
  if gateBlocksExecution g then
    .map (clearEntry evidence (g.asDict.getD
      [(.str "owner_repo".toList, .str "unspecified".toList),
        (.str "condition".toList, .str (pyStr E g))]))
  else g

/-- `_clear_own_gates`. -/
def clearOwnGates (evidence : Text) (row : Dict) : Dict :=
  match row.get "external_gate".toList with
  | .seq gates => row.set "external_gate".toList (.seq (gates.map (clearOwnGate E evidence)))
  | _ => row

/-- The row has a gate of its own to clear. -/
def hasOpenGate (row : Dict) : Bool :=
  (asItems (row.get "external_gate".toList)).any gateBlocksExecution

/-- The frontmatter gates bound to a row. -/
def rowGateHits (fmLines : List Text) : List (Text × GateHit) :=
  (frontmatterGates E fmLines).filterMap fun h =>
    match h.item.get "row".toList with
    | .str id => some (id, h)
    | _ => none

/-- `_clear_frontmatter_gates`. -/
def clearFrontmatterGates (text : Text) (evidenceByRow : List (Val × Text)) : Text :=
  let fmLines := frontmatterLines text
  let targets := (rowGateHits E fmLines).filterMap fun h =>
    if gateBlocksExecution (.map h.2.item) then
      (evidenceByRow.reverse.find? fun e => e.1.pyEq (.str h.1)).map fun e => (h.2, e.2)
    else none
  if targets.isEmpty then text
  else rebuildLines text (targets.reverse.foldl (fun lines t =>
    replaceGate E lines t.1 (clearEntry t.2 t.1.item)) fmLines)

/-! ### Routing -/

/-- `_dispatch_spun_off`. -/
def dispatchSpunOff (taskId ref : Val) : Except Refusal Val :=
  if strippedStr E ref = [] then .error (.refMissing taskId)
  else
    match ref with
    | .str path =>
      match w.resolveFile path with
      | some found => .ok (.str found)
      | none => .error (.refNotFile taskId)
    | _ => .error .crash

/-- The route of a change kind, in the order of the tests: lesson-promote or queue-append. -/
def harvestRoute (changeKind : Val) : Option Bool :=
  if w.lessonPromoteKinds.any fun k => changeKind.pyEq (.str k) then some true
  else if w.queueEligibleKinds.any fun k => changeKind.pyEq (.str k) then some false
  else none

/-- `_dispatch_backlogged`, with the store it leaves. -/
def dispatchBacklogged (row : Dict) (taskId : Val) (planText : Text) (store : Store) :
    Except Refusal Val × Store :=
  match w.parsePlanId planText with
  | none => (.error .planIdMissing, store)
  | some planId =>
    let key := w.harvestKey planId taskId
    let locate : Store → Except Refusal Val := fun store =>
      match w.findEvidence store row key with
      | some found => .ok (.str found)
      | none => .error (.entryNotLocated taskId)
    if w.alreadyHarvested store row key then (locate store, store)
    else
      match harvestRoute w (row.get "change_kind".toList) with
      | none => (.error (.unroutable taskId), store)
      | some lesson =>
        if w.appendOk store row key then
          (locate (store ++ [⟨lesson, key⟩]), store ++ [⟨lesson, key⟩])
        else (.error (.harvestFailed taskId), store)

/-- `_voided_detail`. -/
def voidedDetail (r : Params) : Text :=
  let actor := strippedStr E (r.get "actor".toList)
  strip (pyStr E (r.get "reason".toList)) ++ " (voided ".toList ++ w.today ++ " by ".toList ++
    (if actor = [] then "unattributed".toList else actor) ++ ")".toList

/-- The routed reference of an entry, with the store it leaves. -/
def effectiveRef (row : Dict) (r : Params) (old : Text) (store : Store) :
    Except Refusal Val × Store :=
  if r.disposes "backlogged".toList then dispatchBacklogged w row r.id old store
  else if r.disposes "spun_off".toList then
    (dispatchSpunOff E w r.id (r.get "disposition_ref".toList), store)
  else (.ok (r.get "disposition_ref".toList), store)

/-- The second write on a row: its reference and its detail. -/
def recordRow (r : Params) (ref : Val) (row : Dict) : Dict :=
  setUnlessNone (setUnlessNone row "disposition_ref".toList ref) "disposition_detail".toList
    (if r.disposes "voided".toList then .str (voidedDetail E w r)
      else r.get "disposition_detail".toList)

/-- The second write on a row with the gates its closing clears, and the evidence for the
frontmatter gates of the row. -/
def closeRow (fmOpenRows : List Text) (receipts : List (Val × Text)) (r : Params) (ref : Val)
    (row : Dict) : Dict × Option Text :=
  let row := recordRow E w r ref row
  if r.disposes "coded".toList then
    if !hasOpenGate row && !(fmOpenRows.any fun id => (rowId row).pyEq (.str id)) then (row, none)
    else
      match w.verifyDispositionRef ref with
      | none => (row, none)
      | some sha =>
        let evidence := "row resolved coded with verified ref ".toList ++ sha
        (clearOwnGates E evidence row, some evidence)
  else if r.disposes "delivered_elsewhere".toList then
    let row := row.set "delivered_via".toList (r.get "delivered_via".toList)
    match (receipts.find? fun e => e.1.pyEq r.id).map (·.2) with
    | some receipt =>
      let evidence := "memo sent: ".toList ++ receipt ++ " on disk".toList
      (clearOwnGates E evidence row, some evidence)
    | none => (row, none)
  else (row, none)

/-- The routing loop: the rows, the evidence by row, and the store it leaves. -/
def dispatchRows (old : Text) (rows₀ : List Val) (fmOpenRows : List Text)
    (receipts : List (Val × Text)) : Batch → List Tagged → List (Val × Text) → Store →
      Except Refusal (List Tagged × List (Val × Text)) × Store
  | [], rows, evidence, store => (.ok (rows, evidence), store)
  | r :: rest, rows, evidence, store =>
    match lastWithId r.id rows₀ with
    | none => (.error (.notFound r.id), store)
    | some i =>
      match effectiveRef E w (taggedRow i rows) r old store with
      | (.error e, store) => (.error e, store)
      | (.ok ref, store) =>
        let closed := closeRow E w fmOpenRows receipts r ref (taggedRow i rows)
        dispatchRows old rows₀ fmOpenRows receipts rest (editTagged i (fun _ => closed.1) rows)
          (match closed.2 with
            | some e => evidence ++ [(r.id, e)]
            | none => evidence) store

/-! ### What the writes leave alone -/

/-- The keys that closing a row may write. -/
def closingKeys : List Text :=
  ["disposition_ref".toList, "disposition_detail".toList, "delivered_via".toList,
    "external_gate".toList]

section Frame

variable {E w} {β : Type} {g : Dict → β}

theorem keeps_setUnlessNone {k : Text} (hg : ∀ row v, g (row.set k v) = g row) (row : Dict)
    (v : Val) : g (setUnlessNone row k v) = g row := by
  unfold setUnlessNone
  split
  · rfl
  · exact hg row _

private theorem keeps_clearOwnGates (hg : ∀ row v, g (row.set "external_gate".toList v) = g row)
    (evidence : Text) (row : Dict) : g (clearOwnGates E evidence row) = g row := by
  unfold clearOwnGates
  split
  · exact hg row _
  · rfl

/-- Closing a row writes the closing keys only. -/
theorem keeps_closeRow (hg : ∀ k ∈ closingKeys, ∀ row v, g (row.set k v) = g row)
    (f : List Text) (c : List (Val × Text)) (r : Params) (ref : Val) (row : Dict) :
    g (closeRow E w f c r ref row).1 = g row := by
  have hrecord : g (recordRow E w r ref row) = g row := by
    rw [recordRow, keeps_setUnlessNone (g := g) (hg _ (by decide)),
      keeps_setUnlessNone (g := g) (hg _ (by decide))]
  have hclear : ∀ (evidence : Text) (d : Dict), g (clearOwnGates E evidence d) = g d :=
    keeps_clearOwnGates (hg _ (by decide))
  have hvia : ∀ (d : Dict) (v : Val), g (d.set "delivered_via".toList v) = g d :=
    hg _ (by decide)
  rw [closeRow]
  dsimp only
  split_ifs
  · exact hrecord
  · split
    · exact hrecord
    · exact (hclear _ _).trans hrecord
  · split
    · exact (hclear _ _).trans ((hvia _ _).trans hrecord)
    · exact (hvia _ _).trans hrecord
  · exact hrecord

/-- The first write keeps the id. -/
theorem rowId_disposeRow (r : Params) (row : Dict) : rowId (disposeRow r row) = rowId row := by
  rw [disposeRow, keeps_setUnlessNone (g := rowId) fun row v => Dict.get_set_of_ne (by decide) row v]
  exact Dict.get_set_of_ne (by decide) row _

end Frame

/-- What the first writes leave alone can be read off the rows as before. -/
theorem map_disposeRows {β : Type} {g : Val → β}
    (hg : ∀ (r : Params) (row : Dict), g (.map (disposeRow r row)) = g (.map row)) (batch : Batch)
    (rows : List Val) : (disposeRows batch rows).map g = rows.map g := by
  have hfold : ∀ acc : List Val, (batch.foldl (fun acc r =>
      match lastWithId r.id rows with
      | some i => modifyRow acc i (disposeRow r)
      | none => acc) acc).map g = acc.map g := by
    induction batch with
    | nil => exact fun _ => rfl
    | cons r rest ih =>
      intro acc
      rw [List.foldl_cons, ih]
      split
      · exact map_modifyRow (hg r) acc _
      · rfl
  exact hfold rows

/-- The repositioned rows are the rows, tagged and in order. -/
theorem repositionTagged_eq_ok {rows : List Val} {tagged : List Tagged}
    (h : repositionTagged rows = .ok tagged) : ∃ ds : List Dict, rows = ds.map .map ∧
      tagged = repositionRowsForD5 (fun t => rowRank t.2) (ds.zipIdx.map fun d => (d.2, d.1)) := by
  rw [repositionTagged] at h
  split at h
  · cases h
  · next ds hds =>
    cases h
    exact ⟨ds, mapM_asDict_eq_some.mp hds, rfl⟩

/-! ### The verb -/

/-- What the closure holds in front of the routing. -/
structure Prepared where
  body : Text
  start : Nat
  stop : Nat
  rows : List Val
  /-- The rows with their dispositions written, in order. -/
  tagged : List Tagged
  receipts : List (Val × Text)

/-- The part of the closure in front of the routing. -/
def prepareResolve (batch : Batch) (old : Text) : Except Refusal Prepared :=
  match locateFencedBlock old with
  | .malformed => .error .malformed
  | .absent => .error .absent
  | .located body start stop => do
    let rows ← parseRows E body
    let receipts ← resolveChecks E w old batch rows
    let tagged ← repositionTagged (disposeRows batch rows)
    let mutatedBody ← patched E body rows (untag tagged)
    if (checkPlanTasksOrdering E (spliceBody old start stop mutatedBody)).isSome then
      .error .ordering
    else return ⟨body, start, stop, rows, tagged, receipts⟩

/-- The part of the closure behind the routing: the final validation and the new text. -/
def finishResolve (batch : Batch) (old : Text) (p : Prepared) (tagged : List Tagged)
    (evidence : List (Val × Text)) : Except Refusal Text := do
  let _ ← validateAll E (planContext E old) (batch.map (·.id)) (untag tagged)
  let newBody ← patched E p.body p.rows (untag tagged)
  return clearFrontmatterGates E (spliceBody old p.start p.stop newBody) evidence

/-- The checks of `resolve` in front of the lock. -/
def resolveAccepts (batch : Batch) : Bool :=
  !batch.isEmpty && batch.all (fieldsComplete E) && batch.all (fun r => r.id.hashable) &&
    (duplicateId [] (batch.map (·.id))).isNone

/-- The frontmatter gates that the closing of a row may clear, by row. -/
def openGateRows (old : Text) : List Text :=
  ((rowGateHits E (frontmatterLines old)).filter fun h =>
    gateBlocksExecution (.map h.2.item)).map (·.1)

/-- `_resolve`: its result, and the harvest store it leaves. -/
def resolve (batch : Batch) (old : Text) (store : Store) : Except Refusal Text × Store :=
  if !resolveAccepts E batch then (.error .request, store)
  else
    match prepareResolve E w batch old with
    | .error e => (.error e, store)
    | .ok p =>
      match dispatchRows E w old p.rows (openGateRows E old) p.receipts batch p.tagged [] store with
      | (.error e, store) => (.error e, store)
      | (.ok (tagged, evidence), store) => (finishResolve E batch old p tagged evidence, store)

/-! ### What the checks let through -/

section Spec

variable {E w} {batch : Batch} {old : Text}

theorem refuseIf_eq_ok {bad : Bool} {e : Refusal} : refuseIf bad e = .ok () ↔ bad = false := by
  cases bad <;> simp [refuseIf]

theorem forBatch_eq_ok {check : Params → Except Refusal Unit} :
    forBatch batch check = .ok () ↔ ∀ r ∈ batch, check r = .ok () := by
  induction batch with
  | nil => simp [forBatch]
  | cons r rest ih =>
    rw [forBatch, List.forall_mem_cons]
    cases h : check r with
    | error e => simp
    | ok _ => simpa using ih

/-- The authorization gate, by the kind of the plan. -/
theorem resolveChecks_eq_ok {rows : List Val} {receipts : List (Val × Text)}
    (h : resolveChecks E w old batch rows = .ok receipts) :
    unhashableId rows = false ∧ (∀ r ∈ batch, (lastWithId r.id rows).isSome = true) ∧
      ∀ fm, parseFrontmatter E.parseYaml old = some fm → isGovernedPlan fm = true →
        ∀ r ∈ batch, governedGate E fm batch rows r = .ok () := by
  rw [resolveChecks] at h
  obtain ⟨_, hhash, h⟩ := bind_eq_ok.mp h
  obtain ⟨_, hfound, h⟩ := bind_eq_ok.mp h
  obtain ⟨_, -, h⟩ := bind_eq_ok.mp h
  obtain ⟨_, -, h⟩ := bind_eq_ok.mp h
  obtain ⟨_, -, h⟩ := bind_eq_ok.mp h
  refine ⟨refuseIf_eq_ok.mp hhash, fun r hr => ?_, fun fm hfm hgov => ?_⟩
  · have := refuseIf_eq_ok.mp (forBatch_eq_ok.mp hfound r hr)
    cases hi : lastWithId r.id rows with
    | none => rw [hi] at this; cases this
    | some i => rfl
  · rw [hfm] at h
    simp only [hgov, if_true] at h
    obtain ⟨_, hgate, -⟩ := bind_eq_ok.mp h
    exact forBatch_eq_ok.mp hgate

/-- What holds in front of the routing. -/
theorem prepareResolve_eq_ok {p : Prepared} (h : prepareResolve E w batch old = .ok p) :
    locateFencedBlock old = .located p.body p.start p.stop ∧ parseRows E p.body = .ok p.rows ∧
      resolveChecks E w old batch p.rows = .ok p.receipts ∧
        repositionTagged (disposeRows batch p.rows) = .ok p.tagged := by
  rw [prepareResolve] at h
  split at h
  · cases h
  · cases h
  · next body start stop hloc =>
    obtain ⟨rows, hrows, h⟩ := bind_eq_ok.mp h
    obtain ⟨receipts, hreceipts, h⟩ := bind_eq_ok.mp h
    obtain ⟨tagged, htagged, h⟩ := bind_eq_ok.mp h
    obtain ⟨mutatedBody, -, h⟩ := bind_eq_ok.mp h
    split_ifs at h
    cases h
    exact ⟨hloc, hrows, hreceipts, htagged⟩

end Spec

end Spine

end CoordinatorCore
