import CoordinatorCore.Gate.Evidence

/-!
# The gate evaluators

`evaluate_gate` proposes a transition of a gated handoff, `evaluate_gate_triage` reports the state
of its gate, and `derive_readiness` reads the report. All three walk the classification of the
`blocked_by` ids; the rules in front of it differ, and are kept here in the order of the source.

The corpus is indexed anew for each call: the memo of the source returns what the same list gave
before.
-/

namespace CoordinatorCore

open Text

namespace Gate

namespace Key

def gateDependency : Text :=
  ['g', 'a', 't', 'e', '_', 'd', 'e', 'p', 'e', 'n', 'd', 'e', 'n', 'c', 'y']
def gateNotes : Text := ['g', 'a', 't', 'e', '_', 'n', 'o', 't', 'e', 's']
def blockingNotes : Text := ['b', 'l', 'o', 'c', 'k', 'i', 'n', 'g', '_', 'n', 'o', 't', 'e', 's']
def blockedByDispositions : Text :=
  blockedBy ++ ['_', 'd', 'i', 's', 'p', 'o', 's', 'i', 't', 'i', 'o', 'n', 's']

end Key

/-! ### What the fields say -/

/-- `handoff.get("blocked_by") or []`. -/
def blockedBy (handoff : Dict) : Val := (handoff.get Key.blockedBy).orElse (.seq [])

/-- `handoff.get("id", "<unknown>")`. -/
def reportedId (handoff : Dict) : Val := handoff.getD Key.id unknownId

/-- `_is_structured_gate`. -/
def isStructuredGate (handoff : Dict) : Bool := (blockedBy handoff).truthy

/-- The string members of a list. -/
def stringMembers (vs : List Val) : List Text :=
  vs.filterMap fun
    | .str s => some s
    | _ => none

/-- A value that is a string with more than white space in it. -/
def isProse : Val → Bool
  | .str s => !(strip s).isEmpty
  | _ => false

/-- `_has_prose_gate`. -/
def hasProseGate (handoff : Dict) : Bool := isProse (handoff.get Key.gateDependency)

/-- `_has_blocking_notes`. -/
def hasBlockingNotes (handoff : Dict) : Bool :=
  isProse (handoff.get Key.gateNotes) || isProse (handoff.get Key.blockingNotes)

/-- `_SCAFFOLD_SENTINEL`. -/
def scaffoldSentinel : Text := ['P', 'L', 'A', 'C', 'E', 'H', 'O', 'L', 'D', 'E', 'R']

/-- `_SCAFFOLD_SENTINEL_PREFIXES`. -/
def scaffoldSentinelPrefixes : List Text :=
  [scaffoldSentinel ++ [' '], scaffoldSentinel ++ ['—'], scaffoldSentinel ++ [' ', '—']]

/-- `_is_scaffold_sentinel`. -/
def isScaffoldSentinel : Val → Bool
  | .str s =>
    strip s == scaffoldSentinel || scaffoldSentinelPrefixes.any fun p => p.isPrefixOf (strip s)
  | _ => false

/-- `_scaffold_sentinel_field`. -/
def scaffoldSentinelField (handoff : Dict) : Option Text :=
  if isScaffoldSentinel (handoff.get Key.gateDependency) then some Key.gateDependency
  else if isScaffoldSentinel (handoff.get Key.blockingNotes) then some Key.blockingNotes
  else none

/-- The block says that it stands for the prose. -/
def coversProse (evidence : Option Dict) : Bool :=
  match evidence with
  | some e => (e.get Key.coversProse).truthy
  | none => false

/-- `consumes_gate_evidence`. -/
def consumesGateEvidence (handoff : Dict) (evidence : Option Dict) : Bool :=
  (scaffoldSentinelField handoff).isNone && !(hasBlockingNotes handoff && !isStructuredGate handoff)
    && (hasProseGate handoff && coversProse evidence)

/-! ### Results -/

inductive Verdict
  | clear
  | narrow
  | surface
  | notCleared
deriving DecidableEq

/-- The key that is added when prose outlives every blocker. -/
structure Contradiction where
  kind : Text
  dischargeVerb : Text
  shippedBlockerIds : List Text

/-- What `evaluate_gate` returns. -/
structure GateResult where
  handoffId : Val
  verdict : Verdict
  clearedByShas : List Text
  remainingBlockers : List Val
  clearedBlockerIds : List Val
  alsoSurface : Bool
  contradiction : Option Contradiction

namespace GateResult

/-- A verdict that clears nothing. -/
def unclearing (handoffId : Val) (verdict : Verdict) (remaining : List Val) : GateResult where
  handoffId := handoffId
  verdict := verdict
  clearedByShas := []
  remainingBlockers := remaining
  clearedBlockerIds := []
  alsoSurface := false
  contradiction := none

/-- A verdict that clears some blockers, each by its commit. -/
def clearing (handoffId : Val) (verdict : Verdict) (b : Buckets) (remaining : List Val)
    (alsoSurface : Bool) : GateResult where
  handoffId := handoffId
  verdict := verdict
  clearedByShas := b.shippedShas
  remainingBlockers := remaining
  clearedBlockerIds := b.shippedIds.map .str
  alsoSurface := alsoSurface
  contradiction := none

end GateResult

/-! ### The structured path -/

/-- The ids that still block. -/
def Buckets.remaining (b : Buckets) : List Text :=
  b.abandonedIds ++ b.stillOpenIds ++ b.unresolvedIds ++ b.disposedIds ++ b.unstampedShippedIds

/-- The cascade of `_evaluate_structured_gate` behind the classification. -/
def structuredResult (handoffId : Val) (b : Buckets) : GateResult :=
  let remaining := b.remaining.map Val.str
  if b.abandonedIds ≠ [] ∧ b.shippedIds = [] then .unclearing handoffId .surface remaining
  else if b.abandonedIds ≠ [] then .clearing handoffId .narrow b remaining true
  else if b.unstampedShippedIds ≠ [] ∧ b.shippedIds = [] then
    .unclearing handoffId .surface remaining
  else if b.remaining = [] then .clearing handoffId .clear b [] false
  else if b.shippedIds ≠ [] then
    .clearing handoffId .narrow b remaining
      (b.unresolvedIds ≠ [] ∨ b.unstampedShippedIds ≠ [])
  else if b.unresolvedIds ≠ [] then .unclearing handoffId .surface remaining
  else .unclearing handoffId .notCleared remaining

/-- `_evaluate_structured_gate`. -/
def evaluateStructuredGate (items : ScalarKind → Text → List Val) (handoff : Dict)
    (index : TypedHandoffIndex) (visited : List Val) : Except Raised GateResult :=
  (iterate items (blockedBy handoff)).bind fun members =>
    let ids := stringMembers members
    if (reportedId handoff).hashable = false then .error .typeError
    else if visited.any (Val.pyEq (reportedId handoff)) then
      .ok (.unclearing (reportedId handoff) .surface (ids.map .str))
    else if ids = [] then .ok (.unclearing (reportedId handoff) .notCleared [])
    else (hasAsymmetry handoff ids index).bind fun asymmetric =>
      if asymmetric then .ok (.unclearing (reportedId handoff) .surface (ids.map .str))
      else (classifyBlockedBy index (handoff.get Key.blockedByDispositions) ids).map
        (structuredResult (reportedId handoff))

/-! ### The prose path -/

/-- `_evaluate_prose_gate`. -/
def evaluateProseGate (handoff : Dict) (witnesses : List Dict) : GateResult :=
  match witnesses with
  | [witness] =>
    let witnessId := witness.getD Key.id unknownId
    if deploymentState witness = some State.shipped then
      { handoffId := reportedId handoff
        verdict := .clear
        clearedByShas := (nonEmptyStr (witness.get Key.shippedIn)).toList
        remainingBlockers := []
        clearedBlockerIds := [witnessId]
        alsoSurface := false
        contradiction := none }
    else .unclearing (reportedId handoff) .surface [witnessId]
  | _ => .unclearing (reportedId handoff) .surface []

/-- `_all_blocked_by_shipped_evidence` has evidence. -/
def allBlockedByShipped (handoff : Dict) (ids : List Text) (index : TypedHandoffIndex) :
    Except Raised Bool :=
  if ids = [] then .ok false
  else (classifyBlockedBy index (handoff.get Key.blockedByDispositions) ids).map fun b =>
    b.remaining.isEmpty && (b.shippedIds.all ids.contains && ids.all b.shippedIds.contains)

/-! ### The evaluators -/

section

variable (items : ScalarKind → Text → List Val)

/-- The result of the rule that lets evidence stand for the whole gate. -/
def evidenceResult (handoffId : Val) (status : Status) (members : List Val) : GateResult :=
  if status = .freed then
    { GateResult.unclearing handoffId .clear [] with clearedBlockerIds := members }
  else .unclearing handoffId .surface members

/-- `evaluate_gate`. -/
def evaluateGate (handoff : Dict) (corpus witnesses : List Dict) (evidence : Option Dict) :
    Except Raised GateResult :=
  if (scaffoldSentinelField handoff).isSome then
    (iterate items (blockedBy handoff)).map (.unclearing (reportedId handoff) .surface)
  else if hasBlockingNotes handoff && !isStructuredGate handoff then
    (iterate items (blockedBy handoff)).map (.unclearing (reportedId handoff) .surface)
  else if hasProseGate handoff && coversProse evidence then
    (reduceGateEvidence items (evidence.getD [])).bind fun reduced =>
      (iterate items (blockedBy handoff)).map (evidenceResult (reportedId handoff) reduced.1)
  else if hasProseGate handoff && isStructuredGate handoff then
    (iterate items (blockedBy handoff)).bind fun members =>
      (allBlockedByShipped handoff (stringMembers members) (indexById corpus)).map fun stale =>
        { GateResult.unclearing (reportedId handoff) .surface members with
          contradiction :=
            if stale then some
              { kind := "prose-gate-outlived-structured-blockers".toList
                dischargeVerb := "handoff.transition gate-recheck --cleared".toList
                shippedBlockerIds := stringMembers members }
            else none }
  else if isStructuredGate handoff then
    evaluateStructuredGate items handoff (indexById corpus) []
  else if !hasProseGate handoff then .ok (.unclearing (reportedId handoff) .clear [])
  else .ok (evaluateProseGate handoff witnesses)

/-- What `evaluate_gate_triage` returns. -/
structure TriageResult where
  handoffId : Val
  status : Status
  blockedBy : List Text
  shippedIds : List Text
  stillOpenIds : List Text
  deadIds : List Text
  unresolvedIds : List Text
  disposedIds : List Text
  unstampedShippedIds : List Text
  hasProseGate : Bool
  hasGateEvidence : Bool
  gateEvidenceLegs : List LegResult

/-- A report without a classification. -/
def triageBase (handoff : Dict) (ids : List Text) (evidence : Option Dict) (status : Status)
    (legs : List LegResult) : TriageResult where
  handoffId := reportedId handoff
  status := status
  blockedBy := ids
  shippedIds := []
  stillOpenIds := []
  deadIds := []
  unresolvedIds := []
  disposedIds := []
  unstampedShippedIds := []
  hasProseGate := Gate.hasProseGate handoff
  hasGateEvidence := evidence.isSome
  gateEvidenceLegs := legs

/-- The loop over the unresolved ids: those the completion log shows as landed, and the others. -/
def resolveViaLog (entries : List Dict) (unresolved : List Text) :
    Except Raised (List Text × List Text) :=
  (assign (fun id => resolveBlockerViaCompletionLog id entries) unresolved).map fun ps =>
    (answered (· = .exactShipped) ps, answered (fun r => !decide (r = .exactShipped)) ps)

/-- The cascade of `evaluate_gate_triage` behind the classification. -/
def triageStatus (b : Buckets) (unresolved : List Text) : Status :=
  if unresolved ≠ [] then .indeterminate
  else if b.abandonedIds ≠ [] then .indeterminate
  else if b.stillOpenIds ≠ [] then .stillBlocked
  else if b.disposedIds ≠ [] then .stillBlocked
  else if b.unstampedShippedIds ≠ [] then .stillBlocked
  else .freed

/-- The structured part of `evaluate_gate_triage`. -/
def triageStructured (handoff : Dict) (ids : List Text) (index : TypedHandoffIndex)
    (entries : List Dict) (evidence : Option Dict) : Except Raised TriageResult :=
  (hasAsymmetry handoff ids index).bind fun asymmetric =>
    if asymmetric then .ok (triageBase handoff ids evidence .indeterminate [])
    else (classifyBlockedBy index (handoff.get Key.blockedByDispositions) ids).bind fun b =>
      (resolveViaLog entries b.unresolvedIds).map fun (landed, unresolved) =>
        { triageBase handoff ids evidence (triageStatus b unresolved) [] with
          shippedIds := b.shippedIds ++ landed
          stillOpenIds := b.stillOpenIds
          deadIds := b.abandonedIds
          unresolvedIds := unresolved
          disposedIds := b.disposedIds
          unstampedShippedIds := b.unstampedShippedIds }

/-- `evaluate_gate_triage`. -/
def evaluateGateTriage (handoff : Dict) (corpus entries : List Dict) (evidence : Option Dict)
    (consultProseGates : Bool) : Except Raised TriageResult :=
  (iterate items (blockedBy handoff)).bind fun members =>
    let ids := stringMembers members
    if consultProseGates && (scaffoldSentinelField handoff).isSome then
      .ok (triageBase handoff ids evidence .indeterminate [])
    else if consultProseGates && (hasBlockingNotes handoff && !isStructuredGate handoff) then
      .ok (triageBase handoff ids evidence .indeterminate [])
    else if hasProseGate handoff && coversProse evidence then
      (reduceGateEvidence items (evidence.getD [])).map fun (status, legs) =>
        triageBase handoff ids evidence status legs
    else if hasProseGate handoff then
      (allBlockedByShipped handoff ids (indexById corpus)).map fun stale =>
        triageBase handoff ids evidence (if stale then .reviewDue else .indeterminate) []
    else if evidence.isSome then
      (reduceGateEvidence items (evidence.getD [])).map fun (status, legs) =>
        triageBase handoff ids evidence status legs
    else if !isStructuredGate handoff then .ok (triageBase handoff ids evidence .freed [])
    else triageStructured handoff ids (indexById corpus) entries evidence

/-- What `derive_readiness` returns. -/
structure Readiness where
  deploymentState : Option Text
  pickupReady : Option Bool
  basis : Text

/-- `_READINESS_OFF_AXIS_STATES`. -/
def readinessOffAxisStates : List Text :=
  [State.inFlight, State.shipped, State.continued, State.closed]

def awaitingGate : Text := "awaiting_gate".toList

/-- The readiness a status stands for. -/
def Status.readiness : Status → Readiness
  | .stillBlocked => ⟨some awaitingGate, some false, "blocked_by_unresolved".toList⟩
  | .indeterminate => ⟨some awaitingGate, some false, "blocked_by_unresolved".toList⟩
  | .freed => ⟨some "ready_to_fire".toList, some true, "blocked_by_unresolved".toList⟩
  | .reviewDue => ⟨none, none, "review-due".toList⟩

/-- `derive_readiness`. -/
def deriveReadiness (handoff : Dict) (corpus : List Dict) : Except Raised Readiness :=
  if (handoff.get Key.deploymentState).hashable = false then .error .typeError
  else if isOneOf readinessOffAxisStates (handoff.get Key.deploymentState) then
    .ok ⟨none, none, "off-gate-axis".toList⟩
  else (evaluateGateTriage items handoff corpus [] none false).map fun t => t.status.readiness

end

end Gate

end CoordinatorCore
