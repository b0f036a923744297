import CoordinatorCore.Frontmatter.Blocks
import CoordinatorCore.Frontmatter.Document
import CoordinatorCore.Gate.Evaluate
import CoordinatorCore.Lineage.Edges

/-!
# The transition verbs of a handoff

`handoff.transition` of `ops/handoff_transition.py`: each verb is one rewrite of the frontmatter of
a handoff, gated by guards on its lines before and by the schema after. A verb returns the new
text, says that there is nothing to do, or refuses; a refusal and a `ValueError` of a field
primitive both leave the file as it is.

What the verbs ask of code that is no part of this development is `Host`, with the YAML loader and
the rules of the schema that only the validator knows. What one call sees of the disk and of the
clock is `Seen`; two looks at the same blocker are two observations.
-/

namespace CoordinatorCore

open Text Frontmatter Gate

namespace Handoff

/-! ### The outside -/

/-- The loader and what hangs on it. -/
structure Host where
  /-- `yaml.safe_load`, with nothing for an exception. -/
  load : Text → Option Val
  /-- A rule of `validate_frontmatter` other than `_cf_awaiting_gate_not_pickup_ready` fails. -/
  otherErrors : Dict → Bool
  /-- `str` of a list or a mapping. -/
  container : Val → Text
  /-- The members of a loaded set or byte string. -/
  items : ScalarKind → Text → List Val
  /-- The regex class `\w`. -/
  word : Char → Bool

/-- What a call sees. -/
structure Seen where
  /-- `claimed_or_shipped_at_path(..)`. -/
  everClaimed : Bool
  /-- `_now_iso()`. -/
  now : Text
  /-- `_find_implemented_governing_plan(..) is not None`. -/
  governed : Text → Bool
  /-- `_resolve_blocker_deployment_state(..).resolved`, at the start of the write. -/
  resolves : Text → Bool
  /-- The same at the end of it. -/
  stillResolves : Text → Bool
  /-- `_blocker_clears_gate(..)[0]`, at the start of the write. -/
  clears : Text → Bool
  /-- The same at the end of it. -/
  stillClears : Text → Bool
  /-- `_reresolve_gate_evidence_leg`. -/
  resolveLeg : Dict → Text → Dict
  /-- The `reason` of an evaluated leg. -/
  legReason : Dict → Option Text
  /-- `timestamps.with_age`. -/
  withAge : Val → Text
  /-- `resolve_historical_claim`: a session id and the time of its claim. -/
  historicalClaim : Option (Option Text × Option Text)

/-- Why a call writes nothing. -/
inductive Refusal
  | verbRequired
  | sessionIdRequired
  | atRequired
  | continuedIntoRequired
  | dispositionRequired
  | badReason
  | multilineNote
  | emptyBlockers
  | asymmetricPairs
  | noFrontmatter
  | terminal
  | wrongState
  | conflictingTerminal
  | successionConflict
  | neverClaimed
  | displacedWithSuccessor
  | governedByImplementedPlan
  | staleClear
  | blockedByNotAList
  | notInBlockedBy
  | doesNotClear
  | unresolvedBlocker
  | drainedProse
  | invalid
  | valueError (message : Text)
  | raised
deriving DecidableEq

/-- How a call that does not refuse ends. -/
inductive Outcome
  | noop
  | applied (text : Text)
deriving DecidableEq

/-! ### Field names and values -/

def statusKey : Text := "status".toList
def deploymentKey : Text := "deployment_state".toList
def pickupReadyKey : Text := "pickup_ready".toList
def claimedAtKey : Text := "claimed_at".toList
def claimedByKey : Text := "claimed_by".toList
def consumedAtKey : Text := "consumed_at".toList
def consumedByKey : Text := "consumed_by".toList
def claimedByNameKey : Text := "claimed_by_name".toList
def titleKey : Text := "title".toList
def closedReasonKey : Text := "closed_reason".toList
def continuedIntoKey : Text := "continued_into".toList
def blockedByKey : Text := "blocked_by".toList
def noLongerBlockedByKey : Text := "no_longer_blocked_by".toList
def gateClearedByKey : Text := "gate_cleared_by".toList
def gateEvidenceKey : Text := "gate_evidence".toList
def gateEvidenceResultsKey : Text := "gate_evidence_results".toList
def lastGateRecheckKey : Text := "last_gate_recheck".toList
def releaseEvidenceKey : Text := "release_evidence".toList
def parkNoteKey : Text := "park_note".toList
def reapedFromSessionKey : Text := "reaped_from_session".toList
def summaryKey : Text := "summary".toList
def dispositionKey : Text := "reconcile_disposition".toList
def dispositionReasonKey : Text := "reconcile_disposition_reason".toList

def openWord : Text := "open".toList
def claimedWord : Text := "claimed".toList
def inFlightWord : Text := "in_flight".toList
def readyWord : Text := "ready_to_fire".toList
def awaitingWord : Text := "awaiting_gate".toList
def shippedWord : Text := "shipped".toList
def closedWord : Text := "closed".toList
def continuedWord : Text := "continued".toList
def trueWord : Text := "true".toList
def falseWord : Text := "false".toList

/-- `HANDOFF_TERMINAL_DEPLOYMENT`. -/
def terminalDeployment : List Text :=
  [shippedWord, "abandoned".toList, continuedWord, closedWord]

/-- `(deployment or "").strip().lower() in HANDOFF_TERMINAL_DEPLOYMENT`. Only ASCII letters are
lowered: the other letters with an ASCII lower case have it outside these words. -/
def isTerminal (deployment : Option Text) : Bool :=
  terminalDeployment.contains ((strip (deployment.getD [])).map Char.toLower)

/-- `_STATUS_NEW_TO_OLD`. -/
def oldStatus (new : Text) : Option Text :=
  if new = openWord then some "active".toList
  else if new = claimedWord then some "consumed".toList
  else none

/-- `_status_is`. -/
def statusIs (value : Option Text) (target : Text) : Bool :=
  value == some target || (value.isSome && value == oldStatus target)

/-- `_STATUS_OLD_TO_NEW`. -/
def newStatus (old : Text) : Option Text :=
  if old = "active".toList then some openWord
  else if old = "consumed".toList then some claimedWord
  else none

/-! ### Field writes -/

/-- A `ValueError` leaves the verb. -/
def raising (r : Except Text Text) : Except Refusal Text := r.mapError .valueError

/-- `replace_fm_field(fm, key, value)`. -/
def replaceField (fm key value : Text) : Except Refusal Text :=
  raising (replaceFmField fm key (some value) false)

/-- `insert_fm_field(fm, key, value, after)`. -/
def insertField (fm key value after : Text) : Text :=
  insertFmField fm key (some value) (some after) false

/-- Replace if present, insert if absent. -/
def setField (fm key value after : Text) : Except Refusal Text :=
  if (readFmField fm key).isSome then replaceField fm key value
  else .ok (insertField fm key value after)

/-- Replace or insert, as an earlier reading of the field says. -/
def stampField (reading : Option Text) (fm key value after : Text) : Except Refusal Text :=
  if reading.isSome then replaceField fm key value else .ok (insertField fm key value after)

/-- `remove_fm_field(fm, key)`. -/
def removeField (fm key : Text) : Except Refusal Text := raising (removeFmField fm key)

/-- The same for several keys, one after the other. -/
def removeFields (fm : Text) : List Text → Except Refusal Text
  | [] => .ok fm
  | k :: ks => (removeField fm k).bind fun fm => removeFields fm ks

/-- `_replace_fm_array_field` or `_insert_fm_array_field`, as the field is there or not. -/
def setArray (fm key : Text) (items : List Text) (after : Text) : Text :=
  if (readFmField fm key).isSome then replaceFmArrayField fm key items
  else insertFmArrayField fm key items after

/-- `_read_fm_field_new_or_old`. -/
def readNewOrOld (fm newKey oldKey : Text) : Option Text :=
  (readFmField fm newKey).or (readFmField fm oldKey)

/-- `_canonicalize_legacy_status`. -/
def canonicalizeLegacyStatus (fm : Text) (status : Option Text) : Except Refusal Text :=
  match status.bind newStatus with
  | none => .ok fm
  | some new => replaceField fm statusKey new

section

variable (H : Host)

/-! ### The loaded frontmatter -/

/-- `yaml.safe_load(fm) or {}`, for a caller that goes on to read fields off it. -/
def loadDict (fm : Text) : Except Refusal Dict :=
  match H.load fm with
  | none => .error .raised
  | some v =>
    if v.truthy then
      match v.asDict with
      | some d => .ok d
      | none => .error .raised
    else .ok []

/-- `_cf_awaiting_gate_not_pickup_ready`. -/
def awaitingGateAdvertised (d : Dict) : Bool :=
  (d.get deploymentKey).pyEq (.str awaitingWord) &&
    match d.get pickupReadyKey with
    | .bool b => b
    | _ => false

/-- `_validate_fm`, with the refusal its errors lead to. -/
def validateFm (fm : Text) : Except Refusal Unit :=
  if (H.load fm).isNone then .error .invalid
  else (loadDict H fm).bind fun d =>
    if awaitingGateAdvertised d || H.otherErrors d then .error .invalid else .ok ()

/-- The gate behind each verb: validate, then rebuild. -/
def finish (split : FrontmatterSplit) (fm : Text) : Except Refusal Outcome :=
  (validateFm H fm).map fun _ => .applied (rebuild split fm)

/-! ### Readiness -/

/-- `DR173_GATED_PREDICATE_TEXTS`. -/
def dr173PredicateTexts : List Text :=
  ["category and summary are unfilled placeholders".toList,
    "category is an unfilled placeholder".toList,
    "summary is an unfilled placeholder".toList]

/-- `is_dr173_parked`. -/
def isDr173Parked (d : Dict) : Bool :=
  !(d.get blockedByKey).truthy &&
    match d.get blockingNotesKey with
    | .str notes => dr173PredicateTexts.any fun t => contains t notes
    | _ => false

/-- The verdict `_apply_derived_readiness` acts on: it parks a record that the derivation would
free while an id or an unfilled placeholder still holds it. -/
def tightened (d : Dict) (deployment : Text) (ready : Bool) : Text × Bool :=
  if deployment = readyWord ∧ ((d.get blockedByKey).truthy ∨ isDr173Parked d) then
    (awaitingWord, false)
  else (deployment, ready)

/-- `_apply_derived_readiness`. -/
def applyDerivedReadiness (fm : Text) : Except Refusal Text :=
  (loadDict H fm).bind fun d =>
    match deriveReadiness H.items d [] with
    | .error _ => .error .raised
    | .ok verdict =>
      match verdict.deploymentState with
      | none => .ok fm
      | some derived =>
        let v := tightened d derived (verdict.pickupReady == some true)
        (replaceField fm deploymentKey v.1).bind fun fm =>
          setField fm pickupReadyKey (if v.2 then trueWord else falseWord) deploymentKey

/-! ### The gate evidence -/

/-- `_strip_gate_evidence`. -/
def stripGateEvidence (fm : Text) : Text :=
  removeFmNestedField (removeFmNestedField fm gateEvidenceKey) gateEvidenceResultsKey

/-- `_dict_legs`. -/
def dictLegs (block : Dict) : List Dict :=
  match block.get Gate.Key.legs with
  | .seq legs => legs.filterMap Val.asDict
  | _ => []

/-- `" ".join(s.split())`. -/
def joinWords (s : Text) : Text :=
  List.intercalate [' '] ((s.splitOnP isSpace).filter fun w => !w.isEmpty)

/-- `_one_line`. -/
def oneLine (v : Val) : Text := joinWords (v.pyStr H.container)

/-- `_one_line(v or default)`. -/
def oneLineOr (v : Val) (default : String) : Text := oneLine H (v.orElse (.str default.toList))

def legIdKey : Text := "leg_id".toList
def reasonKey : Text := "reason".toList
def noteKey : Text := "note".toList
def checkedAtKey : Text := "checked_at".toList

/-- `_leg_authored_detail`. -/
def legAuthoredDetail (leg : Dict) : Text :=
  (if (leg.get reasonKey).truthy then " — ".toList ++ oneLine H (leg.get reasonKey) else []) ++
    if (leg.get noteKey).truthy then " (note: ".toList ++ oneLine H (leg.get noteKey) ++ [')']
    else []

/-- `_leg_identity`. -/
def legIdentity (leg : Dict) : Text :=
  oneLineOr H (leg.get legIdKey) "?" ++ " [".toList ++ oneLineOr H (leg.get Gate.Key.kind) "?" ++
    [']']

/-- `_checked_at_clause`. -/
def checkedAtClause (w : Seen) (checkedAt : Val) : Text :=
  if checkedAt.truthy then joinWords (w.withAge checkedAt) else "unknown".toList

/-- `_prior_recheck_clause`. -/
def priorRecheckClause (w : Seen) (results : Dict) : Text :=
  "prior gate-recheck ".toList ++ oneLineOr H (results.get statusKey) "unknown" ++
    " at ".toList ++ checkedAtClause w (results.get checkedAtKey)

/-- `header: a; b; c`. -/
def withFragments (header : Text) (fragments : List Text) : Text :=
  if fragments = [] then header ++ ": no legs recorded".toList
  else header ++ ": ".toList ++ List.intercalate "; ".toList fragments

/-- The tail of a leg that an earlier recheck had a verdict on. The later of two results of one leg
id counts. -/
def priorTail (results : List Dict) (leg : Dict) : Text :=
  match (results.filter fun r => (r.get legIdKey).pyEq .null == false &&
      oneLine H (r.get legIdKey) == oneLine H (leg.get legIdKey)).getLast? with
  | none => []
  | some prior =>
    " (prior: ".toList ++ oneLineOr H (prior.get statusKey) "unknown" ++
      (if (prior.get reasonKey).truthy then " — ".toList ++ oneLine H (prior.get reasonKey)
        else []) ++ [')']

/-- `_render_gate_evidence_retirement`. -/
def renderGateEvidenceRetirement (w : Seen) (evidence results : Val) (rechecked : Bool) : Text :=
  match evidence, results with
  | .null, .null => []
  | _, _ =>
    match rechecked, results.asDict, evidence.asDict with
    | true, some r, _ =>
      withFragments
        ("gate_evidence retired (".toList ++ oneLineOr H (r.get statusKey) "unknown" ++
          ", checked_at ".toList ++ checkedAtClause w (r.get checkedAtKey) ++ [')'])
        ((dictLegs r).map fun leg => legIdentity H leg ++ ' ' ::
          oneLineOr H (leg.get statusKey) "unknown" ++ legAuthoredDetail H leg)
    | _, r, some e =>
      let header := match r, results with
        | some r, _ => "gate_evidence retired (not re-verified by this clear; ".toList ++
            priorRecheckClause H w r ++ [')']
        | none, .null => "gate_evidence retired (not-rechecked)".toList
        | none, _ => ("gate_evidence retired (not-rechecked; a gate_evidence_results " ++
            "block was present but malformed and could not be read)").toList
      withFragments header ((dictLegs e).map fun leg =>
        legIdentity H leg ++ " not-rechecked".toList ++ legAuthoredDetail H leg ++
          priorTail H ((r.map dictLegs).getD []) leg)
    | _, some r, none =>
      withFragments
        ("gate_evidence retired (declaration absent or malformed; ".toList ++
          priorRecheckClause H w r ++ ", not re-verified by this clear)".toList)
        ((dictLegs r).map fun leg => legIdentity H leg ++ " prior ".toList ++
          oneLineOr H (leg.get statusKey) "unknown" ++ legAuthoredDetail H leg)
    | _, none, none => "gate_evidence retired (malformed, no legs recorded)".toList

/-- `_retire_gate_evidence`. -/
def retireGateEvidence (w : Seen) (fm : Text) (rechecked : Bool) : Except Refusal Text :=
  let loaded : Option Dict := match H.load fm with
    | none => some []
    | some v => if v.truthy then v.asDict else some []
  match loaded with
  | none => .ok (stripGateEvidence fm)
  | some d =>
    let note := renderGateEvidenceRetirement H w (d.get gateEvidenceKey)
      (d.get gateEvidenceResultsKey) rechecked
    (raising (appendBlockingNote fm note deploymentKey)).map stripGateEvidence

/-- A leg as `gate-recheck` has evaluated it. -/
structure EvaluatedLeg where
  legId : Val
  kind : Val
  status : LegStatus
  reason : Option Text

def legStatusName : LegStatus → Text
  | .satisfied => "satisfied".toList
  | .unsatisfied => "unsatisfied".toList
  | .indeterminate => "indeterminate".toList
  | .reviewDue => "review-due".toList

def statusName : Status → Text
  | .freed => "freed".toList
  | .stillBlocked => "still-blocked".toList
  | .indeterminate => "indeterminate".toList
  | .reviewDue => "review-due".toList

/-- `serialize_yaml_scalar` of a loaded value. -/
def serializeVal (v : Val) : Text :=
  match v with
  | .null => serializeYamlScalar none false
  | v => serializeYamlScalar (some (v.pyStr H.container)) false

/-- The block `_write_gate_evidence_results` writes, as its lines. -/
def resultsBlock (status at_ : Text) (legs : List EvaluatedLeg) : List Text :=
  ("  status: ".toList ++ serializeYamlScalar (some status) false) ::
    ("  checked_at: ".toList ++ serializeYamlScalar (some at_) false) ::
    "  legs:".toList ::
    legs.flatMap fun leg =>
      ["    - leg_id: ".toList ++ serializeVal H leg.legId,
        "      kind: ".toList ++ serializeVal H leg.kind,
        "      status: ".toList ++ serializeYamlScalar (some (legStatusName leg.status)) false,
        "      reason: ".toList ++ serializeYamlScalar leg.reason false]

/-- The live re-resolution of `gate-recheck`: the status and the legs, where the record carries a
block of evidence. -/
def recheckEvidence (w : Seen) (d : Dict) (at_ : Text) :
    Except Refusal (Option (Status × List EvaluatedLeg)) :=
  match (d.get gateEvidenceKey).asDict with
  | none => .ok none
  | some evidence =>
    let legs := (dictLegs evidence).map fun leg => w.resolveLeg leg at_
    match reduceGateEvidence H.items [(.str Gate.Key.legs, .seq (legs.map Val.map))] with
    | .error _ => .error .raised
    | .ok (status, results) => .ok (some (status, (results.zip legs).map fun (r, leg) =>
        { legId := r.legId, kind := r.kind, status := r.status, reason := w.legReason leg }))

/-! ### The summary cap -/

/-- `_SUMMARY_MAX_CHARS`. -/
def summaryMaxChars : Nat := 140

/-- `value[:_SUMMARY_MAX_CHARS - 1] + "…"`. -/
def cappedSummary (value : Text) : Text := value.take (summaryMaxChars - 1) ++ ['…']

/-- `[|>][+\-0-9]*` at the front, and what follows it. -/
def blockIndicator : Text → Option Text
  | '|' :: cs => some (cs.dropWhile fun c => c == '+' || c == '-' || isDigit c)
  | '>' :: cs => some (cs.dropWhile fun c => c == '+' || c == '-' || isDigit c)
  | _ => none

/-- `_BLOCK_SCALAR_INDICATOR_RE.match`. -/
def isBlockIndicator (raw : Text) : Bool :=
  match blockIndicator raw with
  | none => false
  | some r =>
    let tail := r.dropWhile isBlank
    r == [] || (!(r.takeWhile isBlank).isEmpty && tail.head? == some '#')

/-- The rest of a key line that `_replace_block_scalar_span` takes for the head of a block scalar. -/
def isBlockHead (rest : Text) : Bool :=
  match blockIndicator ((splitCr rest).1.dropWhile isBlank) with
  | none => false
  | some r =>
    let tail := r.dropWhile isBlank
    tail == [] || tail.head? == some '#'

/-- A line of a block scalar: empty, or behind a blank. -/
def scalarLine : Text → Bool
  | [] => true
  | ['\r'] => true
  | c :: _ => isBlank c

/-- The lines from the first block scalar under the key on: the lines in front, the head's rest,
the lines behind the span. -/
def findBlockScalar (key : Text) : List Text → Option (List Text × Text × List Text)
  | [] => none
  | l :: ls =>
    match (keyLine key l).filter isBlockHead with
    | some rest => some ([], rest, ls.dropWhile scalarLine)
    | none => (findBlockScalar key ls).map fun m => (l :: m.1, m.2)

/-- `_replace_block_scalar_span(fm, key, f"{key}: {value}\n")`; the text as it is where it finds
no span. -/
def replaceBlockScalarSpan (fm key value : Text) : Text :=
  let text := if endsWithNewline fm then fm else fm ++ ['\n']
  match findBlockScalar key (lines text) with
  | none => fm
  | some (a, rest, b) =>
    unlines (a ++ (key ++ ':' :: ' ' :: value ++ (splitCr rest).2) :: orEmptyLine b)

/-- `_normalize_block_scalar_summary`. -/
def normalizeBlockScalarSummary (fm : Text) : Except Refusal Text :=
  if (H.load fm).isNone then .ok fm
  else (loadDict H fm).map fun d =>
    match d.get summaryKey with
    | .null => fm
    | v =>
      let value := v.pyStr H.container
      if value.length ≤ summaryMaxChars then fm
      else replaceBlockScalarSpan fm summaryKey
        (serializeYamlScalar (some (cappedSummary (joinWords value))) true)

/-- `normalize_present_summary`, the text of it. -/
def normalizePresentSummary (fm : Text) : Except Refusal Text :=
  match readFmField fm summaryKey with
  | none => .ok fm
  | some raw =>
    if isBlockIndicator raw then normalizeBlockScalarSummary H fm
    else
      match ((H.load fm).bind Val.asDict).map fun d => d.get summaryKey with
      | none => .ok fm
      | some Val.null => .ok fm
      | some v =>
        let value := v.pyStr H.container
        if value.length ≤ summaryMaxChars then .ok fm
        else raising (replaceFmField fm summaryKey (some (cappedSummary value)) true)

/-! ### The verbs -/

/-- `_claim`. -/
def claim (sessionId at_ : Text) (old : Text) : Except Refusal Outcome :=
  if strip sessionId = [] then .error .sessionIdRequired
  else match splitFrontmatter old with
  | none => .error .noFrontmatter
  | some split =>
    let status := readFmField split.fmText statusKey
    let deployment := readFmField split.fmText deploymentKey
    let holder := readNewOrOld split.fmText claimedByKey consumedByKey
    if isTerminal deployment then .error .terminal
    else if statusIs status claimedWord && deployment == some inFlightWord &&
        holder == some sessionId then .ok .noop
    else do
      let holderChanged := holder.isSome && holder != some sessionId
      let fm ← (if statusIs status claimedWord then .ok split.fmText
        else stampField status split.fmText statusKey claimedWord titleKey)
      let fm ← (if deployment = some inFlightWord then .ok fm
        else stampField deployment fm deploymentKey inFlightWord statusKey)
      let fm ← (if (readNewOrOld fm claimedAtKey consumedAtKey).isNone then
          .ok (insertField fm claimedAtKey at_ deploymentKey)
        else if holderChanged then replaceField fm claimedAtKey at_
        else .ok fm)
      let fm ← (match readFmField fm claimedByKey with
        | none =>
          if (readNewOrOld fm claimedByKey consumedByKey).isNone then
            .ok (insertField fm claimedByKey sessionId claimedAtKey)
          else .ok fm
        | some by_ => if by_ = sessionId then .ok fm else replaceField fm claimedByKey sessionId)
      let fm ← applyDerivedReadiness H (stripGateEvidence fm)
      let fm ← normalizePresentSummary H fm
      finish H split fm

/-- `build_ship_mutate`. -/
def ship (old : Text) : Except Refusal Outcome :=
  match splitFrontmatter old with
  | none => .error .noFrontmatter
  | some split =>
    let deployment := readFmField split.fmText deploymentKey
    if deployment == some shippedWord &&
        readFmFieldUnquoted split.fmText pickupReadyKey == some falseWord then .ok .noop
    else do
      let fm ← stampField deployment split.fmText deploymentKey shippedWord statusKey
      let fm ← canonicalizeLegacyStatus fm (readFmField split.fmText statusKey)
      let fm ← setField fm pickupReadyKey falseWord deploymentKey
      finish H split fm

/-- `_repark`. -/
def repark (old : Text) : Except Refusal Outcome :=
  match splitFrontmatter old with
  | none => .error .noFrontmatter
  | some split =>
    let deployment := readFmField split.fmText deploymentKey
    if deployment = some readyWord then .ok .noop
    else if deployment ≠ some inFlightWord then .error .wrongState
    else do
      let fm ← replaceField split.fmText deploymentKey readyWord
      let fm ← raising (retireGateDependency fm)
      let fm ← applyDerivedReadiness H (stripGateEvidence fm)
      finish H split fm

/-- `_CLOSED_REASONS`. -/
def closedReasons : List Text :=
  ["cancelled".toList, "displaced".toList, "stale".toList]

/-- `_CLOSE_CONFLICTING_TERMINALS`. -/
def closeConflictingTerminals : List Text := [shippedWord, continuedWord]

/-- `_close`. -/
def close (reason : Text) (old : Text) : Except Refusal Outcome :=
  if reason ∉ closedReasons then .error .badReason
  else match splitFrontmatter old with
  | none => .error .noFrontmatter
  | some split =>
    let deployment := readFmField split.fmText deploymentKey
    if deployment == some closedWord && readFmField split.fmText closedReasonKey == some reason &&
        readFmFieldUnquoted split.fmText pickupReadyKey == some falseWord then .ok .noop
    else if deployment.any closeConflictingTerminals.contains then .error .conflictingTerminal
    else if reason = "displaced".toList ∧
        (readFmField split.fmText continuedIntoKey).any (!·.isEmpty) then
      .error .displacedWithSuccessor
    else do
      let fm ← (if deployment = some closedWord then .ok split.fmText
        else stampField deployment split.fmText deploymentKey closedWord statusKey)
      let fm ← setField fm closedReasonKey reason deploymentKey
      let fm ← setField fm pickupReadyKey falseWord closedReasonKey
      finish H split fm

/-- The holder the mirror names, for `_attribute_claim_holder`. -/
def namesHolder (fm key : Text) : Bool :=
  match readFmFieldUnquoted fm key with
  | none => false
  | some s => !(["".toList, "null".toList, "none".toList].contains ((strip s).map Char.toLower))

/-- `_attribute_claim_holder`. -/
def attributeClaimHolder (w : Seen) (fm : Text) : Except Refusal Text :=
  if namesHolder fm claimedByKey || namesHolder fm consumedByKey then .ok fm
  else match w.historicalClaim with
  | none => .ok fm
  | some (sessionId, claimedAt) => do
    let fm ← (match sessionId with
      | none => .ok fm
      | some s => setField fm claimedByKey s statusKey)
    match claimedAt with
    | none => .ok fm
    | some t => setField fm claimedAtKey t statusKey

/-- `_SUPERSEDE_CONFLICTING_TERMINALS`. -/
def supersedeConflictingTerminals : List Text := [closedWord]

/-- `_supersede`, with `_supersede_continued` behind its guards. -/
def supersede (w : Seen) (continuedInto : Text) (old : Text) : Except Refusal Outcome :=
  match splitFrontmatter old with
  | none => .error .noFrontmatter
  | some split =>
    let status := readFmField split.fmText statusKey
    let deployment := readFmField split.fmText deploymentKey
    let successor := (readFmFieldUnquoted split.fmText continuedIntoKey).getD []
    if deployment.any supersedeConflictingTerminals.contains then .error .conflictingTerminal
    else
      let settled := status = some claimedWord ∧ deployment = some continuedWord ∧ successor ≠ []
      if settled ∧ successor ≠ continuedInto then .error .successionConflict
      else if settled ∧ readFmFieldUnquoted split.fmText pickupReadyKey = some falseWord then
        .ok .noop
      else do
        let fm ← (if status = some claimedWord then .ok split.fmText
          else stampField status split.fmText statusKey claimedWord titleKey)
        let fm ← attributeClaimHolder w fm
        let fm ← (if deployment = some continuedWord then .ok fm
          else stampField deployment fm deploymentKey continuedWord statusKey)
        let fm ← setField fm continuedIntoKey continuedInto deploymentKey
        let fm ← setField fm pickupReadyKey falseWord deploymentKey
        finish H split fm

/-- A character class of `_SESSION_ID_RE`. -/
def isLowerHex (c : Char) : Bool := isDigit c || ('a' ≤ c && c ≤ 'f')

/-- `_is_session_id_shaped`. -/
def isSessionIdShaped (value : Text) : Bool :=
  let groups := (chopFinalNewline value).splitOn '-'
  groups.map List.length == [8, 4, 4, 4, 12] && groups.all fun g => g.all isLowerHex

/-- The session `_unclaim` keeps on record: the first candidate that is shaped like an id. -/
def resolvedSession (fm reapedFrom : Text) : Option Text :=
  (([readFmFieldUnquoted fm claimedByKey, readFmFieldUnquoted fm consumedByKey,
    some reapedFrom].filterMap id).map strip).find? isSessionIdShaped

/-- `deployment in ("in_flight", "ready_to_fire")`. -/
def isUnclaimable (deployment : Option Text) : Bool :=
  deployment == some inFlightWord || deployment == some readyWord

/-- The governing plan of the record is implemented; a spinoff has none. -/
def isGoverned (w : Seen) (fm : Text) : Bool :=
  let kind := (strip ((readFmFieldUnquoted fm "kind".toList).getD [])).map Char.toLower
  kind != "spinoff".toList &&
    match readFmFieldUnquoted fm "deliverable_id".toList with
    | none => false
    | some d => !(strip d).isEmpty && w.governed (strip d)

/-- `_unclaim`. -/
def unclaim (w : Seen) (note : Text) (reapedFrom : Option Text) (old : Text) :
    Except Refusal Outcome :=
  if note.any fun c => c == '\n' || c == '\r' then .error .multilineNote
  else match splitFrontmatter old with
  | none => .error .noFrontmatter
  | some split =>
    let status := readFmField split.fmText statusKey
    let deployment := readFmFieldUnquoted split.fmText deploymentKey
    if isGoverned w split.fmText then .error .governedByImplementedPlan
    else if statusIs status openWord && deployment == some readyWord then .ok .noop
    else if !isUnclaimable deployment then
      .error (if isTerminal deployment then .terminal else .wrongState)
    else do
      let fm ← (if statusIs status openWord then .ok split.fmText
        else stampField status split.fmText statusKey openWord titleKey)
      let fm ← (if deployment = some readyWord then .ok fm
        else replaceField fm deploymentKey readyWord)
      let fm ← (match reapedFrom.bind (resolvedSession fm) with
        | none => .ok fm
        | some sid => setField fm reapedFromSessionKey sid deploymentKey)
      let fm ← removeFields fm [claimedAtKey, claimedByKey, consumedAtKey, consumedByKey,
        claimedByNameKey]
      let fm ← setField fm releaseEvidenceKey w.now deploymentKey
      let fm ← (if note = [] then .ok fm else setField fm parkNoteKey note deploymentKey)
      let fm ← raising (retireGateDependency fm)
      let fm ← applyDerivedReadiness H (stripGateEvidence fm)
      finish H split fm

/-! ### The gate verbs -/

/-- A loaded value that is a list, and the empty list for any other. -/
def listOr (v : Val) : List Val :=
  match v with
  | .seq vs => vs
  | _ => []

/-- The loop that appends what is not there yet. -/
def appendAbsent (vs : List Val) : List Val → List Val
  | [] => vs
  | v :: rest => appendAbsent (if vs.any (Val.pyEq v) then vs else vs ++ [v]) rest

/-- `str` of each element, for `_yaml_flow_seq`. -/
def printed (vs : List Val) : List Text := vs.map (Val.pyStr H.container)

/-- Both arrays behind a move, `blocked_by` first. -/
def writeMove (fm : Text) (blockedBy noLonger : List Val) : Text :=
  setArray (replaceFmArrayField fm blockedByKey (printed H blockedBy)) noLongerBlockedByKey
    (printed H noLonger) blockedByKey

/-- `_retire_blocked_by`. -/
def retireBlockedBy (fm : Text) (d : Dict) : Text :=
  match d.get blockedByKey with
  | .seq [] => fm
  | .seq current =>
    writeMove H fm [] (appendAbsent (listOr (d.get noLongerBlockedByKey)) current)
  | _ => fm

/-- `_gate_recheck`. -/
def gateRecheck (w : Seen) (at_ : Text) (cleared : Bool) (old : Text) : Except Refusal Outcome :=
  match splitFrontmatter old with
  | none => .error .noFrontmatter
  | some split =>
    let deployment := readFmField split.fmText deploymentKey
    if cleared && deployment == some readyWord then .ok .noop
    else if deployment ≠ some awaitingWord then .error .wrongState
    else do
      let d ← loadDict H split.fmText
      let evidence ← recheckEvidence H w d at_
      if cleared && evidence.any (fun e => e.1 != Status.freed) then .error .staleClear
      else do
        let fm ← setField split.fmText lastGateRecheckKey at_ gateDependencyKey
        let fm := match evidence with
          | none => fm
          | some (status, legs) => writeFmNestedField fm gateEvidenceResultsKey
              (resultsBlock H (statusName status) at_ legs)
        if cleared then do
          let fm ← replaceField fm deploymentKey readyWord
          let fm ← raising (retireGateDependency fm)
          let fm ← retireGateEvidence H w fm true
          let fm ← applyDerivedReadiness H (retireBlockedBy H fm d)
          finish H split fm
        else finish H split fm

/-- `bid_pattern.search`, `b` saying whether the position is behind a word character or a
hyphen. -/
def ownsClause (bid : Text) : Bool → Text → Bool
  | b, [] => !b && bid.isEmpty
  | b, c :: cs =>
    (!b && match stripPrefix? bid (c :: cs) with
      | some r => !r.head?.any fun c => H.word c || c == '-'
      | none => false) || ownsClause bid (H.word c || c == '-') cs

/-- The reduction of the prose: the clauses that name no cleared id. -/
def reduceClauses (prose : Text) (ids : List Text) : Text :=
  ids.foldl (fun prose bid => List.intercalate ", ".toList
    (((prose.splitOn ',').filter fun c => !ownsClause H bid false c).map strip)) prose

/-- `_gate_cascade_clear`. -/
def gateCascadeClear (w : Seen) (ids shas : List Text) (old : Text) : Except Refusal Outcome :=
  if ids.length ≠ shas.length then .error .asymmetricPairs
  else if ids = [] then .error .emptyBlockers
  else match splitFrontmatter old with
  | none => .error .noFrontmatter
  | some split => do
    let deployment := readFmField split.fmText deploymentKey
    let d ← loadDict H split.fmText
    match (d.get blockedByKey).orElse (.seq []) with
    | .seq current =>
      if current.isEmpty && deployment == some readyWord then .ok .noop
      else if deployment ≠ some awaitingWord then .error .wrongState
      else if ids.any fun bid => !current.any (Val.pyEq (.str bid)) then .error .notInBlockedBy
      else if ids.any fun bid => !w.clears bid then .error .doesNotClear
      else do
        let remaining := current.filter fun v => !ids.any fun bid => v.pyEq (.str bid)
        let fm := writeMove H split.fmText remaining
          (appendAbsent (listOr (d.get noLongerBlockedByKey)) (ids.map .str))
        let prose := readFmFieldUnquoted fm gateDependencyKey
        let reduced := reduceClauses H (prose.getD []) ids
        let shasBefore := listOr (d.get gateClearedByKey)
        let fm := setArray fm gateClearedByKey (printed H (shasBefore ++
          (shas.map Val.str).filter fun sha => !shasBefore.any (Val.pyEq sha))) blockedByKey
        let fm ← (if remaining ≠ [] then
            if prose.any (fun p => strip p ≠ []) ∧ strip reduced = [] then .error .drainedProse
            else if prose.isSome ∧ strip reduced ≠ [] then
              replaceField fm gateDependencyKey (strip reduced)
            else .ok fm
          else do
            let fm ← replaceField fm deploymentKey readyWord
            let fm ← raising (retireGateDependency fm)
            retireGateEvidence H w fm false)
        if ids.any fun bid => !w.stillClears bid then .error .doesNotClear
        else finish H split fm
    | _ => .error .blockedByNotAList

/-- The clauses of the prose, with the new one. -/
def joinClauses (existing : Option Text) (clause : Text) : Text :=
  let clauses := (((existing.getD []).splitOn ',').map strip).filter fun c => !c.isEmpty
  List.intercalate ", ".toList (if clause ∈ clauses then clauses else clauses ++ [clause])

/-- `str(False)`. -/
def pythonFalse : Text := "False".toList

/-- `pickup_ready is True`. -/
def pickupReady (d : Dict) : Bool :=
  match d.get pickupReadyKey with
  | .bool b => b
  | _ => false

/-- `_gate_add_blocker`. -/
def gateAddBlocker (w : Seen) (ids : List Text) (clause : Text) (old : Text) :
    Except Refusal Outcome :=
  if ids = [] then .error .emptyBlockers
  else match splitFrontmatter old with
  | none => .error .noFrontmatter
  | some split => do
    let d ← loadDict H split.fmText
    let deployment := readFmField split.fmText deploymentKey
    if isTerminal deployment then .error .terminal
    else match (d.get blockedByKey).orElse (.seq []) with
    | .seq current =>
      if ids.any fun bid => !w.resolves bid then .error .unresolvedBlocker
      else
        let blockers := appendAbsent current (ids.map .str)
        if blockers.length = current.length ∧ deployment = some awaitingWord ∧
            pickupReady d = false ∧ clause = [] then .ok .noop
        else do
          let fm := setArray split.fmText blockedByKey (printed H blockers) deploymentKey
          let fm ← (if deployment = some awaitingWord then .ok fm
            else replaceField fm deploymentKey awaitingWord)
          let fm ← (if (readFmField fm pickupReadyKey).isSome then
              replaceField fm pickupReadyKey pythonFalse
            else if pickupReady d then
              .ok (insertField fm pickupReadyKey pythonFalse deploymentKey)
            else .ok fm)
          let joined := joinClauses (readFmFieldUnquoted fm gateDependencyKey) clause
          let fm ← (if clause = [] then .ok fm
            else setField fm gateDependencyKey joined blockedByKey)
          if ids.any fun bid => !w.stillResolves bid then .error .unresolvedBlocker
          else finish H split fm
    | _ => .error .blockedByNotAList

/-- `_record_disposition`. -/
def recordDisposition (disposition reason : Text) (old : Text) : Except Refusal Outcome :=
  match splitFrontmatter old with
  | none => .error .noFrontmatter
  | some split =>
    if readFmFieldUnquoted split.fmText dispositionKey = some disposition ∧
        readFmFieldUnquoted split.fmText dispositionReasonKey = some reason then .ok .noop
    else do
      let fm ← setField split.fmText dispositionKey disposition deploymentKey
      let fm ← setField fm dispositionReasonKey reason dispositionKey
      finish H split fm

/-! ### The operation -/

/-- A verb with its parameters, as they arrive. -/
inductive Call
  | claim (sessionId at_ : Text)
  | supersede (continuedInto : Text)
  | ship
  | close (reason : Text)
  | repark
  | unclaim (note : Text) (reapedFrom : Option Text)
  | gateRecheck (at_ : Text) (cleared : Bool)
  | gateCascadeClear (ids shas : List Text)
  | gateAddBlocker (ids : List Text) (gateDependency : Text)
  | recordDisposition (disposition reason : Text)

/-- `transition_sync`, on the text of the handoff. -/
def transitionSync (w : Seen) (c : Call) (old : Text) : Except Refusal Outcome :=
  match c with
  | .claim sessionId at_ =>
    if strip at_ = [] then .error .atRequired else claim H (strip sessionId) (strip at_) old
  | .supersede continuedInto =>
    if strip continuedInto = [] then .error .continuedIntoRequired
    else if !w.everClaimed then .error .neverClaimed
    else supersede H w (strip continuedInto) old
  | .ship => ship H old
  | .close reason => close H (strip reason) old
  | .repark => repark H old
  | .unclaim note reapedFrom => unclaim H w (strip note) (reapedFrom.map strip) old
  | .gateRecheck at_ cleared =>
    if strip at_ = [] then .error .atRequired else gateRecheck H w (strip at_) cleared old
  | .gateCascadeClear ids shas => gateCascadeClear H w ids shas old
  | .gateAddBlocker ids gateDependency => gateAddBlocker H w ids (strip gateDependency) old
  | .recordDisposition disposition reason =>
    if strip disposition = [] ∨ strip reason = [] then .error .dispositionRequired
    else recordDisposition H (strip disposition) (strip reason) old

end

end Handoff

end CoordinatorCore
