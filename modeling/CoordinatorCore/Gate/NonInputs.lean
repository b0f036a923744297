import CoordinatorCore.Gate.Routes
import Mathlib.Data.List.Forall2

/-!
# What a verdict does not depend on

Lineage says where a baton comes from and the notes are prose for a human: neither is an input of
the gate. Two runs on records that differ in such fields alone are compared, along the index, the
chase and every rule. Lineage is read in one place, where the records of a `stub_id` are collapsed
to the heads of their chain, so that the records of the blockers' own groups have to keep it.
-/

namespace CoordinatorCore

open Text

namespace Gate

namespace Key

def forkedFrom : Text := ['f', 'o', 'r', 'k', 'e', 'd', '_', 'f', 'r', 'o', 'm']
def origin : Text := ['o', 'r', 'i', 'g', 'i', 'n', '_']

end Key

/-- A field of a record's lineage. -/
def isLineage (k : Text) : Bool :=
  k == Key.predecessor || k == Key.additionalPredecessors || k == Key.forkedFrom ||
    Key.origin.isPrefixOf k

/-- A field of advisory notes. -/
def isNotes (k : Text) : Bool := k == Key.gateNotes || k == Key.blockingNotes

/-- A field that no verdict is to depend on. -/
def isNonInput (k : Text) : Bool := isLineage k || isNotes k

/-- Two records with the same fields but for the changed ones. -/
structure AgreeOff (changed : Text → Bool) (r r' : Dict) : Prop where
  get : ∀ k, changed k = false → r'.get k = r.get k
  mem : ∀ k, changed k = false → r'.mem k = r.mem k

namespace AgreeOff

variable {changed changed' : Text → Bool} {r r' : Dict}

theorem refl (changed : Text → Bool) (r : Dict) : AgreeOff changed r r :=
  ⟨fun _ _ => rfl, fun _ _ => rfl⟩

/-- Records that agree off fewer keys agree off more. -/
theorem mono (hsub : ∀ k, changed' k = false → changed k = false) (h : AgreeOff changed r r') :
    AgreeOff changed' r r' :=
  ⟨fun k hk => h.get k (hsub k hk), fun k hk => h.mem k (hsub k hk)⟩

/-- The lineage fields are no inputs. -/
theorem nonInput_of_lineage (h : AgreeOff isLineage r r') : AgreeOff isNonInput r r' :=
  h.mono fun _ hk => (Bool.or_eq_false_iff.mp hk).1

/-- The notes fields are no inputs. -/
theorem nonInput_of_notes (h : AgreeOff isNotes r r') : AgreeOff isNonInput r r' :=
  h.mono fun _ hk => (Bool.or_eq_false_iff.mp hk).2

/-! ### The fields a record is read for -/

/-- The handoff id a record is indexed under is decided by inputs. -/
theorem indexedHandoffId_eq (h : AgreeOff isNonInput r r') :
    indexedHandoffId r' = indexedHandoffId r := by
  rw [indexedHandoffId, h.get _ rfl, indexedHandoffId]

theorem indexedStubId_eq (h : AgreeOff isNonInput r r') : indexedStubId r' = indexedStubId r := by
  rw [indexedStubId, h.get _ rfl, h.get _ rfl, indexedStubId]

theorem ownBasename_eq (h : AgreeOff isNonInput r r') : ownBasename r' = ownBasename r := by
  rw [ownBasename, h.get _ rfl, h.get _ rfl, ownBasename]

/-- The deployment state is decided by inputs. -/
theorem deploymentState_eq (h : AgreeOff isNonInput r r') :
    deploymentState r' = deploymentState r := by
  rw [deploymentState, h.get _ rfl, deploymentState]

/-- Whether a record is superseded is decided by inputs. -/
theorem isSuperseded_eq (h : AgreeOff isNonInput r r') (names : List Text) :
    isSuperseded names r' = isSuperseded names r := by
  rw [isSuperseded, h.get _ rfl, h.get _ rfl, h.ownBasename_eq, isSuperseded]

/-- The successor is decided by inputs. -/
theorem successorId_eq (h : AgreeOff isNonInput r r') (v : Val) :
    successorId r' v = successorId r v := by
  rw [successorId, h.get _ rfl, h.get _ rfl, h.get _ rfl, successorId]

theorem blockerAsymmetric_eq (h : AgreeOff isNonInput r r') (names : List Text) :
    blockerAsymmetric names r' = blockerAsymmetric names r := by
  rw [blockerAsymmetric, h.get _ rfl, h.get _ rfl, blockerAsymmetric]

/-- The id a result reports is an input. -/
theorem reportedId_eq (h : AgreeOff isNonInput r r') : reportedId r' = reportedId r := by
  rw [reportedId, Dict.getD, h.get _ rfl, h.mem _ rfl, reportedId, Dict.getD]

theorem blockedBy_eq (h : AgreeOff isNonInput r r') : blockedBy r' = blockedBy r := by
  rw [blockedBy, h.get _ rfl, blockedBy]

theorem isStructuredGate_eq (h : AgreeOff isNonInput r r') :
    isStructuredGate r' = isStructuredGate r := by
  rw [isStructuredGate, h.blockedBy_eq, isStructuredGate]

theorem hasProseGate_eq (h : AgreeOff isNonInput r r') : hasProseGate r' = hasProseGate r := by
  rw [hasProseGate, h.get _ rfl, hasProseGate]

theorem handoffNames_eq (h : AgreeOff isNonInput r r') : handoffNames r' = handoffNames r := by
  rw [handoffNames, h.get _ rfl, h.get _ rfl, handoffNames]

/-- Lineage is no note. -/
theorem hasBlockingNotes_eq (h : AgreeOff isLineage r r') :
    hasBlockingNotes r' = hasBlockingNotes r := by
  rw [hasBlockingNotes, h.get _ rfl, h.get _ rfl, hasBlockingNotes]

/-- A placeholder is looked for in inputs only, the notes among them. -/
theorem scaffoldSentinelField_eq (h : AgreeOff isLineage r r') :
    scaffoldSentinelField r' = scaffoldSentinelField r := by
  rw [scaffoldSentinelField, h.get _ rfl, h.get _ rfl, scaffoldSentinelField]

/-- Notes are no lineage. -/
theorem predecessorRefs_eq (h : AgreeOff isNotes r r') : predecessorRefs r' = predecessorRefs r := by
  rw [predecessorRefs, h.get _ rfl, h.get _ rfl, predecessorRefs]

end AgreeOff

/-! ### The index -/

/-- Lists that are alike end alike. -/
theorem rel_getLast? {α β : Type*} {R : α → β → Prop} {l : List α} {l' : List β}
    (h : List.Forall₂ R l l') : Option.Rel R l.getLast? l'.getLast? := by
  rw [← List.forall₂_reverse_iff] at h
  rw [List.getLast?_eq_head?_reverse, List.getLast?_eq_head?_reverse]
  generalize l.reverse = m, l'.reverse = m' at h
  cases h with
  | nil => exact .none
  | cons h _ => exact .some h

/-- A record of the corpus keeps its inputs, and its predecessors where it is in the group of one
of the blockers. -/
structure SeenAlike (blockers : List Text) (r r' : Dict) : Prop where
  inputs : AgreeOff isNonInput r r'
  refs : ∀ id ∈ blockers, indexedStubId r = some id → predecessorRefs r' = predecessorRefs r

/-- Two records of the index, each where the other is. -/
abbrev RecordsAlike : Option Dict → Option Dict → Prop := Option.Rel (AgreeOff isNonInput)

/-- Two optional records that are alike are both there or both missing. -/
theorem RecordsAlike.both {o o' : Option Dict} (h : RecordsAlike o o') :
    (o = none ∧ o' = none) ∨ ∃ r r', o = some r ∧ o' = some r' ∧ AgreeOff isNonInput r r' := by
  cases h with
  | none => exact .inl ⟨rfl, rfl⟩
  | some hr => exact .inr ⟨_, _, rfl, rfl, hr⟩

section

variable {blockers : List Text} {corpus corpus' : List Dict}

private theorem forall₂_filter_key {key : Dict → Option Text}
    (hkey : ∀ {r r'}, AgreeOff isNonInput r r' → key r' = key r)
    (h : List.Forall₂ (SeenAlike blockers) corpus corpus') (k : Text) :
    List.Forall₂ (SeenAlike blockers) (corpus.filter fun r => key r = some k)
      (corpus'.filter fun r => key r = some k) := by
  refine List.rel_filter (fun r r' hr => ?_) h
  simp only [decide_eq_true_eq]
  rw [hkey hr.inputs]

private theorem byHandoffId_alike (h : List.Forall₂ (SeenAlike blockers) corpus corpus')
    (k : Text) :
    RecordsAlike ((indexById corpus).byHandoffId.get k)
      ((indexById corpus').byHandoffId.get k) := by
  rw [get_byHandoffId, get_byHandoffId]
  exact rel_getLast? ((forall₂_filter_key AgreeOff.indexedHandoffId_eq h k).imp
    fun _ _ hr => hr.inputs)

private theorem byPathBasename_alike (h : List.Forall₂ (SeenAlike blockers) corpus corpus')
    (b : Text) :
    RecordsAlike ((indexById corpus).byPathBasename.get b)
      ((indexById corpus').byPathBasename.get b) := by
  rw [get_byPathBasename, get_byPathBasename]
  exact rel_getLast? ((forall₂_filter_key AgreeOff.ownBasename_eq h b).imp
    fun _ _ hr => hr.inputs)

/-- The collapse of a group whose records keep their predecessors. -/
private theorem collapse_alike {group group' : List Dict}
    (h : List.Forall₂ (fun r r' => AgreeOff isNonInput r r' ∧
      predecessorRefs r' = predecessorRefs r) group group') :
    List.Forall₂ (AgreeOff isNonInput) (collapseToChainHeads group)
      (collapseToChainHeads group') := by
  have hnames : supersededBasenames group' = supersededBasenames group := by
    have hrefs : group'.flatMap predecessorRefs = group.flatMap predecessorRefs := by
      induction h with
      | nil => rfl
      | cons hr _ ih => rw [List.flatMap_cons, List.flatMap_cons, hr.2, ih]
    rw [supersededBasenames, hrefs, supersededBasenames]
  have hinputs : List.Forall₂ (AgreeOff isNonInput) group group' := h.imp fun _ _ hr => hr.1
  have hheads : List.Forall₂ (AgreeOff isNonInput)
      (group.filter fun r => !isSuperseded (supersededBasenames group) r)
      (group'.filter fun r => !isSuperseded (supersededBasenames group) r) := by
    refine List.rel_filter (fun r r' hr => ?_) hinputs
    simp only [hr.isSuperseded_eq]
  rw [collapseToChainHeads, collapseToChainHeads, hnames]
  by_cases hnil : (group.filter fun r => !isSuperseded (supersededBasenames group) r) = []
  · rw [hnil, List.forall₂_nil_left_iff] at hheads
    rw [if_pos hnil, if_pos hheads]
    exact hinputs
  · have hnil' : (group'.filter fun r => !isSuperseded (supersededBasenames group) r) ≠ [] := by
      intro heq
      rw [heq, List.forall₂_nil_right_iff] at hheads
      exact hnil hheads
    rw [if_neg hnil, if_neg hnil']
    exact hheads

/-- A blocker resolves to a record with the inputs of the one it resolved to. -/
theorem get_alike (h : List.Forall₂ (SeenAlike blockers) corpus corpus') {id : Text}
    (hid : id ∈ blockers) :
    RecordsAlike ((indexById corpus).get id) ((indexById corpus').get id) := by
  rw [TypedHandoffIndex.get, TypedHandoffIndex.get]
  split_ifs with hform
  · exact byHandoffId_alike h id
  · rw [get_byStubId, get_byStubId]
    refine rel_getLast? (collapse_alike ?_)
    have hkey : ∀ r ∈ stubGroup corpus id, indexedStubId r = some id := fun r hr =>
      of_decide_eq_true (List.mem_filter.mp hr).2
    refine ((List.forall₂_and_left _ _).mpr
      ⟨hkey, forall₂_filter_key AgreeOff.indexedStubId_eq h id⟩).imp ?_
    exact fun r r' hr => ⟨hr.2.inputs, hr.2.refs id hid hr.1⟩

/-- So does the successor a continued record names. -/
theorem resolve_alike (h : List.Forall₂ (SeenAlike blockers) corpus corpus') (v : Val) :
    RecordsAlike (resolveContinuationTarget (indexById corpus) v)
      (resolveContinuationTarget (indexById corpus') v) := by
  rw [resolveContinuationTarget, resolveContinuationTarget]
  cases nonEmptyStr v with
  | none => exact .none
  | some target =>
    simp only [Option.bind_some]
    split_ifs with hform
    · rw [TypedHandoffIndex.get, TypedHandoffIndex.get, if_pos hform, if_pos hform]
      exact byHandoffId_alike h target
    · rw [TypedHandoffIndex.getByPath, TypedHandoffIndex.getByPath]
      cases pathBasename (.str target) with
      | none => exact .none
      | some b => exact byPathBasename_alike h b

/-! ### The walk of the blockers -/

private theorem chaseContinuation_alike (h : List.Forall₂ (SeenAlike blockers) corpus corpus')
    {hops : ℕ} {visited : List Val} {current current' : Dict}
    (hcur : AgreeOff isNonInput current current') :
    chaseContinuation (indexById corpus') hops visited current' =
      chaseContinuation (indexById corpus) hops visited current := by
  induction hops generalizing visited current current' with
  | zero =>
    rw [chaseContinuation, hcur.deploymentState_eq, hcur.get _ rfl, chaseContinuation]
  | succ hops ih =>
    rw [chaseContinuation, hcur.deploymentState_eq, hcur.get _ rfl, hcur.get _ rfl,
      chaseContinuation]
    rcases (resolve_alike h (current.get Key.continuedInto)).both with ⟨hres, hres'⟩ |
      ⟨next, next', hres, hres', hnext⟩
    · rw [hres, hres']
    · simp only [hres, hres', hnext.successorId_eq, ih hnext]

/-- A blocker's bucket is the same in corpora that are alike. -/
theorem bucketOf_alike (h : List.Forall₂ (SeenAlike blockers) corpus corpus') {id : Text}
    (hid : id ∈ blockers) (dispositions : Val) :
    bucketOf (indexById corpus') dispositions id = bucketOf (indexById corpus) dispositions id := by
  rw [bucketOf, bucketOf]
  rcases (get_alike h hid).both with ⟨hget, hget'⟩ | ⟨blocker, blocker', hget, hget', hrec⟩
  · rw [hget, hget']
  · simp only [hget, hget', recordBucket, hrec.deploymentState_eq, hrec.get Key.shippedIn rfl,
      chaseContinuation_alike h hrec]

/-- A blocker's back reference is the same in corpora that are alike. -/
theorem backReference_alike (h : List.Forall₂ (SeenAlike blockers) corpus corpus') {id : Text}
    (hid : id ∈ blockers) (names : List Text) :
    backReference names (indexById corpus') id = backReference names (indexById corpus) id := by
  rw [backReference, backReference]
  rcases (get_alike h hid).both with ⟨hget, hget'⟩ | ⟨blocker, blocker', hget, hget', hrec⟩
  · rw [hget, hget']
  · simp only [hget, hget', hrec.blockerAsymmetric_eq names]

/-- The classification of the blockers. -/
theorem classify_alike (h : List.Forall₂ (SeenAlike blockers) corpus corpus')
    (dispositions : Val) :
    classifyBlockedBy (indexById corpus') dispositions blockers =
      classifyBlockedBy (indexById corpus) dispositions blockers := by
  rw [classifyBlockedBy_eq, classifyBlockedBy_eq,
    assign_congr fun id hid => bucketOf_alike h hid dispositions]

/-- Whether a blocker does not name the handoff back is the same in corpora that are alike. -/
theorem hasAsymmetry_alike (h : List.Forall₂ (SeenAlike blockers) corpus corpus')
    (handoff : Dict) :
    hasAsymmetry handoff blockers (indexById corpus') =
      hasAsymmetry handoff blockers (indexById corpus) := by
  have hwalk : ∀ ids, (∀ id ∈ ids, id ∈ blockers) →
      anyAsymmetric (handoffNames handoff) (indexById corpus') ids =
        anyAsymmetric (handoffNames handoff) (indexById corpus) ids := by
    intro ids hids
    induction ids with
    | nil => rfl
    | cons id ids ih =>
      rw [List.forall_mem_cons] at hids
      rw [anyAsymmetric_cons, anyAsymmetric_cons, backReference_alike h hids.1, ih hids.2]
  rw [hasAsymmetry, hasAsymmetry, hwalk blockers fun _ hid => hid]

end

/-! ### The evaluators -/

/-- The ids a handoff is blocked by. -/
def blockerIds (items : ScalarKind → Text → List Val) (handoff : Dict) : List Text :=
  match iterate items (blockedBy handoff) with
  | .ok members => stringMembers members
  | .error _ => []

section

variable {items : ScalarKind → Text → List Val} {handoff handoff' : Dict}
  {corpus corpus' witnesses witnesses' : List Dict}

private theorem allBlockedByShipped_alike {ids : List Text}
    (hh : AgreeOff isNonInput handoff handoff') (hc : List.Forall₂ (SeenAlike ids) corpus corpus') :
    allBlockedByShipped handoff' ids (indexById corpus') =
      allBlockedByShipped handoff ids (indexById corpus) := by
  rw [allBlockedByShipped, hh.get _ rfl, classify_alike hc, allBlockedByShipped]

private theorem hasAsymmetry_alike_of {ids : List Text} (hh : AgreeOff isNonInput handoff handoff')
    (hc : List.Forall₂ (SeenAlike ids) corpus corpus') :
    hasAsymmetry handoff' ids (indexById corpus') =
      hasAsymmetry handoff ids (indexById corpus) := by
  rw [← hasAsymmetry_alike hc, hasAsymmetry, hh.handoffNames_eq, hasAsymmetry]

private theorem evaluateStructuredGate_alike (hh : AgreeOff isNonInput handoff handoff')
    (hc : List.Forall₂ (SeenAlike (blockerIds items handoff)) corpus corpus') :
    evaluateStructuredGate items handoff' (indexById corpus') [] =
      evaluateStructuredGate items handoff (indexById corpus) [] := by
  rw [evaluateStructuredGate, evaluateStructuredGate, hh.blockedBy_eq, hh.reportedId_eq]
  cases hm : iterate items (blockedBy handoff) with
  | error e => rfl
  | ok members =>
    rw [blockerIds, hm] at hc
    simp only [Except.bind, hasAsymmetry_alike_of hh hc, hh.get Key.blockedByDispositions rfl,
      classify_alike hc]

private theorem evaluateProseGate_alike (hh : AgreeOff isNonInput handoff handoff')
    (hw : List.Forall₂ (AgreeOff isNonInput) witnesses witnesses') :
    evaluateProseGate handoff' witnesses' = evaluateProseGate handoff witnesses := by
  cases hw with
  | nil => simp only [evaluateProseGate, hh.reportedId_eq]
  | cons hr hw =>
    cases hw with
    | nil =>
      simp only [evaluateProseGate, hh.reportedId_eq, hr.deploymentState_eq,
        hr.get Key.shippedIn rfl, Dict.getD, hr.get Key.id rfl, hr.mem Key.id rfl]
    | cons _ _ => simp only [evaluateProseGate, hh.reportedId_eq]

/-- The evaluator on two runs whose records agree on its inputs, when the rules about the notes
decide both handoffs alike. -/
theorem evaluateGate_alike (hh : AgreeOff isNonInput handoff handoff')
    (hc : List.Forall₂ (SeenAlike (blockerIds items handoff)) corpus corpus')
    (hw : List.Forall₂ (AgreeOff isNonInput) witnesses witnesses')
    (hsentinel : (scaffoldSentinelField handoff').isSome = (scaffoldSentinelField handoff).isSome)
    (hnotes : (hasBlockingNotes handoff' && !isStructuredGate handoff) =
      (hasBlockingNotes handoff && !isStructuredGate handoff)) (evidence : Option Dict) :
    evaluateGate items handoff' corpus' witnesses' evidence =
      evaluateGate items handoff corpus witnesses evidence := by
  rw [evaluateGate, evaluateGate, hh.blockedBy_eq, hh.reportedId_eq, hh.isStructuredGate_eq,
    hh.hasProseGate_eq, hsentinel, hnotes, evaluateStructuredGate_alike hh hc,
    evaluateProseGate_alike hh hw]
  cases hm : iterate items (blockedBy handoff) with
  | error e => rfl
  | ok members =>
    rw [blockerIds, hm] at hc
    simp only [Except.bind, allBlockedByShipped_alike hh hc]

/-- The triage that consults no prose. -/
theorem evaluateGateTriage_alike (hh : AgreeOff isNonInput handoff handoff')
    (hc : List.Forall₂ (SeenAlike (blockerIds items handoff)) corpus corpus')
    (entries : List Dict) (evidence : Option Dict) :
    evaluateGateTriage items handoff' corpus' entries evidence false =
      evaluateGateTriage items handoff corpus entries evidence false := by
  rw [evaluateGateTriage, evaluateGateTriage, hh.blockedBy_eq]
  cases hm : iterate items (blockedBy handoff) with
  | error e => rfl
  | ok members =>
    rw [blockerIds, hm] at hc
    simp only [Except.bind, Bool.false_and, Bool.false_eq_true, if_false, hh.hasProseGate_eq,
      hh.isStructuredGate_eq, triageStructured, triageBase, hh.reportedId_eq,
      allBlockedByShipped_alike hh hc, hasAsymmetry_alike_of hh hc,
      hh.get Key.blockedByDispositions rfl, classify_alike hc]

/-- The structured readiness is the same over corpora that are alike. -/
theorem deriveReadiness_alike (hh : AgreeOff isNonInput handoff handoff')
    (hc : List.Forall₂ (SeenAlike (blockerIds items handoff)) corpus corpus') :
    deriveReadiness items handoff' corpus' = deriveReadiness items handoff corpus := by
  rw [deriveReadiness, hh.get _ rfl, evaluateGateTriage_alike hh hc, deriveReadiness]

/-- A corpus in which notes have changed. -/
private theorem seenAlike_of_notes (ids : List Text)
    (h : List.Forall₂ (AgreeOff isNotes) corpus corpus') :
    List.Forall₂ (SeenAlike ids) corpus corpus' :=
  h.imp fun _ _ hr => ⟨hr.nonInput_of_notes, fun _ _ _ => hr.predecessorRefs_eq⟩

end

/-! ### Evidence -/

/-- `_gate_evidence_status_to_verdict`. -/
def Status.verdict (status : Status) : Verdict := if status = .freed then .clear else .surface

theorem verdict_evidenceResult (handoffId : Val) (status : Status) (members : List Val) :
    (evidenceResult handoffId status members).verdict = status.verdict := by
  rw [evidenceResult, Status.verdict]
  split_ifs <;> rfl

section

variable {items : ScalarKind → Text → List Val} {handoff : Dict} {corpus witnesses : List Dict}
  {evidence : Option Dict}

/-- Evidence that is not consumed is not read. -/
theorem evaluateGate_of_not_consumes (h : consumesGateEvidence handoff evidence = false) :
    evaluateGate items handoff corpus witnesses evidence =
      evaluateGate items handoff corpus witnesses none := by
  by_cases hsentinel : (scaffoldSentinelField handoff).isSome = true
  · simp only [evaluateGate, hsentinel, if_true]
  · by_cases hnotes : (hasBlockingNotes handoff && !isStructuredGate handoff) = true
    · simp only [evaluateGate, hnotes, if_true]
    · have hcovers : (hasProseGate handoff && coversProse evidence) = false := by
        simpa [consumesGateEvidence, hnotes, Option.not_isSome_iff_eq_none.mp hsentinel] using h
      have hnone : (hasProseGate handoff && coversProse none) = false := Bool.and_false _
      simp only [evaluateGate, hcovers, hnone, Bool.false_eq_true, if_false]

/-- Evidence that is consumed decides the verdict through its reduction alone. -/
theorem verdict_of_consumes (h : consumesGateEvidence handoff evidence = true) :
    (evaluateGate items handoff corpus witnesses evidence).map GateResult.verdict =
      (reduceGateEvidence items (evidence.getD [])).bind fun reduced =>
        (iterate items (blockedBy handoff)).map fun _ => reduced.1.verdict := by
  rw [evaluateGate_of_consumes h]
  cases reduceGateEvidence items (evidence.getD []) with
  | error e => rfl
  | ok reduced =>
    cases iterate items (blockedBy handoff) with
    | error e => rfl
    | ok members => exact congrArg _ (verdict_evidenceResult ..)

end

/-! ### The law of non-inputs -/

/-- What the evaluators say of a handoff does not depend on its declared non-inputs. -/
structure NonInputsUnread (items : ScalarKind → Text → List Val) (handoff : Dict)
    (corpus witnesses : List Dict) : Prop where
  unconsumed : ∀ evidence, consumesGateEvidence handoff evidence = false →
    evaluateGate items handoff corpus witnesses evidence =
      evaluateGate items handoff corpus witnesses none
  consumed : ∀ evidence, consumesGateEvidence handoff evidence = true →
    (evaluateGate items handoff corpus witnesses evidence).map GateResult.verdict =
      (reduceGateEvidence items (evidence.getD [])).bind fun reduced =>
        (iterate items (blockedBy handoff)).map fun _ => reduced.1.verdict
  lineage : ∀ handoff' corpus' witnesses', AgreeOff isLineage handoff handoff' →
    List.Forall₂ (fun r r' => r' = r ∨
      AgreeOff isLineage r r' ∧ ∀ id ∈ blockerIds items handoff, indexedStubId r ≠ some id)
      corpus corpus' →
    List.Forall₂ (AgreeOff isLineage) witnesses witnesses' →
    deriveReadiness items handoff' corpus' = deriveReadiness items handoff corpus ∧
      ∀ evidence, evaluateGate items handoff' corpus' witnesses' evidence =
        evaluateGate items handoff corpus witnesses evidence
  notes : ∀ handoff' corpus' witnesses', AgreeOff isNotes handoff handoff' →
    List.Forall₂ (AgreeOff isNotes) corpus corpus' →
    List.Forall₂ (AgreeOff isNotes) witnesses witnesses' →
    deriveReadiness items handoff' corpus' = deriveReadiness items handoff corpus ∧
      (isStructuredGate handoff = true →
        (handoff'.get Key.blockingNotes = handoff.get Key.blockingNotes ∨
          isScaffoldSentinel (handoff.get Key.blockingNotes) = false ∧
            isScaffoldSentinel (handoff'.get Key.blockingNotes) = false) →
        ∀ evidence, evaluateGate items handoff' corpus' witnesses' evidence =
          evaluateGate items handoff corpus witnesses evidence)

/-- No verdict depends on evidence that is not consumed, on lineage outside of the blockers' own
groups, or, behind structured blockers, on notes. -/
theorem nonInputsUnread (items : ScalarKind → Text → List Val) (handoff : Dict)
    (corpus witnesses : List Dict) : NonInputsUnread items handoff corpus witnesses where
  unconsumed evidence h := evaluateGate_of_not_consumes h
  consumed evidence h := verdict_of_consumes h
  lineage handoff' corpus' witnesses' hh hc hw := by
    have halike : List.Forall₂ (SeenAlike (blockerIds items handoff)) corpus corpus' := by
      refine hc.imp fun r r' hr => ?_
      rcases hr with rfl | ⟨hr, hgroup⟩
      · exact ⟨.refl _ _, fun _ _ _ => rfl⟩
      · exact ⟨hr.nonInput_of_lineage, fun id hid hkey => absurd hkey (hgroup id hid)⟩
    refine ⟨deriveReadiness_alike hh.nonInput_of_lineage halike, fun evidence => ?_⟩
    exact evaluateGate_alike hh.nonInput_of_lineage halike
      (hw.imp fun _ _ hr => hr.nonInput_of_lineage) (by rw [hh.scaffoldSentinelField_eq])
      (by rw [hh.hasBlockingNotes_eq]) evidence
  notes handoff' corpus' witnesses' hh hc hw := by
    have halike := seenAlike_of_notes (blockerIds items handoff) hc
    refine ⟨deriveReadiness_alike hh.nonInput_of_notes halike, fun hs hplain evidence => ?_⟩
    refine evaluateGate_alike hh.nonInput_of_notes halike
      (hw.imp fun _ _ hr => hr.nonInput_of_notes) ?_ (by simp [hs]) evidence
    have hsame : isScaffoldSentinel (handoff'.get Key.blockingNotes) =
        isScaffoldSentinel (handoff.get Key.blockingNotes) := by
      rcases hplain with heq | ⟨hold, hnew⟩
      · rw [heq]
      · rw [hold, hnew]
    rw [scaffoldSentinelField, hh.get _ rfl, hsame, scaffoldSentinelField]

end Gate

end CoordinatorCore
