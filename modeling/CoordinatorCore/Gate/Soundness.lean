import CoordinatorCore.Gate.Routes

/-!
# What a cleared gate has behind it

A gate is discharged when nothing holds it, when every blocker has shipped with a commit, when
every leg of the evidence that stands for its prose was read and matches, or when the witness of
its prose has shipped with a commit. The evaluators clear and free on less in a few places: a
placeholder in `gate_notes` is not looked for, members of `blocked_by` that are no strings are
dropped, a leg nobody read can match, and a witness need not name a commit.
-/

namespace CoordinatorCore

open Text

namespace Gate

/-! ### Blank fields -/

/-- A value with nothing in it. -/
def isBlankField (v : Val) : Bool :=
  !v.truthy || match v with
    | .str s => (strip s).isEmpty
    | _ => false

/-- Prose is not blank. -/
theorem isBlankField_of_isProse {v : Val} (h : isProse v = true) : isBlankField v = false := by
  cases v with
  | str s =>
    have hstrip : (strip s).isEmpty = false := by simpa [isProse] using h
    have hne : s ≠ [] := by
      rintro rfl
      cases hstrip
    simp [isBlankField, Val.truthy, hne, hstrip]
  | _ => cases h

/-- A placeholder is prose. -/
theorem isProse_of_isScaffoldSentinel {v : Val} (h : isScaffoldSentinel v = true) :
    isProse v = true := by
  cases v with
  | str s =>
    rw [isProse, Bool.not_eq_true']
    rw [isScaffoldSentinel, Bool.or_eq_true, beq_iff_eq, List.any_eq_true] at h
    rcases h with h | ⟨p, hp, hpre⟩
    · rw [h]
      rfl
    · cases hs : strip s with
      | nil =>
        rw [hs, List.isPrefixOf_iff_prefix, List.prefix_nil] at hpre
        subst hpre
        exact absurd hp (by decide)
      | cons c t => rfl
  | _ => cases h

/-- No placeholder is seen when `gate_dependency` and `blocking_notes` are none. -/
theorem scaffoldSentinelField_isSome_eq_false {handoff : Dict} :
    (scaffoldSentinelField handoff).isSome = false ↔
      isScaffoldSentinel (handoff.get Key.gateDependency) = false ∧
        isScaffoldSentinel (handoff.get Key.blockingNotes) = false := by
  rw [scaffoldSentinelField]
  split_ifs with h1 h2 <;> simp_all

section

variable (items : ScalarKind → Text → List Val) (handoff : Dict) (corpus witnesses : List Dict)
  (evidence : Option Dict)

/-! ### The purpose of a gate -/

/-- The three fields a person writes the gate in are blank. -/
def FieldsBlank : Prop :=
  isBlankField (handoff.get Key.gateDependency) = true ∧
    isBlankField (handoff.get Key.blockingNotes) = true ∧
    isBlankField (handoff.get Key.gateNotes) = true

/-- No field of the gate is an unfilled scaffold. -/
def Authored : Prop :=
  ∀ field ∈ [Key.gateDependency, Key.blockingNotes, Key.gateNotes],
    isScaffoldSentinel (handoff.get field) = false

/-- Nothing gates the handoff. -/
def NothingGates : Prop := isStructuredGate handoff = false ∧ FieldsBlank handoff

/-- Every blocker resolves to a record that is discharged, and nothing is written beside them. -/
def BlockersDischarged : Prop :=
  isBlankField (handoff.get Key.gateDependency) = true ∧ isStructuredGate handoff = true ∧
    ∃ members, iterate items (blockedBy handoff) = .ok members ∧
      ∀ m ∈ members, ∃ id blocker sha, m = .str id ∧ (indexById corpus).get id = some blocker ∧
        Discharged (indexById corpus) maxContinuationChaseDepth blocker sha

/-- Every leg of the evidence was read and matches. -/
def LegsRead : Prop :=
  ∃ e, evidence = some e ∧ ∃ legs, LegsAre items e legs ∧
    ∀ leg ∈ legs, leg.get Key.readOk = .bool true ∧ LegHolds leg

/-- Evidence is said to stand for the prose there is, and its legs bear it out. -/
def ProseWitnessed : Prop :=
  isBlankField (handoff.get Key.gateDependency) = false ∧
    (∃ e, evidence = some e ∧ e.get Key.coversProse = .bool true) ∧ LegsRead items evidence

/-- The one witness has shipped with a commit. -/
def WitnessShipped : Prop :=
  isStructuredGate handoff = false ∧ ∃ witness, witnesses = [witness] ∧
    deploymentState witness = some State.shipped ∧
      ∃ sha, nonEmptyStr (witness.get Key.shippedIn) = some sha

/-- The gate is really discharged. -/
def ReallyDischarged : Prop :=
  Authored handoff ∧
    (NothingGates handoff ∨ BlockersDischarged items handoff corpus ∨
      ProseWitnessed items handoff evidence ∨ WitnessShipped handoff witnesses)

/-- The gate is really free, as the triage may report it. -/
def ReallyFree : Prop :=
  NothingGates handoff ∨ BlockersDischarged items handoff corpus ∨
    ProseWitnessed items handoff evidence ∨
      (isBlankField (handoff.get Key.gateDependency) = true ∧ LegsRead items evidence)

/-! ### The rules that clear and free -/

/-- Evidence stands for the gate and its legs hold. -/
def EvidenceClears : Prop :=
  consumesGateEvidence handoff evidence = true ∧ LegsHold items evidence ∧
    ∃ members, iterate items (blockedBy handoff) = .ok members

/-- The blockers decide, and all that are strings have shipped. -/
def BlockersClear : Prop :=
  PlainGate handoff ∧ isStructuredGate handoff = true ∧
    ∃ members, iterate items (blockedBy handoff) = .ok members ∧
      (reportedId handoff).hashable = true ∧ stringMembers members ≠ [] ∧
        OpenGate handoff (indexById corpus) (stringMembers members)

/-- There is nothing to decide by. -/
def VacuouslyClear : Prop :=
  PlainGate handoff ∧ isStructuredGate handoff = false ∧ hasBlockingNotes handoff = false

/-- One witness decides, and it has shipped. -/
def WitnessClears : Prop :=
  AwaitsWitness handoff evidence ∧ ∃ witness, witnesses = [witness] ∧
    deploymentState witness = some State.shipped

/-- Evidence decides a handoff without prose, and its legs hold. -/
def EvidenceFrees : Prop :=
  PlainGate handoff ∧ (hasBlockingNotes handoff && !isStructuredGate handoff) = false ∧
    LegsHold items evidence ∧ ∃ members, iterate items (blockedBy handoff) = .ok members

/-- The blockers decide for the triage. -/
def BlockersFree : Prop :=
  PlainGate handoff ∧ evidence = none ∧ isStructuredGate handoff = true ∧
    ∃ members, iterate items (blockedBy handoff) = .ok members ∧
      OpenGate handoff (indexById corpus) (stringMembers members)

/-- What the evaluator clears by its rules is discharged: no rule clears on less. -/
structure ClearsSafely : Prop where
  covering : EvidenceClears items handoff evidence →
    isScaffoldSentinel (handoff.get Key.gateNotes) = false ∧
      (ProseWitnessed items handoff evidence ∨ WitnessShipped handoff witnesses)
  blockers : BlockersClear items handoff corpus →
    isScaffoldSentinel (handoff.get Key.gateNotes) = false ∧
      ((isBlankField (handoff.get Key.gateDependency) = true ∧
          ∀ members, iterate items (blockedBy handoff) = .ok members →
            ∀ m ∈ members, ∃ id, m = .str id) ∨
        ProseWitnessed items handoff evidence)
  vacuous : VacuouslyClear handoff →
    FieldsBlank handoff ∨ ProseWitnessed items handoff evidence ∨ WitnessShipped handoff witnesses
  witness : WitnessClears handoff witnesses evidence →
    ∀ w ∈ witnesses, ∃ sha, nonEmptyStr (w.get Key.shippedIn) = some sha

/-- Evidence is said to stand for the prose, in so many words, and every leg of it was read. -/
structure ReadForProse : Prop where
  covers : ∀ e ∈ evidence, e.get Key.coversProse = .bool true
  read : ∀ e ∈ evidence, ∀ legs, LegsAre items e legs → ∀ leg ∈ legs,
    leg.get Key.readOk = .bool true

/-- What the triage frees by its rules is free: no rule frees on less. Beside evidence with an
unread leg, blank fields or shipped blockers still free the handoff. -/
structure FreesSafely : Prop where
  covering : EvidenceClears items handoff evidence → ReadForProse items evidence
  odd : EvidenceFrees items handoff evidence →
    isBlankField (handoff.get Key.gateDependency) = false → ReadForProse items evidence
  legs : EvidenceFrees items handoff evidence →
    isBlankField (handoff.get Key.gateDependency) = true →
    ∀ e ∈ evidence, ∀ legs, LegsAre items e legs →
      (∃ leg ∈ legs, leg.get Key.readOk ≠ .bool true) →
      if isStructuredGate handoff = true then
        ∀ members, iterate items (blockedBy handoff) = .ok members → ∀ m ∈ members,
          ∃ id blocker sha, m = .str id ∧ (indexById corpus).get id = some blocker ∧
            Discharged (indexById corpus) maxContinuationChaseDepth blocker sha
      else
        isBlankField (handoff.get Key.blockingNotes) = true ∧
          isBlankField (handoff.get Key.gateNotes) = true
  blockers : BlockersFree items handoff corpus evidence →
    isBlankField (handoff.get Key.gateDependency) = true ∧
      ∀ members, iterate items (blockedBy handoff) = .ok members → ∀ m ∈ members, ∃ id, m = .str id
  vacuous : VacuouslyClear handoff → evidence = none → FieldsBlank handoff

variable {items handoff corpus witnesses evidence}

private theorem hasProseGate_of_consumes (h : consumesGateEvidence handoff evidence = true) :
    hasProseGate handoff = true := by
  simp only [consumesGateEvidence, Bool.and_eq_true] at h
  exact h.2.1

/-- The evaluator clears by one of four rules. -/
theorem clears_iff :
    Clears items handoff corpus witnesses evidence ↔
      EvidenceClears items handoff evidence ∨ BlockersClear items handoff corpus ∨
        VacuouslyClear handoff ∨ WitnessClears handoff witnesses evidence := by
  constructor
  · rintro ⟨r, hr, hv⟩
    -- the evaluator asks for evidence first, then for a plain gate, then for a witness
    by_cases hconsumes : consumesGateEvidence handoff evidence = true
    · obtain ⟨hlegs, members, hm, -⟩ := (evaluateGate_consumes_eq_ok hconsumes hv).mp hr
      exact .inl ⟨hconsumes, hlegs, members, hm⟩
    by_cases hplain : PlainGate handoff
    · refine .inr ?_
      rw [evaluateGate_of_no_prose _ _ _ _ hplain.prose hplain.sentinel] at hr
      cases hs : isStructuredGate handoff with
      | true =>
        rw [if_pos hs] at hr
        exact .inl ⟨hplain, hs, structured_clear_iff.mp ⟨r, hr, hv⟩⟩
      | false =>
        rw [hs, if_neg Bool.false_ne_true] at hr
        cases hr
        refine .inr (.inl ⟨hplain, hs, ?_⟩)
        by_contra hnotes
        rw [GateResult.unclearing, if_pos (by simpa using hnotes)] at hv
        cases hv
    by_cases hawaits : AwaitsWitness handoff evidence
    · refine .inr (.inr (.inr ⟨hawaits, ?_⟩))
      rw [evaluateGate_of_awaitsWitness hawaits] at hr
      cases hr
      rcases hw : witnesses with _ | ⟨witness, _ | ⟨witness', rest⟩⟩
      · rw [hw] at hv
        cases hv
      · rw [hw] at hv
        refine ⟨witness, rfl, ?_⟩
        by_contra hs
        rw [evaluateProseGate, if_neg hs] at hv
        cases hv
      · rw [hw] at hv
        cases hv
    · rw [evaluateGate_surfaces hr (by simpa using hconsumes) hplain hawaits] at hv
      cases hv
  · rintro (⟨hconsumes, hlegs, members, hm⟩ | ⟨hplain, hs, h⟩ | ⟨hplain, hs, hnotes⟩ |
      ⟨hawaits, witness, rfl, hs⟩)
    · exact ⟨_, (evaluateGate_consumes_eq_ok hconsumes rfl).mpr ⟨hlegs, members, hm, rfl⟩, rfl⟩
    · rw [Clears, evaluateGate_of_no_prose _ _ _ _ hplain.prose hplain.sentinel, if_pos hs]
      exact structured_clear_iff.mpr h
    · rw [Clears, evaluateGate_of_no_prose _ _ _ _ hplain.prose hplain.sentinel, hs,
        if_neg Bool.false_ne_true, hnotes]
      exact ⟨_, rfl, rfl⟩
    · rw [Clears, evaluateGate_of_awaitsWitness hawaits]
      refine ⟨_, rfl, ?_⟩
      rw [evaluateProseGate, if_pos hs]

private theorem legsHold_of_reduced {ids : List Text} {t : TriageResult}
    (ht : (reduceGateEvidence items (evidence.getD [])).map (fun (status, legs) =>
      triageBase handoff ids evidence status legs) = .ok t) (hfreed : t.status = .freed) :
    LegsHold items evidence := by
  obtain ⟨⟨status, results⟩, hred, rfl⟩ := except_map_eq_ok.mp ht
  obtain rfl : status = .freed := hfreed
  cases evidence with
  | none => cases hred
  | some e => exact legsHold_some_iff.mpr ⟨results, hred⟩

private theorem reduced_of_legsHold (handoff : Dict) (ids : List Text)
    (h : LegsHold items evidence) :
    ∃ t, (reduceGateEvidence items (evidence.getD [])).map (fun (status, legs) =>
      triageBase handoff ids evidence status legs) = .ok t ∧ t.status = .freed := by
  obtain ⟨e, rfl, hlegs⟩ := h
  obtain ⟨results, hred⟩ := legsHold_some_iff.mp ⟨e, rfl, hlegs⟩
  exact ⟨_, except_map_eq_ok.mpr ⟨_, hred, rfl⟩, rfl⟩

/-- The triage frees by one of four rules. -/
theorem freed_iff :
    Freed items handoff corpus evidence ↔
      EvidenceClears items handoff evidence ∨ EvidenceFrees items handoff evidence ∨
        BlockersFree items handoff corpus evidence ∨
          (VacuouslyClear handoff ∧ evidence = none) := by
  constructor
  · rintro ⟨t, ht, hfreed⟩
    rw [evaluateGateTriage] at ht
    obtain ⟨members, hm, ht⟩ := except_bind_eq_ok.mp ht
    simp only [Bool.true_and] at ht
    -- the branches of the triage in their order
    split_ifs at ht with hsentinel hnotes hcovers hprose hev hs
    · cases ht
      cases hfreed
    · cases ht
      cases hfreed
    · refine .inl ⟨?_, legsHold_of_reduced ht hfreed, members, hm⟩
      simp [consumesGateEvidence, hnotes, hcovers, Option.not_isSome_iff_eq_none.mp hsentinel]
    · obtain ⟨stale, -, rfl⟩ := except_map_eq_ok.mp ht
      cases stale <;> cases hfreed
    · exact .inr (.inl ⟨⟨by simpa using hsentinel, by simpa using hprose⟩, by simpa using hnotes,
        legsHold_of_reduced ht hfreed, members, hm⟩)
    · have hs' : isStructuredGate handoff = false := by simpa using hs
      exact .inr (.inr (.inr ⟨⟨⟨by simpa using hsentinel, by simpa using hprose⟩, hs',
        by simpa [hs'] using hnotes⟩, by simpa using hev⟩))
    · exact .inr (.inr (.inl ⟨⟨by simpa using hsentinel, by simpa using hprose⟩,
        by simpa using hev, by simpa using hs, members, hm,
        (triageStructured_freed_iff evidence).mp ⟨t, ht, hfreed⟩⟩))
  · rintro (⟨hconsumes, hlegs, members, hm⟩ | ⟨hplain, hnotes, hlegs, members, hm⟩ |
      ⟨hplain, rfl, hs, members, hm, hopen⟩ | ⟨⟨hplain, hs, hnotes⟩, rfl⟩)
    · obtain ⟨t, ht, hfreed⟩ := reduced_of_legsHold handoff (stringMembers members) hlegs
      refine ⟨t, ?_, hfreed⟩
      simp only [consumesGateEvidence, Bool.and_eq_true, Option.isNone_iff_eq_none,
        Bool.not_eq_true'] at hconsumes
      obtain ⟨⟨hsentinel, hnotes⟩, hprose, hcovers⟩ := hconsumes
      simp [evaluateGateTriage, hm, Except.bind, hsentinel, hnotes, hprose, hcovers, ht]
    · obtain ⟨t, ht, hfreed⟩ := reduced_of_legsHold handoff (stringMembers members) hlegs
      refine ⟨t, ?_, hfreed⟩
      have hsome : evidence.isSome = true := by
        obtain ⟨e, rfl, -⟩ := hlegs
        rfl
      simp [evaluateGateTriage, hm, Except.bind, hplain.sentinel, hnotes, hplain.prose, hsome, ht]
    · rw [Freed, evaluateGateTriage_of_no_prose _ _ _ _ hplain.prose
        (by rw [hplain.sentinel]; rfl), if_pos hs, hm]
      exact (triageStructured_freed_iff none).mpr hopen
    · rw [Freed, evaluateGateTriage_of_no_prose _ _ _ _ hplain.prose
        (by rw [hplain.sentinel]; rfl), hs, if_neg Bool.false_ne_true, hnotes]
      exact ⟨_, rfl, rfl⟩

/-! ### Each rule on its own -/

private theorem gateDependency_of_consumes (h : consumesGateEvidence handoff evidence = true) :
    isBlankField (handoff.get Key.gateDependency) = false :=
  isBlankField_of_isProse (hasProseGate_of_consumes h)

private theorem authored_iff (hsentinel : (scaffoldSentinelField handoff).isSome = false) :
    Authored handoff ↔ isScaffoldSentinel (handoff.get Key.gateNotes) = false := by
  obtain ⟨hgate, hblocking⟩ := scaffoldSentinelField_isSome_eq_false.mp hsentinel
  simp [Authored, hgate, hblocking]

private theorem authored_of_no_notes (hsentinel : (scaffoldSentinelField handoff).isSome = false)
    (hnotes : hasBlockingNotes handoff = false) : Authored handoff := by
  rw [authored_iff hsentinel, Bool.eq_false_iff]
  intro h
  rw [hasBlockingNotes, isProse_of_isScaffoldSentinel h, Bool.true_or] at hnotes
  cases hnotes

/-- What shipped strings discharge. -/
private theorem blockersDischarged_iff {members : List Val}
    (hs : isStructuredGate handoff = true) (hm : iterate items (blockedBy handoff) = .ok members)
    (hopen : OpenGate handoff (indexById corpus) (stringMembers members)) :
    BlockersDischarged items handoff corpus ↔
      isBlankField (handoff.get Key.gateDependency) = true ∧
        ∀ members, iterate items (blockedBy handoff) = .ok members →
          ∀ m ∈ members, ∃ id, m = .str id := by
  constructor
  · rintro ⟨hblank, -, members', hm', hall⟩
    refine ⟨hblank, fun ms hms m hmem => ?_⟩
    cases hm'.symm.trans hms
    obtain ⟨id, -, -, hid, -⟩ := hall m hmem
    exact ⟨id, hid⟩
  · rintro ⟨hblank, hstr⟩
    refine ⟨hblank, hs, members, hm, fun m hmem => ?_⟩
    obtain ⟨id, rfl⟩ := hstr members hm m hmem
    have hid : id ∈ stringMembers members := List.mem_filterMap.mpr ⟨.str id, hmem, rfl⟩
    obtain ⟨sha, hsha⟩ := hopen.2 id hid
    obtain ⟨blocker, hget, hdis⟩ := discharged_of_bucketOf hsha
    exact ⟨id, blocker, sha, rfl, hget, hdis⟩

private theorem discharged_of_evidence_iff (h : EvidenceClears items handoff evidence) :
    ReallyDischarged items handoff corpus witnesses evidence ↔
      isScaffoldSentinel (handoff.get Key.gateNotes) = false ∧
        (ProseWitnessed items handoff evidence ∨ WitnessShipped handoff witnesses) := by
  have hsentinel : (scaffoldSentinelField handoff).isSome = false := by
    have h := h.1
    simp only [consumesGateEvidence, Bool.and_eq_true, Option.isNone_iff_eq_none] at h
    rw [h.1.1]
    rfl
  have hnonblank := gateDependency_of_consumes h.1
  rw [ReallyDischarged, authored_iff hsentinel]
  refine and_congr_right fun _ => ⟨?_, fun h => .inr (.inr h)⟩
  rintro (⟨-, hblank, -⟩ | ⟨hblank, -⟩ | h)
  · rw [hnonblank] at hblank
    cases hblank
  · rw [hnonblank] at hblank
    cases hblank
  · exact h

private theorem discharged_of_blockers_iff (h : BlockersClear items handoff corpus) :
    ReallyDischarged items handoff corpus witnesses evidence ↔
      isScaffoldSentinel (handoff.get Key.gateNotes) = false ∧
        ((isBlankField (handoff.get Key.gateDependency) = true ∧
            ∀ members, iterate items (blockedBy handoff) = .ok members →
              ∀ m ∈ members, ∃ id, m = .str id) ∨
          ProseWitnessed items handoff evidence) := by
  obtain ⟨hplain, hs, members, hm, -, -, hopen⟩ := h
  rw [ReallyDischarged, authored_iff hplain.sentinel, ← blockersDischarged_iff hs hm hopen]
  refine and_congr_right fun _ => ⟨?_, fun h => ?_⟩
  · rintro (⟨hs', -⟩ | h | h | ⟨hs', -⟩)
    · rw [hs] at hs'
      cases hs'
    · exact .inl h
    · exact .inr h
    · rw [hs] at hs'
      cases hs'
  · exact .inr (h.imp_right .inl)

private theorem discharged_of_vacuous_iff (h : VacuouslyClear handoff) :
    ReallyDischarged items handoff corpus witnesses evidence ↔
      FieldsBlank handoff ∨ ProseWitnessed items handoff evidence ∨
        WitnessShipped handoff witnesses := by
  obtain ⟨hplain, hs, hnotes⟩ := h
  rw [ReallyDischarged, and_iff_right (authored_of_no_notes hplain.sentinel hnotes)]
  constructor
  · rintro (⟨-, h⟩ | ⟨-, hs', -⟩ | h)
    · exact .inl h
    · rw [hs] at hs'
      cases hs'
    · exact .inr h
  · rintro (h | h)
    · exact .inl ⟨hs, h⟩
    · exact .inr (.inr h)

private theorem discharged_of_witness_iff (h : WitnessClears handoff witnesses evidence) :
    ReallyDischarged items handoff corpus witnesses evidence ↔
      ∀ w ∈ witnesses, ∃ sha, nonEmptyStr (w.get Key.shippedIn) = some sha := by
  obtain ⟨hawaits, witness, rfl, hship⟩ := h
  have hnonblank := isBlankField_of_isProse hawaits.prose
  rw [ReallyDischarged, and_iff_right (authored_of_no_notes hawaits.sentinel hawaits.notes),
    List.forall_mem_singleton]
  constructor
  · rintro (⟨-, hblank, -⟩ | ⟨hblank, -⟩ | ⟨-, ⟨e, rfl, hcovers⟩, -⟩ | ⟨-, w, hw, -, hsha⟩)
    · rw [hnonblank] at hblank
      cases hblank
    · rw [hnonblank] at hblank
      cases hblank
    · have hnot := hawaits.covers
      rw [coversProse, hcovers] at hnot
      cases hnot
    · cases hw
      exact hsha
  · intro hsha
    exact .inr (.inr (.inr ⟨hawaits.unstructured, witness, rfl, hship, hsha⟩))

/-- The legs of an evidence block are determined. -/
theorem LegsAre.unique {e : Dict} {legs legs' : List Dict} (h : LegsAre items e legs)
    (h' : LegsAre items e legs') : legs = legs' :=
  (List.map_injective_iff.mpr fun _ _ heq => Val.map.inj heq)
    (Except.ok.inj (h.2.symm.trans h'.2))

/-- Of legs that hold it is left to say that they were read. -/
private theorem legsRead_iff {e : Dict} {legs : List Dict} (hare : LegsAre items e legs)
    (hall : ∀ leg ∈ legs, LegHolds leg ∧ isFlag false (leg.get Key.readOk) = false) :
    LegsRead items (some e) ↔ ∀ leg ∈ legs, leg.get Key.readOk = .bool true := by
  constructor
  · rintro ⟨e', he', legs', hare', hread⟩ leg hleg
    cases he'
    exact (hread leg (hare.unique hare' ▸ hleg)).1
  · exact fun h => ⟨e, rfl, legs, hare, fun leg hleg => ⟨h leg hleg, (hall leg hleg).1⟩⟩

private theorem proseWitnessed_iff (hlegs : LegsHold items evidence)
    (hnonblank : isBlankField (handoff.get Key.gateDependency) = false) :
    ProseWitnessed items handoff evidence ↔ ReadForProse items evidence := by
  obtain ⟨e, rfl, legs, hare, hall⟩ := hlegs
  rw [ProseWitnessed, and_iff_right hnonblank, legsRead_iff hare hall]
  constructor
  · rintro ⟨⟨e', he', hcovers⟩, hread⟩
    cases he'
    refine ⟨fun e' he' => ?_, fun e' he' legs' hare' => ?_⟩
    · cases he'
      exact hcovers
    · cases he'
      exact hare.unique hare' ▸ hread
  · exact fun h => ⟨⟨e, rfl, h.covers e rfl⟩, h.read e rfl legs hare⟩

/-- Evidence that decides a handoff with something in `gate_dependency`. -/
private theorem free_of_prose_iff (hlegs : LegsHold items evidence)
    (hnonblank : isBlankField (handoff.get Key.gateDependency) = false) :
    ReallyFree items handoff corpus evidence ↔ ReadForProse items evidence := by
  rw [← proseWitnessed_iff hlegs hnonblank]
  refine ⟨?_, fun h => .inr (.inr (.inl h))⟩
  rintro (⟨-, hblank, -⟩ | ⟨hblank, -⟩ | h | ⟨hblank, -⟩)
  · rw [hnonblank] at hblank
    cases hblank
  · rw [hnonblank] at hblank
    cases hblank
  · exact h
  · rw [hnonblank] at hblank
    cases hblank

/-- Evidence that decides a handoff without a dependency. -/
private theorem free_of_legs_iff (h : EvidenceFrees items handoff evidence)
    (hblank : isBlankField (handoff.get Key.gateDependency) = true) :
    ReallyFree items handoff corpus evidence ↔
      ∀ e ∈ evidence, ∀ legs, LegsAre items e legs →
        (∃ leg ∈ legs, leg.get Key.readOk ≠ .bool true) →
        if isStructuredGate handoff = true then
          ∀ members, iterate items (blockedBy handoff) = .ok members → ∀ m ∈ members,
            ∃ id blocker sha, m = .str id ∧ (indexById corpus).get id = some blocker ∧
              Discharged (indexById corpus) maxContinuationChaseDepth blocker sha
        else
          isBlankField (handoff.get Key.blockingNotes) = true ∧
            isBlankField (handoff.get Key.gateNotes) = true := by
  obtain ⟨-, -, ⟨e, rfl, legs, hare, hall⟩, members, hm⟩ := h
  have hprose : ¬ ProseWitnessed items handoff (some e) := by
    rintro ⟨hno, -⟩
    rw [hblank] at hno
    cases hno
  rw [ReallyFree, or_iff_right hprose, and_iff_right hblank, legsRead_iff hare hall]
  constructor
  · rintro hfree e' he' legs' hare' ⟨leg, hleg, hunread⟩
    cases he'
    have hrest := or_assoc.mpr hfree |>.resolve_right fun hread =>
      hunread (hread leg (hare'.unique hare ▸ hleg))
    rcases hrest with ⟨hs, -, hnotes⟩ | ⟨-, hs, members', hm', hshipped⟩
    · rw [if_neg (by rw [hs]; exact Bool.false_ne_true)]
      exact hnotes
    · rw [if_pos hs]
      intro members'' hm''
      rw [hm'] at hm''
      exact Except.ok.inj hm'' ▸ hshipped
  · intro h
    by_cases hread : ∀ leg ∈ legs, leg.get Key.readOk = .bool true
    · exact .inr (.inr hread)
    push Not at hread
    have hrest := h e rfl legs hare hread
    split_ifs at hrest with hs
    · exact .inr (.inl ⟨hblank, hs, members, hm, hrest members hm⟩)
    · exact .inl ⟨Bool.eq_false_iff.mpr hs, hblank, hrest⟩

private theorem not_legsRead_none : ¬ LegsRead items none := by
  rintro ⟨e, he, -⟩
  cases he

private theorem free_of_blockers_iff (h : BlockersFree items handoff corpus evidence) :
    ReallyFree items handoff corpus evidence ↔
      isBlankField (handoff.get Key.gateDependency) = true ∧
        ∀ members, iterate items (blockedBy handoff) = .ok members →
          ∀ m ∈ members, ∃ id, m = .str id := by
  obtain ⟨-, rfl, hs, members, hm, hopen⟩ := h
  rw [← blockersDischarged_iff hs hm hopen]
  refine ⟨?_, fun h => .inr (.inl h)⟩
  rintro (⟨hs', -⟩ | h | ⟨-, -, hread⟩ | ⟨-, hread⟩)
  · rw [hs] at hs'
    cases hs'
  · exact h
  · exact absurd hread not_legsRead_none
  · exact absurd hread not_legsRead_none

private theorem free_of_vacuous_iff (h : VacuouslyClear handoff) (hnone : evidence = none) :
    ReallyFree items handoff corpus evidence ↔ FieldsBlank handoff := by
  obtain ⟨-, hs, -⟩ := h
  subst hnone
  refine ⟨?_, fun h => .inl ⟨hs, h⟩⟩
  rintro (⟨-, h⟩ | ⟨-, hs', -⟩ | ⟨-, -, hread⟩ | ⟨-, hread⟩)
  · exact h
  · rw [hs] at hs'
    cases hs'
  · exact absurd hread not_legsRead_none
  · exact absurd hread not_legsRead_none

/-! ### Both evaluators -/

private theorem clears_discharged_iff :
    (Clears items handoff corpus witnesses evidence →
        ReallyDischarged items handoff corpus witnesses evidence) ↔
      ClearsSafely items handoff corpus witnesses evidence := by
  rw [clears_iff]
  constructor
  · intro h
    exact
      { covering := fun hr => (discharged_of_evidence_iff hr).mp (h (.inl hr))
        blockers := fun hr => (discharged_of_blockers_iff hr).mp (h (.inr (.inl hr)))
        vacuous := fun hr => (discharged_of_vacuous_iff hr).mp (h (.inr (.inr (.inl hr))))
        witness := fun hr => (discharged_of_witness_iff hr).mp (h (.inr (.inr (.inr hr)))) }
  · rintro h (hr | hr | hr | hr)
    · exact (discharged_of_evidence_iff hr).mpr (h.covering hr)
    · exact (discharged_of_blockers_iff hr).mpr (h.blockers hr)
    · exact (discharged_of_vacuous_iff hr).mpr (h.vacuous hr)
    · exact (discharged_of_witness_iff hr).mpr (h.witness hr)

private theorem freed_free_iff :
    (Freed items handoff corpus evidence → ReallyFree items handoff corpus evidence) ↔
      FreesSafely items handoff corpus evidence := by
  rw [freed_iff]
  constructor
  · intro h
    exact
      { covering := fun hr =>
          (free_of_prose_iff hr.2.1 (gateDependency_of_consumes hr.1)).mp (h (.inl hr))
        odd := fun hr hnonblank => (free_of_prose_iff hr.2.2.1 hnonblank).mp (h (.inr (.inl hr)))
        legs := fun hr hblank => (free_of_legs_iff hr hblank).mp (h (.inr (.inl hr)))
        blockers := fun hr => (free_of_blockers_iff hr).mp (h (.inr (.inr (.inl hr))))
        vacuous := fun hr hnone =>
          (free_of_vacuous_iff hr hnone).mp (h (.inr (.inr (.inr ⟨hr, hnone⟩)))) }
  · rintro h (hr | hr | hr | ⟨hr, hnone⟩)
    · exact (free_of_prose_iff hr.2.1 (gateDependency_of_consumes hr.1)).mpr (h.covering hr)
    · cases hblank : isBlankField (handoff.get Key.gateDependency) with
      | false => exact (free_of_prose_iff hr.2.2.1 hblank).mpr (h.odd hr hblank)
      | true => exact (free_of_legs_iff hr hblank).mpr (h.legs hr hblank)
    · exact (free_of_blockers_iff hr).mpr (h.blockers hr)
    · exact (free_of_vacuous_iff hr hnone).mpr (h.vacuous hr hnone)

/-- A handoff the evaluator clears is really discharged, and one the triage frees is really free,
exactly when no rule that clears or frees it does so on less. -/
theorem gate_sound_iff (items : ScalarKind → Text → List Val) (handoff : Dict)
    (corpus witnesses : List Dict) (evidence : Option Dict) :
    ((Clears items handoff corpus witnesses evidence →
        ReallyDischarged items handoff corpus witnesses evidence) ∧
      (Freed items handoff corpus evidence → ReallyFree items handoff corpus evidence)) ↔
    ClearsSafely items handoff corpus witnesses evidence ∧
      FreesSafely items handoff corpus evidence :=
  and_congr clears_discharged_iff freed_free_iff

end

/-! ### A placeholder nobody looks for -/

/-- A handoff whose gate was never authored, with one blocker. -/
def unfilledNotes : Dict :=
  [(.str Key.gateNotes, .str scaffoldSentinel), (.str Key.blockedBy, .seq [.str ['s', '1']])]

/-- The blocker, shipped. -/
def shippedStub : Dict :=
  [(.str Key.stubId, .str ['s', '1']), (.str Key.deploymentState, .str State.shipped),
    (.str Key.shippedIn, .str ['c', '1'])]

/-- The evaluator clears a handoff whose `gate_notes` is an unfilled scaffold. -/
theorem unfilledNotes_cleared :
    Clears noItems unfilledNotes [shippedStub] [] none ∧
      ¬ ((Clears noItems unfilledNotes [shippedStub] [] none →
          ReallyDischarged noItems unfilledNotes [shippedStub] [] none) ∧
        (Freed noItems unfilledNotes [shippedStub] none →
          ReallyFree noItems unfilledNotes [shippedStub] none)) := by
  have hclears : Clears noItems unfilledNotes [shippedStub] [] none := ⟨_, rfl, rfl⟩
  refine ⟨hclears, fun h => ?_⟩
  obtain ⟨hauthored, -⟩ := h.1 hclears
  exact absurd (hauthored Key.gateNotes (by simp)) (by decide)

end Gate

end CoordinatorCore
