import CoordinatorCore.Gate.Structured

/-!
# The rules in front of the walk

Which rule of the evaluator decides a handoff: evidence that covers the prose, the walk of its
blockers, nothing at all, or the one witness of its prose. Every other handoff is surfaced.
-/

namespace CoordinatorCore

open Text

namespace Gate

section

variable {items : ScalarKind → Text → List Val} {handoff : Dict} {corpus witnesses : List Dict}
  {evidence : Option Dict}

/-- An empty `blocked_by` is read as the empty list. -/
theorem blockedBy_of_unstructured (h : isStructuredGate handoff = false) :
    blockedBy handoff = .seq [] := by
  rw [isStructuredGate, blockedBy, Val.orElse] at h
  rw [blockedBy, Val.orElse]
  split_ifs at h ⊢ with htruthy
  · rw [htruthy] at h
    cases h
  · rfl

/-- The evaluator, on a handoff without prose and without a placeholder. -/
theorem evaluateGate_of_no_prose (items : ScalarKind → Text → List Val)
    (corpus witnesses : List Dict) (evidence : Option Dict)
    (hprose : hasProseGate handoff = false)
    (hsentinel : (scaffoldSentinelField handoff).isSome = false) :
    evaluateGate items handoff corpus witnesses evidence =
      if isStructuredGate handoff then
        evaluateStructuredGate items handoff (indexById corpus) []
      else .ok (.unclearing (reportedId handoff)
        (if hasBlockingNotes handoff then .surface else .clear) []) := by
  rw [evaluateGate]
  simp only [hsentinel, hprose, Bool.false_and, Bool.false_eq_true, if_false, Bool.not_false,
    if_true]
  cases hs : isStructuredGate handoff with
  | true => simp
  | false =>
    rw [blockedBy_of_unstructured hs]
    cases hasBlockingNotes handoff <;> simp [iterate, Except.map]

/-- The triage, likewise, and without evidence. -/
theorem evaluateGateTriage_of_no_prose (items : ScalarKind → Text → List Val)
    (corpus entries : List Dict) (consult : Bool) (hprose : hasProseGate handoff = false)
    (hsentinel : (consult && (scaffoldSentinelField handoff).isSome) = false) :
    evaluateGateTriage items handoff corpus entries none consult =
      if isStructuredGate handoff then
        (iterate items (blockedBy handoff)).bind fun members =>
          triageStructured handoff (stringMembers members) (indexById corpus) entries none
      else .ok (triageBase handoff [] none
        (if consult && hasBlockingNotes handoff then .indeterminate else .freed) []) := by
  rw [evaluateGateTriage]
  simp only [hsentinel, hprose, Bool.false_and, Bool.false_eq_true, if_false]
  cases hs : isStructuredGate handoff with
  | true => simp
  | false =>
    rw [blockedBy_of_unstructured hs]
    cases hasBlockingNotes handoff <;> cases consult <;>
      simp [iterate, Except.bind, stringMembers]

variable (items handoff corpus witnesses evidence)

/-- The evaluator clears the handoff. -/
def Clears : Prop :=
  ∃ r, evaluateGate items handoff corpus witnesses evidence = .ok r ∧ r.verdict = .clear

/-- The triage reports the handoff as freed. -/
def Freed : Prop :=
  ∃ t, evaluateGateTriage items handoff corpus [] evidence true = .ok t ∧ t.status = .freed


variable {items handoff corpus witnesses evidence}

/-- The evaluator, where evidence stands for the gate. -/
theorem evaluateGate_of_consumes (h : consumesGateEvidence handoff evidence = true) :
    evaluateGate items handoff corpus witnesses evidence =
      (reduceGateEvidence items (evidence.getD [])).bind fun reduced =>
        (iterate items (blockedBy handoff)).map
          (evidenceResult (reportedId handoff) reduced.1) := by
  simp only [consumesGateEvidence, Bool.and_eq_true, Option.isNone_iff_eq_none,
    Bool.not_eq_true'] at h
  obtain ⟨⟨hsentinel, hnotes⟩, hprose, hcovers⟩ := h
  simp [evaluateGate, hsentinel, hnotes, hprose, hcovers]

/-- A handoff that waits for a witness of its prose and for nothing else. -/
structure AwaitsWitness (handoff : Dict) (evidence : Option Dict) : Prop where
  sentinel : (scaffoldSentinelField handoff).isSome = false
  notes : hasBlockingNotes handoff = false
  prose : hasProseGate handoff = true
  covers : coversProse evidence = false
  unstructured : isStructuredGate handoff = false

/-- The evaluator, where a witness decides. -/
theorem evaluateGate_of_awaitsWitness (h : AwaitsWitness handoff evidence) :
    evaluateGate items handoff corpus witnesses evidence =
      .ok (evaluateProseGate handoff witnesses) := by
  simp [evaluateGate, h.sentinel, h.notes, h.prose, h.covers, h.unstructured]

/-- A handoff the evaluator decides by its `blocked_by`, and nothing else. -/
structure PlainGate (handoff : Dict) : Prop where
  sentinel : (scaffoldSentinelField handoff).isSome = false
  prose : hasProseGate handoff = false

/-- What the evaluator does not decide by one of its rules it surfaces. -/
theorem evaluateGate_surfaces {r : GateResult}
    (hr : evaluateGate items handoff corpus witnesses evidence = .ok r)
    (hconsumes : consumesGateEvidence handoff evidence = false)
    (hplain : ¬ PlainGate handoff) (hawaits : ¬ AwaitsWitness handoff evidence) :
    r.verdict = .surface := by
  rw [evaluateGate] at hr
  split_ifs at hr with hsentinel hnotes hcovers hdominates hs hprose
  · obtain ⟨members, -, rfl⟩ := except_map_eq_ok.mp hr
    rfl
  · obtain ⟨members, -, rfl⟩ := except_map_eq_ok.mp hr
    rfl
  · simp [consumesGateEvidence, hnotes, hcovers, Option.not_isSome_iff_eq_none.mp hsentinel]
      at hconsumes
  · obtain ⟨members, -, hr⟩ := except_bind_eq_ok.mp hr
    obtain ⟨stale, -, rfl⟩ := except_map_eq_ok.mp hr
    rfl
  · exact absurd ⟨by simpa using hsentinel, by simpa [hs] using hdominates⟩ hplain
  · exact absurd ⟨by simpa using hsentinel, by simpa using hprose⟩ hplain
  · have hs' : isStructuredGate handoff = false := by simpa using hs
    have hprose' : hasProseGate handoff = true := by simpa using hprose
    exact absurd ⟨by simpa using hsentinel, by simpa [hs'] using hnotes, hprose',
      by simpa [hprose'] using hcovers, hs'⟩ hawaits

/-- The block frees and stands for the prose. -/
def LegsHold (items : ScalarKind → Text → List Val) (evidence : Option Dict) : Prop :=
  ∃ e, evidence = some e ∧ ∃ legs, LegsAre items e legs ∧
    ∀ leg ∈ legs, LegHolds leg ∧ isFlag false (leg.get Key.readOk) = false

theorem legsHold_some_iff {e : Dict} :
    LegsHold items (some e) ↔ ∃ results, reduceGateEvidence items e = .ok (.freed, results) := by
  rw [reduce_freed_iff, LegsHold]
  simp

/-- Where evidence stands for the gate, it clears when its legs hold. -/
theorem evaluateGate_consumes_eq_ok (h : consumesGateEvidence handoff evidence = true)
    {r : GateResult} (hclears : r.verdict = .clear) :
    evaluateGate items handoff corpus witnesses evidence = .ok r ↔
      LegsHold items evidence ∧ ∃ members, iterate items (blockedBy handoff) = .ok members ∧
        r = evidenceResult (reportedId handoff) .freed members := by
  have hsome : ∃ e, evidence = some e := by
    cases evidence with
    | none => simp [consumesGateEvidence, coversProse] at h
    | some e => exact ⟨e, rfl⟩
  obtain ⟨e, rfl⟩ := hsome
  rw [evaluateGate_of_consumes h, Option.getD_some, except_bind_eq_ok]
  rw [legsHold_some_iff]
  constructor
  · rintro ⟨⟨status, results⟩, hred, hmem⟩
    obtain ⟨members, hm, rfl⟩ := except_map_eq_ok.mp hmem
    have hstatus : status = .freed := by
      by_contra hne
      rw [evidenceResult, if_neg hne] at hclears
      cases hclears
    subst hstatus
    exact ⟨⟨results, hred⟩, members, hm, rfl⟩
  · rintro ⟨⟨results, hred⟩, members, hm, rfl⟩
    exact ⟨_, hred, except_map_eq_ok.mpr ⟨members, hm, rfl⟩⟩

end

end Gate

end CoordinatorCore
