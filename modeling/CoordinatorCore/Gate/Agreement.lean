import CoordinatorCore.Gate.Routes

/-!
# The evaluator and the triage

Without prose and without evidence the two evaluators walk one classification. They differ in what
they do before it: the triage filters the members of `blocked_by` and goes on, where the evaluator
stops at a list without strings and asks first whether the handoff's id was seen.
-/

namespace CoordinatorCore

open Text

namespace Gate

section

variable {items : ScalarKind → Text → List Val} {handoff : Dict} {corpus witnesses : List Dict}

variable (items handoff corpus witnesses)

/-- The two evaluators agree on a handoff without evidence. -/
structure EvaluatorsAgree : Prop where
  clear_iff : Clears items handoff corpus witnesses none ↔ Freed items handoff corpus none
  ready : Clears items handoff corpus witnesses none →
    ∀ s, deriveReadiness items handoff corpus = .ok s → s.deploymentState ≠ some awaitingGate
  blocked : ∀ r, evaluateGate items handoff corpus witnesses none = .ok r →
    r.verdict = .narrow ∨ r.verdict = .notCleared →
      ∃ t, evaluateGateTriage items handoff corpus [] none true = .ok t ∧
        (t.status = .stillBlocked ∨ t.status = .indeterminate)

/-- The walk of the blockers starts alike in both: there is a string among them, and the id can be
looked up where all of them have shipped. -/
def SameStart : Prop :=
  ∀ members, iterate items (blockedBy handoff) = .ok members →
    stringMembers members ≠ [] ∧
      ((reportedId handoff).hashable = true ∨
        ¬ OpenGate handoff (indexById corpus) (stringMembers members))

variable {items handoff corpus witnesses}

/-- A readiness that was not derived from a closed gate is not that of one. -/
private theorem ready_of_freed {t : TriageResult} {s : Readiness}
    (htriage : evaluateGateTriage items handoff corpus [] none false = .ok t)
    (hfreed : t.status = .freed) (hs : deriveReadiness items handoff corpus = .ok s) :
    s.deploymentState ≠ some awaitingGate := by
  rw [deriveReadiness] at hs
  split_ifs at hs with hhash haxis
  · cases hs
    exact fun h => by cases h
  · rw [htriage] at hs
    cases hs
    change t.status.readiness.deploymentState ≠ some awaitingGate
    rw [hfreed]
    decide

private theorem agree_of_sentinel (hsentinel : (scaffoldSentinelField handoff).isSome = true) :
    EvaluatorsAgree items handoff corpus witnesses := by
  have hgate : ∀ r, evaluateGate items handoff corpus witnesses none = .ok r →
      r.verdict = .surface := by
    intro r h
    rw [evaluateGate, if_pos hsentinel] at h
    obtain ⟨members, -, rfl⟩ := except_map_eq_ok.mp h
    rfl
  refine ⟨iff_of_false ?_ ?_, ?_, fun r hr hv => ?_⟩
  · rintro ⟨r, hr, hc⟩
    rw [hgate r hr] at hc
    cases hc
  · rintro ⟨t, ht, hfreed⟩
    rw [evaluateGateTriage] at ht
    obtain ⟨members, -, ht⟩ := except_bind_eq_ok.mp ht
    simp only [hsentinel, Bool.and_true, if_true, Except.ok.injEq] at ht
    rw [← ht] at hfreed
    cases hfreed
  · rintro ⟨r, hr, hc⟩
    rw [hgate r hr] at hc
    cases hc
  · rw [hgate r hr] at hv
    rcases hv with hv | hv <;> cases hv

private theorem agree_of_unstructured (hprose : hasProseGate handoff = false)
    (hsentinel : (scaffoldSentinelField handoff).isSome = false)
    (hs : isStructuredGate handoff = false) :
    EvaluatorsAgree items handoff corpus witnesses := by
  have hgate := evaluateGate_of_no_prose items corpus witnesses none hprose hsentinel
  have htriage := evaluateGateTriage_of_no_prose items corpus [] true hprose (by rw [hsentinel]; rfl)
  have hready := evaluateGateTriage_of_no_prose items corpus [] false hprose rfl
  rw [hs, if_neg Bool.false_ne_true] at hgate htriage hready
  cases hnotes : hasBlockingNotes handoff with
  | true =>
    rw [hnotes] at hgate htriage
    refine ⟨iff_of_false ?_ ?_, ?_, ?_⟩
    · rintro ⟨r, hr, hc⟩
      rw [hgate] at hr
      cases hr
      cases hc
    · rintro ⟨t, ht, hc⟩
      rw [htriage] at ht
      cases ht
      cases hc
    · rintro ⟨r, hr, hc⟩
      rw [hgate] at hr
      cases hr
      cases hc
    · intro r hr hv
      rw [hgate] at hr
      cases hr
      rcases hv with hv | hv <;> cases hv
  | false =>
    rw [hnotes] at hgate htriage
    refine ⟨iff_of_true ⟨_, hgate, rfl⟩ ⟨_, htriage, rfl⟩, fun _ s => ready_of_freed hready rfl,
      fun r hr hv => ?_⟩
    rw [hgate] at hr
    cases hr
    rcases hv with hv | hv <;> cases hv

private theorem agree_iff_sameStart (hprose : hasProseGate handoff = false)
    (hsentinel : (scaffoldSentinelField handoff).isSome = false)
    (hs : isStructuredGate handoff = true) :
    EvaluatorsAgree items handoff corpus witnesses ↔ SameStart items handoff corpus := by
  have hgate := evaluateGate_of_no_prose items corpus witnesses none hprose hsentinel
  have htriage := evaluateGateTriage_of_no_prose items corpus [] true hprose (by rw [hsentinel]; rfl)
  have hready := evaluateGateTriage_of_no_prose items corpus [] false hprose rfl
  rw [if_pos hs] at hgate htriage hready
  -- without prose each evaluator asks for an open gate, the first for members and an id too
  have hclears : Clears items handoff corpus witnesses none ↔ ∃ members,
      iterate items (blockedBy handoff) = .ok members ∧
        (reportedId handoff).hashable = true ∧ stringMembers members ≠ [] ∧
        OpenGate handoff (indexById corpus) (stringMembers members) := by
    rw [Clears, hgate]
    exact structured_clear_iff
  have hfrees : Freed items handoff corpus none ↔ ∃ members,
      iterate items (blockedBy handoff) = .ok members ∧
        OpenGate handoff (indexById corpus) (stringMembers members) := by
    simp only [Freed, htriage, except_bind_eq_ok]
    constructor
    · rintro ⟨t, ⟨members, hm, ht⟩, hfreed⟩
      exact ⟨members, hm, (triageStructured_freed_iff none).mp ⟨t, ht, hfreed⟩⟩
    · rintro ⟨members, hm, hopen⟩
      obtain ⟨t, ht, hfreed⟩ := (triageStructured_freed_iff none).mpr hopen
      exact ⟨t, ⟨members, hm, ht⟩, hfreed⟩
  constructor
  · intro h members hm
    by_cases hopen : OpenGate handoff (indexById corpus) (stringMembers members)
    · obtain ⟨members', hm', hhash, hne, -⟩ :=
        hclears.mp (h.clear_iff.mpr (hfrees.mpr ⟨members, hm, hopen⟩))
      cases hm.symm.trans hm'
      exact ⟨hne, .inl hhash⟩
    -- a gate without members is open
    · refine ⟨fun hnil => hopen ?_, .inr hopen⟩
      rw [hnil]
      exact ⟨hasAsymmetry_eq_false.mpr (.inr fun id hid => absurd hid List.not_mem_nil),
        fun id hid => absurd hid List.not_mem_nil⟩
  · intro h
    refine ⟨?_, ?_, ?_⟩
    · rw [hclears, hfrees]
      constructor
      · rintro ⟨members, hm, -, -, hopen⟩
        exact ⟨members, hm, hopen⟩
      · rintro ⟨members, hm, hopen⟩
        obtain ⟨hne, hhash⟩ := h members hm
        exact ⟨members, hm, hhash.resolve_right (not_not.mpr hopen), hne, hopen⟩
    · intro hclear s hs'
      obtain ⟨members, hm, -, -, hopen⟩ := hclears.mp hclear
      obtain ⟨t, ht, hfreed⟩ := (triageStructured_freed_iff none).mpr hopen
      refine ready_of_freed (t := t) ?_ hfreed hs'
      rw [hready, hm]
      exact ht
    -- what the first holds back the triage puts in the remaining statuses
    · intro r hr hv
      rw [hgate, evaluateStructuredGate_eq_ok] at hr
      obtain ⟨members, hm, -, hr⟩ := hr
      have hne := (h members hm).1
      rcases hr with ⟨hnil, -⟩ | ⟨-, -, rfl⟩ | ⟨-, hasym, b, hb, rfl⟩
      · exact absurd hnil hne
      · rcases hv with hv | hv <;> cases hv
      · have hnot : triageStatus b b.unresolvedIds ≠ .freed := by
          rw [ne_eq, triageStatus_freed_iff, ← structuredResult_clear_iff (reportedId handoff)]
          rcases hv with hv | hv <;> rw [hv] <;> decide
        obtain ⟨t, ht, hstatus⟩ : ∃ t, triageStructured handoff (stringMembers members)
            (indexById corpus) [] none = .ok t ∧ t.status = triageStatus b b.unresolvedIds :=
          ⟨_, triageStructured_eq_ok.mpr (.inr ⟨hasym, b, hb, rfl⟩), rfl⟩
        refine ⟨t, by rw [htriage, hm]; exact ht, ?_⟩
        rw [hstatus]
        exact triageStatus_of_remaining _ hnot

/-- The two evaluators agree on a handoff without prose exactly when it carries a placeholder, has
no blockers, or has blockers the two start on alike. -/
theorem evaluators_agree_iff (items : ScalarKind → Text → List Val) (handoff : Dict)
    (corpus witnesses : List Dict) (hprose : hasProseGate handoff = false) :
    EvaluatorsAgree items handoff corpus witnesses ↔
      (scaffoldSentinelField handoff).isSome = true ∨ isStructuredGate handoff = false ∨
        SameStart items handoff corpus := by
  cases hsentinel : (scaffoldSentinelField handoff).isSome with
  | true => exact iff_of_true (agree_of_sentinel hsentinel) (.inl rfl)
  | false =>
    cases hs : isStructuredGate handoff with
    | false => exact iff_of_true (agree_of_unstructured hprose hsentinel hs) (.inr (.inl rfl))
    | true =>
      rw [agree_iff_sameStart hprose hsentinel hs]
      simp

end

/-! ### A list without strings -/

/-- A handoff gated on nothing but a null. -/
def nullBlocked : Dict := [(.str Key.blockedBy, .seq [.null])]

/-- The law at a handoff gated on a null. -/
theorem evaluators_agree_iff_nullBlocked :
    hasProseGate nullBlocked = false ∧
      (EvaluatorsAgree noItems nullBlocked [] [] ↔
        (scaffoldSentinelField nullBlocked).isSome = true ∨ isStructuredGate nullBlocked = false ∨
          SameStart noItems nullBlocked []) :=
  ⟨by decide, evaluators_agree_iff noItems nullBlocked [] [] (by decide)⟩

/-- A `blocked_by` of one null is freed by the triage and not cleared by the evaluator. -/
theorem nullBlocked_disagree :
    hasProseGate nullBlocked = false ∧
      (∃ r, evaluateGate noItems nullBlocked [] [] none = .ok r ∧ r.verdict = .notCleared) ∧
      (∃ t, evaluateGateTriage noItems nullBlocked [] [] none true = .ok t ∧
        t.status = .freed) ∧
      ¬ EvaluatorsAgree noItems nullBlocked [] [] := by
  have hgate : ∃ r, evaluateGate noItems nullBlocked [] [] none = .ok r ∧
      r.verdict = .notCleared := ⟨_, rfl, rfl⟩
  have htriage : ∃ t, evaluateGateTriage noItems nullBlocked [] [] none true = .ok t ∧
      t.status = .freed := ⟨_, rfl, rfl⟩
  refine ⟨by decide, hgate, htriage, fun h => ?_⟩
  obtain ⟨r, hr, hv⟩ := hgate
  obtain ⟨r', hr', hv'⟩ := h.clear_iff.mpr htriage
  rw [hr, Except.ok.injEq] at hr'
  rw [← hr', hv] at hv'
  cases hv'

end Gate

end CoordinatorCore
