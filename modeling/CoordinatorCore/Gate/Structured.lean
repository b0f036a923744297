import CoordinatorCore.Gate.Evaluate

/-!
# The structured verdict

What the two evaluators make of a classification. Both find the gate open exactly when every id is
shipped with a commit and no blocker fails to name the handoff back; the rest of the cascade only
sorts the ways it can stay closed.
-/

namespace CoordinatorCore

open Text

namespace Gate

/-- Every id is put with the shipped ones. -/
def AllShipped (index : TypedHandoffIndex) (dispositions : Val) (ids : List Text) : Prop :=
  ∀ id ∈ ids, ∃ sha, bucketOf index dispositions id = .ok (.shipped sha)

/-- The graph of a handoff is consistent and every blocker has shipped. -/
def OpenGate (handoff : Dict) (index : TypedHandoffIndex) (ids : List Text) : Prop :=
  hasAsymmetry handoff ids index = .ok false ∧
    AllShipped index (handoff.get Key.blockedByDispositions) ids

/-! ### The lists of an assignment -/

theorem Bucket.sha?_eq_some {k : Bucket} {sha : Text} : k.sha? = some sha ↔ k = .shipped sha := by
  cases k <;> simp [Bucket.sha?]

/-- A bucket is the shipped one or one of the five that block. -/
theorem Bucket.sha?_isNone_iff (k : Bucket) :
    k.sha? = none ↔ k = .abandoned ∨ k = .stillOpen ∨ k = .unresolved ∨ k = .disposed ∨
      k = .unstampedShipped := by
  cases k <;> simp [Bucket.sha?]

theorem mem_shipped_ofAssigned {ps : List (Text × Bucket)} {id : Text} :
    id ∈ (Buckets.ofAssigned ps).shippedIds ↔ ∃ sha, (id, .shipped sha) ∈ ps := by
  simp only [Buckets.ofAssigned, mem_answered, Option.isSome_iff_exists, Bucket.sha?_eq_some]
  constructor
  · rintro ⟨k, hk, sha, rfl⟩
    exact ⟨sha, hk⟩
  · rintro ⟨sha, hsha⟩
    exact ⟨_, hsha, sha, rfl⟩

theorem mem_remaining_ofAssigned {ps : List (Text × Bucket)} {id : Text} :
    id ∈ (Buckets.ofAssigned ps).remaining ↔ ∃ k, (id, k) ∈ ps ∧ k.sha? = none := by
  simp only [Buckets.remaining, Buckets.ofAssigned, List.mem_append, mem_answered,
    decide_eq_true_eq, Bucket.sha?_isNone_iff, exists_eq_right]
  constructor
  · rintro ((((h | h) | h) | h) | h)
    · exact ⟨_, h, .inl rfl⟩
    · exact ⟨_, h, .inr (.inl rfl)⟩
    · exact ⟨_, h, .inr (.inr (.inl rfl))⟩
    · exact ⟨_, h, .inr (.inr (.inr (.inl rfl)))⟩
    · exact ⟨_, h, .inr (.inr (.inr (.inr rfl)))⟩
  · rintro ⟨k, h, rfl | rfl | rfl | rfl | rfl⟩
    · exact .inl (.inl (.inl (.inl h)))
    · exact .inl (.inl (.inl (.inr h)))
    · exact .inl (.inl (.inr h))
    · exact .inl (.inr h)
    · exact .inr h

theorem remaining_ofAssigned_eq_nil {ps : List (Text × Bucket)} :
    (Buckets.ofAssigned ps).remaining = [] ↔ ∀ p ∈ ps, ∃ sha, p.2 = .shipped sha := by
  rw [List.eq_nil_iff_forall_not_mem]
  constructor
  · intro h p hp
    cases hk : p.2.sha? with
    | none => exact absurd (mem_remaining_ofAssigned.mpr ⟨p.2, hp, hk⟩) (h p.1)
    | some sha => exact ⟨sha, Bucket.sha?_eq_some.mp hk⟩
  · rintro h id hid
    obtain ⟨k, hk, hnone⟩ := mem_remaining_ofAssigned.mp hid
    obtain ⟨sha, hsha⟩ := h _ hk
    rw [Bucket.sha?_eq_some.mpr hsha] at hnone
    cases hnone

/-- A classification that comes to an end is read off an assignment. -/
theorem classify_eq_ok {index : TypedHandoffIndex} {dispositions : Val} {ids : List Text}
    {b : Buckets} :
    classifyBlockedBy index dispositions ids = .ok b ↔
      ∃ ps, assign (bucketOf index dispositions) ids = .ok ps ∧ Buckets.ofAssigned ps = b := by
  rw [classifyBlockedBy_eq, except_map_eq_ok]

/-- Nothing remains exactly when every id has shipped. -/
theorem classify_remaining_nil_iff {index : TypedHandoffIndex} {dispositions : Val}
    {ids : List Text} :
    (∃ b, classifyBlockedBy index dispositions ids = .ok b ∧ b.remaining = []) ↔
      AllShipped index dispositions ids := by
  constructor
  · rintro ⟨b, hb, hnil⟩ id hid
    obtain ⟨ps, hps, rfl⟩ := classify_eq_ok.mp hb
    obtain ⟨hfst, hall⟩ := assign_eq_ok.mp hps
    rw [← hfst] at hid
    obtain ⟨p, hp, rfl⟩ := List.mem_map.mp hid
    obtain ⟨sha, hsha⟩ := remaining_ofAssigned_eq_nil.mp hnil p hp
    exact ⟨sha, hsha ▸ hall p hp⟩
  · intro h
    obtain ⟨ps, hps⟩ := exists_assign_iff.mpr fun id hid => (h id hid).imp' _ fun _ h => h
    refine ⟨_, classify_eq_ok.mpr ⟨ps, hps, rfl⟩, remaining_ofAssigned_eq_nil.mpr fun p hp => ?_⟩
    obtain ⟨hfst, hall⟩ := assign_eq_ok.mp hps
    obtain ⟨sha, hsha⟩ := h p.1 (hfst ▸ List.mem_map_of_mem hp)
    exact ⟨sha, Except.ok.inj ((hall p hp).symm.trans hsha)⟩

/-! ### The cascades -/

theorem Buckets.remaining_eq_nil {b : Buckets} :
    b.remaining = [] ↔ b.abandonedIds = [] ∧ b.stillOpenIds = [] ∧ b.unresolvedIds = [] ∧
      b.disposedIds = [] ∧ b.unstampedShippedIds = [] := by
  simp [Buckets.remaining]

/-- The verdict of the cascade, one case for each of its branches. -/
theorem structuredResult_cases (handoffId : Val) (b : Buckets) :
    (b.remaining = [] ∧ structuredResult handoffId b = .clearing handoffId .clear b [] false) ∨
    (b.remaining ≠ [] ∧ b.shippedIds ≠ [] ∧ structuredResult handoffId b =
      .clearing handoffId .narrow b (b.remaining.map .str)
        (b.abandonedIds ≠ [] ∨ b.unresolvedIds ≠ [] ∨ b.unstampedShippedIds ≠ [])) ∨
    (b.remaining ≠ [] ∧ b.shippedIds = [] ∧
      (b.abandonedIds ≠ [] ∨ b.unresolvedIds ≠ [] ∨ b.unstampedShippedIds ≠ []) ∧
      structuredResult handoffId b = .unclearing handoffId .surface (b.remaining.map .str)) ∨
    (b.remaining ≠ [] ∧ b.shippedIds = [] ∧
      b.abandonedIds = [] ∧ b.unresolvedIds = [] ∧ b.unstampedShippedIds = [] ∧
      structuredResult handoffId b = .unclearing handoffId .notCleared (b.remaining.map .str)) := by
  have hrem := b.remaining_eq_nil
  by_cases hr : b.remaining = []
  · obtain ⟨ha, -, -, -, hu⟩ := hrem.mp hr
    exact .inl ⟨hr, by simp [structuredResult, ha, hu, hr]⟩
  · refine .inr ?_
    by_cases hs : b.shippedIds = []
    · refine .inr ?_
      by_cases ha : b.abandonedIds = []
      · by_cases hus : b.unstampedShippedIds = []
        · by_cases hun : b.unresolvedIds = []
          · exact .inr ⟨hr, hs, ha, hun, hus, by simp [structuredResult, ha, hus, hr, hs, hun]⟩
          · exact .inl ⟨hr, hs, .inr (.inl hun), by simp [structuredResult, ha, hus, hr, hs, hun]⟩
        · exact .inl ⟨hr, hs, .inr (.inr hus), by simp [structuredResult, ha, hus, hs]⟩
      · exact .inl ⟨hr, hs, .inl ha, by simp [structuredResult, ha, hs]⟩
    · refine .inl ⟨hr, hs, ?_⟩
      by_cases ha : b.abandonedIds = []
      · simp [structuredResult, ha, hs, hr]
      · simp [structuredResult, ha, hs]

/-- The cascade clears when nothing remains. -/
theorem structuredResult_clear_iff (handoffId : Val) {b : Buckets} :
    (structuredResult handoffId b).verdict = .clear ↔ b.remaining = [] := by
  rcases structuredResult_cases handoffId b with ⟨hr, h⟩ | ⟨hr, -, h⟩ | ⟨hr, -, -, h⟩ |
    ⟨hr, -, -, -, -, h⟩
  · rw [h]
    exact iff_of_true rfl hr
  all_goals
    rw [h]
    exact iff_of_false (by simp [GateResult.clearing, GateResult.unclearing]) hr

/-- So does the triage. -/
theorem triageStatus_freed_iff {b : Buckets} :
    triageStatus b b.unresolvedIds = .freed ↔ b.remaining = [] := by
  rw [Buckets.remaining_eq_nil, triageStatus]
  split_ifs with h1 h2 h3 h4 h5 <;> simp_all

/-- The triage reports a gate that is closed as blocked or as unclear. -/
theorem triageStatus_of_remaining {b : Buckets} (unresolved : List Text)
    (h : triageStatus b unresolved ≠ .freed) :
    triageStatus b unresolved = .stillBlocked ∨ triageStatus b unresolved = .indeterminate := by
  unfold triageStatus at h ⊢
  split_ifs at h ⊢ with h1 h2 h3 h4 h5
  · exact .inr rfl
  · exact .inr rfl
  · exact .inl rfl
  · exact .inl rfl
  · exact .inl rfl
  · exact absurd rfl h

/-- Without a log every unresolved id stays so. -/
theorem resolveViaLog_nil (unresolved : List Text) :
    resolveViaLog [] unresolved = .ok ([], unresolved) := by
  have hassign : assign (fun id => resolveBlockerViaCompletionLog id []) unresolved =
      .ok (unresolved.map fun id => (id, .none)) := by
    refine assign_eq_ok.mpr ⟨by rw [List.map_map]; exact List.map_id _, fun p hp => ?_⟩
    obtain ⟨id, -, rfl⟩ := List.mem_map.mp hp
    rfl
  rw [resolveViaLog, hassign, Except.map]
  congr 2
  · rw [answered_eq_nil]
    intro p hp
    obtain ⟨id, -, rfl⟩ := List.mem_map.mp hp
    rfl
  · simp [answered, List.filter_map, Function.comp_def]

/-! ### Both projections -/

section

variable {items : ScalarKind → Text → List Val} {handoff : Dict} {index : TypedHandoffIndex}

/-- How the structured evaluator ends when it is called on its own. -/
theorem evaluateStructuredGate_eq_ok {r : GateResult} :
    evaluateStructuredGate items handoff index [] = .ok r ↔
      ∃ members, iterate items (blockedBy handoff) = .ok members ∧
        (reportedId handoff).hashable = true ∧
        ((stringMembers members = [] ∧ r = .unclearing (reportedId handoff) .notCleared []) ∨
          (stringMembers members ≠ [] ∧
            hasAsymmetry handoff (stringMembers members) index = .ok true ∧
            r = .unclearing (reportedId handoff) .surface ((stringMembers members).map .str)) ∨
          (stringMembers members ≠ [] ∧
            hasAsymmetry handoff (stringMembers members) index = .ok false ∧
            ∃ b, classifyBlockedBy index (handoff.get Key.blockedByDispositions)
              (stringMembers members) = .ok b ∧ r = structuredResult (reportedId handoff) b)) := by
  rw [evaluateStructuredGate, except_bind_eq_ok]
  refine exists_congr fun members => and_congr_right fun _ => ?_
  by_cases hhash : (reportedId handoff).hashable = true
  · simp only [hhash, Bool.true_eq_false, if_false, List.any_nil, Bool.false_eq_true, true_and]
    by_cases hnil : stringMembers members = []
    · simp [hnil, eq_comm]
    · simp only [hnil, if_false, false_and, false_or, ne_eq, not_false_eq_true, true_and,
        except_bind_eq_ok, Bool.exists_bool, if_true, Bool.false_eq_true,
        except_map_eq_ok, Except.ok.injEq]
      rw [or_comm]
      simp [eq_comm]
  · simp [hhash]

/-- How the triage of a structured gate ends without a completion log. -/
theorem triageStructured_eq_ok {ids : List Text} {evidence : Option Dict} {t : TriageResult} :
    triageStructured handoff ids index [] evidence = .ok t ↔
      (hasAsymmetry handoff ids index = .ok true ∧
        t = triageBase handoff ids evidence .indeterminate []) ∨
      (hasAsymmetry handoff ids index = .ok false ∧
        ∃ b, classifyBlockedBy index (handoff.get Key.blockedByDispositions) ids = .ok b ∧
          t = { triageBase handoff ids evidence (triageStatus b b.unresolvedIds) [] with
            shippedIds := b.shippedIds
            stillOpenIds := b.stillOpenIds
            deadIds := b.abandonedIds
            unresolvedIds := b.unresolvedIds
            disposedIds := b.disposedIds
            unstampedShippedIds := b.unstampedShippedIds }) := by
  rw [triageStructured, except_bind_eq_ok, Bool.exists_bool, or_comm]
  refine or_congr (and_congr_right fun _ => ?_) (and_congr_right fun _ => ?_)
  · simp [eq_comm]
  · simp only [Bool.false_eq_true, if_false, except_bind_eq_ok, resolveViaLog_nil, Except.map,
      List.append_nil, Except.ok.injEq]
    exact exists_congr fun b => and_congr_right fun _ => eq_comm

/-- The structured evaluator clears an open gate and no other. -/
theorem structured_clear_iff :
    (∃ r, evaluateStructuredGate items handoff index [] = .ok r ∧ r.verdict = .clear) ↔
      ∃ members, iterate items (blockedBy handoff) = .ok members ∧
        (reportedId handoff).hashable = true ∧ stringMembers members ≠ [] ∧
        OpenGate handoff index (stringMembers members) := by
  simp only [evaluateStructuredGate_eq_ok]
  constructor
  · rintro ⟨r, ⟨members, hm, hhash, h⟩, hclear⟩
    refine ⟨members, hm, hhash, ?_⟩
    rcases h with ⟨-, rfl⟩ | ⟨-, -, rfl⟩ | ⟨hne, hasym, b, hb, rfl⟩
    · cases hclear
    · cases hclear
    · rw [structuredResult_clear_iff] at hclear
      exact ⟨hne, hasym, classify_remaining_nil_iff.mp ⟨b, hb, hclear⟩⟩
  · rintro ⟨members, hm, hhash, hne, hasym, hall⟩
    obtain ⟨b, hb, hnil⟩ := classify_remaining_nil_iff.mpr hall
    exact ⟨_, ⟨members, hm, hhash, .inr (.inr ⟨hne, hasym, b, hb, rfl⟩)⟩,
      (structuredResult_clear_iff _).mpr hnil⟩

/-- So does its triage, which does not ask whether there is an id at all. -/
theorem triageStructured_freed_iff {ids : List Text} (evidence : Option Dict) :
    (∃ t, triageStructured handoff ids index [] evidence = .ok t ∧ t.status = .freed) ↔
      OpenGate handoff index ids := by
  simp only [triageStructured_eq_ok]
  constructor
  · rintro ⟨t, ⟨-, rfl⟩ | ⟨hasym, b, hb, rfl⟩, hfreed⟩
    · cases hfreed
    · exact ⟨hasym, classify_remaining_nil_iff.mp ⟨b, hb, triageStatus_freed_iff.mp hfreed⟩⟩
  · rintro ⟨hasym, hall⟩
    obtain ⟨b, hb, hnil⟩ := classify_remaining_nil_iff.mpr hall
    exact ⟨_, .inr ⟨hasym, b, hb, rfl⟩, triageStatus_freed_iff.mpr hnil⟩

end

end Gate

end CoordinatorCore
