import CoordinatorCore.Gate.Evidence

/-!
# Evidence as a meet

The legs of an evidence block come to one status, the gravest any of them has: nothing depends on
the order or the repetition of the legs, and only legs that are all satisfied free. An empty block
is malformed and indeterminate, so a leg may free what was empty before; apart from that, no leg
that is added frees (`evidenceLaw`).
-/

namespace CoordinatorCore

open Text

namespace Gate

variable {items : ScalarKind → Text → List Val} {evidence evidence' leg : Dict}
  {legs legs' : List Dict}

/-! ### Priority -/

/-- The priority of a status: indeterminate beats review-due beats still-blocked beats freed. -/
def Status.priority : Status → Nat
  | .freed => 0
  | .stillBlocked => 1
  | .reviewDue => 2
  | .indeterminate => 3

theorem Status.priority_inj {s t : Status} (h : s.priority = t.priority) : s = t := by
  cases s <;> cases t <;> first | rfl | cases h

/-- What one leg alone makes of the block. -/
def LegStatus.status : LegStatus → Status
  | .satisfied => .freed
  | .unsatisfied => .stillBlocked
  | .reviewDue => .reviewDue
  | .indeterminate => .indeterminate

/-- The legs come to a status that none of them beats. -/
theorem priority_le_reduceStatus {results : List LegResult} {r : LegResult} (hr : r ∈ results) :
    r.status.status.priority ≤ (reduceStatus results).priority := by
  have hno : ∀ s : LegStatus, ¬ (results.any fun r => r.status == s) = true → r.status ≠ s := by
    rintro _ hany rfl
    exact hany (List.any_eq_true.mpr ⟨r, hr, by simp⟩)
  rw [reduceStatus]
  split_ifs with hi hd hu
  · cases r.status <;> decide
  · have := hno _ hi
    cases hs : r.status <;> simp_all [LegStatus.status, Status.priority]
  · have := hno _ hi
    have := hno _ hd
    cases hs : r.status <;> simp_all [LegStatus.status, Status.priority]
  · have := hno _ hi
    have := hno _ hd
    have := hno _ hu
    cases hs : r.status <;> simp_all [LegStatus.status, Status.priority]

/-- The legs come to the status of one of them. -/
theorem exists_status_eq_reduceStatus {results : List LegResult} (hne : results ≠ []) :
    ∃ r ∈ results, r.status.status = reduceStatus results := by
  rw [reduceStatus]
  split_ifs with hi hd hu
  · obtain ⟨r, hr, hs⟩ := List.any_eq_true.mp hi
    exact ⟨r, hr, by rw [beq_iff_eq.mp hs]; rfl⟩
  · obtain ⟨r, hr, hs⟩ := List.any_eq_true.mp hd
    exact ⟨r, hr, by rw [beq_iff_eq.mp hs]; rfl⟩
  · obtain ⟨r, hr, hs⟩ := List.any_eq_true.mp hu
    exact ⟨r, hr, by rw [beq_iff_eq.mp hs]; rfl⟩
  · obtain ⟨r, results, rfl⟩ := List.exists_cons_of_ne_nil hne
    have hfreed : reduceStatus (r :: results) = .freed := by
      rw [reduceStatus, if_neg hi, if_neg hd, if_neg hu]
    refine ⟨r, List.mem_cons_self, ?_⟩
    rw [reduceStatus_freed_iff.mp hfreed r List.mem_cons_self]
    rfl

/-! ### Blocks of legs -/

/-- The block lists these legs, or none at all. -/
def HasLegs (evidence : Dict) (legs : List Dict) : Prop :=
  authoredLegs evidence = .seq (legs.map Val.map)

/-- The status of one leg. -/
def legStatus (leg : Dict) : Except Raised Status :=
  (evaluateGateEvidenceLeg leg).map fun r => r.status.status

/-- The status of a block. -/
def blockStatus (items : ScalarKind → Text → List Val) (evidence : Dict) : Except Raised Status :=
  (reduceGateEvidence items evidence).map Prod.fst

theorem blockStatus_nil (h : HasLegs evidence []) :
    blockStatus items evidence = .ok .indeterminate := by
  have hfalse : (authoredLegs evidence).truthy = false := by rw [h]; rfl
  rw [blockStatus, reduceGateEvidence, if_pos hfalse]
  rfl

theorem blockStatus_eq (h : HasLegs evidence legs) (hne : legs ≠ []) :
    blockStatus items evidence =
      (answers evaluateLegValue (legs.map Val.map)).map reduceStatus := by
  have htrue : (authoredLegs evidence).truthy = true := by
    obtain ⟨leg, legs, rfl⟩ := List.exists_cons_of_ne_nil hne
    rw [h]
    rfl
  have hiter : iterate items (authoredLegs evidence) = .ok (legs.map Val.map) := by rw [h]; rfl
  rw [blockStatus, reduceGateEvidence, if_neg (by simp [htrue]), hiter]
  change Except.map Prod.fst (Except.map _ (answers evaluateLegValue _)) = _
  cases answers evaluateLegValue (legs.map Val.map) <;> rfl

/-- The results of the legs, one for each. -/
theorem blockStatus_eq_ok_iff (h : HasLegs evidence legs) (hne : legs ≠ []) {st : Status} :
    blockStatus items evidence = .ok st ↔
      ∃ rs, List.Forall₂ (fun leg r => evaluateGateEvidenceLeg leg = .ok r) legs rs ∧
        reduceStatus rs = st := by
  rw [blockStatus_eq h hne, except_map_eq_ok]
  simp only [answers_eq_ok, List.forall₂_map_left_iff]
  exact Iff.rfl

theorem legStatus_eq_ok_iff {st : Status} :
    legStatus leg = .ok st ↔ ∃ r, evaluateGateEvidenceLeg leg = .ok r ∧ r.status.status = st :=
  except_map_eq_ok

/-- The status of a block is the gravest of its legs. -/
theorem blockStatus_eq_ok_iff_gravest (h : HasLegs evidence legs) (hne : legs ≠ []) {st : Status} :
    blockStatus items evidence = .ok st ↔
      (∀ leg ∈ legs, ∃ s, legStatus leg = .ok s ∧ s.priority ≤ st.priority) ∧
        ∃ leg ∈ legs, legStatus leg = .ok st := by
  rw [blockStatus_eq_ok_iff h hne]
  constructor
  · rintro ⟨rs, hall, rfl⟩
    obtain ⟨hleft, hright⟩ := forall₂_counterpart hall
    refine ⟨fun leg hleg => ?_, ?_⟩
    · obtain ⟨r, hr, hres⟩ := hleft leg hleg
      exact ⟨_, legStatus_eq_ok_iff.mpr ⟨r, hres, rfl⟩, priority_le_reduceStatus hr⟩
    · have hrs : rs ≠ [] := by
        rintro rfl
        cases hall
        exact hne rfl
      obtain ⟨r, hr, hst⟩ := exists_status_eq_reduceStatus hrs
      obtain ⟨leg, hleg, hres⟩ := hright r hr
      exact ⟨leg, hleg, legStatus_eq_ok_iff.mpr ⟨r, hres, hst⟩⟩
  · rintro ⟨hall, leg, hleg, hst⟩
    obtain ⟨ps, hps⟩ : ∃ ps, assign evaluateGateEvidenceLeg legs = .ok ps := by
      refine exists_assign_iff.mpr fun leg hleg => ?_
      obtain ⟨s, hs, -⟩ := hall leg hleg
      obtain ⟨r, hr, -⟩ := legStatus_eq_ok_iff.mp hs
      exact ⟨r, hr⟩
    obtain ⟨rs, hrs⟩ : ∃ rs, List.Forall₂ (fun leg r => evaluateGateEvidenceLeg leg = .ok r)
        legs rs := ⟨_, answers_eq_ok.mp (except_map_eq_ok.mpr ⟨ps, hps, rfl⟩)⟩
    refine ⟨rs, hrs, ?_⟩
    obtain ⟨hleft, hright⟩ := forall₂_counterpart hrs
    obtain ⟨r, hr, hres⟩ := hleft leg hleg
    have hst : r.status.status = st := by
      obtain ⟨r', hres', rfl⟩ := legStatus_eq_ok_iff.mp hst
      rw [hres] at hres'
      rw [Except.ok.inj hres']
    -- the one is among the results, and none of the results is graver than the other
    have hle : st.priority ≤ (reduceStatus rs).priority := hst ▸ priority_le_reduceStatus hr
    obtain ⟨r', hr', hst'⟩ := exists_status_eq_reduceStatus (List.ne_nil_of_mem hr)
    obtain ⟨leg', hleg', hres'⟩ := hright r' hr'
    obtain ⟨s, hs, hge⟩ := hall leg' hleg'
    obtain ⟨r'', hres'', rfl⟩ := legStatus_eq_ok_iff.mp hs
    rw [hres', Except.ok.injEq] at hres''
    rw [← hres'', hst'] at hge
    exact Status.priority_inj (le_antisymm hge hle)

/-- All that a leg can raise is that its kind is no member of a set. -/
theorem eq_typeError_of_leg {e : Raised} (h : evaluateGateEvidenceLeg leg = .error e) :
    e = .typeError := by
  rw [evaluateGateEvidenceLeg] at h
  split_ifs at h
  exact (Except.error.inj h).symm

theorem eq_typeError_of_block {e : Raised} (h : HasLegs evidence legs) (hne : legs ≠ [])
    (he : blockStatus items evidence = .error e) : e = .typeError := by
  rw [blockStatus_eq h hne] at he
  cases hres : answers evaluateLegValue (legs.map Val.map) with
  | ok rs =>
    rw [hres] at he
    cases he
  | error e' =>
    rw [hres] at he
    obtain rfl := Except.error.inj he
    obtain ⟨v, hv, hleg⟩ := exists_error_of_answers hres
    obtain ⟨leg, -, rfl⟩ := List.mem_map.mp hv
    exact eq_typeError_of_leg hleg

/-! ### The law -/

/-- An I/O kind. -/
def ioKind (leg : Dict) : Bool :=
  isOneOf (evidenceEqualityKinds ++ evidenceBooleanKinds) (leg.get Key.kind)

/-- What a block of legs comes to. -/
structure EvidenceLaw (items : ScalarKind → Text → List Val) : Prop where
  /-- Order and repetition of the legs do not matter. -/
  same : ∀ evidence evidence' legs legs', HasLegs evidence legs → HasLegs evidence' legs' →
    (∀ leg, leg ∈ legs ↔ leg ∈ legs') → blockStatus items evidence = blockStatus items evidence'
  empty : ∀ evidence, HasLegs evidence [] → blockStatus items evidence = .ok .indeterminate
  /-- The status of the block is the status of a leg that no leg beats. -/
  gravest : ∀ evidence legs st, HasLegs evidence legs → legs ≠ [] →
    (blockStatus items evidence = .ok st ↔
      (∀ leg ∈ legs, ∃ s, legStatus leg = .ok s ∧ s.priority ≤ st.priority) ∧
        ∃ leg ∈ legs, legStatus leg = .ok st)
  /-- One more leg frees no block that has legs and is not freed. -/
  append : ∀ evidence evidence' legs leg, HasLegs evidence legs →
    HasLegs evidence' (legs ++ [leg]) → legs ≠ [] → blockStatus items evidence ≠ .ok .freed →
    blockStatus items evidence' ≠ .ok .freed
  /-- A leg is satisfied when it is of an I/O kind, its reading did not fail, and what was observed
  is what was asked for. -/
  satisfied : ∀ leg : Dict, legStatus leg = .ok .freed ↔
    ioKind leg = true ∧ leg.get Key.readOk ≠ .bool false ∧ legMatches leg = true

theorem blockStatus_congr (h : HasLegs evidence legs) (h' : HasLegs evidence' legs')
    (hmem : ∀ leg, leg ∈ legs ↔ leg ∈ legs') :
    blockStatus items evidence = blockStatus items evidence' := by
  rcases eq_or_ne legs [] with rfl | hne
  · obtain rfl : legs' = [] := by
      rw [List.eq_nil_iff_forall_not_mem]
      exact fun leg hleg => List.not_mem_nil ((hmem leg).mpr hleg)
    rw [blockStatus_nil h, blockStatus_nil h']
  · have hne' : legs' ≠ [] := by
      obtain ⟨leg, hleg⟩ := List.exists_mem_of_ne_nil legs hne
      exact List.ne_nil_of_mem ((hmem leg).mp hleg)
    have hok : ∀ st, blockStatus items evidence = .ok st ↔
        blockStatus items evidence' = .ok st := by
      intro st
      rw [blockStatus_eq_ok_iff_gravest h hne, blockStatus_eq_ok_iff_gravest h' hne']
      simp only [hmem]
    cases hst : blockStatus items evidence with
    | ok st => exact ((hok st).mp hst).symm
    | error e =>
      cases hst' : blockStatus items evidence' with
      | ok st =>
        rw [(hok st).mpr hst'] at hst
        cases hst
      | error e' => rw [eq_typeError_of_block h hne hst, eq_typeError_of_block h' hne' hst']

theorem legStatus_freed_iff : legStatus leg = .ok .freed ↔
    ioKind leg = true ∧ leg.get Key.readOk ≠ .bool false ∧ legMatches leg = true := by
  have hread : isFlag false (leg.get Key.readOk) = false ↔ leg.get Key.readOk ≠ .bool false := by
    rw [← Bool.not_eq_true, isFlag_iff]
  rw [legStatus_eq_ok_iff, ← hread]
  constructor
  · rintro ⟨r, hr, hst⟩
    have hsat : r.status = .satisfied := by
      cases hs : r.status <;> rw [hs] at hst <;> first | rfl | cases hst
    obtain ⟨⟨hkind, hmatch⟩, hok⟩ := (legStatus_satisfied hr).mp hsat
    exact ⟨hkind, hok, hmatch⟩
  · rintro ⟨hkind, hok, hmatch⟩
    obtain ⟨r, hr⟩ := exists_legResult ⟨hkind, hmatch⟩
    refine ⟨r, hr, ?_⟩
    rw [(legStatus_satisfied hr).mpr ⟨⟨hkind, hmatch⟩, hok⟩]
    rfl

/-- **Evidence is a meet** of its legs, apart from the empty block. -/
theorem evidenceLaw (items : ScalarKind → Text → List Val) : EvidenceLaw items where
  same _ _ _ _ := blockStatus_congr
  empty _ := blockStatus_nil
  gravest _ _ _ h hne := blockStatus_eq_ok_iff_gravest h hne
  append evidence evidence' legs leg h h' hne hnot hfreed := by
    refine hnot ((blockStatus_eq_ok_iff_gravest h hne).mpr ?_)
    obtain ⟨hall, -⟩ := (blockStatus_eq_ok_iff_gravest h' (by simp)).mp hfreed
    -- every leg of the longer block is satisfied, those of the shorter one among them
    have hold : ∀ leg ∈ legs, ∃ s, legStatus leg = .ok s ∧ s.priority ≤ Status.freed.priority :=
      fun leg hleg => hall leg (List.mem_append_left _ hleg)
    refine ⟨hold, ?_⟩
    obtain ⟨leg, hleg⟩ := List.exists_mem_of_ne_nil legs hne
    obtain ⟨s, hs, hle⟩ := hold leg hleg
    obtain rfl : s = .freed := Status.priority_inj (Nat.le_zero.mp hle)
    exact ⟨leg, hleg, hs⟩
  satisfied _ := legStatus_freed_iff

/-- A leg of an equality kind and nothing else: nothing was read, and nothing was expected. -/
def bareLeg : Dict := [(.str Key.kind, .str "file-exists".toList)]

/-- The bare leg is satisfied, and it frees a block that was empty before. -/
theorem bareLeg_frees :
    Dict.get bareLeg Key.readOk = .null ∧ legStatus bareLeg = .ok .freed ∧
      blockStatus noItems [(.str Key.legs, .seq [])] = .ok .indeterminate ∧
      blockStatus noItems [(.str Key.legs, .seq ([] ++ [.map bareLeg]))] = .ok .freed :=
  ⟨rfl, rfl, rfl, rfl⟩

end Gate

end CoordinatorCore
