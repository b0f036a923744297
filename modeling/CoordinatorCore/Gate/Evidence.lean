import CoordinatorCore.Gate.Classify

/-!
# Evidence legs and the completion log

Two further sources of discharge. A `gate_evidence` block lists legs the caller has already read,
and all of them must hold. The completion log names work that has landed without a handoff of its
own.

The printed form of a set or a byte string does not say what iteration yields; the development
takes that as a parameter (`items`).
-/

namespace CoordinatorCore

open Text

namespace Gate

namespace Key

def legId : Text := ['l', 'e', 'g', '_', 'i', 'd']
def legs : Text := ['l', 'e', 'g', 's']
def elapsed : Text := ['e', 'l', 'a', 'p', 's', 'e', 'd']
def readOk : Text := ['r', 'e', 'a', 'd', '_', 'o', 'k']
def observed : Text := ['o', 'b', 's', 'e', 'r', 'v', 'e', 'd']
def expected : Text := ['e', 'x', 'p', 'e', 'c', 't', 'e', 'd']
def coversProse : Text := ['c', 'o', 'v', 'e', 'r', 's', '_', 'p', 'r', 'o', 's', 'e']
def frontmatter : Text := ['f', 'r', 'o', 'n', 't', 'm', 'a', 't', 't', 'e', 'r']
def chain : Text := ['c', 'h', 'a', 'i', 'n']
def chainTerminal : Text := chain ++ ['_', 't', 'e', 'r', 'm', 'i', 'n', 'a', 'l']
def commits : Text := ['c', 'o', 'm', 'm', 'i', 't', 's']

end Key

/-- `"<unknown>"`. -/
def unknownId : Val := .str ['<', 'u', 'n', 'k', 'n', 'o', 'w', 'n', '>']

/-- `list(value)`. -/
def iterate (items : ScalarKind → Text → List Val) : Val → Except Raised (List Val)
  | .seq vs => .ok vs
  | .str s => .ok (s.map fun c => .str [c])
  | .map entries => .ok (entries.map Prod.fst)
  | .other .set r => .ok (items .set r)
  | .other .bytes r => .ok (items .bytes r)
  | _ => .error .typeError

/-- Sets and byte strings without members, for concrete handoffs that have none. -/
def noItems : ScalarKind → Text → List Val := fun _ _ => []

/-! ### Legs -/

/-- `_EVIDENCE_EQUALITY_KINDS`. -/
def evidenceEqualityKinds : List Text := ["file-exists".toList, "frontmatter-field".toList]

/-- `_EVIDENCE_BOOLEAN_KINDS`. -/
def evidenceBooleanKinds : List Text :=
  ["commit-ancestor".toList, "test-node-id".toList, "probe-op-key".toList, "commit-sha".toList,
    "sibling-commitment-ref".toList]

/-- `value in names`, for a set of strings. -/
def isOneOf (names : List Text) (value : Val) : Bool := names.any fun n => value.pyEq (.str n)

/-- `value is flag`. -/
def isFlag (flag : Bool) : Val → Bool
  | .bool b => b == flag
  | _ => false

/-- What a leg comes to. -/
inductive LegStatus
  | satisfied
  | unsatisfied
  | indeterminate
  | reviewDue
deriving DecidableEq

/-- The result of a leg. -/
structure LegResult where
  legId : Val
  kind : Val
  status : LegStatus

/-- The observation of a leg is the one that was asked for. -/
def legMatches (leg : Dict) : Bool :=
  if isOneOf evidenceBooleanKinds (leg.get Key.kind) then isFlag true (leg.get Key.observed)
  else (leg.get Key.observed).pyEq (leg.get Key.expected)

/-- `_evaluate_gate_evidence_leg`. -/
def evaluateGateEvidenceLeg (leg : Dict) : Except Raised LegResult :=
  let kind := leg.get Key.kind
  let result status := LegResult.mk (leg.getD Key.legId unknownId) kind status
  if kind.pyEq (.str "human".toList) then .ok (result .indeterminate)
  else if kind.pyEq (.str "deadline".toList) then
    .ok (result (if (leg.get Key.elapsed).truthy then .reviewDue else .unsatisfied))
  else if kind.pyEq (.str "probe-command".toList) then .ok (result .indeterminate)
  else if kind.hashable = false then .error .typeError
  else if isOneOf (evidenceEqualityKinds ++ evidenceBooleanKinds) kind = false then
    .ok (result .indeterminate)
  else if isFlag false (leg.get Key.readOk) then .ok (result .indeterminate)
  else .ok (result (if legMatches leg then .satisfied else .unsatisfied))

/-- A leg of a kind that can be observed, with the observation that was asked for. -/
def LegHolds (leg : Dict) : Prop :=
  isOneOf (evidenceEqualityKinds ++ evidenceBooleanKinds) (leg.get Key.kind) = true ∧
    legMatches leg = true

theorem isOneOf_iff {names : List Text} {v : Val} :
    isOneOf names v = true ↔ ∃ n ∈ names, v = .str n := by
  simp [isOneOf, List.any_eq_true]

theorem isFlag_iff {flag : Bool} {v : Val} : isFlag flag v = true ↔ v = .bool flag := by
  cases v with
  | bool b => simp [isFlag]
  | _ => simp [isFlag]

/-- A leg is satisfied when it holds and its reading did not fail. -/
theorem legStatus_satisfied {leg : Dict} {r : LegResult}
    (h : evaluateGateEvidenceLeg leg = .ok r) :
    r.status = .satisfied ↔ LegHolds leg ∧ isFlag false (leg.get Key.readOk) = false := by
  have hother : ∀ n, (leg.get Key.kind).pyEq (.str n) = true →
      n ∉ evidenceEqualityKinds ++ evidenceBooleanKinds → ¬ LegHolds leg := by
    rintro n hn hmem ⟨hkind, -⟩
    obtain ⟨m, hm, hv⟩ := isOneOf_iff.mp hkind
    rw [hv, Val.pyEq_str_right, Val.str.injEq] at hn
    exact hmem (hn ▸ hm)
  rw [evaluateGateEvidenceLeg] at h
  split_ifs at h with hhuman hdeadline helapsed hprobe hhash hkind hread hmatch
  · cases h
    simpa using fun hl => absurd hl (hother _ hhuman (by decide))
  · cases h
    simpa using fun hl => absurd hl (hother _ hdeadline (by decide))
  · cases h
    simpa using fun hl => absurd hl (hother _ hdeadline (by decide))
  · cases h
    simpa using fun hl => absurd hl (hother _ hprobe (by decide))
  · cases h
    simp [LegHolds, hkind]
  · cases h
    simp [hread]
  · cases h
    have hkind' : isOneOf (evidenceEqualityKinds ++ evidenceBooleanKinds) (leg.get Key.kind) =
        true := by simpa using hkind
    simp [LegHolds, hmatch, hkind', hread]
  · cases h
    simp [LegHolds, hmatch]

/-- A leg that holds has a result. -/
theorem exists_legResult {leg : Dict} (h : LegHolds leg) :
    ∃ r, evaluateGateEvidenceLeg leg = .ok r := by
  obtain ⟨m, -, hm⟩ := isOneOf_iff.mp h.1
  rw [evaluateGateEvidenceLeg, hm]
  split_ifs with h1 h2 h3 h4 h5
  · exact ⟨_, rfl⟩
  · exact ⟨_, rfl⟩
  · exact ⟨_, rfl⟩
  · exact ⟨_, rfl⟩
  · cases h5
  all_goals exact ⟨_, rfl⟩

/-! ### The reduction -/

/-- The status of a gate, for a triage. -/
inductive Status
  | freed
  | stillBlocked
  | indeterminate
  | reviewDue
deriving DecidableEq

/-- The object a leg is. -/
def legDict (v : Val) : Except Raised Dict :=
  match v.asDict with
  | some leg => .ok leg
  | none => .error .attributeError

/-- One value of the list of legs, evaluated. -/
def evaluateLegValue (v : Val) : Except Raised LegResult :=
  (legDict v).bind evaluateGateEvidenceLeg

/-- The status the legs come to together. -/
def reduceStatus (results : List LegResult) : Status :=
  if results.any fun r => r.status == .indeterminate then .indeterminate
  else if results.any fun r => r.status == .reviewDue then .reviewDue
  else if results.any fun r => r.status == .unsatisfied then .stillBlocked
  else .freed

/-- The authored legs of a block. -/
def authoredLegs (evidence : Dict) : Val := (evidence.get Key.legs).orElse (.seq [])

/-- `reduce_gate_evidence`. -/
def reduceGateEvidence (items : ScalarKind → Text → List Val) (evidence : Dict) :
    Except Raised (Status × List LegResult) :=
  if (authoredLegs evidence).truthy = false then .ok (.indeterminate, [])
  else (iterate items (authoredLegs evidence)).bind fun legs =>
    (answers evaluateLegValue legs).map fun results =>
      (reduceStatus results, results)

theorem reduceStatus_freed_iff {results : List LegResult} :
    reduceStatus results = .freed ↔ ∀ r ∈ results, r.status = .satisfied := by
  rw [reduceStatus]
  split_ifs with hi hr hu
  · refine iff_of_false (by decide) fun h => ?_
    obtain ⟨r, hmem, hr⟩ := List.any_eq_true.mp hi
    rw [h r hmem] at hr
    cases hr
  · refine iff_of_false (by decide) fun h => ?_
    obtain ⟨r, hmem, hr⟩ := List.any_eq_true.mp hr
    rw [h r hmem] at hr
    cases hr
  · refine iff_of_false (by decide) fun h => ?_
    obtain ⟨r, hmem, hr⟩ := List.any_eq_true.mp hu
    rw [h r hmem] at hr
    cases hr
  · refine iff_of_true rfl fun r hmem => ?_
    simp only [List.any_eq_true, not_exists, not_and, beq_iff_eq] at hi hr hu
    cases hs : r.status with
    | satisfied => rfl
    | unsatisfied => exact absurd hs (hu r hmem)
    | indeterminate => exact absurd hs (hi r hmem)
    | reviewDue => exact absurd hs (hr r hmem)

/-- The legs of a block, when they are all objects. -/
def LegsAre (items : ScalarKind → Text → List Val) (evidence : Dict) (legs : List Dict) : Prop :=
  (authoredLegs evidence).truthy = true ∧
    iterate items (authoredLegs evidence) = .ok (legs.map Val.map)

private theorem legs_of_satisfied {vs : List Val} {rs : List LegResult}
    (hall : List.Forall₂ (fun v r => evaluateLegValue v = .ok r) vs rs)
    (hsat : ∀ r ∈ rs, r.status = .satisfied) :
    ∃ legs : List Dict, vs = legs.map Val.map ∧
      ∀ leg ∈ legs, LegHolds leg ∧ isFlag false (leg.get Key.readOk) = false := by
  induction hall with
  | nil => exact ⟨[], rfl, fun leg hleg => absurd hleg List.not_mem_nil⟩
  | @cons v r vs rs hr _ ih =>
    obtain ⟨legs, rfl, hlegs⟩ := ih fun r' hr' => hsat r' (List.mem_cons_of_mem r hr')
    obtain ⟨leg, hleg, hr⟩ := except_bind_eq_ok.mp hr
    have hv : v = .map leg := by
      cases v with
      | map d =>
        cases hleg
        rfl
      | _ => cases hleg
    refine ⟨leg :: legs, by rw [hv]; rfl, List.forall_mem_cons.mpr ⟨?_, hlegs⟩⟩
    exact (legStatus_satisfied hr).mp (hsat r (List.mem_cons_self ..))

private theorem answers_of_holds {legs : List Dict}
    (hlegs : ∀ leg ∈ legs, LegHolds leg ∧ isFlag false (leg.get Key.readOk) = false) :
    ∃ rs, answers evaluateLegValue (legs.map Val.map) = .ok rs ∧
      ∀ r ∈ rs, r.status = .satisfied := by
  induction legs with
  | nil => exact ⟨[], rfl, fun r hr => absurd hr List.not_mem_nil⟩
  | cons leg legs ih =>
    obtain ⟨hleg, hrest⟩ := List.forall_mem_cons.mp hlegs
    obtain ⟨rs, hrs, hsat⟩ := ih hrest
    obtain ⟨r, hr⟩ := exists_legResult hleg.1
    refine ⟨r :: rs, answers_eq_ok.mpr (.cons hr (answers_eq_ok.mp hrs)),
      List.forall_mem_cons.mpr ⟨(legStatus_satisfied hr).mpr hleg, hsat⟩⟩

/-- A block frees when every leg holds and none failed to be read. -/
theorem reduce_freed_iff {items : ScalarKind → Text → List Val} {evidence : Dict} :
    (∃ results, reduceGateEvidence items evidence = .ok (.freed, results)) ↔
      ∃ legs, LegsAre items evidence legs ∧
        ∀ leg ∈ legs, LegHolds leg ∧ isFlag false (leg.get Key.readOk) = false := by
  constructor
  · rintro ⟨results, h⟩
    rw [reduceGateEvidence] at h
    split_ifs at h with htruthy
    · cases h
    · obtain ⟨vs, hvs, h⟩ := except_bind_eq_ok.mp h
      obtain ⟨rs, hrs, h⟩ := except_map_eq_ok.mp h
      obtain ⟨hfreed, rfl⟩ := Prod.mk.injEq .. ▸ h
      obtain ⟨legs, rfl, hlegs⟩ :=
        legs_of_satisfied (answers_eq_ok.mp hrs) (reduceStatus_freed_iff.mp hfreed)
      exact ⟨legs, ⟨by simpa using htruthy, hvs⟩, hlegs⟩
  · rintro ⟨legs, ⟨htruthy, hvs⟩, hlegs⟩
    obtain ⟨rs, hrs, hsat⟩ := answers_of_holds hlegs
    refine ⟨rs, ?_⟩
    rw [reduceGateEvidence, if_neg (by simp [htruthy]), hvs]
    exact except_map_eq_ok.mpr ⟨rs, hrs, by rw [reduceStatus_freed_iff.mpr hsat]⟩

/-! ### The completion log -/

/-- `_chain_tokens`. -/
def chainTokens : Val → List Text
  | .str s => ((strip s).splitOn '-').filter (· ≠ [])
  | _ => []

/-- `_id_is_contiguous_subsequence`. -/
def idIsContiguousSubsequence (idTokens chainTokens : List Text) : Bool :=
  !idTokens.isEmpty && (List.range (chainTokens.length - idTokens.length + 1)).any fun start =>
    (chainTokens.drop start).take idTokens.length == idTokens

/-- How an entry names a blocker. -/
inductive MatchKind
  | exact
  | fuzzy
deriving DecidableEq

/-- `_completion_chain_match_kind`. -/
def completionChainMatchKind (blockerId : Text) (chain : Val) : Option MatchKind :=
  if chainTokens chain = [] then none
  else if chain.pyEq (.str blockerId) then some .exact
  else if idIsContiguousSubsequence (chainTokens (.str blockerId)) (chainTokens chain) then
    some .fuzzy
  else none

/-- What the log says of a blocker. -/
inductive Resolution
  | exactShipped
  | fuzzyCandidates
  | none
deriving DecidableEq

/-- An entry of the log that names the blocker, and whether it shows it as landed. -/
def completionCandidate (blockerId : Text) (entry : Dict) : Except Raised (Option Bool) :=
  match (entry.get Key.frontmatter).orElse (.map []) with
  | .map frontmatter =>
    .ok ((completionChainMatchKind blockerId (Dict.get frontmatter Key.chain)).map fun kind =>
      kind == .exact && (Dict.get frontmatter Key.chainTerminal).truthy &&
        !(listItems (Dict.get frontmatter Key.commits)).isEmpty)
  | _ => .error .attributeError

/-- `_resolve_blocker_via_completion_log`. -/
def resolveBlockerViaCompletionLog (blockerId : Text) (entries : List Dict) :
    Except Raised Resolution :=
  (answers (completionCandidate blockerId) entries).map fun candidates =>
    let named := candidates.filterMap id
    if (named.filter id).length = 1 then .exactShipped
    else if named = [] then .none
    else .fuzzyCandidates

end Gate

end CoordinatorCore
