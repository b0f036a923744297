import CoordinatorCore.Gate.Chase
import CoordinatorCore.Gate.Structured

/-!
# Clearing at act time

When a proposed clear is applied, each blocker is looked up again among the records on disk and its
continuations are followed anew. This resolver matches a `stub_id` or a `handoff_id`, refuses an id
that several heads answer to, and follows sixteen names at most; it does not ask for a commit. Where
each name along a chain stands for one record, both resolvers find the same records, and they agree
unless the chain ends in a shipped record without a commit or beyond the eight hops of the
evaluator. They differ on names: the evaluator reads a continuation that is no `handoff_id` as a
path, the act-time scan as a `stub_id`.

The records are those of the corpus: the live ones first, then the archived ones.
-/

namespace CoordinatorCore

open Text

namespace Gate

/-! ### The resolver -/

namespace Key

def closedReason : Text := ['c', 'l', 'o', 's', 'e', 'd', '_', 'r', 'e', 'a', 's', 'o', 'n']

end Key

/-- `_AMBIGUOUS_BLOCKER_SENTINEL`. -/
def ambiguousBlockerSentinel : Text := "<ambiguous-duplicate-id>".toList

/-- `_BlockerState`. -/
structure BlockerState where
  deploymentState : Val
  closedReason : Val
  continuedInto : Val
  resolved : Bool

/-- The records that answer to an id. -/
def recordsNamed (corpus : List Dict) (id : Text) : List Dict :=
  corpus.filter fun r =>
    (r.get Key.stubId).pyEq (.str id) || (r.get Key.handoffId).pyEq (.str id)

/-- `_resolve_blocker_deployment_state`. -/
def resolveBlockerDeploymentState (corpus : List Dict) (id : Text) : BlockerState :=
  match collapseToChainHeads (recordsNamed corpus id) with
  | [] => ⟨.null, .null, .null, false⟩
  | [r] => ⟨r.get Key.deploymentState, r.get Key.closedReason, r.get Key.continuedInto, true⟩
  | _ => ⟨.str ambiguousBlockerSentinel, .null, .null, true⟩

/-- `(continued_into or "").strip()`, where a byte string names no record. -/
def successorName : Val → Except Raised Text
  | .str s => .ok (strip s)
  | .other .bytes _ => .ok []
  | v => if v.truthy then .error .attributeError else .ok []

/-- What stopped a clear. -/
inductive Refusal
  | cycle (id : Text)
  | noSuccessor (id : Text)
  | closed (id : Text) (reason : Val)
  | abandoned (id : Text)
  | dangling (id : Text)
  | liveState (id : Text) (state : Val)
  | tooDeep

/-- `_MAX_CONTINUED_CHAIN_DEPTH`. -/
def maxContinuedChainDepth : Nat := 16

/-- The loop of `_blocker_clears_gate`, with the names it may still look up. -/
def clearsGateFrom (corpus : List Dict) : Nat → List Text → Text → Except Raised (Option Refusal)
  | 0, _, _ => .ok (some .tooDeep)
  | n + 1, visited, id =>
    if id ∈ visited then .ok (some (.cycle id))
    else
      let state := resolveBlockerDeploymentState corpus id
      if state.deploymentState.pyEq (.str State.shipped) then .ok none
      else if state.deploymentState.pyEq (.str State.continued) then
        (successorName state.continuedInto).bind fun successor =>
          if successor = [] then .ok (some (.noSuccessor id))
          else clearsGateFrom corpus n (id :: visited) successor
      else if state.deploymentState.pyEq (.str State.closed) then
        .ok (some (.closed id state.closedReason))
      else if state.deploymentState.pyEq (.str State.abandoned) then .ok (some (.abandoned id))
      else if state.resolved = false then .ok (some (.dangling id))
      else .ok (some (.liveState id state.deploymentState))

/-- `_blocker_clears_gate`. -/
def blockerClearsGate (corpus : List Dict) (id : Text) : Except Raised (Option Refusal) :=
  clearsGateFrom corpus maxContinuedChainDepth [] id

/-! ### Aligned chains -/

/-- The one record the resolver acts on. -/
def actRecord (corpus : List Dict) (id : Text) : Option Dict :=
  match collapseToChainHeads (recordsNamed corpus id) with
  | [r] => some r
  | _ => none

/-- Along the continuations of a record, the resolvers lose the chain together or find the same next
record, and take it together for one they have met. `visited` holds what the evaluator met, `seen`
what was looked up at act time. -/
def Aligned (corpus : List Dict) : Nat → List Val → List Text → Dict → Prop
  | 0, _, _, _ => True
  | hops + 1, visited, seen, record =>
    deploymentState record = some State.continued →
      (resolveContinuationTarget (indexById corpus) (record.get Key.continuedInto) = none ∧
        ∀ name, successorName (record.get Key.continuedInto) = .ok name → name ≠ [] →
          actRecord corpus name = none) ∨
      ∃ name next, successorName (record.get Key.continuedInto) = .ok name ∧ name ≠ [] ∧
        actRecord corpus name = some next ∧
        resolveContinuationTarget (indexById corpus) (record.get Key.continuedInto) = some next ∧
        (successorId next (record.get Key.continuedInto)).hashable ∧
        (visited.any (Val.pyEq (successorId next (record.get Key.continuedInto))) ↔ name ∈ seen) ∧
        (name ∉ seen →
          Aligned corpus hops (successorId next (record.get Key.continuedInto) :: visited)
            (name :: seen) next)

/-- Both resolvers start from the same record, or from none, and follow the same chain. -/
def AlignedFrom (corpus : List Dict) (id : Text) : Prop :=
  (indexById corpus).get id = actRecord corpus id ∧
    ∀ record, actRecord corpus id = some record →
      Aligned corpus (maxContinuedChainDepth - 1) [.str id] [id] record

/-- A chain of so many continued records under fresh names ends at a shipped one. -/
def ShippedAfter (corpus : List Dict) : Nat → List Text → Dict → Dict → Prop
  | 0, _, record, last => deploymentState record = some State.shipped ∧ record = last
  | hops + 1, seen, record, last =>
    deploymentState record = some State.continued ∧ ∃ name next,
      successorName (record.get Key.continuedInto) = .ok name ∧ name ≠ [] ∧ name ∉ seen ∧
        actRecord corpus name = some next ∧ ShippedAfter corpus hops (name :: seen) next last

/-- A chain of at most so many continued records ends at a shipped one of this kind. -/
def ShippedWithin (corpus : List Dict) (hops : Nat) (seen : List Text) (record : Dict)
    (p : Dict → Prop) : Prop :=
  ∃ k ≤ hops, ∃ last, ShippedAfter corpus k seen record last ∧ p last

section

variable {corpus : List Dict}

private theorem continued_ne_shipped : State.continued ≠ State.shipped := by decide

/-- A chain ends once. -/
theorem ShippedAfter.unique {m n : Nat} {seen : List Text} {record last last' : Dict}
    (h : ShippedAfter corpus m seen record last) (h' : ShippedAfter corpus n seen record last') :
    m = n ∧ last = last' := by
  induction m generalizing n seen record with
  | zero =>
    obtain ⟨hs, rfl⟩ := h
    cases n with
    | zero => exact ⟨rfl, h'.2⟩
    | succ n =>
      have hc := h'.1
      rw [hs] at hc
      exact absurd (Option.some.inj hc).symm continued_ne_shipped
  | succ m ih =>
    obtain ⟨hc, name, next, hname, -, -, hnext, hrest⟩ := h
    cases n with
    | zero =>
      have hs := h'.1
      rw [hc] at hs
      exact absurd (Option.some.inj hs) continued_ne_shipped
    | succ n =>
      obtain ⟨-, name', next', hname', -, -, hnext', hrest'⟩ := h'
      cases Except.ok.inj (hname.symm.trans hname')
      cases hnext.symm.trans hnext'
      obtain ⟨rfl, hlast⟩ := ih hrest hrest'
      exact ⟨rfl, hlast⟩

/-! One step along a chain. -/

/-- A shipped record ends the chain. -/
theorem shippedWithin_of_shipped {hops : Nat} {seen : List Text} {record : Dict}
    {p : Dict → Prop} (h : deploymentState record = some State.shipped) :
    ShippedWithin corpus hops seen record p ↔ p record := by
  refine ⟨?_, fun hp => ⟨0, Nat.zero_le _, record, ⟨h, rfl⟩, hp⟩⟩
  rintro ⟨k, -, last, hk, hp⟩
  obtain ⟨rfl, rfl⟩ := hk.unique (n := 0) ⟨h, rfl⟩
  exact hp

/-- A record in another state does not lead on. -/
theorem not_shippedWithin {hops : Nat} {seen : List Text} {record : Dict} {p : Dict → Prop}
    (hs : deploymentState record ≠ some State.shipped)
    (hc : deploymentState record ≠ some State.continued) :
    ¬ ShippedWithin corpus hops seen record p := by
  rintro ⟨k, -, last, hk, -⟩
  cases k with
  | zero => exact hs hk.1
  | succ k => exact hc hk.1

/-- Without hops left a record that has not shipped does not count. -/
theorem not_shippedWithin_zero {seen : List Text} {record : Dict} {p : Dict → Prop}
    (hs : deploymentState record ≠ some State.shipped) :
    ¬ ShippedWithin corpus 0 seen record p := by
  rintro ⟨k, hk, last, h, -⟩
  obtain rfl : k = 0 := Nat.le_zero.mp hk
  exact hs h.1

/-- A continued record leads where its successor does. -/
theorem shippedWithin_succ {hops : Nat} {seen : List Text} {record : Dict} {p : Dict → Prop}
    (hs : deploymentState record ≠ some State.shipped)
    (hc : deploymentState record = some State.continued) :
    ShippedWithin corpus (hops + 1) seen record p ↔ ∃ name next,
      successorName (record.get Key.continuedInto) = .ok name ∧ name ≠ [] ∧ name ∉ seen ∧
        actRecord corpus name = some next ∧
        ShippedWithin corpus hops (name :: seen) next p := by
  constructor
  · rintro ⟨k, hk, last, h, hp⟩
    cases k with
    | zero => exact absurd h.1 hs
    | succ k =>
      obtain ⟨-, name, next, hname, hne, hfresh, hnext, hrest⟩ := h
      exact ⟨name, next, hname, hne, hfresh, hnext, k, by omega, last, hrest, hp⟩
  · rintro ⟨name, next, hname, hne, hfresh, hnext, k, hk, last, hrest, hp⟩
    exact ⟨k + 1, by omega, last, ⟨hc, name, next, hname, hne, hfresh, hnext, hrest⟩, hp⟩

private theorem chaseContinuation_of_shipped {index : TypedHandoffIndex} {record : Dict}
    (h : deploymentState record = some State.shipped) (hops : Nat) (visited : List Val) :
    chaseContinuation index hops visited record =
      .ok (.shipped (nonEmptyStr (record.get Key.shippedIn))) := by
  cases hops <;> rw [chaseContinuation, if_pos h]

private theorem chaseContinuation_of_open {index : TypedHandoffIndex} {record : Dict}
    (hs : deploymentState record ≠ some State.shipped)
    (hc : deploymentState record ≠ some State.continued) (hops : Nat) (visited : List Val) :
    chaseContinuation index hops visited record = .ok .stillOpen := by
  cases hops <;> rw [chaseContinuation, if_neg hs, if_pos hc]

/-- The chase of the evaluator ends shipped where an aligned chain does, within its hops. -/
theorem chaseContinuation_aligned {hops bound : Nat} (hle : hops ≤ bound) {visited : List Val}
    {seen : List Text} {record : Dict} (h : Aligned corpus bound visited seen record)
    (sha : Option Text) :
    chaseContinuation (indexById corpus) hops visited record = .ok (.shipped sha) ↔
      ShippedWithin corpus hops seen record
        fun last => nonEmptyStr (last.get Key.shippedIn) = sha := by
  induction hops generalizing bound visited seen record with
  | zero =>
    by_cases hs : deploymentState record = some State.shipped
    · rw [chaseContinuation_of_shipped hs, shippedWithin_of_shipped hs, Except.ok.injEq,
        Outcome.shipped.injEq]
    · rw [chaseContinuation, if_neg hs, iff_false_right (not_shippedWithin_zero hs)]
      split_ifs <;> simp
  | succ hops ih =>
    by_cases hs : deploymentState record = some State.shipped
    · rw [chaseContinuation_of_shipped hs, shippedWithin_of_shipped hs, Except.ok.injEq,
        Outcome.shipped.injEq]
    by_cases hc : deploymentState record = some State.continued
    · obtain ⟨bound, rfl⟩ : ∃ b, bound = b + 1 := ⟨bound - 1, by omega⟩
      rw [chaseContinuation, if_neg hs, if_neg (not_not.mpr hc), shippedWithin_succ hs hc]
      rcases h hc with ⟨hlost, hact⟩ | ⟨name, next, hname, hne, hact, hres, hhash, hseen, hrest⟩
      · simp only [hlost]
        refine iff_of_false (fun h => by cases h) ?_
        rintro ⟨name, next, hname, hne, -, hnext, -⟩
        rw [hact name hname hne] at hnext
        cases hnext
      · simp only [hres, hhash, Bool.true_eq_false, if_false]
        by_cases hmem : name ∈ seen
        · rw [if_pos (hseen.mpr hmem)]
          refine iff_of_false (fun h => by cases h) ?_
          rintro ⟨name', next', hname', -, hfresh, -, -⟩
          cases Except.ok.inj (hname.symm.trans hname')
          exact hfresh hmem
        · rw [if_neg (fun h => hmem (hseen.mp h)), ih (by omega) (hrest hmem)]
          refine ⟨fun h => ⟨name, next, hname, hne, hmem, hact, h⟩, ?_⟩
          rintro ⟨name', next', hname', -, -, hact', h⟩
          cases Except.ok.inj (hname.symm.trans hname')
          cases hact.symm.trans hact'
          exact h
    · rw [chaseContinuation_of_open hs hc]
      exact iff_of_false (fun h => by cases h) (not_shippedWithin hs hc)

/-! ### Clearing along a chain -/

/-- One name looked up: it is fresh, and shipped or continued into a name that clears. -/
theorem clearsGateFrom_succ {n : Nat} {seen : List Text} {id : Text} :
    clearsGateFrom corpus (n + 1) seen id = .ok none ↔
      id ∉ seen ∧
        ((resolveBlockerDeploymentState corpus id).deploymentState = .str State.shipped ∨
          (resolveBlockerDeploymentState corpus id).deploymentState = .str State.continued ∧
            ∃ name, successorName (resolveBlockerDeploymentState corpus id).continuedInto =
              .ok name ∧ name ≠ [] ∧ clearsGateFrom corpus n (id :: seen) name = .ok none) := by
  rw [clearsGateFrom]
  by_cases hid : id ∈ seen
  · rw [if_pos hid]
    exact iff_of_false (fun h => nomatch h) fun h => h.1 hid
  rw [if_neg hid, and_iff_right hid]
  generalize resolveBlockerDeploymentState corpus id = state
  by_cases hs : state.deploymentState = .str State.shipped
  · rw [if_pos (Val.pyEq_str_right.mpr hs)]
    exact iff_of_true rfl (.inl hs)
  rw [if_neg (fun h => hs (Val.pyEq_str_right.mp h)), or_iff_right hs]
  by_cases hc : state.deploymentState = .str State.continued
  · rw [if_pos (Val.pyEq_str_right.mpr hc), and_iff_right hc, except_bind_eq_ok]
    refine exists_congr fun name => and_congr_right fun _ => ?_
    by_cases hne : name = []
    · rw [if_pos hne]
      exact iff_of_false (fun h => nomatch h) fun h => h.1 hne
    · rw [if_neg hne, and_iff_right hne]
  · rw [if_neg (fun h => hc (Val.pyEq_str_right.mp h))]
    refine iff_of_false ?_ fun h => hc h.1
    split_ifs <;> exact fun h => nomatch h

/-- What the resolver reads of a record. -/
theorem resolve_of_actRecord {id : Text} {record : Dict} (h : actRecord corpus id = some record) :
    resolveBlockerDeploymentState corpus id =
      ⟨record.get Key.deploymentState, record.get Key.closedReason,
        record.get Key.continuedInto, true⟩ := by
  rw [actRecord] at h
  rw [resolveBlockerDeploymentState]
  split at h
  next r heq =>
    rw [heq, Option.some.inj h]
  next => cases h

private theorem sentinel_ne_shipped : ambiguousBlockerSentinel ≠ State.shipped := by
  decide

private theorem sentinel_ne_continued : ambiguousBlockerSentinel ≠ State.continued := by
  decide

/-- An id of no record, or of several, is not cleared. -/
theorem clearsGateFrom_ne_of_actRecord {n : Nat} {seen : List Text} {id : Text}
    (h : actRecord corpus id = none) : clearsGateFrom corpus n seen id ≠ .ok none := by
  cases n with
  | zero => exact fun h => nomatch h
  | succ n =>
    rw [Ne, clearsGateFrom_succ, resolveBlockerDeploymentState]
    rw [actRecord] at h
    split
    next => exact fun h => h.2.elim nofun (nofun ∘ And.left)
    next r heq =>
      rw [heq] at h
      cases h
    next =>
      rintro ⟨-, h | ⟨h, -⟩⟩
      · exact sentinel_ne_shipped (Val.str.inj h)
      · exact sentinel_ne_continued (Val.str.inj h)

private theorem get_deploymentState {record : Dict} {s : Text} :
    record.get Key.deploymentState = .str s ↔ deploymentState record = some s := by
  rw [deploymentState]
  cases record.get Key.deploymentState <;> simp

/-- The act-time resolver clears where a chain ends shipped, within the names it may look up. -/
theorem clearsGateFrom_iff {n : Nat} {seen : List Text} {id : Text} {record : Dict}
    (hid : id ∉ seen) (hrecord : actRecord corpus id = some record) :
    clearsGateFrom corpus (n + 1) seen id = .ok none ↔
      ShippedWithin corpus n (id :: seen) record fun _ => True := by
  induction n generalizing seen id record with
  | zero =>
    rw [clearsGateFrom_succ, resolve_of_actRecord hrecord, and_iff_right hid, get_deploymentState]
    by_cases hs : deploymentState record = some State.shipped
    · exact iff_of_true (.inl hs) ((shippedWithin_of_shipped hs).mpr trivial)
    · refine iff_of_false ?_ (not_shippedWithin_zero hs)
      rintro (h | ⟨-, name, -, -, h⟩)
      · exact hs h
      · cases h
  | succ n ih =>
    rw [clearsGateFrom_succ, resolve_of_actRecord hrecord, and_iff_right hid, get_deploymentState,
      get_deploymentState]
    by_cases hs : deploymentState record = some State.shipped
    · exact iff_of_true (.inl hs) ((shippedWithin_of_shipped hs).mpr trivial)
    rw [or_iff_right hs]
    by_cases hc : deploymentState record = some State.continued
    · rw [and_iff_right hc, shippedWithin_succ hs hc]
      refine exists_congr fun name => ?_
      constructor
      · rintro ⟨hname, hne, h⟩
        cases hact : actRecord corpus name with
        | none => exact absurd h (clearsGateFrom_ne_of_actRecord hact)
        | some next =>
          have hfresh := (clearsGateFrom_succ.mp h).1
          exact ⟨next, hname, hne, hfresh, rfl, (ih hfresh hact).mp h⟩
      · rintro ⟨next, hname, hne, hfresh, hact, h⟩
        exact ⟨hname, hne, (ih hfresh hact).mpr h⟩
    · exact iff_of_false (fun h => hc h.1) (not_shippedWithin hs hc)

/-! ### The two resolvers -/

/-- An id is put with the shipped ones where the chase from its record ends at a commit. -/
theorem bucketOf_shipped_iff {index : TypedHandoffIndex} {dispositions : Val} {id sha : Text} :
    bucketOf index dispositions id = .ok (.shipped sha) ↔
      ∃ record, index.get id = some record ∧
        chaseContinuation index maxContinuationChaseDepth [.str id] record =
          .ok (.shipped (some sha)) := by
  rw [bucketOf]
  cases index.get id with
  | none =>
    refine iff_of_false (fun h => ?_) ?_
    · simp only [Except.ok.injEq] at h
      split_ifs at h
    · rintro ⟨_, h, -⟩
      cases h
  | some record =>
    simp only [Option.some.injEq, exists_eq_left', recordBucket]
    by_cases hs : deploymentState record = some State.shipped
    · rw [hs, chaseContinuation_of_shipped hs]
      simp only [if_true, Except.ok.injEq, Outcome.shipped.injEq]
      cases nonEmptyStr (record.get Key.shippedIn) <;> simp [Bucket.ofSha]
    by_cases hc : deploymentState record = some State.continued
    · rw [hc]
      simp only [continued_ne_shipped, if_false, if_true, except_map_eq_ok]
      constructor
      · rintro ⟨outcome, hchase, hbucket⟩
        rcases outcome with (_ | sha') | _ | _ | _ | _ <;> cases hbucket
        exact hchase
      · exact fun h => ⟨_, h, rfl⟩
    · rw [chaseContinuation_of_open hs hc]
      refine iff_of_false ?_ fun h => by cases h
      cases hstate : deploymentState record with
      | none =>
        intro h
        cases h
      | some state =>
        rw [hstate, Option.some.injEq] at hs hc
        simp only [hs, hc, if_false]
        split_ifs <;> intro h <;> cases h

variable {dispositions : Val} {ids : List Text} {b : Buckets} {id : Text}

/-- The ids classified as shipped are those whose bucket is shipped. -/
theorem mem_shippedIds_iff (hb : classifyBlockedBy (indexById corpus) dispositions ids = .ok b)
    (hid : id ∈ ids) :
    id ∈ b.shippedIds ↔
      ∃ sha, bucketOf (indexById corpus) dispositions id = .ok (.shipped sha) := by
  rw [classifyBlockedBy_eq] at hb
  obtain ⟨ps, hps, rfl⟩ := except_map_eq_ok.mp hb
  obtain ⟨hfst, hall⟩ := assign_eq_ok.mp hps
  rw [mem_shipped_ofAssigned]
  refine exists_congr fun sha => ⟨fun h => hall _ h, fun h => ?_⟩
  rw [← hfst] at hid
  obtain ⟨⟨_, k⟩, hp, rfl⟩ := List.mem_map.mp hid
  rw [hall _ hp, Except.ok.injEq] at h
  exact h ▸ hp

/-- An aligned id is put with the shipped ones where its chain ends within the hops of the evaluator
at a shipped record with a commit. -/
theorem mem_shippedIds_aligned
    (hb : classifyBlockedBy (indexById corpus) dispositions ids = .ok b) (hid : id ∈ ids)
    (h : AlignedFrom corpus id) :
    id ∈ b.shippedIds ↔ ∃ record, actRecord corpus id = some record ∧
      ShippedWithin corpus maxContinuationChaseDepth [id] record
        fun last => nonEmptyStr (last.get Key.shippedIn) ≠ none := by
  rw [mem_shippedIds_iff hb hid]
  simp only [bucketOf_shipped_iff, h.1]
  rw [exists_comm]
  refine exists_congr fun record => ?_
  rw [exists_and_left]
  refine and_congr_right fun hrecord => ?_
  have hle : maxContinuationChaseDepth ≤ maxContinuedChainDepth - 1 := by decide
  simp only [chaseContinuation_aligned hle (h.2 record hrecord), ShippedWithin,
    Option.ne_none_iff_exists']
  exact ⟨fun ⟨sha, k, hk, last, hl, hs⟩ => ⟨k, hk, last, hl, sha, hs⟩,
    fun ⟨k, hk, last, hl, sha, hs⟩ => ⟨sha, k, hk, last, hl, hs⟩⟩

/-- An id is cleared at act time where its chain ends at a shipped record, within the names the
resolver may look up. -/
theorem blockerClearsGate_iff :
    blockerClearsGate corpus id = .ok none ↔ ∃ record, actRecord corpus id = some record ∧
      ShippedWithin corpus (maxContinuedChainDepth - 1) [id] record fun _ => True := by
  cases hact : actRecord corpus id with
  | none =>
    exact iff_of_false (clearsGateFrom_ne_of_actRecord hact) fun ⟨_, h, _⟩ => nomatch h
  | some record =>
    simp only [Option.some.injEq, exists_eq_left']
    exact clearsGateFrom_iff List.not_mem_nil hact

end

/-! ### One record to a name -/

/-- A record carries a name where a blocker is looked up at act time. -/
def Answers (name : Text) (record : Dict) : Prop :=
  record.get Key.stubId = .str name ∨ record.get Key.handoffId = .str name

/-- A record carries a name where the evaluator lists it. -/
def Listed (name : Text) (record : Dict) : Prop :=
  if isHandoffId name then record.get Key.handoffId = .str name
  else name ≠ [] ∧ (record.get Key.id).orElse (record.get Key.stubId) = .str name

/-- A name that stands for one record, or for none: the records that carry it are listed under it,
they have one head, and where the name is a `handoff_id` the last of them is that head. -/
structure PlainName (corpus : List Dict) (name : Text) : Prop where
  listed_iff : ∀ record ∈ corpus, Listed name record ↔ Answers name record
  oneHead : (collapseToChainHeads (recordsNamed corpus name)).length ≤ 1
  newest : isHandoffId name = true → (recordsNamed corpus name).getLast? =
    (collapseToChainHeads (recordsNamed corpus name)).getLast?

/-- A continuation under which the evaluator lists no record: no `handoff_id`, or no last segment of
a path, of the corpus. -/
def Unlisted (corpus : List Dict) (continuedInto : Val) : Prop :=
  ∀ s, continuedInto = .str s → s ≠ [] → ∀ record ∈ corpus,
    if isHandoffId s then record.get Key.handoffId ≠ .str s
    else ownBasename record ≠ pathBasename (.str s)

/-- A continuation that no record of the corpus can be meant by. -/
def Dangling (corpus : List Dict) (continuedInto : Val) : Prop :=
  Unlisted corpus continuedInto ∧ ∀ s, continuedInto = .str s → strip s ≠ [] →
    ∀ record ∈ corpus, ¬ Answers (strip s) record

/-- A continuation is the `handoff_id` of one record, or of none, or means no record. -/
def PlainHop (corpus : List Dict) (continuedInto : Val) : Prop :=
  (∃ s, continuedInto = .str s ∧ strip s = s ∧ isHandoffId s = true ∧ PlainName corpus s) ∨
    Dangling corpus continuedInto

/-- The records that the continuations lead to from an id, by the number of hops. -/
inductive OnChain (corpus : List Dict) (id : Text) : Nat → Dict → Prop
  | start {record : Dict} :
    collapseToChainHeads (recordsNamed corpus id) = [record] → OnChain corpus id 0 record
  | hop {k : Nat} {record next : Dict} {s : Text} :
    OnChain corpus id k record → deploymentState record = some State.continued →
      record.get Key.continuedInto = .str s → strip s ≠ [] →
        collapseToChainHeads (recordsNamed corpus (strip s)) = [next] →
          OnChain corpus id (k + 1) next

/-- The names along the chain of an id each stand for one record, or for none. -/
structure PlainChain (corpus : List Dict) (id : Text) : Prop where
  name : PlainName corpus id
  hop : ∀ k record, OnChain corpus id k record → k + 1 < maxContinuedChainDepth →
    deploymentState record = some State.continued →
      PlainHop corpus (record.get Key.continuedInto)

section

variable {corpus : List Dict} {name : Text}

/-- The records a name finds at act time. -/
theorem mem_recordsNamed {record : Dict} :
    record ∈ recordsNamed corpus name ↔ record ∈ corpus ∧ Answers name record := by
  simp [recordsNamed, Answers]

/-- One record is found when the chain heads of the found records are that one. -/
theorem actRecord_eq_some {record : Dict} :
    actRecord corpus name = some record ↔
      collapseToChainHeads (recordsNamed corpus name) = [record] := by
  rw [actRecord]
  split
  next r heq => simp [heq]
  next hne =>
    refine iff_of_false (fun h => by cases h) fun h => hne _ h

/-- The record that is found answers to the name. -/
theorem answers_of_actRecord {record : Dict} (h : actRecord corpus name = some record) :
    record ∈ corpus ∧ Answers name record := by
  refine mem_recordsNamed.mp (mem_of_mem_collapse ?_)
  rw [actRecord_eq_some.mp h]
  exact List.mem_singleton_self _

/-- A name no record answers to finds none. -/
theorem actRecord_eq_none (h : ∀ record ∈ corpus, ¬ Answers name record) :
    actRecord corpus name = none := by
  cases hact : actRecord corpus name with
  | none => rfl
  | some record =>
    obtain ⟨hmem, hans⟩ := answers_of_actRecord hact
    exact absurd hans (h record hmem)

/-- Where a name stands for one record, the evaluator's index holds that record. -/
theorem PlainName.get_eq (h : PlainName corpus name) :
    (indexById corpus).get name = actRecord corpus name := by
  have hhead : (collapseToChainHeads (recordsNamed corpus name)).getLast? =
      actRecord corpus name := by
    have hone := h.oneHead
    rw [actRecord]
    generalize collapseToChainHeads (recordsNamed corpus name) = heads at hone
    match heads, hone with
    | [], _ => rfl
    | [r], _ => rfl
  have hfilter : ∀ {p : Dict → Bool}, (∀ record, p record = true ↔ Listed name record) →
      corpus.filter p = recordsNamed corpus name := by
    intro p hp
    refine List.filter_congr fun record hmem => Bool.eq_iff_iff.mpr ?_
    rw [hp, h.listed_iff record hmem, Bool.or_eq_true, Val.pyEq_str_right, Val.pyEq_str_right]
    exact Iff.rfl
  rw [TypedHandoffIndex.get]
  split_ifs with hid
  · rw [get_byHandoffId, hfilter fun record => ?_, h.newest hid, hhead]
    rw [decide_eq_true_iff, Listed, if_pos hid, indexedHandoffId]
    cases record.get Key.handoffId with
    | str s =>
      dsimp only
      by_cases hs : s = name
      · simp [hs, hid]
      · split_ifs <;> simp [hs]
    | _ => simp
  · rw [get_byStubId, stubGroup, hfilter fun record => ?_, hhead]
    rw [decide_eq_true_iff, Listed, if_neg hid, indexedStubId, nonEmptyStr_eq_some, and_comm]

/-- A handoff id is not empty. -/
theorem isHandoffId_ne_nil (h : isHandoffId name = true) : name ≠ [] := by
  rintro rfl
  cases h

/-- No record is met behind an unlisted continuation. -/
theorem Unlisted.resolve_eq_none {v : Val} (h : Unlisted corpus v) :
    resolveContinuationTarget (indexById corpus) v = none := by
  rw [resolveContinuationTarget]
  cases hv : nonEmptyStr v with
  | none => rfl
  | some s =>
    obtain ⟨rfl, hne⟩ := nonEmptyStr_eq_some.mp hv
    have hno := h s rfl hne
    rw [Option.bind_some]
    split_ifs with hid
    · rw [TypedHandoffIndex.get, if_pos hid, get_byHandoffId, List.getLast?_eq_none_iff,
        List.filter_eq_nil_iff]
      intro record hmem hlisted
      have hne := hno record hmem
      rw [if_pos hid] at hne
      rw [decide_eq_true_iff, indexedHandoffId] at hlisted
      split at hlisted
      next t ht =>
        split_ifs at hlisted
        exact hne (ht.trans (congrArg Val.str (Option.some.inj hlisted)))
      next => cases hlisted
    · rw [TypedHandoffIndex.getByPath]
      cases hb : pathBasename (.str s) with
      | none => rfl
      | some b =>
        rw [Option.bind_some, get_byPathBasename, List.getLast?_eq_none_iff,
          List.filter_eq_nil_iff]
        intro record hmem hown
        have hne := hno record hmem
        rw [if_neg hid, hb] at hne
        exact hne (of_decide_eq_true hown)

/-- A dangling successor is not found at act time either. -/
theorem Dangling.actRecord_eq_none {v : Val} (h : Dangling corpus v)
    (hname : successorName v = .ok name) (hne : name ≠ []) : actRecord corpus name = none := by
  cases v with
  | str s =>
    obtain rfl : strip s = name := Except.ok.inj hname
    exact Gate.actRecord_eq_none (h.2 s rfl hne)
  | other k t =>
    exfalso
    rw [successorName.eq_def] at hname
    split at hname
    · next heq => cases heq
    · exact hne (Except.ok.inj hname).symm
    · split_ifs at hname
      exact hne (Except.ok.inj hname).symm
  | _ =>
    exfalso
    simp only [successorName] at hname
    split_ifs at hname
    exact hne (Except.ok.inj hname).symm

/-- A record is remembered by the `handoff_id` that led to it. -/
theorem successorId_eq {next : Dict} (hid : isHandoffId name = true)
    (h : next.get Key.handoffId = .str name) (v : Val) : successorId next v = .str name := by
  rw [successorId, h, Val.orElse, if_pos]
  simpa [Val.truthy] using isHandoffId_ne_nil hid

/-- Along a plain chain the resolvers see the same records. -/
theorem PlainChain.aligned {id : Text} (h : PlainChain corpus id) {bound k : Nat}
    (hle : k + bound < maxContinuedChainDepth) {record : Dict} (hon : OnChain corpus id k record)
    (seen : List Text) : Aligned corpus bound (seen.map .str) seen record := by
  induction bound generalizing k record seen with
  | zero => exact trivial
  | succ bound ih =>
    intro hc
    rcases h.hop k record hon (by omega) hc with ⟨s, hs, hstrip, hid, hplain⟩ | hdangling
    · have hname : successorName (record.get Key.continuedInto) = .ok s := by
        rw [hs, successorName, hstrip]
      have htarget : resolveContinuationTarget (indexById corpus)
          (record.get Key.continuedInto) = actRecord corpus s := by
        rw [resolveContinuationTarget, hs,
          nonEmptyStr_eq_some.mpr ⟨rfl, isHandoffId_ne_nil hid⟩, Option.bind_some, if_pos hid,
          hplain.get_eq]
      cases hact : actRecord corpus s with
      | none =>
        refine .inl ⟨htarget.trans hact, fun name hname' _ => ?_⟩
        rwa [← Except.ok.inj (hname.symm.trans hname')]
      | some next =>
        obtain ⟨hmem, hans⟩ := answers_of_actRecord hact
        have hlisted := (hplain.listed_iff next hmem).mpr hans
        rw [Listed, if_pos hid] at hlisted
        have hremembered := successorId_eq hid hlisted (record.get Key.continuedInto)
        refine .inr ⟨s, next, hname, isHandoffId_ne_nil hid, hact, htarget.trans hact, ?_⟩
        rw [hremembered]
        refine ⟨rfl, ?_, fun _ => ?_⟩
        · rw [List.any_map, List.any_eq_true]
          exact ⟨fun ⟨t, ht, heq⟩ => Val.str.inj (Val.pyEq_str_left.mp heq) ▸ ht,
            fun hmem => ⟨s, hmem, Val.pyEq_str_left.mpr rfl⟩⟩
        · have hne : strip s ≠ [] := hstrip.symm ▸ isHandoffId_ne_nil hid
          refine ih (k := k + 1) (by omega) (.hop hon hc hs hne ?_) (s :: seen)
          rw [hstrip]
          exact actRecord_eq_some.mp hact
    · exact .inl ⟨hdangling.1.resolve_eq_none, fun name hname hne =>
        hdangling.actRecord_eq_none hname hne⟩

/-- On a plain chain both resolvers go the same way. -/
theorem PlainChain.alignedFrom {id : Text} (h : PlainChain corpus id) : AlignedFrom corpus id :=
  ⟨h.name.get_eq, fun _ hrecord =>
    h.aligned (by decide) (.start (actRecord_eq_some.mp hrecord)) [id]⟩

/-! ### The chain at act time -/

variable {id : Text}

/-- The record at a place of the chain is determined. -/
theorem OnChain.unique {k : Nat} {record record' : Dict} (h : OnChain corpus id k record)
    (h' : OnChain corpus id k record') : record = record' := by
  induction h generalizing record' with
  | start hheads =>
    cases h' with
    | start hheads' => exact List.singleton_inj.mp (hheads.symm.trans hheads')
  | hop _ _ hs _ hheads ih =>
    cases h' with
    | hop hon' _ hs' _ hheads' =>
      cases ih hon'
      cases Val.str.inj (hs.symm.trans hs')
      exact List.singleton_inj.mp (hheads.symm.trans hheads')

/-- In front of a record of the chain stand continued records. -/
theorem OnChain.earlier {k m : Nat} {record : Dict} (h : OnChain corpus id m record)
    (hlt : k < m) : ∃ before next s, OnChain corpus id k before ∧
      deploymentState before = some State.continued ∧ before.get Key.continuedInto = .str s ∧
        strip s ≠ [] ∧ collapseToChainHeads (recordsNamed corpus (strip s)) = [next] := by
  induction h with
  | start => exact absurd hlt (Nat.not_lt_zero _)
  | @hop m record next s hon hc hs hne hheads ih =>
    rcases Nat.lt_succ_iff_lt_or_eq.mp hlt with hlt | rfl
    · exact ih hlt
    · exact ⟨record, next, s, hon, hc, hs, hne, hheads⟩

/-- A record in front of another has not shipped. -/
theorem OnChain.not_shipped {k m : Nat} {record last : Dict} (h : OnChain corpus id k record)
    (hlast : OnChain corpus id m last) (hlt : k < m) :
    deploymentState record ≠ some State.shipped := by
  obtain ⟨before, -, -, hbefore, hc, -⟩ := hlast.earlier hlt
  rw [h.unique hbefore, hc]
  exact fun h => continued_ne_shipped (Option.some.inj h)

/-- One shipped record stands on the chain, the last. -/
theorem OnChain.shipped_unique {k m : Nat} {record last : Dict} (h : OnChain corpus id k record)
    (hs : deploymentState record = some State.shipped) (hlast : OnChain corpus id m last)
    (hs' : deploymentState last = some State.shipped) : k = m ∧ record = last := by
  rcases Nat.lt_trichotomy k m with hlt | rfl | hlt
  · exact absurd hs (h.not_shipped hlast hlt)
  · exact ⟨rfl, h.unique hlast⟩
  · exact absurd hs' (hlast.not_shipped h hlt)

/-- Where a record stands at two places, what follows it follows both. -/
theorem OnChain.shift {i j m : Nat} {record last : Dict} (hi : OnChain corpus id i record)
    (hj : OnChain corpus id j record) (hlast : OnChain corpus id (j + m) last) :
    OnChain corpus id (i + m) last := by
  induction m generalizing last with
  | zero => rwa [hlast.unique hj]
  | succ m ih =>
    cases hlast with
    | hop hon hc hs hne hheads => exact .hop (ih hon) hc hs hne hheads

/-- A chain has a first record. -/
theorem OnChain.head {k : Nat} {record : Dict} (h : OnChain corpus id k record) :
    ∃ first, OnChain corpus id 0 first := by
  induction h with
  | start hheads => exact ⟨_, .start hheads⟩
  | hop _ _ _ _ _ ih => exact ih

/-- A chain that ends shipped is a chain. -/
theorem ShippedAfter.onChain {m k : Nat} {seen : List Text} {record last : Dict}
    (h : ShippedAfter corpus m seen record last) (hon : OnChain corpus id k record) :
    OnChain corpus id (k + m) last ∧ deploymentState last = some State.shipped := by
  induction m generalizing k seen record with
  | zero =>
    obtain ⟨hs, rfl⟩ := h
    exact ⟨hon, hs⟩
  | succ m ih =>
    obtain ⟨hc, name, next, hname, hne, -, hnext, hrest⟩ := h
    have hstr : ∃ s, record.get Key.continuedInto = .str s ∧ strip s = name := by
      cases hv : record.get Key.continuedInto with
      | str s => exact ⟨s, rfl, Except.ok.inj (hv ▸ hname)⟩
      | other k t =>
        exfalso
        rw [hv, successorName.eq_def] at hname
        split at hname
        · next heq => cases heq
        · exact hne (Except.ok.inj hname).symm
        · split_ifs at hname
          exact hne (Except.ok.inj hname).symm
      | _ =>
        exfalso
        simp only [hv, successorName] at hname
        split_ifs at hname
        exact hne (Except.ok.inj hname).symm
    obtain ⟨s, hs, rfl⟩ := hstr
    rw [Nat.add_succ, ← Nat.succ_add]
    exact ih hrest (.hop hon hc hs hne (actRecord_eq_some.mp hnext))

/-- The names of a chain that ends shipped are fresh: a name that came again would lead past the
shipped record. -/
theorem OnChain.shippedAfter {m k : Nat} {seen : List Text} {record last : Dict}
    (hon : OnChain corpus id k record) (hlast : OnChain corpus id (k + m) last)
    (hs : deploymentState last = some State.shipped)
    (hseen : ∀ name ∈ seen, ∃ j ≤ k, ∃ r, OnChain corpus id j r ∧
      collapseToChainHeads (recordsNamed corpus name) = [r]) :
    ShippedAfter corpus m seen record last := by
  induction m generalizing k seen record with
  | zero =>
    obtain rfl := hon.unique hlast
    exact ⟨hs, rfl⟩
  | succ m ih =>
    obtain ⟨before, next, s, hbefore, hc, hinto, hne, hheads⟩ :=
      hlast.earlier (Nat.lt_add_of_pos_right m.succ_pos)
    obtain rfl := hon.unique hbefore
    have hnext : OnChain corpus id (k + 1) next := .hop hon hc hinto hne hheads
    have hlast' : OnChain corpus id (k + 1 + m) last := by
      rwa [Nat.add_assoc, Nat.add_comm 1 m]
    have hname : successorName (record.get Key.continuedInto) = .ok (strip s) := by
      rw [hinto, successorName]
    refine ⟨hc, strip s, next, hname, hne, fun hmem => ?_, actRecord_eq_some.mpr hheads,
      ih hnext hlast' ?_⟩
    · obtain ⟨j, hj, r, hr, hheads'⟩ := hseen _ hmem
      obtain rfl := List.singleton_inj.mp (hheads.symm.trans hheads')
      exact (hr.shift hnext hlast').not_shipped hlast (by omega) hs
    · intro name hmem
      rcases List.mem_cons.mp hmem with rfl | hmem
      · exact ⟨k + 1, le_rfl, next, hnext, hheads⟩
      · obtain ⟨j, hj, hr⟩ := hseen name hmem
        exact ⟨j, Nat.le_succ_of_le hj, hr⟩

/-- The chain of an id comes to a shipped record within the names that are looked up at act time. -/
def ShipsAtAct (corpus : List Dict) (id : Text) : Prop :=
  ∃ k < maxContinuedChainDepth, ∃ record, OnChain corpus id k record ∧
    deploymentState record = some State.shipped

/-- An id is cleared at act time exactly when its chain ships. -/
theorem blockerClearsGate_iff_shipsAtAct :
    blockerClearsGate corpus id = .ok none ↔ ShipsAtAct corpus id := by
  rw [blockerClearsGate_iff]
  constructor
  · rintro ⟨record, hrecord, k, hk, last, hlast, -⟩
    obtain ⟨hon, hs⟩ := hlast.onChain (.start (actRecord_eq_some.mp hrecord))
    rw [Nat.zero_add] at hon
    exact ⟨k, Nat.lt_of_le_sub_one (by decide) hk, last, hon, hs⟩
  · rintro ⟨k, hk, last, hon, hs⟩
    obtain ⟨first, hfirst⟩ := hon.head
    have hheads : collapseToChainHeads (recordsNamed corpus id) = [first] := by
      cases hfirst with
      | start hheads => exact hheads
    refine ⟨first, actRecord_eq_some.mpr hheads, k, Nat.le_sub_one_of_lt hk, last,
      hfirst.shippedAfter (by rwa [Nat.zero_add]) hs ?_, trivial⟩
    intro name hmem
    rw [List.mem_singleton.mp hmem]
    exact ⟨0, le_rfl, first, hfirst, hheads⟩

/-- The chain of an id comes to a name that no record answers to, or several heads, or names
nothing. -/
def LostAtAct (corpus : List Dict) (id : Text) : Prop :=
  (∀ record, collapseToChainHeads (recordsNamed corpus id) ≠ [record]) ∨
    ∃ k record, OnChain corpus id k record ∧ deploymentState record = some State.continued ∧
      ∀ s, record.get Key.continuedInto = .str s → strip s ≠ [] →
        ∀ next, collapseToChainHeads (recordsNamed corpus (strip s)) ≠ [next]

/-- What is lost at act time does not ship there. -/
theorem LostAtAct.not_shipsAtAct (h : LostAtAct corpus id) : ¬ ShipsAtAct corpus id := by
  rintro ⟨m, -, last, hlast, hs⟩
  rcases h with h | ⟨k, lost, hlost, hc, hnone⟩
  · obtain ⟨first, hfirst⟩ := hlast.head
    cases hfirst with
    | start hheads => exact h first hheads
  · rcases Nat.lt_trichotomy k m with hlt | rfl | hlt
    · obtain ⟨before, next, s, hbefore, -, hinto, hne, hheads⟩ := hlast.earlier hlt
      cases hlost.unique hbefore
      exact hnone s hinto hne next hheads
    · cases hlost.unique hlast
      rw [hc] at hs
      exact continued_ne_shipped (Option.some.inj hs)
    · exact hlast.not_shipped hlost hlt hs

/-! ### A chain lost to the evaluator -/

variable (corpus id) in
/-- The evaluator lists no record under an id, or under the continuation of a record that the plain
names in front of it lead to. -/
def LostToEvaluator : Prop :=
  (∀ record ∈ corpus, ¬ Listed id record) ∨
    PlainName corpus id ∧ ∃ m record, OnChain corpus id m record ∧
      deploymentState record = some State.continued ∧
        Unlisted corpus (record.get Key.continuedInto) ∧
        ∀ k < m, ∀ before, OnChain corpus id k before →
          PlainHop corpus (before.get Key.continuedInto)

/-- The chase does not get past an unlisted continuation. -/
theorem chaseContinuation_unlisted {m : Nat} {lost : Dict} (hlost : OnChain corpus id m lost)
    (hc : deploymentState lost = some State.continued)
    (hunlisted : Unlisted corpus (lost.get Key.continuedInto))
    (hplain : ∀ k < m, ∀ before, OnChain corpus id k before →
      PlainHop corpus (before.get Key.continuedInto))
    {hops k : Nat} (visited : List Val) {record : Dict} (hle : k ≤ m)
    (hon : OnChain corpus id k record) (sha : Option Text) :
    chaseContinuation (indexById corpus) hops visited record ≠ .ok (.shipped sha) := by
  induction hops generalizing k visited record with
  | zero =>
    -- the chase is still in front of the lost hop, at a continued record
    have hcontinued : deploymentState record = some State.continued := by
      rcases hle.lt_or_eq with hlt | rfl
      · obtain ⟨before, -, -, hbefore, hc', -⟩ := hlost.earlier hlt
        rwa [hon.unique hbefore]
      · rwa [hon.unique hlost]
    rw [chaseContinuation, hcontinued, if_neg fun h => continued_ne_shipped (Option.some.inj h),
      if_neg (not_not.mpr rfl)]
    exact fun h => by cases h
  | succ hops ih =>
    have hne : some State.continued ≠ some State.shipped :=
      fun h => continued_ne_shipped (Option.some.inj h)
    rcases hle.lt_or_eq with hlt | rfl
    · obtain ⟨before, next, s, hbefore, hc', hs, hstripped, hheads⟩ := hlost.earlier hlt
      obtain rfl := hon.unique hbefore
      rw [chaseContinuation, hc', if_neg hne, if_neg (not_not.mpr rfl)]
      rcases hplain k hlt record hon with ⟨t, ht, hstrip, hid, hname⟩ | hdangling
      · cases Val.str.inj (hs.symm.trans ht)
        -- in front of it both resolvers find the same record
        have htarget : resolveContinuationTarget (indexById corpus)
            (record.get Key.continuedInto) = some next := by
          rw [hstrip] at hheads
          rw [resolveContinuationTarget, hs,
            nonEmptyStr_eq_some.mpr ⟨rfl, isHandoffId_ne_nil hid⟩, Option.bind_some, if_pos hid,
            hname.get_eq, actRecord_eq_some.mpr hheads]
        simp only [htarget]
        split_ifs
        · exact fun h => by cases h
        · exact fun h => by cases h
        · exact ih _ hlt (.hop hon hc' hs hstripped hheads)
      · simp only [hdangling.1.resolve_eq_none]
        exact fun h => by cases h
    · obtain rfl := hon.unique hlost
      rw [chaseContinuation, hc, if_neg hne, if_neg (not_not.mpr rfl)]
      simp only [hunlisted.resolve_eq_none]
      exact fun h => by cases h

/-- An id that is not listed is not in the index. -/
theorem get_eq_none_of_not_listed (h : ∀ record ∈ corpus, ¬ Listed id record) :
    (indexById corpus).get id = none := by
  rw [TypedHandoffIndex.get]
  split_ifs with hid
  · rw [get_byHandoffId, List.getLast?_eq_none_iff, List.filter_eq_nil_iff]
    intro record hmem hlisted
    have hno := h record hmem
    rw [Listed, if_pos hid] at hno
    rw [decide_eq_true_iff, indexedHandoffId] at hlisted
    split at hlisted
    next t ht =>
      split_ifs at hlisted
      exact hno (ht.trans (congrArg Val.str (Option.some.inj hlisted)))
    next => cases hlisted
  · rw [get_byStubId, List.getLast?_eq_none_iff, collapse_eq_nil_iff, stubGroup,
      List.filter_eq_nil_iff]
    intro record hmem hlisted
    have hno := h record hmem
    rw [Listed, if_neg hid] at hno
    exact hno (nonEmptyStr_eq_some.mp (of_decide_eq_true hlisted)).symm

/-! ### Do the resolvers agree? -/

variable {dispositions : Val} {ids : List Text} {b : Buckets}

/-- What is lost to the evaluator is not put with the shipped ones. -/
theorem LostToEvaluator.not_mem_shippedIds (h : LostToEvaluator corpus id)
    (hb : classifyBlockedBy (indexById corpus) dispositions ids = .ok b) (hid : id ∈ ids) :
    id ∉ b.shippedIds := by
  rw [mem_shippedIds_iff hb hid]
  rintro ⟨sha, hbucket⟩
  obtain ⟨record, hget, hchase⟩ := bucketOf_shipped_iff.mp hbucket
  rcases h with h | ⟨hname, m, lost, hlost, hc, hunlisted, hplain⟩
  · rw [get_eq_none_of_not_listed h] at hget
    cases hget
  · rw [hname.get_eq, actRecord_eq_some] at hget
    exact chaseContinuation_unlisted hlost hc hunlisted hplain _ (Nat.zero_le _) (.start hget) _
      hchase

/-- The chain that the evaluator follows from an id ends, within its hops, at a shipped record with
a commit, and the ids it remembers tell the records of the chain apart. -/
def EndsStamped (corpus : List Dict) (id : Text) : Prop :=
  ∃ blocker sha, (indexById corpus).get id = some blocker ∧
    Discharged (indexById corpus) maxContinuationChaseDepth blocker sha ∧
      ToldApart (indexById corpus) maxContinuationChaseDepth [(.str id, blocker)] blocker

/-- An id is put with the shipped ones exactly when its chain ends stamped. -/
theorem mem_shippedIds_iff_endsStamped
    (hb : classifyBlockedBy (indexById corpus) dispositions ids = .ok b) (hid : id ∈ ids) :
    id ∈ b.shippedIds ↔ EndsStamped corpus id := by
  rw [mem_shippedIds_iff hb hid]
  simp only [bucketOf_shipped_iff, chaseContinuation_eq_shipped_iff]
  exact exists_comm

/-- The chain of an id comes to a shipped record, but not where the evaluator finds a commit: too
many hops away, or at a record that names none. -/
def ShippedUnseen (corpus : List Dict) (id : Text) : Prop :=
  ∃ k < maxContinuedChainDepth, ∃ record, OnChain corpus id k record ∧
    deploymentState record = some State.shipped ∧
      (maxContinuationChaseDepth < k ∨ nonEmptyStr (record.get Key.shippedIn) = none)

/-- Along a plain chain the resolvers agree unless it ships where the evaluator does not see it. -/
theorem PlainChain.agree_iff (h : PlainChain corpus id)
    (hb : classifyBlockedBy (indexById corpus) dispositions ids = .ok b) (hid : id ∈ ids) :
    (id ∈ b.shippedIds ↔ blockerClearsGate corpus id = .ok none) ↔ ¬ ShippedUnseen corpus id := by
  have hmem := mem_shippedIds_aligned hb hid h.alignedFrom
  constructor
  · rintro hagree ⟨k, hk, last, hon, hs, hunseen⟩
    have hclears := blockerClearsGate_iff_shipsAtAct.mpr ⟨k, hk, last, hon, hs⟩
    obtain ⟨record, hrecord, k', hk', last', hlast', hsha⟩ := hmem.mp (hagree.mpr hclears)
    obtain ⟨hon', hs'⟩ := hlast'.onChain (.start (actRecord_eq_some.mp hrecord))
    rw [Nat.zero_add] at hon'
    obtain ⟨rfl, rfl⟩ := hon.shipped_unique hs hon' hs'
    exact hunseen.elim (fun hfar => absurd hk' (by omega)) hsha
  · intro hseen
    refine ⟨fun hshipped => ?_, fun hclears => ?_⟩
    · obtain ⟨record, hrecord, k, hk, last, hlast, -⟩ := hmem.mp hshipped
      exact blockerClearsGate_iff.mpr
        ⟨record, hrecord, k, hk.trans (by decide), last, hlast, trivial⟩
    obtain ⟨record, hrecord, k, hk, last, hlast, -⟩ := blockerClearsGate_iff.mp hclears
    obtain ⟨hon, hs⟩ := hlast.onChain (.start (actRecord_eq_some.mp hrecord))
    rw [Nat.zero_add] at hon
    have hlt : k < maxContinuedChainDepth := Nat.lt_of_le_sub_one (by decide) hk
    refine hmem.mpr ⟨record, hrecord, k, ?_, last, hlast, fun hsha => ?_⟩
    · by_contra hfar
      exact hseen ⟨k, hlt, last, hon, hs, .inl (by omega)⟩
    · exact hseen ⟨k, hlt, last, hon, hs, .inr hsha⟩

/-- Where each name along its chain stands for one record, an id is put with the shipped ones
exactly when it is cleared at act time, unless the chain ends shipped where the evaluator does not
see it. Where one of the two loses the chain, they agree exactly when the other does not follow it
to a shipped record. In general they agree exactly when the chain of each ends shipped or neither
does. -/
theorem resolvers_agree_iff
    (hb : classifyBlockedBy (indexById corpus) dispositions ids = .ok b) (hid : id ∈ ids) :
    (PlainChain corpus id → ((id ∈ b.shippedIds ↔ blockerClearsGate corpus id = .ok none) ↔
      ¬ ShippedUnseen corpus id)) ∧
    (LostAtAct corpus id → ((id ∈ b.shippedIds ↔ blockerClearsGate corpus id = .ok none) ↔
      ¬ EndsStamped corpus id)) ∧
    (LostToEvaluator corpus id →
      ((id ∈ b.shippedIds ↔ blockerClearsGate corpus id = .ok none) ↔
        ¬ ShipsAtAct corpus id)) ∧
    ((id ∈ b.shippedIds ↔ blockerClearsGate corpus id = .ok none) ↔
      (EndsStamped corpus id ↔ ShipsAtAct corpus id)) := by
  refine ⟨fun h => h.agree_iff hb hid, fun h => ?_, fun h => ?_, ?_⟩
  · rw [blockerClearsGate_iff_shipsAtAct, iff_false_right h.not_shipsAtAct,
      mem_shippedIds_iff_endsStamped hb hid]
  · rw [iff_false_left (h.not_mem_shippedIds hb hid), blockerClearsGate_iff_shipsAtAct]
  · rw [blockerClearsGate_iff_shipsAtAct, mem_shippedIds_iff_endsStamped hb hid]

end

/-! ### A record without a commit -/

/-- A shipped record that does not say in which commit. -/
def unstamped : Dict :=
  [(.str Key.stubId, .str ['s', '1']), (.str Key.deploymentState, .str State.shipped),
    (.str Key.attachedPath, .str ['a', '.', 'm', 'd'])]

theorem plainChain_unstamped : PlainChain [unstamped] ['s', '1'] where
  name :=
    { listed_iff := by
        intro record hrecord
        rw [List.mem_singleton.mp hrecord]
        exact iff_of_true ⟨by decide, rfl⟩ (.inl rfl)
      oneHead := by decide
      newest := fun h => absurd h (by decide) }
  hop := by
    rintro k record hon - hc
    have hmem : record ∈ [unstamped] := by
      cases hon with
      | start h => exact (answers_of_actRecord (actRecord_eq_some.mpr h)).1
      | hop _ _ _ _ h => exact (answers_of_actRecord (actRecord_eq_some.mpr h)).1
    rw [List.mem_singleton.mp hmem] at hc
    exact absurd hc (by decide)

/-- The law at that record. -/
theorem resolvers_agree_iff_unstamped :
    ∃ b, classifyBlockedBy (indexById [unstamped]) .null [['s', '1']] = .ok b ∧
      ((['s', '1'] ∈ b.shippedIds ↔ blockerClearsGate [unstamped] ['s', '1'] = .ok none) ↔
        ¬ ShippedUnseen [unstamped] ['s', '1']) := by
  obtain ⟨b, hb⟩ : ∃ b, classifyBlockedBy (indexById [unstamped]) .null [['s', '1']] = .ok b :=
    ⟨_, rfl⟩
  exact ⟨b, hb, (resolvers_agree_iff hb (List.mem_singleton_self _)).1 plainChain_unstamped⟩

/-- The evaluator holds it back and the act-time resolver clears it. -/
theorem unstamped_cleared :
    ∃ b, classifyBlockedBy (indexById [unstamped]) .null [['s', '1']] = .ok b ∧
      ['s', '1'] ∉ b.shippedIds ∧ b.unstampedShippedIds = [['s', '1']] ∧
      blockerClearsGate [unstamped] ['s', '1'] = .ok none := by
  refine ⟨_, rfl, ?_, rfl, rfl⟩
  decide

end Gate

end CoordinatorCore
