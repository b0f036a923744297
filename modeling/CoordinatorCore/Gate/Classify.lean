import CoordinatorCore.Gate.Records
import CoordinatorCore.Machine.Assign

/-!
# Blockers and what became of them

One `blocked_by` id is looked up in the index and lands in one of seven buckets by the state of the
record it names. A continued blocker is chased along its successors, eight hops at most, to the
record where its work went. The lines of evidence the evaluator prints are left out: nothing reads
them back.
-/

namespace CoordinatorCore

open Text

namespace Gate

namespace Key

def disposition : Text := ['d', 'i', 's', 'p', 'o', 's', 'i', 't', 'i', 'o', 'n']
def reason : Text := ['r', 'e', 'a', 's', 'o', 'n']

end Key

/-! ### Back references -/

def roadmapBaton : Text := "roadmap-baton".toList

/-- `_PRE_RENAME_ALIASES`. -/
def preRenameAliases : Table Text Text := Table.ofPairs
  [("spinoff-roadmap".toList, roadmapBaton),
    ("spinoff-roadmap-creator".toList, "roadmap-seed".toList),
    ("spinoff-goal".toList, "goal-seed".toList)]

/-- `canonical_kind`, with nothing for a byte string, which equals no name. Only ASCII letters are
lowered: the other letters with an ASCII lower case have it outside these names. -/
def canonicalKind (kind : Val) : Except Raised (Option Text) :=
  match kind.orElse (.str []) with
  | .str s =>
    let normalised := (strip s).map Char.toLower
    .ok (some ((preRenameAliases.get normalised).getD normalised))
  | .other .bytes _ => .ok none
  | _ => .error .attributeError

/-- The ids a handoff may be named by in a `blocks` list. -/
def handoffNames (handoff : Dict) : List Text :=
  [handoff.get Key.stubId, handoff.get Key.id].filterMap nonEmptyStr

/-- A roadmap blocker does not name the handoff back. -/
def blockerAsymmetric (names : List Text) (blocker : Dict) : Except Raised Bool :=
  (canonicalKind (blocker.get Key.kind)).bind fun kind =>
    if kind ≠ some roadmapBaton then .ok false
    else match (blocker.get Key.blocks).orElse (.seq []) with
      | .seq blocks =>
        if blocks.all Val.hashable then
          .ok (!names.any fun name => blocks.any (Val.pyEq (.str name)))
        else .error .typeError
      | _ => .ok false

/-- The loop of `_has_asymmetry` over the blockers. -/
def anyAsymmetric (names : List Text) (index : TypedHandoffIndex) : List Text → Except Raised Bool
  | [] => .ok false
  | blockerId :: rest =>
    match index.get blockerId with
    | none => anyAsymmetric names index rest
    | some blocker =>
      (blockerAsymmetric names blocker).bind fun asymmetric =>
        if asymmetric then .ok true else anyAsymmetric names index rest

/-- `_has_asymmetry`. -/
def hasAsymmetry (handoff : Dict) (blockedByIds : List Text) (index : TypedHandoffIndex) :
    Except Raised Bool :=
  if handoffNames handoff = [] then .ok false
  else anyAsymmetric (handoffNames handoff) index blockedByIds

/-- The check of one blocker's back reference. A blocker that is not found passes. -/
def backReference (names : List Text) (index : TypedHandoffIndex) (blockerId : Text) :
    Except Raised Bool :=
  match index.get blockerId with
  | none => .ok false
  | some blocker => blockerAsymmetric names blocker

theorem anyAsymmetric_cons (names : List Text) (index : TypedHandoffIndex) (id : Text)
    (rest : List Text) :
    anyAsymmetric names index (id :: rest) =
      (backReference names index id).bind fun asymmetric =>
        if asymmetric then .ok true else anyAsymmetric names index rest := by
  rw [anyAsymmetric, backReference]
  cases index.get id with
  | none => rfl
  | some blocker => rfl

/-- One blocker of a handoff passes the check of its back reference. -/
def BackReferenced (names : List Text) (index : TypedHandoffIndex) (blockerId : Text) : Prop :=
  ∀ blocker, index.get blockerId = some blocker → blockerAsymmetric names blocker = .ok false

theorem anyAsymmetric_eq_false {names : List Text} {index : TypedHandoffIndex} {ids : List Text} :
    anyAsymmetric names index ids = .ok false ↔ ∀ id ∈ ids, BackReferenced names index id := by
  induction ids with
  | nil => exact iff_of_true rfl fun id hid => absurd hid List.not_mem_nil
  | cons id ids ih =>
    rw [List.forall_mem_cons, ← ih, anyAsymmetric]
    cases hget : index.get id with
    | none =>
      refine ⟨fun h => ⟨fun blocker hb => ?_, h⟩, And.right⟩
      rw [hget] at hb
      cases hb
    | some blocker =>
      rw [except_bind_eq_ok]
      constructor
      · rintro ⟨asymmetric, ha, hrest⟩
        cases asymmetric with
        | true => cases hrest
        | false =>
          refine ⟨fun blocker' hb => ?_, hrest⟩
          rw [hget, Option.some.injEq] at hb
          exact hb ▸ ha
      · rintro ⟨hback, hrest⟩
        exact ⟨false, hback blocker hget, hrest⟩

/-- There is no asymmetry where every blocker passes. -/
theorem hasAsymmetry_eq_false {handoff : Dict} {ids : List Text} {index : TypedHandoffIndex} :
    hasAsymmetry handoff ids index = .ok false ↔
      handoffNames handoff = [] ∨ ∀ id ∈ ids, BackReferenced (handoffNames handoff) index id := by
  rw [hasAsymmetry]
  split_ifs with hnil
  · exact iff_of_true rfl (.inl hnil)
  · rw [anyAsymmetric_eq_false]
    exact ⟨.inr, fun h => h.resolve_left hnil⟩

/-! ### The chase along continuations -/

/-- `_resolve_continuation_target`. -/
def resolveContinuationTarget (index : TypedHandoffIndex) (continuedInto : Val) : Option Dict :=
  (nonEmptyStr continuedInto).bind fun target =>
    if isHandoffId target then index.get target else index.getByPath target

/-- The id a successor is remembered by. -/
def successorId (next : Dict) (continuedInto : Val) : Val :=
  (next.get Key.handoffId).orElse ((next.get Key.id).orElse
    ((next.get Key.stubId).orElse continuedInto))

/-- The ways a chase ends. -/
inductive Outcome
  | shipped (sha : Option Text)
  | stillOpen
  | cycle
  | depthCap
  | unresolved
deriving DecidableEq

/-- `_MAX_CONTINUATION_CHASE_DEPTH`. -/
def maxContinuationChaseDepth : Nat := 8

/-- The loop of `_chase_continuation`, with the hops that are left. -/
def chaseContinuation (index : TypedHandoffIndex) (hops : Nat) (visited : List Val)
    (current : Dict) : Except Raised Outcome :=
  if deploymentState current = some State.shipped then
    .ok (.shipped (nonEmptyStr (current.get Key.shippedIn)))
  else if deploymentState current ≠ some State.continued then .ok .stillOpen
  else match hops with
    | 0 => .ok .depthCap
    | hops + 1 =>
      match resolveContinuationTarget index (current.get Key.continuedInto) with
      | none => .ok .unresolved
      | some next =>
        let nextId := successorId next (current.get Key.continuedInto)
        if nextId.hashable = false then .error .typeError
        else if visited.any (Val.pyEq nextId) then .ok .cycle
        else chaseContinuation index hops (nextId :: visited) next

/-- A record whose work has shipped with a commit to show, itself or at the end of a chain of
continuations of bounded length. -/
def Discharged (index : TypedHandoffIndex) : Nat → Dict → Text → Prop
  | 0, record, sha =>
    deploymentState record = some State.shipped ∧ record.get Key.shippedIn = .str sha ∧ sha ≠ []
  | hops + 1, record, sha =>
    (deploymentState record = some State.shipped ∧ record.get Key.shippedIn = .str sha ∧ sha ≠ []) ∨
      (deploymentState record = some State.continued ∧ ∃ next,
        resolveContinuationTarget index (record.get Key.continuedInto) = some next ∧
          Discharged index hops next sha)

theorem Discharged.of_shipped {index : TypedHandoffIndex} {record : Dict} {sha : Text}
    (hstate : deploymentState record = some State.shipped)
    (hsha : record.get Key.shippedIn = .str sha) (hne : sha ≠ []) (hops : Nat) :
    Discharged index hops record sha := by
  cases hops with
  | zero => exact ⟨hstate, hsha, hne⟩
  | succ hops => exact .inl ⟨hstate, hsha, hne⟩

/-- What the chase reports as shipped is shipped at the end of the chain. -/
theorem chaseContinuation_discharged {index : TypedHandoffIndex} {hops : Nat} {visited : List Val}
    {current : Dict} {sha : Text}
    (h : chaseContinuation index hops visited current = .ok (.shipped (some sha))) :
    Discharged index hops current sha := by
  induction hops generalizing visited current with
  | zero =>
    rw [chaseContinuation] at h
    split_ifs at h with hship hcont
    · rw [Except.ok.injEq, Outcome.shipped.injEq, nonEmptyStr_eq_some] at h
      exact .of_shipped hship h.1 h.2 0
    · cases h
    · cases h
  | succ hops ih =>
    rw [chaseContinuation] at h
    split_ifs at h with hship hcont
    · rw [Except.ok.injEq, Outcome.shipped.injEq, nonEmptyStr_eq_some] at h
      exact .of_shipped hship h.1 h.2 _
    · cases h
    · cases hnext : resolveContinuationTarget index (current.get Key.continuedInto) with
      | none =>
        simp only [hnext] at h
        cases h
      | some next =>
        simp only [hnext] at h
        split_ifs at h with hhash hseen
        · cases h
        · exact .inr ⟨not_not.mp hcont, next, hnext, ih h⟩

/-- The continued records of a chain lead where they led. -/
def ChainUnchanged (index index' : TypedHandoffIndex) : Nat → Dict → Prop
  | 0, _ => True
  | hops + 1, record =>
    deploymentState record = some State.continued →
      resolveContinuationTarget index' (record.get Key.continuedInto) =
          resolveContinuationTarget index (record.get Key.continuedInto) ∧
        ∀ next, resolveContinuationTarget index (record.get Key.continuedInto) = some next →
          ChainUnchanged index index' hops next

theorem chaseContinuation_unchanged {index index' : TypedHandoffIndex} {hops : Nat}
    {visited : List Val} {current : Dict} (h : ChainUnchanged index index' hops current) :
    chaseContinuation index' hops visited current =
      chaseContinuation index hops visited current := by
  induction hops generalizing visited current with
  | zero => rw [chaseContinuation, chaseContinuation]
  | succ hops ih =>
    rw [chaseContinuation, chaseContinuation]
    by_cases hcont : deploymentState current = some State.continued
    · obtain ⟨hres, hrest⟩ := h hcont
      rw [hres]
      cases hnext : resolveContinuationTarget index (current.get Key.continuedInto) with
      | none => rfl
      | some next => simp only [ih (hrest next hnext)]
    · have hne : deploymentState current ≠ some State.continued := hcont
      rw [if_pos hne, if_pos hne]

/-! ### The buckets -/

/-- `"resolved_without_baton"`. -/
def resolvedWithoutBaton : Text := "resolved_without_baton".toList

/-- `_resolved_without_baton_reason`. -/
def resolvedWithoutBatonReason (blockerId : Text) (dispositions : Val) : Option Text :=
  dispositions.asDict.bind fun d =>
    (d.get blockerId).asDict.bind fun entry =>
      if Val.pyEq (entry.get Key.disposition) (.str resolvedWithoutBaton) then
        match entry.get Key.reason with
        | .str s => some (if strip s ≠ [] then s else "no reason authored".toList)
        | _ => some "no reason authored".toList
      else none

/-- Where an id lands. -/
inductive Bucket
  | shipped (sha : Text)
  | abandoned
  | unresolved
  | stillOpen
  | disposed
  | unstampedShipped
deriving DecidableEq

/-- The bucket of a shipped record with this `shipped_in`. -/
def Bucket.ofSha : Option Text → Bucket
  | some sha => .shipped sha
  | none => .unstampedShipped

/-- The bucket of a record an id resolves to. -/
def recordBucket (index : TypedHandoffIndex) (blockerId : Text) (blocker : Dict) :
    Except Raised Bucket :=
  match deploymentState blocker with
  | some state =>
    if state = State.shipped then .ok (.ofSha (nonEmptyStr (blocker.get Key.shippedIn)))
    else if state = State.continued then
      (chaseContinuation index maxContinuationChaseDepth [.str blockerId] blocker).map
        fun
          | .shipped sha => .ofSha sha
          | _ => .abandoned
    else if state = State.abandoned ∨ state = State.closed then .ok .abandoned
    else .ok .stillOpen
  | none => .ok .stillOpen

/-- The body of the loop of `_classify_blocked_by`. -/
def bucketOf (index : TypedHandoffIndex) (dispositions : Val) (blockerId : Text) :
    Except Raised Bucket :=
  match index.get blockerId with
  | none =>
    .ok (if (resolvedWithoutBatonReason blockerId dispositions).isSome then .disposed
      else .unresolved)
  | some blocker => recordBucket index blockerId blocker

/-- The lists `_classify_blocked_by` returns. -/
structure Buckets where
  shippedIds : List Text
  shippedShas : List Text
  abandonedIds : List Text
  unresolvedIds : List Text
  stillOpenIds : List Text
  disposedIds : List Text
  unstampedShippedIds : List Text

namespace Buckets

/-- No ids. -/
def empty : Buckets := ⟨[], [], [], [], [], [], []⟩

/-- One more id. -/
def add (b : Buckets) (id : Text) : Bucket → Buckets
  | .shipped sha =>
    { b with shippedIds := b.shippedIds ++ [id], shippedShas := b.shippedShas ++ [sha] }
  | .abandoned => { b with abandonedIds := b.abandonedIds ++ [id] }
  | .unresolved => { b with unresolvedIds := b.unresolvedIds ++ [id] }
  | .stillOpen => { b with stillOpenIds := b.stillOpenIds ++ [id] }
  | .disposed => { b with disposedIds := b.disposedIds ++ [id] }
  | .unstampedShipped => { b with unstampedShippedIds := b.unstampedShippedIds ++ [id] }

end Buckets

/-- `_classify_blocked_by`. -/
def classifyBlockedBy (index : TypedHandoffIndex) (dispositions : Val) (ids : List Text) :
    Except Raised Buckets :=
  ids.foldlM (fun b id => (bucketOf index dispositions id).map (b.add id)) .empty

/-- The commit of a shipped id. -/
def Bucket.sha? : Bucket → Option Text
  | .shipped sha => some sha
  | _ => none

/-- The buckets of an assignment. -/
def Buckets.ofAssigned (ps : List (Text × Bucket)) : Buckets where
  shippedIds := answered (fun k => k.sha?.isSome) ps
  shippedShas := ps.filterMap fun p => p.2.sha?
  abandonedIds := answered (· = .abandoned) ps
  unresolvedIds := answered (· = .unresolved) ps
  stillOpenIds := answered (· = .stillOpen) ps
  disposedIds := answered (· = .disposed) ps
  unstampedShippedIds := answered (· = .unstampedShipped) ps

private theorem ofAssigned_concat (ps : List (Text × Bucket)) (p : Text × Bucket) :
    Buckets.ofAssigned (ps ++ [p]) = (Buckets.ofAssigned ps).add p.1 p.2 := by
  obtain ⟨id, k⟩ := p
  cases k <;>
    simp [Buckets.ofAssigned, Buckets.add, answered, Bucket.sha?, List.filter_append]

private theorem foldl_add (ps : List (Text × Bucket)) :
    ps.foldl (fun b p => b.add p.1 p.2) Buckets.empty = Buckets.ofAssigned ps := by
  induction ps using List.reverseRecOn with
  | nil => rfl
  | append_singleton ps p ih => rw [List.foldl_append, ih, ofAssigned_concat]; rfl

/-- The classification is the assignment of a bucket to each id, sorted by bucket. -/
theorem classifyBlockedBy_eq (index : TypedHandoffIndex) (dispositions : Val) (ids : List Text) :
    classifyBlockedBy index dispositions ids =
      (assign (bucketOf index dispositions) ids).map Buckets.ofAssigned := by
  rw [classifyBlockedBy, foldlM_eq_assign (fun b id k => Buckets.add b id k)]
  congr 1
  funext ps
  exact foldl_add ps

/-! ### What a bucket says -/

/-- An id is put with the shipped ones only when its record is discharged. -/
theorem discharged_of_bucketOf {index : TypedHandoffIndex} {dispositions : Val} {id sha : Text}
    (h : bucketOf index dispositions id = .ok (.shipped sha)) :
    ∃ blocker, index.get id = some blocker ∧
      Discharged index maxContinuationChaseDepth blocker sha := by
  rw [bucketOf] at h
  cases hget : index.get id with
  | none =>
    simp only [hget, Except.ok.injEq] at h
    split_ifs at h
  | some blocker =>
    refine ⟨blocker, rfl, ?_⟩
    simp only [hget, recordBucket] at h
    cases hstate : deploymentState blocker with
    | none =>
      simp only [hstate] at h
      cases h
    | some state =>
      simp only [hstate] at h
      split_ifs at h with hship hcont hdead
      · cases hsha : nonEmptyStr (blocker.get Key.shippedIn) with
        | none =>
          rw [hsha] at h
          cases h
        | some s =>
          rw [hsha] at h
          cases h
          obtain ⟨hv, hne⟩ := nonEmptyStr_eq_some.mp hsha
          exact .of_shipped (by rw [hstate, hship]) hv hne _
      · obtain ⟨outcome, hchase, hout⟩ := except_map_eq_ok.mp h
        cases outcome with
        | shipped s =>
          cases s with
          | none => cases hout
          | some s =>
            cases hout
            exact chaseContinuation_discharged hchase
        | _ => cases hout
      · cases h
      · cases h

end Gate

end CoordinatorCore
