import CoordinatorCore.Gate.Routes

/-!
# Narrowing

A narrow verdict drops the blockers that have shipped and keeps the others. The narrowed handoff is
not cleared by the same corpus; by a later one it is cleared exactly when the original is, as long
as each dropped blocker still resolves as it did, along its whole chain.
-/

namespace CoordinatorCore

open Text

namespace Gate

/-! ### What stays the same -/

/-- The handoff with other blockers. -/
def narrowed (handoff : Dict) (remaining : List Val) : Dict :=
  handoff.set Key.blockedBy (.seq remaining)

section

variable (handoff : Dict) (remaining : List Val)

private theorem get_narrowed {k : Text} (h : Key.blockedBy ≠ k) :
    (narrowed handoff remaining).get k = handoff.get k :=
  Dict.get_set_of_ne h handoff _

@[simp] theorem hasProseGate_narrowed :
    hasProseGate (narrowed handoff remaining) = hasProseGate handoff := by
  rw [hasProseGate, get_narrowed _ _ (by decide), hasProseGate]

@[simp] theorem scaffoldSentinelField_narrowed :
    scaffoldSentinelField (narrowed handoff remaining) = scaffoldSentinelField handoff := by
  rw [scaffoldSentinelField, get_narrowed _ _ (by decide), get_narrowed _ _ (by decide),
    scaffoldSentinelField]

@[simp] theorem handoffNames_narrowed :
    handoffNames (narrowed handoff remaining) = handoffNames handoff := by
  rw [handoffNames, get_narrowed _ _ (by decide), get_narrowed _ _ (by decide), handoffNames]

@[simp] theorem dispositions_narrowed :
    (narrowed handoff remaining).get Key.blockedByDispositions =
      handoff.get Key.blockedByDispositions := get_narrowed _ _ (by decide)

@[simp] theorem reportedId_narrowed :
    reportedId (narrowed handoff remaining) = reportedId handoff := by
  rw [reportedId, Dict.getD, get_narrowed _ _ (by decide), narrowed,
    Dict.mem_set_of_ne (by decide), reportedId, Dict.getD]

/-- The blockers of a narrowed handoff are the ones that were kept. -/
theorem blockedBy_narrowed : blockedBy (narrowed handoff remaining) = .seq remaining := by
  rw [blockedBy, narrowed, Dict.get_set_self, Val.orElse]
  cases remaining <;> rfl

end

/-- A blocker resolves to the record it resolved to, and so do the links of its chain. -/
def BlockerUnchanged (index index' : TypedHandoffIndex) (id : Text) : Prop :=
  index'.get id = index.get id ∧
    ∀ blocker, index.get id = some blocker →
      ChainUnchanged index index' maxContinuationChaseDepth blocker

/-- The bucket of an unchanged blocker stays. -/
theorem bucketOf_unchanged {index index' : TypedHandoffIndex} {id : Text}
    (h : BlockerUnchanged index index' id) (dispositions : Val) :
    bucketOf index' dispositions id = bucketOf index dispositions id := by
  rw [bucketOf, bucketOf, h.1]
  cases hget : index.get id with
  | none => rfl
  | some blocker =>
    simp only [recordBucket, chaseContinuation_unchanged (h.2 blocker hget)]

/-- An unchanged blocker names the same ones back. -/
theorem backReferenced_unchanged {index index' : TypedHandoffIndex} {id : Text}
    (h : BlockerUnchanged index index' id) (names : List Text) :
    BackReferenced names index' id ↔ BackReferenced names index id := by
  rw [BackReferenced, BackReferenced, h.1]

/-! ### A narrow verdict -/

section

variable {items : ScalarKind → Text → List Val} {handoff : Dict} {corpus witnesses : List Dict}
  {evidence : Option Dict} {r : GateResult}

/-- What a narrow verdict has found: an assignment of the blockers with shipped ones and others. -/
structure Narrows (items : ScalarKind → Text → List Val) (handoff : Dict) (corpus : List Dict)
    (r : GateResult) (members : List Val) (ps : List (Text × Bucket)) : Prop where
  plain : PlainGate handoff
  structured : isStructuredGate handoff = true
  iterates : iterate items (blockedBy handoff) = .ok members
  hashable : (reportedId handoff).hashable = true
  symmetric : hasAsymmetry handoff (stringMembers members) (indexById corpus) = .ok false
  assigned : assign (bucketOf (indexById corpus) (handoff.get Key.blockedByDispositions))
    (stringMembers members) = .ok ps
  cleared : r.clearedBlockerIds = (Buckets.ofAssigned ps).shippedIds.map .str
  remaining : r.remainingBlockers = (Buckets.ofAssigned ps).remaining.map .str
  remains : (Buckets.ofAssigned ps).remaining ≠ []

/-- The verdict to narrow names what is to remain. -/
theorem narrows_of_verdict (hprose : hasProseGate handoff = false)
    (hr : evaluateGate items handoff corpus witnesses evidence = .ok r)
    (hv : r.verdict = .narrow) : ∃ members ps, Narrows items handoff corpus r members ps := by
  have hsentinel : (scaffoldSentinelField handoff).isSome = false := by
    by_contra h
    rw [Bool.not_eq_false] at h
    rw [evaluateGate, if_pos h] at hr
    obtain ⟨members, -, rfl⟩ := except_map_eq_ok.mp hr
    cases hv
  rw [evaluateGate_of_no_prose items corpus witnesses evidence hprose hsentinel] at hr
  split_ifs at hr with hs hnotes
  · rw [evaluateStructuredGate_eq_ok] at hr
    obtain ⟨members, hm, hhash, hr⟩ := hr
    rcases hr with ⟨-, rfl⟩ | ⟨-, -, rfl⟩ | ⟨-, hasym, b, hb, rfl⟩
    · cases hv
    · cases hv
    · obtain ⟨ps, hps, rfl⟩ := classify_eq_ok.mp hb
      rcases structuredResult_cases (reportedId handoff) (.ofAssigned ps) with ⟨-, h⟩ |
        ⟨hrem, -, h⟩ | ⟨-, -, -, h⟩ | ⟨-, -, -, -, -, h⟩
      · rw [h] at hv
        cases hv
      · exact ⟨members, ps, ⟨hsentinel, hprose⟩, hs, hm, hhash, hasym, hps, by rw [h]; rfl,
          by rw [h]; rfl, hrem⟩
      · rw [h] at hv
        cases hv
      · rw [h] at hv
        cases hv
  · cases hr
    cases hv
  · cases hr
    cases hv

private theorem stringMembers_map_str (ids : List Text) :
    stringMembers (ids.map Val.str) = ids := by
  simp [stringMembers, List.filterMap_map]

variable {members : List Val} {ps : List (Text × Bucket)}

/-- The evaluator walks the kept blockers of the narrowed handoff. -/
private theorem evaluateGate_narrowed (h : Narrows items handoff corpus r members ps)
    (corpus' : List Dict) :
    evaluateGate items (narrowed handoff r.remainingBlockers) corpus' witnesses evidence =
      evaluateStructuredGate items (narrowed handoff r.remainingBlockers) (indexById corpus')
        [] := by
  rw [evaluateGate_of_no_prose _ _ _ _ (by simp [h.plain.prose]) (by simp [h.plain.sentinel])]
  refine if_pos ?_
  rw [isStructuredGate, blockedBy_narrowed, h.remaining]
  simp [Val.truthy, h.remains]

/-- An open gate of a handoff's own blockers and of the kept ones. -/
private theorem clears_narrowed_iff (h : Narrows items handoff corpus r members ps)
    (corpus' : List Dict) :
    Clears items (narrowed handoff r.remainingBlockers) corpus' witnesses evidence ↔
      OpenGate (narrowed handoff r.remainingBlockers) (indexById corpus')
        (Buckets.ofAssigned ps).remaining := by
  rw [Clears, evaluateGate_narrowed h, structured_clear_iff, blockedBy_narrowed, h.remaining]
  constructor
  · rintro ⟨ms, hms, -, -, hopen⟩
    cases hms
    rwa [stringMembers_map_str] at hopen
  · intro hopen
    refine ⟨_, rfl, by simpa using h.hashable, ?_, ?_⟩
    · rw [stringMembers_map_str]
      exact h.remains
    · rwa [stringMembers_map_str]

private theorem clears_original_iff (h : Narrows items handoff corpus r members ps)
    (corpus' : List Dict) :
    Clears items handoff corpus' witnesses evidence ↔
      OpenGate handoff (indexById corpus') (stringMembers members) := by
  rw [Clears, evaluateGate_of_no_prose items corpus' witnesses evidence h.plain.prose
    h.plain.sentinel, if_pos h.structured, structured_clear_iff]
  constructor
  · rintro ⟨ms, hms, -, -, hopen⟩
    cases h.iterates.symm.trans hms
    exact hopen
  · intro hopen
    refine ⟨members, h.iterates, h.hashable, fun hnil => h.remains ?_, hopen⟩
    have hps := (assign_eq_ok.mp h.assigned).1
    rw [hnil, List.map_eq_nil_iff] at hps
    subst hps
    rfl

/-- An id is among the blockers when it has shipped or remains. -/
private theorem mem_members_iff (h : Narrows items handoff corpus r members ps) (id : Text) :
    id ∈ stringMembers members ↔
      id ∈ (Buckets.ofAssigned ps).shippedIds ∨ id ∈ (Buckets.ofAssigned ps).remaining := by
  rw [← (assign_eq_ok.mp h.assigned).1, List.mem_map, mem_remaining_ofAssigned]
  rw [mem_shipped_ofAssigned]
  constructor
  · rintro ⟨p, hp, rfl⟩
    cases hk : p.2.sha? with
    | none => exact .inr ⟨p.2, hp, hk⟩
    | some sha => exact .inl ⟨sha, Bucket.sha?_eq_some.mp hk ▸ hp⟩
  · rintro (⟨sha, hp⟩ | ⟨k, hp, -⟩)
    · exact ⟨_, hp, rfl⟩
    · exact ⟨_, hp, rfl⟩

/-- The narrowed handoff is surfaced or stays closed. -/
private theorem narrowed_not_cleared (h : Narrows items handoff corpus r members ps) :
    ∃ r', evaluateGate items (narrowed handoff r.remainingBlockers) corpus witnesses evidence =
      .ok r' ∧ (r'.verdict = .surface ∨ r'.verdict = .notCleared) := by
  obtain ⟨hfst, hall⟩ := assign_eq_ok.mp h.assigned
  -- the blockers that remain are put where they were
  have hkept : ∀ id ∈ (Buckets.ofAssigned ps).remaining, ∃ k,
      bucketOf (indexById corpus) (handoff.get Key.blockedByDispositions) id = .ok k ∧
        k.sha? = none := by
    intro id hid
    obtain ⟨k, hk, hnone⟩ := mem_remaining_ofAssigned.mp hid
    exact ⟨k, hall _ hk, hnone⟩
  obtain ⟨qs, hqs⟩ := exists_assign_iff.mpr fun id hid => (hkept id hid).imp fun _ hk => hk.1
  obtain ⟨hqfst, hqall⟩ := assign_eq_ok.mp hqs
  have hnone : (Buckets.ofAssigned qs).shippedIds = [] := by
    rw [Buckets.ofAssigned, answered_eq_nil]
    intro q hq
    obtain ⟨k, hk, hsha⟩ := hkept q.1 (hqfst ▸ List.mem_map_of_mem hq)
    rw [Except.ok.inj ((hqall q hq).symm.trans hk), hsha]
    rfl
  -- and none of them points back
  have hasym : hasAsymmetry (narrowed handoff r.remainingBlockers)
      (Buckets.ofAssigned ps).remaining (indexById corpus) = .ok false := by
    rw [hasAsymmetry_eq_false, handoffNames_narrowed]
    refine (hasAsymmetry_eq_false.mp h.symmetric).imp_right fun hback id hid => ?_
    exact hback id ((mem_members_iff h id).mpr (.inr hid))
  refine ⟨structuredResult (reportedId handoff) (.ofAssigned qs), ?_, ?_⟩
  · rw [evaluateGate_narrowed h, evaluateStructuredGate_eq_ok]
    refine ⟨(Buckets.ofAssigned ps).remaining.map .str, ?_, by simpa using h.hashable, ?_⟩
    · rw [blockedBy_narrowed, h.remaining]
      rfl
    · rw [stringMembers_map_str, dispositions_narrowed, reportedId_narrowed]
      exact .inr (.inr ⟨h.remains, hasym, _, classify_eq_ok.mpr ⟨qs, hqs, rfl⟩, rfl⟩)
  · rcases structuredResult_cases (reportedId handoff) (.ofAssigned qs) with ⟨hr, -⟩ |
      ⟨-, hs, -⟩ | ⟨-, -, -, h'⟩ | ⟨-, -, -, -, -, h'⟩
    · refine absurd ?_ h.remains
      rw [← hqfst, List.map_eq_nil_iff]
      refine List.eq_nil_iff_forall_not_mem.mpr fun q hq => ?_
      obtain ⟨sha, hsha⟩ := remaining_ofAssigned_eq_nil.mp hr q hq
      have hq' : q.1 ∈ (Buckets.ofAssigned qs).shippedIds :=
        mem_shipped_ofAssigned.mpr ⟨sha, hsha ▸ hq⟩
      rw [hnone] at hq'
      cases hq'
    · exact absurd hnone hs
    · exact .inl (by rw [h']; rfl)
    · exact .inr (by rw [h']; rfl)

/-- Where the dropped blockers resolve as they did, dropping them changes nothing. -/
private theorem openGate_narrowed_iff (h : Narrows items handoff corpus r members ps)
    {corpus' : List Dict}
    (hsame : ∀ id, .str id ∈ r.clearedBlockerIds →
      BlockerUnchanged (indexById corpus) (indexById corpus') id) :
    OpenGate (narrowed handoff r.remainingBlockers) (indexById corpus')
        (Buckets.ofAssigned ps).remaining ↔
      OpenGate handoff (indexById corpus') (stringMembers members) := by
  obtain ⟨hfst, hall⟩ := assign_eq_ok.mp h.assigned
  have hcleared : ∀ id ∈ (Buckets.ofAssigned ps).shippedIds,
      BlockerUnchanged (indexById corpus) (indexById corpus') id := by
    intro id hid
    refine hsame id ?_
    rw [h.cleared]
    exact List.mem_map_of_mem hid
  rw [OpenGate, OpenGate, hasAsymmetry_eq_false, hasAsymmetry_eq_false, handoffNames_narrowed,
    dispositions_narrowed]
  refine and_congr (or_congr_right' fun hnames => ?_) ?_
  · constructor
    · intro hback id hid
      rcases (mem_members_iff h id).mp hid with hid' | hid'
      · rw [backReferenced_unchanged (hcleared id hid')]
        exact ((hasAsymmetry_eq_false.mp h.symmetric).resolve_left hnames) id hid
      · exact hback id hid'
    · exact fun hback id hid => hback id ((mem_members_iff h id).mpr (.inr hid))
  · constructor
    · intro hship id hid
      rcases (mem_members_iff h id).mp hid with hid' | hid'
      · rw [bucketOf_unchanged (hcleared id hid')]
        obtain ⟨sha, hsha⟩ := mem_shipped_ofAssigned.mp hid'
        exact ⟨sha, hall _ hsha⟩
      · exact hship id hid'
    · exact fun hship id hid => hship id ((mem_members_iff h id).mpr (.inr hid))

/-- A narrowed handoff is not cleared by the corpus that narrowed it, and a later corpus in which
the dropped blockers resolve as they did clears it exactly when it clears the original. -/
theorem narrowing_loses_nothing (items : ScalarKind → Text → List Val) (handoff : Dict)
    (corpus witnesses : List Dict) (evidence : Option Dict) (r : GateResult)
    (hprose : hasProseGate handoff = false)
    (hr : evaluateGate items handoff corpus witnesses evidence = .ok r)
    (hv : r.verdict = .narrow) :
    (∃ r', evaluateGate items (narrowed handoff r.remainingBlockers) corpus witnesses evidence =
      .ok r' ∧ (r'.verdict = .surface ∨ r'.verdict = .notCleared)) ∧
    ∀ corpus', (∀ id, .str id ∈ r.clearedBlockerIds →
        BlockerUnchanged (indexById corpus) (indexById corpus') id) →
      (Clears items (narrowed handoff r.remainingBlockers) corpus' witnesses evidence ↔
        Clears items handoff corpus' witnesses evidence) := by
  obtain ⟨members, ps, h⟩ := narrows_of_verdict hprose hr hv
  refine ⟨narrowed_not_cleared h, fun corpus' hsame => ?_⟩
  rw [clears_narrowed_iff h, clears_original_iff h]
  exact openGate_narrowed_iff h hsame

end

/-! ### A blocker whose chain moves on -/

namespace Superseded

/-- A record of a `stub_id` in one state, with further entries. -/
def record (stubId state : Text) (entries : Dict) : Dict :=
  (.str Key.stubId, .str stubId) :: (.str Key.deploymentState, .str state) :: entries

def shippedBlocker : Dict := record ['s', '1'] State.shipped
  [(.str Key.shippedIn, .str ['c', '1']), (.str Key.attachedPath, .str ['a', '.', 'm', 'd'])]

def openBlocker : Dict := record ['s', '2'] State.inFlight []

def openBlockerShipped : Dict :=
  record ['s', '2'] State.shipped [(.str Key.shippedIn, .str ['c', '2'])]

/-- A new record of the first `stub_id`, which takes over from the shipped one. -/
def successor : Dict :=
  record ['s', '1'] State.inFlight [(.str Key.predecessor, .str ['a', '.', 'm', 'd'])]

/-- A handoff blocked by both. -/
def handoff : Dict := [(.str Key.blockedBy, .seq [.str ['s', '1'], .str ['s', '2']])]

/-- What narrowing leaves of it. -/
def narrowResult : GateResult where
  handoffId := unknownId
  verdict := .narrow
  clearedByShas := [['c', '1']]
  remainingBlockers := [.str ['s', '2']]
  clearedBlockerIds := [.str ['s', '1']]
  alsoSurface := false
  contradiction := none

/-- The law at that handoff. -/
theorem narrowing_loses_nothing_narrowed :
    (∃ r', evaluateGate noItems (narrowed handoff narrowResult.remainingBlockers)
      [shippedBlocker, openBlocker] [] none = .ok r' ∧
        (r'.verdict = .surface ∨ r'.verdict = .notCleared)) ∧
    ∀ corpus', (∀ id, .str id ∈ narrowResult.clearedBlockerIds →
        BlockerUnchanged (indexById [shippedBlocker, openBlocker]) (indexById corpus') id) →
      (Clears noItems (narrowed handoff narrowResult.remainingBlockers) corpus' [] none ↔
        Clears noItems handoff corpus' [] none) :=
  narrowing_loses_nothing noItems handoff [shippedBlocker, openBlocker] [] none narrowResult
    rfl rfl rfl

/-- The record of the cleared blocker is still in the later corpus, as it was. There the narrowed
handoff is cleared and the original is not. -/
theorem narrowed_fires_early :
    evaluateGate noItems handoff [shippedBlocker, openBlocker] [] none = .ok narrowResult ∧
      (∀ r ∈ [shippedBlocker, openBlocker], indexedStubId r = some ['s', '1'] →
        r ∈ [shippedBlocker, openBlockerShipped, successor]) ∧
      Clears noItems (narrowed handoff narrowResult.remainingBlockers)
        [shippedBlocker, openBlockerShipped, successor] [] none ∧
      ¬ Clears noItems handoff [shippedBlocker, openBlockerShipped, successor] [] none := by
  refine ⟨rfl, fun r hr hid => ?_, ⟨_, rfl, rfl⟩, ?_⟩
  · rcases List.mem_cons.mp hr with rfl | hr
    · exact List.mem_cons_self ..
    · rw [List.mem_singleton.mp hr] at hid
      exact absurd hid (by decide)
  · rintro ⟨r, hr, hv⟩
    have hnarrow : (evaluateGate noItems handoff
        [shippedBlocker, openBlockerShipped, successor] [] none).map GateResult.verdict =
          .ok .narrow := rfl
    rw [hr] at hnarrow
    rw [Except.map, Except.ok.injEq, hv] at hnarrow
    cases hnarrow

end Superseded

end Gate

end CoordinatorCore
