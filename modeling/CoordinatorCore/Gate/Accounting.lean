import CoordinatorCore.Gate.Routes

/-!
# Every edge accounted for

A verdict that clears blockers names a commit for each. On the structured path the cleared and the
remaining ids are the blockers, and an id that will never clear by itself comes with a flag. Two
rules of the evaluator clear without a commit to show: evidence that stands for the gate names
every blocker and no commit, and a witness may have shipped without one.
-/

namespace CoordinatorCore

open Text

namespace Gate

/-- A cleared id and the commit that discharged it: of the record it resolves to, or of the witness
it names. -/
def ClearedBy (index : TypedHandoffIndex) (witnesses : List Dict) (id : Val) (sha : Text) : Prop :=
  (∃ blockerId blocker, id = .str blockerId ∧ index.get blockerId = some blocker ∧
    Discharged index maxContinuationChaseDepth blocker sha) ∨
  (∃ witness ∈ witnesses, id = witness.getD Key.id unknownId ∧
    deploymentState witness = some State.shipped ∧ witness.get Key.shippedIn = .str sha)

/-- The two arrays of a result are parallel. -/
def Paired (index : TypedHandoffIndex) (witnesses : List Dict) (r : GateResult) : Prop :=
  List.Forall₂ (ClearedBy index witnesses) r.clearedBlockerIds r.clearedByShas

/-- A blocker that waits for a person: abandoned or closed, continued or shipped without a commit
at the end, or unknown without a disposition. -/
def NeedsAttention (index : TypedHandoffIndex) (dispositions : Val) (id : Text) : Prop :=
  (index.get id = none ∧ resolvedWithoutBatonReason id dispositions = none) ∨
  ∃ blocker, index.get id = some blocker ∧
    (deploymentState blocker = some State.abandoned ∨
      deploymentState blocker = some State.closed ∨
      ((deploymentState blocker = some State.continued ∨
          deploymentState blocker = some State.shipped) ∧
        ∀ sha, ¬ Discharged index maxContinuationChaseDepth blocker sha))

/-! ### The structured path -/

private theorem forall₂_shipped {index : TypedHandoffIndex} {dispositions : Val}
    {ps : List (Text × Bucket)} (h : ∀ p ∈ ps, bucketOf index dispositions p.1 = .ok p.2) :
    List.Forall₂ (ClearedBy index []) ((Buckets.ofAssigned ps).shippedIds.map .str)
      (Buckets.ofAssigned ps).shippedShas := by
  simp only [Buckets.ofAssigned]
  induction ps with
  | nil => exact .nil
  | cons p ps ih =>
    obtain ⟨hp, hps⟩ := List.forall_mem_cons.mp h
    rw [answered_cons, List.filterMap_cons]
    cases hk : p.2.sha? with
    | none => simpa using ih hps
    | some sha =>
      rw [Bucket.sha?_eq_some] at hk
      obtain ⟨blocker, hget, hdis⟩ := discharged_of_bucketOf (hk ▸ hp)
      exact .cons (.inl ⟨p.1, blocker, rfl, hget, hdis⟩) (ih hps)

/-- The shipped ids and the remaining ones are the ids. -/
theorem shipped_append_remaining_perm (ps : List (Text × Bucket)) :
    ((Buckets.ofAssigned ps).shippedIds ++ (Buckets.ofAssigned ps).remaining).Perm
      (ps.map Prod.fst) := by
  rw [List.perm_iff_count]
  intro id
  simp only [Buckets.remaining, Buckets.ofAssigned, List.count_append]
  induction ps with
  | nil => rfl
  | cons p ps ih =>
    obtain ⟨i, k⟩ := p
    rw [List.map_cons, List.count_cons, ← ih]
    cases k <;> simp [answered_cons, Bucket.sha?, List.count_cons] <;> omega

/-- A blocker that waits for a person lands in a bucket that is surfaced. -/
theorem bucketOf_of_needsAttention {index : TypedHandoffIndex} {dispositions : Val} {id : Text}
    {k : Bucket} (h : NeedsAttention index dispositions id)
    (hk : bucketOf index dispositions id = .ok k) :
    k = .abandoned ∨ k = .unresolved ∨ k = .unstampedShipped := by
  rcases h with ⟨hget, hreason⟩ | ⟨blocker, hget, hstate⟩
  · simp only [bucketOf, hget, hreason] at hk
    exact .inr (.inl (Except.ok.inj hk).symm)
  -- what needs attention is not discharged
  · have hnot : ∀ sha, (deploymentState blocker = some State.continued ∨
        deploymentState blocker = some State.shipped) → k ≠ .shipped sha := by
      rintro sha hs rfl
      obtain ⟨blocker', hget', hdis⟩ := discharged_of_bucketOf hk
      rw [hget, Option.some.injEq] at hget'
      subst hget'
      rcases hstate with hst | hst | ⟨-, hno⟩
      · rw [hst] at hs
        revert hs
        decide
      · rw [hst] at hs
        revert hs
        decide
      · exact hno sha hdis
    simp only [bucketOf, hget, recordBucket] at hk
    rcases hstate with hst | hst | ⟨hst | hst, -⟩
    · rw [hst] at hk
      exact .inl (Except.ok.inj hk).symm
    · rw [hst] at hk
      exact .inl (Except.ok.inj hk).symm
    · rw [hst] at hk
      obtain ⟨outcome, -, rfl⟩ := except_map_eq_ok.mp hk
      cases outcome with
      | shipped sha =>
        cases sha with
        | none => exact .inr (.inr rfl)
        | some sha => exact absurd rfl (hnot sha (.inl hst))
      | _ => exact .inl rfl
    · rw [hst] at hk
      cases hsha : nonEmptyStr (blocker.get Key.shippedIn) with
      | none =>
        rw [hsha] at hk
        exact .inr (.inr (Except.ok.inj hk).symm)
      | some sha =>
        rw [hsha] at hk
        exact absurd (Except.ok.inj hk).symm (hnot sha (.inr hst))

section

variable (items : ScalarKind → Text → List Val) (handoff : Dict) (corpus witnesses : List Dict)
  (evidence : Option Dict) (ids : List Text)

/-- The structured verdict of a handoff blocked by some ids accounts for each of them. -/
structure StructuredAccounts (index : TypedHandoffIndex) (r : GateResult) : Prop where
  paired : Paired index [] r
  perm : r.verdict = .clear ∨ r.verdict = .narrow →
    (r.clearedBlockerIds ++ r.remainingBlockers).Perm (ids.map .str)
  surfaced : ∀ id, .str id ∈ r.remainingBlockers →
    NeedsAttention index (handoff.get Key.blockedByDispositions) id →
      r.verdict = .surface ∨ r.alsoSurface = true

/-- Every commit is accounted for: a rule that clears has one for each id. -/
def CommitsShown : Prop :=
  (consumesGateEvidence handoff evidence = true → LegsHold items evidence → ids = []) ∧
  (AwaitsWitness handoff evidence → ∀ witness, witnesses = [witness] →
    deploymentState witness = some State.shipped →
      ∃ sha, nonEmptyStr (witness.get Key.shippedIn) = some sha)

variable {items handoff corpus witnesses evidence ids}

/-- A verdict that clears nothing pairs nothing, and is a surface or has no ids of its own. -/
private theorem accounts_unclearing {index : TypedHandoffIndex} {handoffId : Val}
    {verdict : Verdict} {remaining : List Val}
    (h : verdict = .surface ∨ verdict = .notCleared ∧ remaining = []) :
    StructuredAccounts handoff ids index (.unclearing handoffId verdict remaining) := by
  refine ⟨.nil, fun hv => ?_, fun id hid _ => ?_⟩
  · rcases h with rfl | ⟨rfl, -⟩ <;> rcases hv with hv | hv <;> cases hv
  · rcases h with rfl | ⟨rfl, rfl⟩
    · exact .inl rfl
    · cases hid

/-- The cascade accounts for the ids of the assignment it is given. -/
private theorem accounts_structuredResult {index : TypedHandoffIndex} {handoffId : Val}
    {ps : List (Text × Bucket)}
    (hps : assign (bucketOf index (handoff.get Key.blockedByDispositions)) ids = .ok ps) :
    StructuredAccounts handoff ids index (structuredResult handoffId (.ofAssigned ps)) := by
  obtain ⟨hfst, hall⟩ := assign_eq_ok.mp hps
  have hperm := (shipped_append_remaining_perm ps).map Val.str
  rw [List.map_append, hfst] at hperm
  have hpaired := forall₂_shipped hall
  have hattention : ∀ id, .str id ∈ (Buckets.ofAssigned ps).remaining.map Val.str →
      NeedsAttention index (handoff.get Key.blockedByDispositions) id →
        (Buckets.ofAssigned ps).abandonedIds ≠ [] ∨ (Buckets.ofAssigned ps).unresolvedIds ≠ [] ∨
          (Buckets.ofAssigned ps).unstampedShippedIds ≠ [] := by
    intro id hid hneeds
    obtain ⟨id', hid', heq⟩ := List.mem_map.mp hid
    cases heq
    obtain ⟨k, hk, -⟩ := mem_remaining_ofAssigned.mp hid'
    have hin : ∀ j, k = j → id ∈ answered (· = j) ps := fun j hj =>
      mem_answered.mpr ⟨k, hk, by simpa using hj⟩
    rcases bucketOf_of_needsAttention hneeds (hall _ hk) with h | h | h
    · exact .inl (List.ne_nil_of_mem (hin _ h))
    · exact .inr (.inl (List.ne_nil_of_mem (hin _ h)))
    · exact .inr (.inr (List.ne_nil_of_mem (hin _ h)))
  rcases structuredResult_cases handoffId (.ofAssigned ps) with ⟨hr, h⟩ | ⟨-, -, h⟩ |
    ⟨-, -, -, h⟩ | ⟨-, -, ha, hun, hus, h⟩
  · rw [h]
    refine ⟨hpaired, fun _ => ?_, fun id hid => absurd hid List.not_mem_nil⟩
    rw [hr] at hperm
    exact hperm
  · rw [h]
    refine ⟨hpaired, fun _ => hperm, fun id hid hneeds => .inr ?_⟩
    simpa [GateResult.clearing] using hattention id hid hneeds
  · rw [h]
    exact accounts_unclearing (.inl rfl)
  · rw [h]
    refine ⟨.nil, fun hv => ?_, fun id hid hneeds => ?_⟩
    · rcases hv with hv | hv <;> cases hv
    · rcases hattention id hid hneeds with h | h | h
      · exact absurd ha h
      · exact absurd hun h
      · exact absurd hus h

/-- The structured verdict accounts for every blocker, whatever was visited before. -/
theorem evaluateStructuredGate_accounts {index : TypedHandoffIndex} {visited : List Val}
    {r : GateResult} (hb : iterate items (blockedBy handoff) = .ok (ids.map .str))
    (hr : evaluateStructuredGate items handoff index visited = .ok r) :
    StructuredAccounts handoff ids index r := by
  have hids : stringMembers (ids.map Val.str) = ids := by
    simp [stringMembers, List.filterMap_map]
  rw [evaluateStructuredGate, hb, Except.bind, hids] at hr
  dsimp only at hr
  split_ifs at hr with hhash hseen hnil
  · cases hr
    exact accounts_unclearing (.inl rfl)
  · cases hr
    exact accounts_unclearing (.inr ⟨rfl, rfl⟩)
  · obtain ⟨asymmetric, -, hr⟩ := except_bind_eq_ok.mp hr
    cases asymmetric with
    | true =>
      cases hr
      exact accounts_unclearing (.inl rfl)
    | false =>
      obtain ⟨b, hb', rfl⟩ := except_map_eq_ok.mp hr
      obtain ⟨ps, hps, rfl⟩ := classify_eq_ok.mp hb'
      exact accounts_structuredResult hps

/-! ### Every path -/

private theorem paired_weaken {index : TypedHandoffIndex} {r : GateResult}
    (h : Paired index [] r) : Paired index witnesses r := by
  refine h.imp fun id sha hc => ?_
  rcases hc with hc | ⟨w, hw, -⟩
  · exact .inl hc
  · cases hw

/-- The evidence rule pairs its ids with commits when there are none. -/
private theorem paired_evidence_iff {index : TypedHandoffIndex} {handoffId : Val} :
    Paired index witnesses (evidenceResult handoffId .freed (ids.map .str)) ↔ ids = [] := by
  constructor
  · intro h
    have hlen := h.length_eq
    simpa [evidenceResult, GateResult.unclearing] using hlen
  · rintro rfl
    exact .nil

/-- A witness that has shipped pairs its id with a commit when it carries one. -/
private theorem paired_witness_iff {index : TypedHandoffIndex} {witness : Dict}
    (hs : deploymentState witness = some State.shipped) :
    Paired index [witness] (evaluateProseGate handoff [witness]) ↔
      ∃ sha, nonEmptyStr (witness.get Key.shippedIn) = some sha := by
  rw [evaluateProseGate, if_pos hs, Paired]
  cases hsha : nonEmptyStr (witness.get Key.shippedIn) with
  | none =>
    refine iff_of_false (fun h => ?_) (by simp)
    cases h
  | some sha =>
    refine iff_of_true ?_ ⟨sha, rfl⟩
    obtain ⟨hv, -⟩ := nonEmptyStr_eq_some.mp hsha
    exact .cons (.inr ⟨witness, List.mem_singleton_self _, rfl, hs, hv⟩) .nil

private theorem paired_of_plainGate (hplain : PlainGate handoff)
    (hb : iterate items (blockedBy handoff) = .ok (ids.map .str)) {r : GateResult}
    (hr : evaluateGate items handoff corpus witnesses evidence = .ok r) :
    Paired (indexById corpus) witnesses r := by
  rw [evaluateGate_of_no_prose items corpus witnesses evidence hplain.prose hplain.sentinel] at hr
  split_ifs at hr with hs hnotes
  · exact paired_weaken (evaluateStructuredGate_accounts hb hr).paired
  · cases hr
    exact .nil
  · cases hr
    exact .nil

private theorem paired_of_awaitsWitness (hawaits : AwaitsWitness handoff evidence)
    (hshown : CommitsShown items handoff witnesses evidence ids) {r : GateResult}
    (hr : evaluateGate items handoff corpus witnesses evidence = .ok r)
    (hv : r.verdict = .clear ∨ r.verdict = .narrow) :
    Paired (indexById corpus) witnesses r := by
  rw [evaluateGate_of_awaitsWitness hawaits] at hr
  cases hr
  match hw : witnesses with
  | [] => rcases hv with hv | hv <;> cases hv
  | [witness] =>
    by_cases hs : deploymentState witness = some State.shipped
    · exact (paired_witness_iff hs).mpr (hshown.2 hawaits witness rfl hs)
    · rw [evaluateProseGate, if_neg hs] at hv
      rcases hv with hv | hv <;> cases hv
  | _ :: _ :: _ => rcases hv with hv | hv <;> cases hv

private theorem evidenceResult_clear {handoffId : Val} {status : Status} {members : List Val}
    (hv : (evidenceResult handoffId status members).verdict = .clear ∨
      (evidenceResult handoffId status members).verdict = .narrow) :
    (evidenceResult handoffId status members).verdict = .clear := by
  by_cases h : status = .freed
  · rw [evidenceResult, if_pos h]
    rfl
  · rw [evidenceResult, if_neg h] at hv
    rcases hv with hv | hv <;> cases hv

private theorem paired_of_consumes (hconsumes : consumesGateEvidence handoff evidence = true)
    (hb : iterate items (blockedBy handoff) = .ok (ids.map .str))
    (hshown : CommitsShown items handoff witnesses evidence ids) {r : GateResult}
    (hr : evaluateGate items handoff corpus witnesses evidence = .ok r)
    (hv : r.verdict = .clear ∨ r.verdict = .narrow) :
    Paired (indexById corpus) witnesses r := by
  have hclear : r.verdict = .clear := by
    have hr' := hr
    rw [evaluateGate_of_consumes hconsumes] at hr'
    obtain ⟨reduced, -, hr'⟩ := except_bind_eq_ok.mp hr'
    obtain ⟨members, -, rfl⟩ := except_map_eq_ok.mp hr'
    exact evidenceResult_clear hv
  obtain ⟨hlegs, members, hm, rfl⟩ := (evaluateGate_consumes_eq_ok hconsumes hclear).mp hr
  cases hb.symm.trans hm
  exact paired_evidence_iff.mpr (hshown.1 hconsumes hlegs)

/-- The structured verdict accounts for every blocker, and every verdict of the evaluator that
clears shows its commits, exactly when the rules that clear without blockers have them to show. -/
theorem evaluateGate_accounts_iff (items : ScalarKind → Text → List Val) (handoff : Dict)
    (corpus witnesses : List Dict) (evidence : Option Dict) (ids : List Text)
    (hb : iterate items (blockedBy handoff) = .ok (ids.map .str)) :
    ((∀ visited r, evaluateStructuredGate items handoff (indexById corpus) visited = .ok r →
        StructuredAccounts handoff ids (indexById corpus) r) ∧
      ∀ r, evaluateGate items handoff corpus witnesses evidence = .ok r →
        r.verdict = .clear ∨ r.verdict = .narrow → Paired (indexById corpus) witnesses r) ↔
      CommitsShown items handoff witnesses evidence ids := by
  constructor
  · rintro ⟨-, hpaired⟩
    refine ⟨fun hconsumes hlegs => ?_, fun hawaits witness hw hs => ?_⟩
    · exact paired_evidence_iff.mp (hpaired _
        ((evaluateGate_consumes_eq_ok hconsumes rfl).mpr ⟨hlegs, _, hb, rfl⟩) (.inl rfl))
    · subst hw
      refine (paired_witness_iff hs).mp
        (hpaired _ (evaluateGate_of_awaitsWitness hawaits) (.inl ?_))
      rw [evaluateProseGate, if_pos hs]
  · intro hshown
    refine ⟨fun visited r hr => evaluateStructuredGate_accounts hb hr, fun r hr hv => ?_⟩
    by_cases hconsumes : consumesGateEvidence handoff evidence = true
    · exact paired_of_consumes hconsumes hb hshown hr hv
    by_cases hplain : PlainGate handoff
    · exact paired_of_plainGate hplain hb hr
    by_cases hawaits : AwaitsWitness handoff evidence
    · exact paired_of_awaitsWitness hawaits hshown hr hv
    · rw [evaluateGate_surfaces hr (by simpa using hconsumes) hplain hawaits] at hv
      rcases hv with hv | hv <;> cases hv

end

/-! ### A gate evidence stands for -/

/-- A handoff gated on a sibling repository in prose, with one blocker beside it. -/
def siblingGated : Dict :=
  [(.str Key.gateDependency, .str ['c', 'u', 't', 'o', 'v', 'e', 'r']),
    (.str Key.blockedBy, .seq [.str ['s', '-', '0', '1']])]

/-- The commit of the sibling was seen. -/
def siblingEvidence : Dict :=
  [(.str Key.coversProse, .bool true),
    (.str Key.legs, .seq [.map
      [(.str Key.kind, .str "commit-sha".toList), (.str Key.readOk, .bool true),
        (.str Key.observed, .bool true)]])]

/-- The law at that handoff. -/
theorem evaluateGate_accounts_iff_siblingGated :
    iterate noItems (blockedBy siblingGated) = .ok ([['s', '-', '0', '1']].map .str) ∧
      (((∀ visited r, evaluateStructuredGate noItems siblingGated (indexById []) visited = .ok r →
          StructuredAccounts siblingGated [['s', '-', '0', '1']] (indexById []) r) ∧
        ∀ r, evaluateGate noItems siblingGated [] [] (some siblingEvidence) = .ok r →
          r.verdict = .clear ∨ r.verdict = .narrow → Paired (indexById []) [] r) ↔
      CommitsShown noItems siblingGated [] (some siblingEvidence) [['s', '-', '0', '1']]) :=
  ⟨rfl, evaluateGate_accounts_iff noItems siblingGated [] [] (some siblingEvidence) _ rfl⟩

/-- Its blocker is cleared and no commit is named. -/
theorem siblingGated_cleared_without_commit :
    (∃ r, evaluateGate noItems siblingGated [] [] (some siblingEvidence) = .ok r ∧
      r.verdict = .clear ∧ r.clearedBlockerIds = [.str ['s', '-', '0', '1']] ∧
      r.clearedByShas = []) ∧
    ¬ ∀ r, evaluateGate noItems siblingGated [] [] (some siblingEvidence) = .ok r →
      r.verdict = .clear ∨ r.verdict = .narrow → Paired (indexById []) [] r := by
  have hcleared : ∃ r, evaluateGate noItems siblingGated [] [] (some siblingEvidence) = .ok r ∧
      r.verdict = .clear ∧ r.clearedBlockerIds = [.str ['s', '-', '0', '1']] ∧
      r.clearedByShas = [] := ⟨_, rfl, rfl, rfl, rfl⟩
  refine ⟨hcleared, fun hpaired => ?_⟩
  obtain ⟨r, hr, hv, hids, hshas⟩ := hcleared
  have hlen := (hpaired r hr (.inl hv)).length_eq
  rw [hids, hshas] at hlen
  cases hlen

end Gate

end CoordinatorCore
