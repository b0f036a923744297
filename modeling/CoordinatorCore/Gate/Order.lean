import CoordinatorCore.Gate.Routes

/-!
# The order of the corpus

The index keeps the last record of a `handoff_id` and of a path's last segment, and the last head of
a `stub_id`. The evaluators do not depend on the order of the corpus when no last segment names two
records and the heads that are left of a `stub_id` cannot be told apart by a handoff they block.
-/

namespace CoordinatorCore

open Text

namespace Gate

/-- No two records carry one `handoff_id`. -/
def UniqueHandoffIds (corpus : List Dict) : Prop :=
  ∀ r ∈ corpus, ∀ r' ∈ corpus, ∀ k, indexedHandoffId r = some k → indexedHandoffId r' = some k →
    r = r'

/-- No two records have one last segment. -/
def UniqueBasenames (corpus : List Dict) : Prop :=
  ∀ r ∈ corpus, ∀ r' ∈ corpus, ∀ b, ownBasename r = some b → ownBasename r' = some b → r = r'

/-- Two records a handoff blocked by one id cannot tell apart. -/
def Interchangeable (index : TypedHandoffIndex) (id : Text) (x y : Dict) : Prop :=
  recordBucket index id x = recordBucket index id y ∧
    ∀ handoff, handoffNames handoff ≠ [] →
      blockerAsymmetric (handoffNames handoff) x = blockerAsymmetric (handoffNames handoff) y

/-- What is left of each `stub_id` is one record, as far as any handoff can tell. -/
structure Unambiguous (corpus : List Dict) : Prop where
  paths : UniqueBasenames corpus
  heads : ∀ k, isHandoffId k = false →
    ∀ x ∈ collapseToChainHeads (stubGroup corpus k),
      ∀ y ∈ collapseToChainHeads (stubGroup corpus k), Interchangeable (indexById corpus) k x y

/-- The verdict, the ids and the commits of a result. -/
def GateResult.reported (r : GateResult) : Verdict × List Val × List Val × List Text :=
  (r.verdict, r.clearedBlockerIds, r.remainingBlockers, r.clearedByShas)

/-- The status and the ids of a report. -/
def TriageResult.reported (t : TriageResult) : Status × List (List Text) :=
  (t.status, [t.blockedBy, t.shippedIds, t.stillOpenIds, t.deadIds, t.unresolvedIds,
    t.disposedIds, t.unstampedShippedIds])

/-- Both evaluators report the same for every order of the corpus, and a path that names two of its
records is never resolved to one of them. -/
structure OrderIndependent (items : ScalarKind → Text → List Val) (corpus : List Dict) :
    Prop where
  gate : ∀ corpus', corpus.Perm corpus' → ∀ handoff witnesses evidence,
    (evaluateGate items handoff corpus' witnesses evidence).map GateResult.reported =
      (evaluateGate items handoff corpus witnesses evidence).map GateResult.reported
  triage : ∀ corpus', corpus.Perm corpus' → ∀ handoff entries evidence consult,
    (evaluateGateTriage items handoff corpus' entries evidence consult).map
        TriageResult.reported =
      (evaluateGateTriage items handoff corpus entries evidence consult).map
        TriageResult.reported
  paths : ∀ path b, isHandoffId path = false → pathBasename (.str path) = some b →
    ∀ r ∈ corpus, ∀ r' ∈ corpus, ownBasename r = some b → ownBasename r' = some b → r ≠ r' →
      resolveContinuationTarget (indexById corpus) (.str path) = none

/-! ### Indexes with the same answers -/

/-- Two indexes no evaluator can tell apart. -/
structure SameAnswers (index index' : TypedHandoffIndex) : Prop where
  bucket : ∀ dispositions id, bucketOf index' dispositions id = bucketOf index dispositions id
  back : ∀ handoff, handoffNames handoff ≠ [] → ∀ id,
    backReference (handoffNames handoff) index' id = backReference (handoffNames handoff) index id

section

variable {index index' : TypedHandoffIndex}

private theorem classify_congr (h : SameAnswers index index') (dispositions : Val)
    (ids : List Text) :
    classifyBlockedBy index' dispositions ids = classifyBlockedBy index dispositions ids := by
  rw [classifyBlockedBy_eq, classifyBlockedBy_eq,
    assign_congr fun id _ => h.bucket dispositions id]

private theorem hasAsymmetry_congr (h : SameAnswers index index') (handoff : Dict)
    (ids : List Text) : hasAsymmetry handoff ids index' = hasAsymmetry handoff ids index := by
  rw [hasAsymmetry, hasAsymmetry]
  split_ifs with hnames
  · rfl
  · induction ids with
    | nil => rfl
    | cons id ids ih => rw [anyAsymmetric_cons, anyAsymmetric_cons, h.back handoff hnames id, ih]

/-- The evaluators see a corpus through the answers of its index. -/
theorem evaluateGate_congr {items : ScalarKind → Text → List Val} {corpus corpus' : List Dict}
    (h : SameAnswers (indexById corpus) (indexById corpus')) (handoff : Dict)
    (witnesses : List Dict) (evidence : Option Dict) :
    evaluateGate items handoff corpus' witnesses evidence =
      evaluateGate items handoff corpus witnesses evidence := by
  simp only [evaluateGate, evaluateStructuredGate, allBlockedByShipped, classify_congr h,
    hasAsymmetry_congr h]

/-- The triage asks the corpus only through its index. -/
theorem evaluateGateTriage_congr {items : ScalarKind → Text → List Val}
    {corpus corpus' : List Dict} (h : SameAnswers (indexById corpus) (indexById corpus'))
    (handoff : Dict) (entries : List Dict) (evidence : Option Dict) (consult : Bool) :
    evaluateGateTriage items handoff corpus' entries evidence consult =
      evaluateGateTriage items handoff corpus entries evidence consult := by
  simp only [evaluateGateTriage, triageStructured, allBlockedByShipped, classify_congr h,
    hasAsymmetry_congr h]

private theorem chainUnchanged_of_resolve
    (h : ∀ v, resolveContinuationTarget index' v = resolveContinuationTarget index v) :
    ∀ hops record, ChainUnchanged index index' hops record := by
  intro hops
  induction hops with
  | zero => exact fun _ => trivial
  | succ hops ih => exact fun record _ => ⟨h _, fun next _ => ih next⟩

/-- A record's bucket depends on where its continuation leads. -/
theorem recordBucket_congr
    (h : ∀ v, resolveContinuationTarget index' v = resolveContinuationTarget index v)
    (id : Text) (record : Dict) : recordBucket index' id record = recordBucket index id record := by
  simp only [recordBucket, chaseContinuation_unchanged (chainUnchanged_of_resolve h _ _)]

end

/-! ### Permuted corpora -/

section

variable {corpus corpus' : List Dict}

private theorem get_byHandoffId_perm (hunique : UniqueHandoffIds corpus)
    (hperm : corpus.Perm corpus') (k : Text) :
    (indexById corpus').byHandoffId.get k = (indexById corpus).byHandoffId.get k := by
  refine (Table.get_ofPairs_perm (keyed_perm hperm) fun r r' hr hr' => ?_).symm
  rw [mem_keyed] at hr hr'
  exact hunique r hr.1 r' hr'.1 k hr.2 hr'.2

private theorem get_byPathBasename_perm (hunique : UniqueBasenames corpus)
    (hperm : corpus.Perm corpus') (b : Text) :
    (indexById corpus').byPathBasename.get b = (indexById corpus).byPathBasename.get b := by
  refine (Table.get_ofPairs_perm (keyed_perm hperm) fun r r' hr hr' => ?_).symm
  rw [mem_keyed] at hr hr'
  exact hunique r hr.1 r' hr'.1 b hr.2 hr'.2

private theorem resolve_perm (hids : UniqueHandoffIds corpus) (hpaths : UniqueBasenames corpus)
    (hperm : corpus.Perm corpus') (v : Val) :
    resolveContinuationTarget (indexById corpus') v =
      resolveContinuationTarget (indexById corpus) v := by
  rw [resolveContinuationTarget, resolveContinuationTarget]
  congr 1
  funext target
  split_ifs with hid
  · rw [TypedHandoffIndex.get, TypedHandoffIndex.get, if_pos hid, if_pos hid,
      get_byHandoffId_perm hids hperm]
  · rw [TypedHandoffIndex.getByPath, TypedHandoffIndex.getByPath]
    congr 1
    funext b
    exact get_byPathBasename_perm hpaths hperm b

private theorem stubGroup_perm (hperm : corpus.Perm corpus') (k : Text) :
    (stubGroup corpus k).Perm (stubGroup corpus' k) := hperm.filter _

/-- The slot of an id after a permutation: the same, or another head of its group. -/
private theorem get_perm (hids : UniqueHandoffIds corpus) (hperm : corpus.Perm corpus')
    (k : Text) :
    (indexById corpus').get k = (indexById corpus).get k ∨
      (isHandoffId k = false ∧ ∃ x ∈ collapseToChainHeads (stubGroup corpus k),
        ∃ y ∈ collapseToChainHeads (stubGroup corpus k),
          (indexById corpus).get k = some x ∧ (indexById corpus').get k = some y) := by
  rw [TypedHandoffIndex.get, TypedHandoffIndex.get]
  split_ifs with hid
  · exact .inl (get_byHandoffId_perm hids hperm k)
  · have hheads := collapse_perm (stubGroup_perm hperm k)
    rw [get_byStubId, get_byStubId]
    cases hx : (collapseToChainHeads (stubGroup corpus k)).getLast? with
    | none =>
      rw [List.getLast?_eq_none_iff] at hx
      rw [hx] at hheads
      rw [hheads.symm.eq_nil]
      exact .inl rfl
    | some x =>
      refine .inr ⟨by simpa using hid, x, List.mem_of_getLast? hx, ?_⟩
      cases hy : (collapseToChainHeads (stubGroup corpus' k)).getLast? with
      | none =>
        rw [List.getLast?_eq_none_iff] at hy
        rw [hy] at hheads
        rw [hheads.eq_nil] at hx
        cases hx
      | some y => exact ⟨y, hheads.mem_iff.mpr (List.mem_of_getLast? hy), rfl, rfl⟩

/-- An unambiguous corpus gives the same answers in every order. -/
theorem sameAnswers_of_perm (hids : UniqueHandoffIds corpus) (h : Unambiguous corpus)
    (hperm : corpus.Perm corpus') : SameAnswers (indexById corpus) (indexById corpus') := by
  have hresolve := resolve_perm hids h.paths hperm
  refine ⟨fun dispositions id => ?_, fun handoff hnames id => ?_⟩
  · rcases get_perm hids hperm id with heq | ⟨hid, x, hx, y, hy, hgx, hgy⟩
    · rw [bucketOf, bucketOf, heq]
      cases (indexById corpus).get id with
      | none => rfl
      | some blocker => exact recordBucket_congr hresolve id blocker
    · rw [bucketOf, bucketOf, hgx, hgy]
      exact (recordBucket_congr hresolve id y).trans (h.heads id hid y hy x hx).1
  · rcases get_perm hids hperm id with heq | ⟨hid, x, hx, y, hy, hgx, hgy⟩
    · rw [backReference, backReference, heq]
    · rw [backReference, backReference, hgx, hgy]
      exact (h.heads id hid y hy x hx).2 handoff hnames

/-- Any head of a group can be the last. -/
theorem exists_perm_slot {k : Text} (hid : isHandoffId k = false) {x : Dict}
    (hx : x ∈ collapseToChainHeads (stubGroup corpus k)) :
    ∃ corpus', corpus.Perm corpus' ∧ (indexById corpus').get k = some x := by
  have hgroup := mem_of_mem_collapse hx
  obtain ⟨hmem, hkey⟩ := List.mem_filter.mp hgroup
  obtain ⟨s, t, rfl⟩ := List.append_of_mem hmem
  have hperm : (s ++ x :: t).Perm (s ++ t ++ [x]) := by
    rw [List.append_assoc]
    exact List.Perm.append_left s (List.perm_append_singleton x t).symm
  refine ⟨s ++ t ++ [x], hperm, ?_⟩
  rw [TypedHandoffIndex.get, if_neg (by simp [hid]), get_byStubId]
  have hx' := (collapse_perm (stubGroup_perm hperm k)).mem_iff.mp hx
  have hlast : stubGroup (s ++ t ++ [x]) k = stubGroup (s ++ t) k ++ [x] := by
    rw [stubGroup, stubGroup, List.filter_append]
    congr 1
    exact List.filter_cons_of_pos hkey
  rw [hlast] at hx' ⊢
  rw [collapseToChainHeads] at hx' ⊢
  split_ifs at hx' ⊢ with hnil
  · simp
  · have hhead := (List.mem_filter.mp hx').2
    rw [Bool.not_eq_true'] at hhead
    simp [List.filter_append, hhead]

/-! ### What one blocker shows -/

variable {items : ScalarKind → Text → List Val}

/-- A handoff with some names that is blocked by one id. -/
def blockedOnce (stubId id : Val) (k : Text) : Dict :=
  [(.str Key.stubId, stubId), (.str Key.id, id), (.str Key.blockedBy, .seq [.str k])]

/-- The report of a handoff blocked by one id, without a back reference to check. -/
def triageOnce (handoff : Dict) (k : Text) (b : Bucket) : TriageResult :=
  { triageBase handoff [k] none
      (triageStatus (.ofAssigned [(k, b)]) (Buckets.ofAssigned [(k, b)]).unresolvedIds) [] with
    shippedIds := (Buckets.ofAssigned [(k, b)]).shippedIds
    stillOpenIds := (Buckets.ofAssigned [(k, b)]).stillOpenIds
    deadIds := (Buckets.ofAssigned [(k, b)]).abandonedIds
    unresolvedIds := (Buckets.ofAssigned [(k, b)]).unresolvedIds
    disposedIds := (Buckets.ofAssigned [(k, b)]).disposedIds
    unstampedShippedIds := (Buckets.ofAssigned [(k, b)]).unstampedShippedIds }

private theorem classify_one (index : TypedHandoffIndex) (dispositions : Val) (k : Text) :
    classifyBlockedBy index dispositions [k] =
      (bucketOf index dispositions k).map fun b => .ofAssigned [(k, b)] := by
  rw [classifyBlockedBy_eq, assign]
  cases bucketOf index dispositions k with
  | error e => rfl
  | ok b => rfl

private theorem hasAsymmetry_one (handoff : Dict) (index : TypedHandoffIndex) (k : Text) :
    hasAsymmetry handoff [k] index =
      if handoffNames handoff = [] then .ok false
      else backReference (handoffNames handoff) index k := by
  rw [hasAsymmetry, anyAsymmetric_cons, anyAsymmetric]
  split_ifs with hnames
  · rfl
  · cases backReference (handoffNames handoff) index k with
    | error e => rfl
    | ok a => cases a <;> rfl

private theorem handoffNames_blockedOnce (handoff : Dict) (k : Text) :
    handoffNames (blockedOnce (handoff.get Key.stubId) (handoff.get Key.id) k) =
      handoffNames handoff := rfl

/-- The triage of a handoff blocked by one id. -/
private theorem triage_blockedOnce (stubId id : Val) (k : Text) (corpus : List Dict) :
    evaluateGateTriage items (blockedOnce stubId id k) corpus [] none true =
      (hasAsymmetry (blockedOnce stubId id k) [k] (indexById corpus)).bind fun asymmetric =>
        if asymmetric then
          .ok (triageBase (blockedOnce stubId id k) [k] none .indeterminate [])
        else (bucketOf (indexById corpus) .null k).map
          (triageOnce (blockedOnce stubId id k) k) := by
  rw [evaluateGateTriage_of_no_prose items corpus [] true rfl rfl]
  change triageStructured (blockedOnce stubId id k) [k] (indexById corpus) [] none = _
  rw [triageStructured]
  congr 1
  funext asymmetric
  cases asymmetric with
  | true => rfl
  | false =>
    change (classifyBlockedBy (indexById corpus) .null [k]).bind _ = _
    rw [classify_one]
    cases bucketOf (indexById corpus) .null k with
    | error e => rfl
    | ok b =>
      simp only [Except.map, Except.bind, resolveViaLog_nil, List.append_nil, triageOnce,
        Bool.false_eq_true, if_false]

/-- The evaluator on a handoff without a name that is blocked by one id. -/
private theorem gate_blockedOnce (k : Text) (corpus : List Dict) :
    evaluateGate items [(.str Key.blockedBy, .seq [.str k])] corpus [] none =
      (bucketOf (indexById corpus) .null k).map fun b =>
        structuredResult unknownId (.ofAssigned [(k, b)]) := by
  rw [evaluateGate_of_no_prose items corpus [] none rfl rfl]
  change (classifyBlockedBy (indexById corpus) .null [k]).map (structuredResult unknownId) = _
  rw [classify_one]
  cases bucketOf (indexById corpus) .null k with
  | error e => rfl
  | ok b => rfl

/-- The two reports of one blocker tell its bucket. -/
private theorem bucket_of_reports {handoff : Dict} {k : Text} {b b' : Bucket}
    (hgate : (structuredResult unknownId (.ofAssigned [(k, b)])).reported =
      (structuredResult unknownId (.ofAssigned [(k, b')])).reported)
    (htriage : (triageOnce handoff k b).reported = (triageOnce handoff k b').reported) :
    b = b' := by
  cases b <;> cases b' <;>
    simp_all [structuredResult, GateResult.reported, TriageResult.reported, triageOnce, triageBase,
      Buckets.ofAssigned, answered, Bucket.sha?, GateResult.clearing, GateResult.unclearing,
      Buckets.remaining]

/-- A report of an asymmetry names no bucket. -/
private theorem report_asymmetric_ne (handoff : Dict) (k : Text) (b : Bucket) :
    (triageBase handoff [k] none .indeterminate []).reported ≠
      (triageOnce handoff k b).reported := by
  cases b <;>
    simp [TriageResult.reported, triageOnce, triageBase, Buckets.ofAssigned, answered, Bucket.sha?]

/-! ### The law of order -/

private theorem bucketOf_slot {corpus'' : List Dict} {k : Text} {x : Dict}
    (hids : UniqueHandoffIds corpus) (hpaths : UniqueBasenames corpus)
    (hperm : corpus.Perm corpus'') (hget : (indexById corpus'').get k = some x) :
    bucketOf (indexById corpus'') .null k = recordBucket (indexById corpus) k x := by
  rw [bucketOf, hget]
  exact recordBucket_congr (resolve_perm hids hpaths hperm) k x

/-- Reports that do not depend on the order tell every head of a group alike. -/
private theorem recordBucket_of_orderIndependent (h : OrderIndependent items corpus)
    (hids : UniqueHandoffIds corpus) (hpaths : UniqueBasenames corpus) {k : Text}
    (hid : isHandoffId k = false) {x y : Dict}
    (hx : x ∈ collapseToChainHeads (stubGroup corpus k))
    (hy : y ∈ collapseToChainHeads (stubGroup corpus k)) :
    recordBucket (indexById corpus) k x = recordBucket (indexById corpus) k y := by
  obtain ⟨cx, hpx, hgx⟩ := exists_perm_slot hid hx
  obtain ⟨cy, hpy, hgy⟩ := exists_perm_slot hid hy
  have hgate := (h.gate cx hpx [(.str Key.blockedBy, .seq [.str k])] [] none).trans
    (h.gate cy hpy [(.str Key.blockedBy, .seq [.str k])] [] none).symm
  have htriage := (h.triage cx hpx (blockedOnce .null .null k) [] none true).trans
    (h.triage cy hpy (blockedOnce .null .null k) [] none true).symm
  have hnames : handoffNames (blockedOnce .null .null k) = [] := rfl
  rw [gate_blockedOnce, gate_blockedOnce, bucketOf_slot hids hpaths hpx hgx,
    bucketOf_slot hids hpaths hpy hgy] at hgate
  rw [triage_blockedOnce, triage_blockedOnce, hasAsymmetry_one, hasAsymmetry_one, hnames,
    if_pos rfl, if_pos rfl, bucketOf_slot hids hpaths hpx hgx,
    bucketOf_slot hids hpaths hpy hgy] at htriage
  cases hbx : recordBucket (indexById corpus) k x with
  | error e =>
    cases hby : recordBucket (indexById corpus) k y with
    | error e' =>
      rw [hbx, hby] at hgate
      exact congrArg _ (Except.error.inj hgate)
    | ok b' =>
      rw [hbx, hby] at hgate
      cases hgate
  | ok b =>
    cases hby : recordBucket (indexById corpus) k y with
    | error e' =>
      rw [hbx, hby] at hgate
      cases hgate
    | ok b' =>
      rw [hbx, hby] at hgate htriage
      exact congrArg _ (bucket_of_reports (Except.ok.inj hgate) (Except.ok.inj htriage))

private theorem asymmetric_of_orderIndependent (h : OrderIndependent items corpus)
    (hreturns : ∀ r ∈ corpus, ∀ names, ∃ a, blockerAsymmetric names r = .ok a) {k : Text}
    (hid : isHandoffId k = false) {x y : Dict}
    (hx : x ∈ collapseToChainHeads (stubGroup corpus k))
    (hy : y ∈ collapseToChainHeads (stubGroup corpus k)) {handoff : Dict}
    (hnames : handoffNames handoff ≠ []) :
    blockerAsymmetric (handoffNames handoff) x = blockerAsymmetric (handoffNames handoff) y := by
  obtain ⟨cx, hpx, hgx⟩ := exists_perm_slot hid hx
  obtain ⟨cy, hpy, hgy⟩ := exists_perm_slot hid hy
  obtain ⟨a, ha⟩ := hreturns x (List.mem_filter.mp (mem_of_mem_collapse hx)).1
    (handoffNames handoff)
  obtain ⟨a', ha'⟩ := hreturns y (List.mem_filter.mp (mem_of_mem_collapse hy)).1
    (handoffNames handoff)
  -- a handoff blocked by this one id reports the asymmetry of the head that comes last
  have htriage := (h.triage cx hpx
    (blockedOnce (handoff.get Key.stubId) (handoff.get Key.id) k) [] none true).trans
    (h.triage cy hpy
      (blockedOnce (handoff.get Key.stubId) (handoff.get Key.id) k) [] none true).symm
  rw [triage_blockedOnce, triage_blockedOnce, hasAsymmetry_one, hasAsymmetry_one,
    handoffNames_blockedOnce, if_neg hnames, if_neg hnames, backReference, backReference, hgx, hgy]
    at htriage
  simp only [ha, ha', Except.bind] at htriage
  rw [ha, ha']
  -- two reports of different kinds would differ
  cases a with
  | true =>
    cases a' with
    | true => rfl
    | false =>
      cases hb : bucketOf (indexById cy) .null k with
      | error e =>
        rw [hb] at htriage
        cases htriage
      | ok b =>
        rw [hb] at htriage
        exact absurd (Except.ok.inj htriage) (report_asymmetric_ne _ k b)
  | false =>
    cases a' with
    | false => rfl
    | true =>
      cases hb : bucketOf (indexById cx) .null k with
      | error e =>
        rw [hb] at htriage
        cases htriage
      | ok b =>
        rw [hb] at htriage
        exact absurd (Except.ok.inj htriage).symm (report_asymmetric_ne _ k b)

private theorem forall_mem_pathBasename {v : Val} {b : Text} (h : pathBasename v = some b) :
    ∀ c ∈ b, c ≠ '/' ∧ c ≠ '\\' := by
  obtain ⟨p, -, rfl⟩ := Option.map_eq_some_iff.mp h
  intro c hc
  have hne := List.mem_rtakeWhile_imp hc
  obtain ⟨c', -, rfl⟩ := List.mem_map.mp ((List.rtakeWhile_suffix _ _).subset hc)
  refine ⟨by simpa using hne, ?_⟩
  split_ifs with hback
  · decide
  · simpa using hback

/-- The path that is a slash and a last segment names that segment and is no durable id. -/
private theorem pathBasename_slash {r : Dict} {b : Text} (h : ownBasename r = some b) :
    pathBasename (.str ('/' :: b)) = some b ∧ isHandoffId ('/' :: b) = false := by
  have hchars : ∀ c ∈ b, c ≠ '/' ∧ c ≠ '\\' := by
    rw [ownBasename, Option.or_eq_some_iff, Option.filter_eq_some_iff,
      Option.filter_eq_some_iff] at h
    rcases h with ⟨h, -⟩ | ⟨-, h, -⟩
    · exact forall_mem_pathBasename h
    · exact forall_mem_pathBasename h
  have hmap : (('/' :: b).map fun c => if c == '\\' then '/' else c) = '/' :: b := by
    rw [List.map_cons, if_neg (by decide)]
    congr 1
    conv_rhs => rw [← List.map_id b]
    exact List.map_congr_left fun c hc => if_neg (by simpa using (hchars c hc).2)
  refine ⟨?_, rfl⟩
  rw [pathBasename, nonEmptyStr_eq_some.mpr ⟨rfl, List.cons_ne_nil _ _⟩, Option.map_some, hmap,
    basename, List.rtakeWhile, List.reverse_cons,
    List.takeWhile_append_of_pos fun c hc => by simpa using (hchars c (List.mem_reverse.mp hc)).1]
  simp

/-- Where a path is never resolved to one of two records, no two records have one last segment. -/
private theorem uniqueBasenames_of_orderIndependent (h : OrderIndependent items corpus) :
    UniqueBasenames corpus := by
  intro r hr r' hr' b hb hb'
  by_contra hne
  obtain ⟨hbase, hid⟩ := pathBasename_slash hb
  have hnone := h.paths ('/' :: b) b hid hbase r hr r' hr' hb hb' hne
  rw [resolveContinuationTarget, nonEmptyStr_eq_some.mpr ⟨rfl, List.cons_ne_nil _ _⟩,
    Option.bind_some, if_neg (by simp [hid]), TypedHandoffIndex.getByPath, hbase] at hnone
  exact Table.get_ofPairs_ne_none (mem_keyed.mpr ⟨hr, hb⟩) hnone

/-- Both evaluators report the same for every order of a corpus with unique `handoff_id`s when it is
unambiguous, and only then as long as no record makes the check of its back reference raise. -/
theorem orderIndependent_law (items : ScalarKind → Text → List Val) (corpus : List Dict)
    (hids : UniqueHandoffIds corpus) :
    (Unambiguous corpus → OrderIndependent items corpus) ∧
      ((∀ r ∈ corpus, ∀ names, ∃ a, blockerAsymmetric names r = .ok a) →
        (OrderIndependent items corpus ↔ Unambiguous corpus)) := by
  have henough : Unambiguous corpus → OrderIndependent items corpus := by
    intro h
    refine ⟨fun corpus' hperm handoff witnesses evidence => ?_,
      fun corpus' hperm handoff entries evidence consult => ?_,
      fun path b _ _ r hr r' hr' hb hb' hne => absurd (h.paths r hr r' hr' b hb hb') hne⟩
    · rw [evaluateGate_congr (sameAnswers_of_perm hids h hperm)]
    · rw [evaluateGateTriage_congr (sameAnswers_of_perm hids h hperm)]
  refine ⟨henough, fun hreturns => ⟨fun h => ?_, henough⟩⟩
  have hpaths := uniqueBasenames_of_orderIndependent h
  exact ⟨hpaths, fun k hid x hx y hy =>
    ⟨recordBucket_of_orderIndependent h hids hpaths hid hx hy,
      fun handoff hnames => asymmetric_of_orderIndependent h hreturns hid hx hy hnames⟩⟩

end

/-! ### A live file and its archived copy -/

namespace Copies

/-- A blocker that was continued into a file. -/
def blocker : Dict :=
  [(.str Key.stubId, .str ['s', '1']), (.str Key.deploymentState, .str State.continued),
    (.str Key.continuedInto, .str ['s', '/', 'x', '.', 'm', 'd'])]

/-- The file, live. -/
def live : Dict :=
  [(.str Key.attachedPath, .str ['s', '/', 'x', '.', 'm', 'd']),
    (.str Key.deploymentState, .str State.inFlight)]

/-- Its archived copy, shipped. -/
def archived : Dict :=
  [(.str Key.attachedPath, .str ['a', '/', 'x', '.', 'm', 'd']),
    (.str Key.deploymentState, .str State.shipped), (.str Key.shippedIn, .str ['c', '1'])]

/-- A handoff blocked by the blocker. -/
def handoff : Dict := blockedOnce .null .null ['s', '1']

theorem uniqueHandoffIds : UniqueHandoffIds [blocker, live, archived] := by
  have hnone : ∀ r ∈ [blocker, live, archived], indexedHandoffId r = none := by
    simp only [List.forall_mem_cons]
    exact ⟨rfl, rfl, rfl, fun r hr => absurd hr List.not_mem_nil⟩
  intro r hr r' hr' k hk
  rw [hnone r hr] at hk
  cases hk

/-- The law at that corpus. -/
theorem orderIndependent_law_copies :
    (Unambiguous [blocker, live, archived] →
        OrderIndependent noItems [blocker, live, archived]) ∧
      ((∀ r ∈ [blocker, live, archived], ∀ names, ∃ a, blockerAsymmetric names r = .ok a) →
        (OrderIndependent noItems [blocker, live, archived] ↔
          Unambiguous [blocker, live, archived])) :=
  orderIndependent_law noItems [blocker, live, archived] uniqueHandoffIds

/-- The handoff is cleared when the archived copy comes last and surfaced when the live file does:
the path names both, and is resolved to the later one. -/
theorem order_decides :
    UniqueHandoffIds [blocker, live, archived] ∧
      [blocker, live, archived].Perm [blocker, archived, live] ∧
      (evaluateGate noItems handoff [blocker, live, archived] [] none).map GateResult.verdict =
        .ok .clear ∧
      (evaluateGate noItems handoff [blocker, archived, live] [] none).map GateResult.verdict =
        .ok .surface ∧
      resolveContinuationTarget (indexById [blocker, live, archived])
        (.str ['s', '/', 'x', '.', 'm', 'd']) = some archived ∧
      ¬ OrderIndependent noItems [blocker, live, archived] := by
  have hperm : [blocker, live, archived].Perm [blocker, archived, live] :=
    (List.Perm.swap archived live []).cons blocker
  refine ⟨uniqueHandoffIds, hperm, rfl, rfl, rfl, fun h => ?_⟩
  have hsame := h.gate _ hperm handoff [] none
  have hverdict := congrArg (Except.map Prod.fst) hsame
  cases hverdict

end Copies

end Gate

end CoordinatorCore
