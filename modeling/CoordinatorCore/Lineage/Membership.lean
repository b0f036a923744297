import CoordinatorCore.Lineage.Locate

/-!
# Reverse membership

`referenced_by` asks whether some live record names a target; `build_reverse_edge_index` with
`referenced_by_indexed` answers the same for many targets from one pass. The pass resolves ids
against all the live records and all the kinds it indexes; the plain test resolves them against the
records and the kinds that are asked for.

`referenced_by_agree_iff` says exactly when the answers are the same: when no id that an answer
turns on has another owner for the index than for the plain test.
-/

namespace CoordinatorCore

open Text

namespace Lineage

/-- `ARCHIVAL_EDGE_KINDS`. -/
def archivalEdgeKinds : List Text :=
  ["predecessor".toList, "additional_predecessors".toList, "forked_from".toList]

/-- The refusals. -/
inductive MembershipError
  | handoffDirRequired (function : Text)
  | uncovered (missing covered : List Text)

/-- `{'referenced', 'referencedBy'}`. -/
structure Membership where
  referenced : Bool
  referencedBy : List Path

/-- The result of either test from its referencers. -/
def Membership.of (referencers : List Path) : Membership :=
  ⟨decide (0 < referencers.length), referencers⟩

section

variable (d : Disk)

/-- The directory references are relative to, inferred from the first live record. -/
def handoffDirOr (function : Text) (liveSet : List Path) (handoffDir : Option Text) :
    Except MembershipError Text :=
  match handoffDir.or (liveSet.head?.map dirname) with
  | some h => .ok h
  | none => .error (.handoffDirRequired function)

/-- `_repo_root_from_handoff_dir`. -/
def repoRootFromHandoffDir (handoffDir : Text) : Text :=
  normpath (joinPath (joinPath handoffDir "..".toList) "..".toList)

/-- `any(EDGE_KIND_FIELD_ALIASES.get(k) for k in kinds)`. -/
def anyAliased (kinds : List Text) : Bool := kinds.any fun k => !(aliasesOf k).isEmpty

/-- The paths of `exclude` as they are compared. -/
def excludeSet (exclude : List Text) : List Path := (exclude.filter (· ≠ [])).map d.abspath

/-! ### The plain test -/

/-- What the comparison makes of a reference: a path on disk must be the target, and one that has
none must share its name. -/
def namesTarget (absTarget : Path) (ref : Text) (resolved : Option Path) : Bool :=
  match resolved.filter (· ≠ gitHistory) with
  | some r => d.abspath r == absTarget
  | none => !refNamesForeignFamily ref && basename ref == basename absTarget

/-- The index a test resolves ids with; without an aliased kind there is none. -/
def idIndexFor (metas : Option (List (Path × Dict))) (kinds : List Text) (paths : List Path) :
    Option HandoffIdIndex :=
  if anyAliased kinds then some (buildHandoffIdIndex d metas paths) else none

/-- The live records the plain test keeps. -/
def keptRecords (liveSet : List Path) (exclude : List Text) : List Path :=
  liveSet.filter fun p => !(excludeSet d exclude).contains (d.abspath p)

/-- The references of a record of the given kinds. -/
def nodeRefs (kinds : List Text) (node : Path) : List Text :=
  handoffEdges d.container (d.readMeta node) kinds true

/-- A node names the target through a reference that the given index resolves. -/
def nodeNames (idIndex : Option HandoffIdIndex) (repoRoot : Text) (absTarget node : Path)
    (ref : Text) : Bool :=
  namesTarget d absTarget ref (resolveTargetOnDisk d (dirname node) repoRoot idIndex ref)

/-- `referenced_by`. -/
def referencedBy (target : Text) (liveSet : List Path) (edgeKinds : Option (List Text))
    (handoffDir : Option Text) (exclude : List Text) : Except MembershipError Membership := do
  let edgeKinds := edgeKinds.getD archivalEdgeKinds
  let handoffDir ← handoffDirOr "dag.referenced_by".toList liveSet handoffDir
  let repoRoot := repoRootFromHandoffDir handoffDir
  let filtered := keptRecords d liveSet exclude
  let idIndex := idIndexFor d none edgeKinds filtered
  return .of (filtered.filter fun node =>
    (nodeRefs d edgeKinds node).any fun ref =>
      nodeNames d idIndex repoRoot (d.abspath target) node ref)

/-! ### The indexed test -/

/-- A referencer in one of the dicts of the index. -/
structure Referencer where
  key : Text
  node : Path
  kind : Text

/-- The reverse-edge index. A dict of lists is the list of its entries. -/
structure ReverseEdgeIndex where
  byAbspath : List Referencer
  byBasename : List Referencer
  liveSetSize : Nat
  edgeKinds : List Text

/-- The entries under a key. -/
def entriesAt (key : Text) (entries : List Referencer) : List Referencer :=
  entries.filter fun e => e.key == key

/-- The reference of a node under a kind, with what it resolves to. -/
structure ResolvedRef where
  node : Path
  kind : Text
  ref : Text
  resolved : Option Path

/-- The entry a resolved reference makes in `by_abspath`. -/
def ResolvedRef.onDisk (r : ResolvedRef) : Option Referencer :=
  (r.resolved.filter (· ≠ gitHistory)).map fun p => ⟨d.abspath p, r.node, r.kind⟩

/-- The entry an unresolved reference makes in `by_basename`. -/
def ResolvedRef.byName (r : ResolvedRef) : Option Referencer :=
  match r.resolved.filter (· ≠ gitHistory) with
  | some _ => none
  | none =>
    if refNamesForeignFamily r.ref then none else some ⟨basename r.ref, r.node, r.kind⟩

/-- The pass over the live records. -/
def resolvedRefs (metas : Option (List (Path × Dict))) (idIndex : Option HandoffIdIndex)
    (repoRoot : Text) (kinds : List Text) (liveSet : List Path) : List ResolvedRef :=
  liveSet.flatMap fun node =>
    let nodeMeta := ((metas.getD []).lookup node).getD (d.readMeta node)
    kinds.flatMap fun kind => (handoffEdges d.container nodeMeta [kind] true).map fun ref =>
      ⟨node, kind, ref, resolveTargetOnDisk d (dirname node) repoRoot idIndex ref⟩

/-- The dicts and the numbers of an index over its resolved references. -/
def indexOf (liveSet : List Path) (kinds : List Text) (resolved : List ResolvedRef) :
    ReverseEdgeIndex :=
  { byAbspath := resolved.filterMap (·.onDisk d)
    byBasename := resolved.filterMap (·.byName)
    liveSetSize := liveSet.length
    edgeKinds := kinds }

/-- `build_reverse_edge_index`. -/
def buildReverseEdgeIndex (liveSet : List Path) (handoffDir : Option Text)
    (idIndexSource : Option (List Path)) (metas : Option (List (Path × Dict)))
    (edgeKinds : Option (List Text)) : Except MembershipError ReverseEdgeIndex := do
  let handoffDir ← handoffDirOr "dag.build_reverse_edge_index".toList liveSet handoffDir
  let repoRoot := repoRootFromHandoffDir handoffDir
  let allKinds := edgeKinds.getD archivalEdgeKinds
  let idIndex := idIndexFor d metas allKinds (idIndexSource.getD liveSet)
  return indexOf d liveSet allKinds (resolvedRefs d metas idIndex repoRoot allKinds liveSet)

/-- The loop over the hits: every node once. -/
def collect (edgeKinds : List Text) (excluded : List Path) :
    List Referencer → List Path → List Path
  | [], referencers => referencers
  | e :: es, referencers =>
    if !edgeKinds.contains e.kind || referencers.contains e.node || excluded.contains e.node then
      collect edgeKinds excluded es referencers
    else collect edgeKinds excluded es (referencers ++ [e.node])

/-- `referenced_by_indexed`. -/
def referencedByIndexed (target : Text) (index : ReverseEdgeIndex)
    (edgeKinds : Option (List Text)) (exclude : List Text) :
    Except MembershipError Membership :=
  let edgeKinds := edgeKinds.getD archivalEdgeKinds
  let missing := edgeKinds.filter fun k => !index.edgeKinds.contains k
  if missing ≠ [] then .error (.uncovered missing index.edgeKinds)
  else
    let absTarget := d.abspath target
    let hits := entriesAt absTarget index.byAbspath ++
      entriesAt (basename absTarget) index.byBasename
    .ok (.of (collect edgeKinds (excludeSet d exclude) hits []))

/-! ### What the tests find -/

/-- The collected nodes: those found before and the referencers of the right kinds. -/
theorem mem_collect {edgeKinds : List Text} {excluded : List Path} {es : List Referencer}
    {referencers : List Path} {p : Path} :
    p ∈ collect edgeKinds excluded es referencers ↔
      p ∈ referencers ∨ p ∉ excluded ∧ ∃ e ∈ es, e.node = p ∧ e.kind ∈ edgeKinds := by
  induction es generalizing referencers with
  | nil => simp [collect]
  | cons e es ih =>
    rw [collect]
    split_ifs with h
    · rw [ih]
      simp only [Bool.or_eq_true, Bool.not_eq_true', List.contains_eq_mem, decide_eq_true_eq,
        decide_eq_false_iff_not, List.exists_mem_cons_iff] at h ⊢
      -- a skipped entry is of another kind, excluded, or there already
      grind
    · rw [ih]
      simp only [Bool.or_eq_true, Bool.not_eq_true', List.contains_eq_mem, decide_eq_true_eq,
        decide_eq_false_iff_not, List.exists_mem_cons_iff, List.mem_append,
        List.mem_singleton] at h ⊢
      grind

/-- A reference of a node is of one of the kinds. -/
theorem mem_nodeRefs {edgeKinds : List Text} {node : Path} {ref : Text} :
    ref ∈ nodeRefs d edgeKinds node ↔ ∃ kind ∈ edgeKinds, ref ∈ nodeRefs d [kind] node := by
  simp [nodeRefs, handoffEdges]

/-- A hit in one of the dicts is a reference that names the target. -/
private theorem exists_hit_iff {absTarget : Path} {rs : List ResolvedRef}
    {q : Path → Text → Prop} :
    (∃ e ∈ entriesAt absTarget (rs.filterMap (·.onDisk d)) ++
        entriesAt (basename absTarget) (rs.filterMap (·.byName)), q e.node e.kind) ↔
      ∃ r ∈ rs, namesTarget d absTarget r.ref r.resolved = true ∧ q r.node r.kind := by
  constructor
  · rintro ⟨e, he, hqe⟩
    rcases List.mem_append.mp he with he | he
    all_goals
      obtain ⟨he, hkey⟩ := List.mem_filter.mp he
      obtain ⟨r, hr, hre⟩ := List.mem_filterMap.mp he
    · rw [ResolvedRef.onDisk] at hre
      obtain ⟨p, hp, rfl⟩ := Option.map_eq_some_iff.mp hre
      exact ⟨r, hr, by rw [namesTarget, hp]; exact hkey, hqe⟩
    · rw [ResolvedRef.byName] at hre
      split at hre
      · cases hre
      · next hnone =>
        split_ifs at hre with hf
        obtain rfl := Option.some.inj hre
        refine ⟨r, hr, ?_, hqe⟩
        rw [namesTarget, hnone]
        simpa [hf] using hkey
  · rintro ⟨r, hr, hname, hqr⟩
    rw [namesTarget] at hname
    cases hres : r.resolved.filter (· ≠ gitHistory) with
    | some p =>
      rw [hres] at hname
      refine ⟨⟨d.abspath p, r.node, r.kind⟩, List.mem_append_left _ ?_, hqr⟩
      refine List.mem_filter.mpr ⟨List.mem_filterMap.mpr ⟨r, hr, ?_⟩, hname⟩
      rw [ResolvedRef.onDisk, hres, Option.map_some]
    | none =>
      rw [hres] at hname
      obtain ⟨hf, hb⟩ := Bool.and_eq_true_iff.mp hname
      refine ⟨⟨basename r.ref, r.node, r.kind⟩, List.mem_append_right _ ?_, hqr⟩
      refine List.mem_filter.mpr ⟨List.mem_filterMap.mpr ⟨r, hr, ?_⟩, hb⟩
      rw [ResolvedRef.byName, hres]
      simp only [Bool.not_eq_true'] at hf
      simp [hf]

/-- The referencers of the plain test. -/
theorem exists_referencedBy (target : Text) {liveSet : List Path}
    (edgeKinds : Option (List Text)) {handoffDir : Option Text} (exclude : List Text) {h : Text}
    (hh : handoffDir.or (liveSet.head?.map dirname) = some h) :
    ∃ m, referencedBy d target liveSet edgeKinds handoffDir exclude = .ok (.of m) ∧
      ∀ p, p ∈ m ↔ p ∈ liveSet ∧ d.abspath p ∉ excludeSet d exclude ∧
        ∃ ref ∈ nodeRefs d (edgeKinds.getD archivalEdgeKinds) p,
          nodeNames d (idIndexFor d none (edgeKinds.getD archivalEdgeKinds)
            (keptRecords d liveSet exclude)) (repoRootFromHandoffDir h) (d.abspath target) p ref := by
  refine ⟨_, by rw [referencedBy, handoffDirOr, hh]; rfl, fun p => ?_⟩
  rw [List.mem_filter, List.any_eq_true, keptRecords, List.mem_filter, and_assoc]
  simp only [Bool.not_eq_true', List.contains_eq_mem, decide_eq_false_iff_not]

/-- The referencers of the indexed test. -/
theorem exists_referencedByIndexed (target : Text) {liveSet : List Path}
    {kinds edgeKinds : Option (List Text)} {handoffDir : Option Text} (exclude : List Text)
    {h : Text} (hh : handoffDir.or (liveSet.head?.map dirname) = some h)
    (hcov : ∀ k ∈ edgeKinds.getD archivalEdgeKinds, k ∈ kinds.getD archivalEdgeKinds) :
    ∃ m, ((buildReverseEdgeIndex d liveSet handoffDir none none kinds).bind fun index =>
        referencedByIndexed d target index edgeKinds exclude) = .ok (.of m) ∧
      ∀ p, p ∈ m ↔ p ∈ liveSet ∧ p ∉ excludeSet d exclude ∧
        ∃ ref ∈ nodeRefs d (edgeKinds.getD archivalEdgeKinds) p,
          nodeNames d (idIndexFor d none (kinds.getD archivalEdgeKinds) liveSet)
            (repoRootFromHandoffDir h) (d.abspath target) p ref := by
  set K := kinds.getD archivalEdgeKinds
  set E := edgeKinds.getD archivalEdgeKinds with hE
  set rs := resolvedRefs d none (idIndexFor d none K liveSet) (repoRootFromHandoffDir h) K liveSet
    with hrs
  have hbuild : buildReverseEdgeIndex d liveSet handoffDir none none kinds =
      .ok (indexOf d liveSet K rs) := by
    rw [buildReverseEdgeIndex, handoffDirOr, hh]
    rfl
  have hmissing : E.filter (fun k => !K.contains k) = [] := by
    rw [List.filter_eq_nil_iff]
    intro k hk
    simpa using hcov k hk
  refine ⟨collect E (excludeSet d exclude) (entriesAt (d.abspath target)
    (rs.filterMap (·.onDisk d)) ++ entriesAt (basename (d.abspath target))
      (rs.filterMap (·.byName))) [], ?_, fun p => ?_⟩
  · rw [hbuild, Except.bind, referencedByIndexed, ← hE]
    simp only [indexOf, hmissing, ne_eq, not_true_eq_false, if_false]
  · rw [mem_collect, exists_hit_iff d (q := fun node kind => node = p ∧ kind ∈ E),
      or_iff_right List.not_mem_nil]
    constructor
    · rintro ⟨hx, r, hr, hname, rfl, hkind⟩
      obtain ⟨node, hnode, hr⟩ := List.mem_flatMap.mp hr
      obtain ⟨kind, -, hr⟩ := List.mem_flatMap.mp hr
      obtain ⟨ref, href, rfl⟩ := List.mem_map.mp hr
      exact ⟨hnode, hx, ref, (mem_nodeRefs d).mpr ⟨kind, hkind, href⟩, hname⟩
    · rintro ⟨hp, hx, ref, href, hname⟩
      obtain ⟨kind, hkind, href⟩ := (mem_nodeRefs d).mp href
      refine ⟨hx, ⟨p, kind, ref, _⟩, ?_, hname, rfl, hkind⟩
      exact List.mem_flatMap.mpr ⟨p, hp, List.mem_flatMap.mpr ⟨kind, hcov kind hkind,
        List.mem_map.mpr ⟨ref, href, rfl⟩⟩⟩

/-! ### When they agree -/

/-- The owner an id-form reference has in an index over some records. -/
def idOwner (kinds : List Text) (records : List Path) (ref : Text) : Option Path :=
  if usesId ref && anyAliased kinds then owner d none records (strip ref) else none

/-- A reference with the given owner names the target: by the owner, or without one as a path. -/
def NamesBy (repoRoot : Text) (absTarget node : Path) (ref : Text) : Option Path → Prop
  | some p => p = absTarget
  | none => nodeNames d none repoRoot absTarget node ref = true

/-- An owner is an absolute path. -/
private theorem abspath_of_owner {metas : Option (List (Path × Dict))} {records : List Path}
    {hid : Text} {p : Path} (h : owner d metas records hid = some p) :
    d.abspath p = p ∧ p ≠ gitHistory := by
  obtain ⟨q, -, rfl⟩ := Option.map_eq_some_iff.mp h
  exact ⟨d.abspath_abspath q, d.abspath_ne_gitHistory q⟩

/-- Naming depends on the index through the owner only. -/
theorem nodeNames_iff {kinds : List Text} {records : List Path} {repoRoot : Text}
    {absTarget node : Path} {ref : Text} :
    nodeNames d (idIndexFor d none kinds records) repoRoot absTarget node ref = true ↔
      NamesBy d repoRoot absTarget node ref (idOwner d kinds records ref) := by
  have hentry : (if usesId ref then
      (idIndexFor d none kinds records).bind (·.lookup (strip ref)) else none) =
        idOwner d kinds records ref := by
    rw [idOwner, idIndexFor]
    by_cases hk : anyAliased kinds = true
    · simp only [hk, if_true, Option.bind_some, lookup_buildHandoffIdIndex, Bool.and_true]
    · simp [hk]
  rw [nodeNames, resolveTargetOnDisk_eq, hentry]
  cases ho : idOwner d kinds records ref with
  | none => rfl
  | some p =>
    rw [idOwner] at ho
    split_ifs at ho
    obtain ⟨habs, hgit⟩ := abspath_of_owner d ho
    simp [namesTarget, NamesBy, Option.filter, hgit, habs]

section

variable (target : Text) (liveSet : List Path) (kinds edgeKinds : List Text) (exclude : List Text)

/-- The reference has one owner for the index and another, or none, for the plain test: the last
record with its id is excluded, or the asked kinds consult no ids. -/
def Displaced (ref : Text) : Prop :=
  idOwner d kinds liveSet ref ≠ idOwner d edgeKinds (keptRecords d liveSet exclude) ref

/-- Some reference of a record has the property. -/
def SomeRef (node : Path) (P : Text → Prop) : Prop :=
  ∃ ref ∈ nodeRefs d edgeKinds node, P ref

/-- What makes the answers agree about one record. If only the plain test excludes it, under
another spelling of its path, it must not name the target. If both keep it, it names the target by
a reference that is not displaced, or the displaced ones name it in both tests or in neither. -/
structure SameFor (repoRoot : Text) (node : Path) : Prop where
  spelling : node ∉ excludeSet d exclude → d.abspath node ∈ excludeSet d exclude →
    ¬ SomeRef d edgeKinds node fun ref =>
      NamesBy d repoRoot (d.abspath target) node ref (idOwner d kinds liveSet ref)
  owners : d.abspath node ∉ excludeSet d exclude →
    (SomeRef d edgeKinds node fun ref => ¬ Displaced d liveSet kinds edgeKinds exclude ref ∧
      NamesBy d repoRoot (d.abspath target) node ref (idOwner d kinds liveSet ref)) ∨
    ((SomeRef d edgeKinds node fun ref => Displaced d liveSet kinds edgeKinds exclude ref ∧
        idOwner d kinds liveSet ref = some (d.abspath target)) ↔
      SomeRef d edgeKinds node fun ref => Displaced d liveSet kinds edgeKinds exclude ref ∧
        NamesBy d repoRoot (d.abspath target) node ref
          (idOwner d edgeKinds (keptRecords d liveSet exclude) ref))

end

/-- An owner among the kept records has a counterpart among all of them. -/
private theorem idOwner_ne_none {liveSet : List Path} {kinds edgeKinds : List Text}
    {exclude : List Text} (hcov : ∀ k ∈ edgeKinds, k ∈ kinds) {ref : Text}
    (h : idOwner d edgeKinds (keptRecords d liveSet exclude) ref ≠ none) :
    idOwner d kinds liveSet ref ≠ none := by
  rw [idOwner] at h
  split_ifs at h with hid
  · rw [Bool.and_eq_true] at hid
    have hk : anyAliased kinds = true := by
      obtain ⟨k, hk, hal⟩ := List.any_eq_true.mp hid.2
      exact List.any_eq_true.mpr ⟨k, hcov k hk, hal⟩
    rw [idOwner, if_pos (by simp [hid.1, hk])]
    simp only [owner, ne_eq, Option.map_eq_none_iff, List.find?_eq_none, List.mem_reverse] at h ⊢
    intro hall
    exact h fun p hp => hall p (List.mem_of_mem_filter hp)
  · exact absurd rfl h

/-- Two results are the same answer: the flag and the set of referencers, or a refusal each. -/
def SameAnswer : Except MembershipError Membership → Except MembershipError Membership → Prop
  | .ok a, .ok b => a.referenced = b.referenced ∧ ∀ p, p ∈ a.referencedBy ↔ p ∈ b.referencedBy
  | .error _, .error _ => True
  | _, _ => False

private theorem sameAnswer_of_iff {a b : List Path} :
    SameAnswer (.ok (.of a)) (.ok (.of b)) ↔ ∀ p, p ∈ a ↔ p ∈ b := by
  refine ⟨And.right, fun h => ⟨?_, h⟩⟩
  have hpos : 0 < a.length ↔ 0 < b.length := by
    rw [List.length_pos_iff_exists_mem, List.length_pos_iff_exists_mem]
    exact exists_congr h
  exact decide_eq_decide.mpr hpos

private theorem or_iff_or_iff_or_iff {a b c : Prop} : (a ∨ b ↔ a ∨ c) ↔ a ∨ (b ↔ c) := by
  by_cases ha : a <;> simp [ha]

/-- One record: the two tests agree about it exactly under `SameFor`. -/
private theorem sameFor_iff {target : Text} {liveSet : List Path} {kinds edgeKinds : List Text}
    {exclude : List Text} (hcov : ∀ k ∈ edgeKinds, k ∈ kinds) {repoRoot : Text} {node : Path} :
    (node ∉ excludeSet d exclude ∧ (SomeRef d edgeKinds node fun ref =>
        NamesBy d repoRoot (d.abspath target) node ref (idOwner d kinds liveSet ref)) ↔
      d.abspath node ∉ excludeSet d exclude ∧ SomeRef d edgeKinds node fun ref =>
        NamesBy d repoRoot (d.abspath target) node ref
          (idOwner d edgeKinds (keptRecords d liveSet exclude) ref)) ↔
      SameFor d target liveSet kinds edgeKinds exclude repoRoot node := by
  -- an excluded path is absolute already
  have habs : node ∈ excludeSet d exclude → d.abspath node ∈ excludeSet d exclude := by
    intro h
    obtain ⟨e, -, rfl⟩ := List.mem_map.mp h
    rwa [d.abspath_abspath]
  by_cases hx : d.abspath node ∈ excludeSet d exclude
  · constructor
    · exact fun h => ⟨fun hn _ hs => (h.mp ⟨hn, hs⟩).1 hx, fun hnx => absurd hx hnx⟩
    · rintro ⟨hspell, -⟩
      exact iff_of_false (fun h => hspell h.1 hx h.2) fun h => h.1 hx
  · have hn : node ∉ excludeSet d exclude := fun h => hx (habs h)
    have howners : (SomeRef d edgeKinds node fun ref =>
        Displaced d liveSet kinds edgeKinds exclude ref ∧
          NamesBy d repoRoot (d.abspath target) node ref (idOwner d kinds liveSet ref)) ↔
        SomeRef d edgeKinds node fun ref => Displaced d liveSet kinds edgeKinds exclude ref ∧
          idOwner d kinds liveSet ref = some (d.abspath target) := by
      refine exists_congr fun ref => and_congr_right fun _ => and_congr_right fun hd => ?_
      cases ho : idOwner d kinds liveSet ref with
      | some p => simp [NamesBy]
      | none =>
        -- without an owner among all records there is none among the kept ones
        by_cases hk : idOwner d edgeKinds (keptRecords d liveSet exclude) ref = none
        · exact absurd (ho.trans hk.symm) hd
        · exact absurd ho (idOwner_ne_none d hcov hk)
    -- a reference names the target in one test as in the other, unless it is displaced
    have hsplit : ∀ ow : Text → Option Path,
        (∀ ref, ¬ Displaced d liveSet kinds edgeKinds exclude ref →
          ow ref = idOwner d kinds liveSet ref) →
        ((SomeRef d edgeKinds node fun ref =>
            NamesBy d repoRoot (d.abspath target) node ref (ow ref)) ↔
          (SomeRef d edgeKinds node fun ref => ¬ Displaced d liveSet kinds edgeKinds exclude ref ∧
            NamesBy d repoRoot (d.abspath target) node ref (idOwner d kinds liveSet ref)) ∨
          SomeRef d edgeKinds node fun ref => Displaced d liveSet kinds edgeKinds exclude ref ∧
            NamesBy d repoRoot (d.abspath target) node ref (ow ref)) := by
      intro ow how
      constructor
      · rintro ⟨ref, href, hname⟩
        by_cases hd : Displaced d liveSet kinds edgeKinds exclude ref
        · exact Or.inr ⟨ref, href, hd, hname⟩
        · exact Or.inl ⟨ref, href, hd, how ref hd ▸ hname⟩
      · rintro (⟨ref, href, hd, hname⟩ | ⟨ref, href, -, hname⟩)
        · exact ⟨ref, href, by simpa only [how ref hd] using hname⟩
        · exact ⟨ref, href, hname⟩
    rw [hsplit (idOwner d kinds liveSet) fun _ _ => rfl, howners,
      hsplit (idOwner d edgeKinds (keptRecords d liveSet exclude)) fun ref hd =>
        (not_not.mp hd).symm, and_iff_right hn, and_iff_right hx, or_iff_or_iff_or_iff]
    exact ⟨fun h => ⟨fun _ h' => absurd h' hx, fun _ => h⟩, fun h => h.owners hx⟩

/-- The indexed test answers as the plain one exactly when every live record is treated alike. -/
theorem referenced_by_agree_iff (target : Text) (liveSet : List Path)
    (kinds edgeKinds : Option (List Text)) (handoffDir : Option Text) (exclude : List Text)
    (hcov : ∀ k ∈ edgeKinds.getD archivalEdgeKinds, k ∈ kinds.getD archivalEdgeKinds) :
    SameAnswer
        ((buildReverseEdgeIndex d liveSet handoffDir none none kinds).bind fun index =>
          referencedByIndexed d target index edgeKinds exclude)
        (referencedBy d target liveSet edgeKinds handoffDir exclude) ↔
      ∀ h, handoffDir.or (liveSet.head?.map dirname) = some h → ∀ node ∈ liveSet,
        SameFor d target liveSet (kinds.getD archivalEdgeKinds)
          (edgeKinds.getD archivalEdgeKinds) exclude (repoRootFromHandoffDir h) node := by
  cases hh : handoffDir.or (liveSet.head?.map dirname) with
  | none =>
    have hi : buildReverseEdgeIndex d liveSet handoffDir none none kinds =
        .error (.handoffDirRequired "dag.build_reverse_edge_index".toList) := by
      rw [buildReverseEdgeIndex, handoffDirOr, hh]
      rfl
    have hp : referencedBy d target liveSet edgeKinds handoffDir exclude =
        .error (.handoffDirRequired "dag.referenced_by".toList) := by
      rw [referencedBy, handoffDirOr, hh]
      rfl
    rw [hi, hp]
    refine iff_of_true trivial fun h heq => ?_
    cases heq
  | some h =>
    obtain ⟨a, ha, hmem⟩ := exists_referencedByIndexed d target exclude hh hcov
    obtain ⟨b, hb, hmem'⟩ := exists_referencedBy d target edgeKinds exclude hh
    rw [ha, hb, sameAnswer_of_iff]
    simp only [hmem, hmem', nodeNames_iff, Option.some.injEq, forall_eq']
    refine forall_congr' fun p => ?_
    by_cases hp : p ∈ liveSet
    · rw [← sameFor_iff d hcov]
      simp only [hp, true_and, forall_const]
      rfl
    · simp [hp]

end

/-! ### An excluded owner -/

/-- Two records, the second of which continues the first by id. -/
def twoRecordFiles : List (Path × Text) :=
  [("/r/state/handoffs/t.md".toList, "---\nhandoff_id: t1\n---\n".toList),
   ("/r/state/handoffs/n.md".toList, "---\npredecessor_id: t1\n---\n".toList)]

/-- The disk that holds the two records. -/
def twoRecordDisk : Disk where
  cwd := ⟨"/r".toList, rfl⟩
  pathExists p := (twoRecordFiles.lookup p).isSome
  isDir p := p == "/r/state/handoffs".toList
  listDir p := if p = "/r/state/handoffs".toList then some ["t.md".toList, "n.md".toList] else none
  window p := twoRecordFiles.lookup p
  content p := twoRecordFiles.lookup p
  isDecimal := isDigit
  container _ := []

/-- With nothing excluded the tests agree when the records are treated alike. -/
theorem referenced_by_agree_iff_two :
    SameAnswer
        ((buildReverseEdgeIndex twoRecordDisk (twoRecordFiles.map Prod.fst) none none none
          none).bind fun index =>
            referencedByIndexed twoRecordDisk "/r/state/handoffs/t.md".toList index none [])
        (referencedBy twoRecordDisk "/r/state/handoffs/t.md".toList
          (twoRecordFiles.map Prod.fst) none none []) ↔
      ∀ h, Option.or none ((twoRecordFiles.map Prod.fst).head?.map dirname) = some h →
        ∀ node ∈ twoRecordFiles.map Prod.fst,
          SameFor twoRecordDisk "/r/state/handoffs/t.md".toList (twoRecordFiles.map Prod.fst)
            (Option.getD none archivalEdgeKinds) (Option.getD none archivalEdgeKinds) []
            (repoRootFromHandoffDir h) node :=
  referenced_by_agree_iff twoRecordDisk _ _ none none none [] fun _ h => h

/-- With the target itself excluded its id still resolves in the index, and in the plain test no
longer. -/
theorem excluded_owner_still_indexed :
    ((buildReverseEdgeIndex twoRecordDisk (twoRecordFiles.map Prod.fst) none none none
        none).bind fun index =>
          referencedByIndexed twoRecordDisk "/r/state/handoffs/t.md".toList index none
            ["/r/state/handoffs/t.md".toList]).toOption.map (·.referencedBy) =
        some ["/r/state/handoffs/n.md".toList] ∧
      (referencedBy twoRecordDisk "/r/state/handoffs/t.md".toList
        (twoRecordFiles.map Prod.fst) none none
          ["/r/state/handoffs/t.md".toList]).toOption.map (·.referencedBy) = some [] := by
  constructor <;> decide +kernel

end Lineage

end CoordinatorCore
