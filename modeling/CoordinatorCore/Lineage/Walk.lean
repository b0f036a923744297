import CoordinatorCore.Lineage.Edges
import CoordinatorCore.Machine.Run
import CoordinatorCore.Machine.DepthFirst

/-!
# The forward walk

`walk_forward` of `dag.py`: a depth-first search over handoff records with a stack of frames, a gray
and a black set, and one mutable status. Every iteration of its loop is one `step` of a state.

The walk is an implementation of `DepthFirst.Explore` over the graph of the records
(`steps_of_explore`): the same gray and black lists, the entered nodes in `orderedPaths`, and the
status as the last thing noticed.
-/

namespace CoordinatorCore

open Text DepthFirst Machine

namespace Lineage

/-! ### The records and the parameters of a walk -/

/-- The handoff records: the metadata read at every absolute path, of which finitely many have
any. -/
structure Records where
  readMeta : Path → Dict
  paths : Finset Path
  outside : ∀ p, p ∉ paths → readMeta p = []

/-- The arguments of a walk, with the resolver its directories and its id index fix. -/
structure WalkArgs where
  edgeKinds : List Text
  nodeGate : Dict → Bool
  followIdAliases : Bool
  resolveTarget : Text → Option Path
  container : Val → Text

/-- The sentinel `resolve_target` returns for a path only git remembers. -/
def gitHistory : Path := "git-history".toList

/-- `terminatedEarly`. -/
inductive Terminated
  | no
  | lineageCycle
  | missingLink
deriving DecidableEq

/-- The phase of a frame. -/
inductive Phase
  | enter
  | exit
deriving DecidableEq

/-- A frame of `dfs_stack`. -/
structure Frame where
  path : Path
  phase : Phase
deriving DecidableEq

/-- The variables of the loop. The top of the stack comes first. -/
structure WalkState where
  dfsStack : List Frame
  graySet : List Path
  blackSet : List Path
  nodes : List (Path × Dict)
  orderedPaths : List Path
  terminatedEarly : Terminated

/-! ### One iteration -/

section

variable (R : Records) (w : WalkArgs)

/-- The raw references of a record under the walk's kinds. -/
def rawEdges (m : Dict) : List Text :=
  handoffEdges w.container m w.edgeKinds w.followIdAliases

/-- The record names an edge of some kind by an alias only, and the walk follows no alias. -/
def aliasOnly (m : Dict) : Bool :=
  !w.followIdAliases && w.edgeKinds.any fun kind =>
    !(aliasesOf kind).isEmpty && (handoffEdges w.container m [kind] false).isEmpty &&
      !(handoffEdges w.container m [kind] true).isEmpty

/-- The loop over the raw references: the edges to push and the status behind it. -/
def scanRefs : List Text → Terminated → List Path × Terminated
  | [], status => ([], status)
  | ref :: refs, status =>
    match w.resolveTarget ref with
    | none => scanRefs refs .missingLink
    | some target =>
      if target = gitHistory then scanRefs refs status
      else (target :: (scanRefs refs status).1, (scanRefs refs status).2)

/-- The end of an iteration on a fresh path whose gate is open. The path has no entry in `nodes`
yet, so the assignment appends one. -/
def enterNode (path : Path) (st : WalkState) : WalkState :=
  let m := R.readMeta path
  let status := if aliasOnly w m then .missingLink else st.terminatedEarly
  let scanned := scanRefs w (rawEdges w m) status
  { dfsStack := scanned.1.reverse.foldl (fun stack e => ⟨e, .enter⟩ :: stack)
      (⟨path, .exit⟩ :: st.dfsStack)
    graySet := path :: st.graySet
    blackSet := st.blackSet
    nodes := st.nodes ++ [(path, m)]
    orderedPaths := st.orderedPaths ++ [path]
    terminatedEarly := scanned.2 }

/-- One iteration of `while dfs_stack`. -/
def step (st : WalkState) : Option WalkState :=
  match st.dfsStack with
  | [] => none
  | ⟨path, .exit⟩ :: stack =>
    some { st with
      dfsStack := stack, graySet := st.graySet.erase path, blackSet := path :: st.blackSet }
  | ⟨path, .enter⟩ :: stack =>
    if path ∈ st.blackSet then some { st with dfsStack := stack }
    else if path ∈ st.graySet then
      some { st with dfsStack := stack, terminatedEarly := .lineageCycle }
    else if !w.nodeGate (R.readMeta path) then
      some { st with dfsStack := stack, blackSet := path :: st.blackSet }
    else some (enterNode R w path { st with dfsStack := stack })

/-- The state in front of the loop. -/
def walkStart (absStart : Path) : WalkState :=
  ⟨[⟨absStart, .enter⟩], [], [], [], [], .no⟩

/-- `walk_forward` with at most `fuel` iterations of its loop; the result is read off the final
state. -/
def walkForward (absStart : Path) (fuel : Nat) : Option WalkState :=
  loop (step R w) fuel (walkStart absStart)

/-! ### The graph of the records -/

/-- The edges of a record that resolve on disk, in listed order. -/
def onDiskEdges (m : Dict) : List Path :=
  (rawEdges w m).filterMap fun ref => (w.resolveTarget ref).filter fun p => p ≠ gitHistory

/-- The record has an edge that does not resolve. -/
def dangling (m : Dict) : Bool :=
  aliasOnly w m || (rawEdges w m).any fun ref => (w.resolveTarget ref).isNone

/-- The graph a walk searches. -/
def lineage : Graph Path where
  gate p := w.nodeGate (R.readMeta p)
  succ p := onDiskEdges w (R.readMeta p)

/-- The status after a trace: the last thing noticed. -/
def statusAfter : Terminated → List (Event Path) → Terminated
  | status, [] => status
  | status, .enter p :: t =>
    statusAfter (if dangling w (R.readMeta p) then .missingLink else status) t
  | _, .back _ :: t => statusAfter .lineageCycle t

/-- The status behind two stretches of events. -/
theorem statusAfter_append (status : Terminated) (s t : List (Event Path)) :
    statusAfter R w status (s ++ t) = statusAfter R w (statusAfter R w status s) t := by
  induction s generalizing status with
  | nil => rfl
  | cons e s ih =>
    cases e with
    | enter p => exact ih _
    | back p => exact ih _

/-- The references of a node in one go: the targets, and whether one is missing. -/
theorem scanRefs_eq (refs : List Text) (status : Terminated) :
    scanRefs w refs status =
      (refs.filterMap fun ref => (w.resolveTarget ref).filter fun p => p ≠ gitHistory,
        if refs.any fun ref => (w.resolveTarget ref).isNone then .missingLink else status) := by
  induction refs generalizing status with
  | nil => rfl
  | cons ref refs ih =>
    rw [scanRefs]
    cases hr : w.resolveTarget ref with
    | none => simp [ih, hr]
    | some target =>
      by_cases hg : target = gitHistory <;> simp [ih, hr, hg, Option.filter]

private theorem foldl_push (es : List Path) (stack : List Frame) :
    es.reverse.foldl (fun stack e => ⟨e, .enter⟩ :: stack) stack =
      es.map (fun e => ⟨e, .enter⟩) ++ stack := by
  rw [List.foldl_reverse]
  induction es with
  | nil => rfl
  | cons e es ih => rw [List.foldr_cons, ih]; rfl

/-- Entering a node pushes its edges in listed order above its exit frame. -/
theorem enterNode_eq (path : Path) (st : WalkState) :
    enterNode R w path st =
      { dfsStack := ((lineage R w).succ path).map (fun e => ⟨e, .enter⟩) ++
          ⟨path, .exit⟩ :: st.dfsStack
        graySet := path :: st.graySet
        blackSet := st.blackSet
        nodes := st.nodes ++ [(path, R.readMeta path)]
        orderedPaths := st.orderedPaths ++ [path]
        terminatedEarly := if dangling w (R.readMeta path) then .missingLink
          else st.terminatedEarly } := by
  simp only [enterNode, scanRefs_eq, foldl_push, lineage, onDiskEdges, dangling]
  congr 1
  by_cases ha : aliasOnly w (R.readMeta path) = true
  · simp [ha]
  · simp [ha]

end

/-! ### The walk is a depth-first search -/

section

variable {R : Records} {w : WalkArgs}

/-- Only a record has edges. -/
theorem lineage_succ_outside (p : Path) (h : p ∉ R.paths) : (lineage R w).succ p = [] := by
  simp [lineage, onDiskEdges, rawEdges, R.outside p h]

/-- The metadata the walk keeps for the paths it enters. -/
def nodesOf (R : Records) (ps : List Path) : List (Path × Dict) :=
  ps.map fun p => (p, R.readMeta p)

/-- The loop performs the search: from frames for `es` it reaches the frames below them, with the
gray and black lists of the search, the entered nodes appended, and the status of the trace. -/
theorem steps_of_explore {g b es b' : List Path} {t : List (Event Path)}
    (h : Explore (lineage R w) g b es b' t) (stack : List Frame) (nodes : List (Path × Dict))
    (ordered : List Path) (status : Terminated) :
    Steps (step R w)
      ⟨es.map (fun e => ⟨e, .enter⟩) ++ stack, g, b, nodes, ordered, status⟩
      ⟨stack, g, b', nodes ++ nodesOf R (entered t), ordered ++ entered t,
        statusAfter R w status t⟩ := by
  induction h generalizing stack nodes ordered status with
  | done => simpa [entered, nodesOf, statusAfter] using Relation.ReflTransGen.refl
  | skip hb _ ih => exact .head (by simp [step, hb]) (ih stack nodes ordered status)
  | back hb hg _ ih =>
    exact .head (by simp [step, hb, hg]) (ih stack nodes ordered .lineageCycle)
  | shut hb hg hgate _ ih =>
    have hclosed : w.nodeGate (R.readMeta _) = false := hgate
    exact .head (by simp [step, hb, hg, hclosed]) (ih stack nodes ordered status)
  | @enter g b e es b₁ b' t₁ t hb hg hgate _ _ ih₁ ih =>
    have hopen : w.nodeGate (R.readMeta e) = true := hgate
    let rest := es.map (fun e => (⟨e, .enter⟩ : Frame)) ++ stack
    let status' := if dangling w (R.readMeta e) then .missingLink else status
    -- enter `e`, search its successors, leave `e`, search the rest
    have enters : step R w ⟨⟨e, .enter⟩ :: rest, g, b, nodes, ordered, status⟩ =
        some ⟨((lineage R w).succ e).map (fun e => ⟨e, .enter⟩) ++ ⟨e, .exit⟩ :: rest, e :: g, b,
          nodes ++ [(e, R.readMeta e)], ordered ++ [e], status'⟩ := by
      simp [step, hb, hg, hopen, enterNode_eq, status']
    have below := ih₁ (⟨e, .exit⟩ :: rest) (nodes ++ [(e, R.readMeta e)]) (ordered ++ [e]) status'
    have leaves : ∀ ns ps s, step R w ⟨⟨e, .exit⟩ :: rest, e :: g, b₁, ns, ps, s⟩ =
        some ⟨rest, g, e :: b₁, ns, ps, s⟩ := by
      intro ns ps s
      simp [step]
    have after := ih stack (nodes ++ [(e, R.readMeta e)] ++ nodesOf R (entered t₁))
      (ordered ++ [e] ++ entered t₁) (statusAfter R w status' t₁)
    have whole := below.trans (.head (leaves ..) after)
    have whole : Steps (step R w) _ _ := .head enters whole
    simpa [entered, nodesOf, statusAfter, statusAfter_append, rest, status'] using whole

/-- Every walk ends: it performs a whole search from its start. -/
theorem exists_walkForward (R : Records) (w : WalkArgs) (absStart : Path) :
    ∃ b t, Explore (lineage R w) [] [] [absStart] b t ∧
      ∃ n, ∀ m, n ≤ m → walkForward R w absStart m =
        some ⟨[], [], b, nodesOf R (entered t), entered t, statusAfter R w .no t⟩ := by
  obtain ⟨b, t, h⟩ := exists_explore (lineage R w) R.paths lineage_succ_outside [] [] [absStart]
  refine ⟨b, t, h, loop_of_steps ?_ rfl⟩
  simpa [walkStart] using steps_of_explore h [] [] [] .no

end

end Lineage

end CoordinatorCore
