import CoordinatorCore.Git.CommitPaths
import CoordinatorCore.Git.PrepareSplice

/-!
# One call that commits paths

`git/commit.py`, `commit_paths`, as a whole: the checks of the paths, the publish targets, which may
be written again in the worktree, the checks of the repository, the blobs of the paths, the tree,
`index.lock` with the spliced index in it, the compare-and-swap of the ref with its reflog, and the
index at the end. What the call reads is `Seen`, since others may write between any two reads; what
it writes goes to `Stores`.
-/

namespace CoordinatorCore

open PyStr Machine

namespace Git

/-- The path as an index key: `_index_key` leaves no backslash in it. -/
def RepoPath.key (p : RepoPath) : PyStr := List.intercalate [slashPoint] p.parts

namespace CommitStages

/-! ### A call -/

/-- What a call is asked for, its paths as index keys. -/
structure Request where
  paths : List RepoPath
  deleted : List RepoPath
  untracked : List RepoPath
  supplied : RepoPath → Option Text
  modes : RepoPath → Option Nat
  preferStaged : List RepoPath
  preferDeliberateStage : Bool
  allowEmpty : Bool
  finishMerge : Bool
  detectRollback : Bool
  expectedBlobs : List (RepoPath × Text)
  expectedContent : List (RepoPath × Text)
  message : Text
  slashed : ∀ p ∈ paths ++ deleted ++ untracked, backslashPoint ∉ p.key

/-- The files of a pending operation. -/
inductive Sequencer
  | mergeHead
  | cherryPickHead
  | revertHead
  | rebaseMerge
  | rebaseApply
  deriving DecidableEq

/-- Why a call refuses, or what it raises before the ref has moved. -/
inductive Refusal
  | outside
  | emptyPathspec
  | nonCanonical
  | machineLocal
  | dotGit (p : RepoPath)
  | directory (p : RepoPath)
  | expectation
  | stillPresent (p : RepoPath)
  | unclassified (names : List (Text × Text))
  | shape
  | ephemeral (paths : List RepoPath)
  | checkpoint
  | midSequence (file : Sequencer)
  | mergeUnreadable
  | mergeRefused
  | indexUnreadable
  | goneButTracked (p : RepoPath)
  | cannotRead (p : RepoPath)
  | filterUnsupported (paths : List RepoPath)
  | fallbackGaveNothing (p : RepoPath)
  | noSpine
  | blobDrift
  | undeclaredDeletion
  | phantomDeletion
  | nothingToCommit
  | stagedRollback
  | notRewritten
  | noTarget
  | abandoned
  | lockBusy
  | splice (e : PrepareError)
  | fenced
  | reflog
  | casFailed
  deriving DecidableEq

/-- What the publish targets say: the names that the landing leaves unclassified, the landing text
of `PORTABLE_PATH`, its text in the worktree, and the bytes that `with_inclusions` makes of it. -/
structure Landing where
  refused : List (Text × Text)
  base : Option Text
  onDisk : Option Text
  regenerated : Bytes

/-- A pending merge: its other parent, its unmerged paths, and whether `merge_refusal` refuses. -/
structure MergeView (κ : Type) where
  head : κ
  unmerged : List PyStr
  refused : Bool

/-- A read of a file in the worktree; the digest is that of its text. -/
inductive FileRead
  | gone
  | unreadable
  | data (digest : Text)

/-- What happens at the ref: whether `<ref>.lock` is taken, the value that is read under it, whether
the ref and HEAD have a reflog and can be logged, and whether the rename goes through. -/
structure Swap (κ : Type) where
  locked : Bool
  current : Option κ
  logsRef : Bool
  refLogFails : Bool
  logsHead : Bool
  headLogFails : Bool
  renamed : Bool

/-- What a call reads, and what happens around its writes. -/
structure Seen (κ ρ : Type) where
  outside : Bool
  nonCanonical : Bool
  machineLocal : Bool
  isDir : RepoPath → Bool
  badExpectation : Bool
  onDisk : RepoPath → Bool
  landing : Option Landing
  shapeDenied : List RepoPath → Bool
  ephemeral : RepoPath → Bool
  checkpoint : List RepoPath → Bool
  sequencer : Sequencer → Bool
  merge : Option (MergeView κ)
  indexReadable : Bool
  staged : RepoPath → Option (Nat × Text)
  content : RepoPath → FileRead
  trackedAtHead : RepoPath → Bool
  worktreeBlob : RepoPath → Option Text
  fileMode : RepoPath → Nat
  fallback : Option (RepoPath → Option Text)
  oldHead : Option κ
  spineHead : Option κ
  unborn : Option ρ
  undeclared : List RepoPath → Bool
  strayDeletion : Bool
  rollback : Bool
  backstopHead : Option κ
  target : Option (SwapTarget ρ)
  abandonedEarly : Bool
  takings : List Taking
  fenced : Bool
  abandonedLate : Bool
  held : Bool
  unlinks : Bool
  swap : Swap κ
  renamesIndex : Bool
  reset : Option Bytes

/-! ### Before the index lock -/

def Request.removed (r : Request) : List RepoPath := r.deleted ++ r.untracked

section

variable {κ ρ : Type} (seen : Seen κ ρ) (r : Request)

/-- The checks of the paths, up to the declared deletions that are still there. -/
def checkPathspec : Except Refusal Unit :=
  if seen.outside then .error .outside
  else if r.paths = [] ∧ r.removed = [] then .error .emptyPathspec
  else if seen.nonCanonical then .error .nonCanonical
  else if seen.machineLocal then .error .machineLocal
  else match r.removed.find? fun p => hasDotGit p.key with
  | some p => .error (.dotGit p)
  | none =>
    match r.paths.find? seen.isDir with
    | some p => .error (.directory p)
    | none =>
      if seen.badExpectation then .error .expectation
      else match r.deleted.find? seen.onDisk with
      | some p => .error (.stillPresent p)
      | none => .ok ()

/-- The publish targets, when they have to be written again, and the paths with them. -/
def publishTargets : Except Refusal (Option Bytes × List RepoPath) :=
  match seen.landing with
  | none => .ok (none, r.paths)
  | some l =>
    if l.refused = [] then .ok (none, r.paths)
    else if l.base.isSome ∧ (portablePath ∈ r.paths ∨ l.onDisk = l.base) then
      .ok (some l.regenerated,
        if portablePath ∈ r.paths then r.paths else r.paths ++ [portablePath])
    else .error (.unclassified l.refused)

/-- The checks of the repository, with the merge that the call finishes. -/
def checkRepository (paths : List RepoPath) : Except Refusal (Option (MergeView κ)) :=
  let emitted := paths.filter fun p => p ∉ r.removed ∧ seen.ephemeral p
  let pending := [.mergeHead, .cherryPickHead, .revertHead, .rebaseMerge, .rebaseApply].find?
    fun f => !(f = Sequencer.mergeHead && r.finishMerge) && seen.sequencer f
  if seen.shapeDenied (paths ++ r.removed) then .error .shape
  else if emitted ≠ [] then .error (.ephemeral emitted)
  else if seen.checkpoint paths then .error .checkpoint
  else match pending with
  | some f => .error (.midSequence f)
  | none =>
    if r.finishMerge ∧ seen.sequencer .mergeHead then
      match seen.merge with
      | none => .error .mergeUnreadable
      | some m =>
        if m.refused then .error .mergeRefused
        else if seen.indexReadable then .ok (some m) else .error .indexUnreadable
    else if seen.indexReadable then .ok none else .error .indexUnreadable

/-- What the paths are resolved to: `assembled`, `staged_passed_over` and `content_digest`, and the
paths that are left to the fallback. -/
structure Resolved where
  assembled : Table RepoPath (Change Text)
  passedOver : List RepoPath
  digests : Table RepoPath Text
  refused : List RepoPath

/-- `declared_modes.get(p) or (entry.mode if entry is not None else _mode_for(root / p))`. -/
def modeOf (p : RepoPath) : Nat :=
  ((r.modes p).filter (· ≠ 0)).getD (((seen.staged p).map Prod.fst).getD (seen.fileMode p))

/-- The blob of the worktree, which passes over an index entry that differs from it. -/
def Resolved.fromWorktree (s : Resolved) (p : RepoPath) (blob : Text) : Resolved :=
  { s with
    assembled := s.assembled.set p (.set (modeOf seen r p) blob)
    passedOver := if (seen.staged p).any fun e => e.2 ≠ blob then s.passedOver ++ [p]
      else s.passedOver }

/-- One path of the loop over `path_list`. -/
def resolvePath (s : Resolved) (p : RepoPath) : Except Refusal Resolved :=
  if p ∈ r.removed then .ok s
  else match r.supplied p with
  | some blob => .ok { s with assembled := s.assembled.set p (.set (modeOf seen r p) blob) }
  | none =>
    match if p ∈ r.preferStaged then seen.staged p else none with
    | some (mode, blob) => .ok { s with assembled := s.assembled.set p (.set mode blob) }
    | none =>
      match seen.content p with
      | .gone =>
        .error (if (seen.staged p).isSome || seen.trackedAtHead p then .goneButTracked p
          else .cannotRead p)
      | .unreadable => .error (.cannotRead p)
      | .data digest =>
        let s := if (r.expectedContent.map Prod.fst).contains p then
          { s with digests := s.digests.set p digest } else s
        match seen.worktreeBlob p with
        | none => .ok { s with refused := s.refused ++ [p] }
        | some blob => .ok (s.fromWorktree seen r p blob)

/-- The loop over the refused paths, with what the fallback gave. -/
def resolveRefused (resolved : RepoPath → Option Text) (s : Resolved) (p : RepoPath) :
    Except Refusal Resolved :=
  match resolved p with
  | none => .error (.fallbackGaveNothing p)
  | some blob => .ok (s.fromWorktree seen r p blob)

/-- The blobs of the paths, and the removals. -/
def resolve (paths : List RepoPath) : Except Refusal Resolved := do
  let s ← paths.foldlM (resolvePath seen r) ⟨∅, [], ∅, []⟩
  let s ← if s.refused = [] then .ok s
    else match seen.fallback with
    | none => .error (.filterUnsupported s.refused)
    | some resolved => s.refused.foldlM (resolveRefused seen r resolved) s
  .ok { s with assembled := r.removed.foldl (fun t p => t.set p .absent) s.assembled }

/-- The index entry of a path was put there on purpose: it differs from HEAD's. -/
def deliberatelyStaged (spine : Spine Text) (p : RepoPath) : Option (Nat × Text) :=
  (seen.staged p).filter fun e =>
    (Committing.headEntry spine p).all fun head => head.2 ≠ e.2

/-- The candidates that were passed over, settled against HEAD. -/
def settle (spine : Spine Text) (s : Resolved) : Resolved :=
  if r.preferDeliberateStage then
    s.passedOver.foldl (fun s p =>
      match deliberatelyStaged seen spine p with
      | some (mode, blob) => { s with
          assembled := s.assembled.set p (.set mode blob)
          digests := s.digests.erase p }
      | none => s) s
  else s

/-- The hash that a path is set to. -/
def blobOf (assembled : Table RepoPath (Change Text)) (p : RepoPath) : Option Text :=
  (assembled.get p).bind fun
    | .set _ blob => some blob
    | .absent => none

/-- A path changed since it was reviewed, and its blob is not HEAD's. -/
def drifted (spine : Spine Text) (s : Resolved) : Bool :=
  let changed (p : RepoPath) : Bool :=
    (blobOf s.assembled p).all fun blob =>
      (Committing.headEntry spine p).all fun head => head.2 ≠ blob
  (r.expectedBlobs.any fun e => blobOf s.assembled e.1 ≠ some e.2 && changed e.1) ||
    (r.expectedContent.any fun e => s.digests.get e.1 ≠ some e.2 && changed e.1)

/-- The commit that is about to land. -/
structure Plan (κ ρ : Type) where
  assembled : Table RepoPath (Change Text)
  oldHead : Option κ
  root : Text
  collapse : List PyStr
  sha : κ
  target : SwapTarget ρ

variable (o : Objects Text κ)

/-- The tree of the call, from the spine of HEAD. -/
def buildTree (s : Resolved) (spine : Spine Text) : Except Refusal Text :=
  let genuine := r.removed.filter fun p => (Committing.headEntry spine p).isSome
  if drifted r spine s then .error .blobDrift
  else if seen.undeclared genuine then .error .undeclaredDeletion
  else if seen.strayDeletion || Committing.phantomDeletion spine s.assembled then
    .error .phantomDeletion
  else if !r.allowEmpty && Committing.allNoDelta spine s.assembled then .error .nothingToCommit
  else if r.detectRollback && seen.oldHead.isSome && seen.rollback then .error .stagedRollback
  else
    match rewriteHeadSpine o.writeTree (synthesizeAbsentSpineDirs s.assembled.entries spine).1
      s.assembled with
    | .ok (some root) =>
      if !r.allowEmpty && Committing.treeOf o seen.backstopHead = some root then
        .error .nothingToCommit
      else .ok root
    | _ => .error .notRewritten

/-- The spine of HEAD; that of an unborn branch is empty. -/
def readSpine (paths : List RepoPath) : Option (Spine Text) :=
  let spine := (Committing.treeOf o seen.spineHead).bind fun root => readTreeSpine o.tree root paths
  match spine with
  | some spine => some spine
  | none => if seen.oldHead.isNone && seen.unborn.isSome then some (Table.set ∅ [] ∅) else none

/-- All that comes between the publish targets and the index lock. -/
def plan (paths : List RepoPath) : Except Refusal (Plan κ ρ) := do
  let merge ← checkRepository seen r paths
  let s ← resolve seen r paths
  match readSpine seen o s.assembled.keys with
  | none => .error .noSpine
  | some spine =>
    let s := settle seen r spine s
    let root ← buildTree seen r o s spine
    let parents := seen.oldHead.toList ++ (merge.map MergeView.head).toList
    let unborn := if seen.oldHead.isNone then seen.unborn else none
    let target := seen.target <|> unborn.map SwapTarget.branch
    match target with
    | none => .error .noTarget
    | some target =>
      if seen.abandonedEarly then .error .abandoned
      else .ok ⟨s.assembled, seen.oldHead, root, (merge.map MergeView.unmerged).getD [],
        o.writeCommit ⟨root, parents, r.message⟩, target⟩

/-! ### From the index lock on -/

/-- The files of the worktree, HEAD and the branches, the reflogs with the newest line first, and the
index with its lock. -/
structure Stores (κ ρ : Type) where
  files : RepoPath → Option Bytes
  refs : Refs κ ρ
  reflog : List (SwapTarget ρ × Option κ × κ)
  index : IndexFiles

/-- How a call ends: it refuses, or it landed a commit, and then the index may be stale. -/
inductive Outcome (κ : Type)
  | refused (why : Refusal)
  | landed (sha : κ)
  | landedStale (sha : κ)
  deriving DecidableEq

/-- The updates of the index: `index_updates`. -/
def indexUpdates (assembled : Table RepoPath (Change Text)) : List (PyStr × Update) :=
  assembled.entries.map fun e => (e.1.key, match e.2 with
    | .absent => .absent
    | .set mode sha => .entry mode sha)

/-- The splice raised when it held the lock. -/
def underLock : PrepareError → Bool
  | .dotGit _ | .noBytes | .noUpdate _ | .busy => false
  | .owner | .unreadable | .splice _ | .abandoned => true

variable (h : Digest) (w : Worktree)

/-- `_prepare_index_splice`: a busy lock is tried again as long as the schedule lasts. -/
def prepareIndexSplice (unlinks : Bool) (updates : List (PyStr × Update)) (collapse : List PyStr) :
    List Taking → IndexFiles → Except Refusal Unit × IndexFiles
  | [], files => (.error .lockBusy, files)
  | t :: ts, files =>
    match prepareSplice h w t files updates true collapse with
    | (.ok (), files) => (.ok (), files)
    | (.error .busy, files) => prepareIndexSplice unlinks updates collapse ts files
    | (.error e, files) =>
      (.error (.splice e), if underLock e && !unlinks then { files with lock := some (.own []) }
        else files)

variable {h w}

/-- `PreparedSplice.abort`: a lock that was taken over belongs to its successor, and an unlink that
fails is passed over. -/
def abort (s : Stores κ ρ) : Stores κ ρ :=
  { s with index := { s.index with
      lock := if !seen.held then some .peer else if seen.unlinks then none else s.index.lock } }

variable [DecidableEq κ] [DecidableEq ρ]

/-- `cas_ref`: what it raises, or whether it moved the ref. The reflogs are written first. -/
def casRef (c : Swap κ) (p : Plan κ ρ) (s : Stores κ ρ) : Except Refusal Bool × Stores κ ρ :=
  if !c.locked then (.ok false, s)
  else if c.current ≠ p.oldHead then (.ok false, s)
  else if c.logsRef && c.refLogFails then (.error .reflog, s)
  else
    let s := if c.logsRef then { s with reflog := (p.target, p.oldHead, p.sha) :: s.reflog } else s
    if c.logsHead && c.headLogFails then (.error .reflog, s)
    else
      let s := if c.logsHead then { s with reflog := (.head, p.oldHead, p.sha) :: s.reflog } else s
      if c.renamed then (.ok true, { s with refs := s.refs.swapped p.sha p.target })
      else (.ok false, s)

/-- `publish`, and `_reset_index_paths` when the index cannot be renamed. -/
def publish (p : Plan κ ρ) (s : Stores κ ρ) : Outcome κ × Stores κ ρ :=
  match seen.renamesIndex, s.index.lock with
  | true, some (.own written) => (.landed p.sha, { s with index := ⟨some written, none⟩ })
  | _, _ =>
    let s := abort seen s
    match seen.reset with
    | some index => (.landed p.sha, { s with index := { s.index with index := some index } })
    | none => (.landedStale p.sha, s)

/-- The end of a call that holds the lock. -/
def swapAndPublish (p : Plan κ ρ) (s : Stores κ ρ) : Outcome κ × Stores κ ρ :=
  if seen.fenced then (.refused .fenced, abort seen s)
  else if seen.abandonedLate || !seen.held then (.refused .abandoned, abort seen s)
  else match casRef seen.swap p s with
  | (.error e, s) => (.refused e, abort seen s)
  | (.ok false, s) => (.refused .casFailed, abort seen s)
  | (.ok true, s) => publish seen p s

variable (h w)

/-- The publish targets are written again. -/
def writeTargets (written : Option Bytes) (s : Stores κ ρ) : Stores κ ρ :=
  match written with
  | some b => { s with files := Function.update s.files portablePath (some b) }
  | none => s

/-- The planned commit lands, or the index lock or the ref cannot be had. -/
def land (p : Plan κ ρ) (s : Stores κ ρ) : Outcome κ × Stores κ ρ :=
  match prepareIndexSplice h w seen.unlinks (indexUpdates p.assembled) p.collapse seen.takings
    s.index with
  | (.error e, index) => (.refused e, { s with index := index })
  | (.ok (), index) => swapAndPublish seen p { s with index := index }

/-- `commit_paths`. -/
def commitPaths (s : Stores κ ρ) : Outcome κ × Stores κ ρ :=
  match checkPathspec seen r with
  | .error e => (.refused e, s)
  | .ok () =>
    match publishTargets seen r with
    | .error e => (.refused e, s)
    | .ok (written, paths) =>
      match plan seen r o paths with
      | .error e => (.refused e, writeTargets written s)
      | .ok p => land seen h w p (writeTargets written s)

end

end CommitStages

end Git

end CoordinatorCore
