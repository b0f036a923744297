import CoordinatorCore.Git.SpineFlat
import CoordinatorCore.Machine.Run
import Mathlib.Logic.Function.Basic

/-!
# Sessions that commit paths

`git/commit.py`, `commit_paths`, from the first read of HEAD on: the old head, the spine, the
backstop and the target of the swap are looked up one after the other, each by a read of HEAD's file
and a read of the ref that it names, and every read is a step of its own. Other sessions run the
same call, and other git programs move HEAD and the branches, between any two steps. What a refusal
depends on besides is left open: a session may refuse at any step.
-/

namespace CoordinatorCore

open PyStr Machine

namespace Git

/-- A commit object. -/
structure Commit (σ κ : Type) where
  tree : σ
  parents : List κ
  message : Text
  deriving DecidableEq

/-- The object store: what is written under a hash is what is read there. -/
structure Objects (σ κ : Type) where
  tree : σ → Option (List (TreeEntry σ))
  writeTree : List (TreeEntry σ) → σ
  commit : κ → Option (Commit σ κ)
  writeCommit : Commit σ κ → κ
  tree_writeTree : ∀ es, tree (writeTree es) = some es
  commit_writeCommit : ∀ c, commit (writeCommit c) = some c

/-- HEAD names a branch, which may not exist yet, or is detached. -/
inductive Head (κ ρ : Type)
  | branch (ref : ρ)
  | detached (sha : κ)

/-- HEAD and the branches. -/
structure Refs (κ ρ : Type) where
  head : Head κ ρ
  branch : ρ → Option κ

/-- The ref that a commit swaps. -/
inductive SwapTarget (ρ : Type)
  | head
  | branch (ref : ρ)
  deriving DecidableEq

namespace Refs

variable {κ ρ : Type}

/-- The commit that HEAD names, its file having been read before. -/
def resolve (w : Refs κ ρ) : Head κ ρ → Option κ
  | .branch ref => w.branch ref
  | .detached sha => some sha

/-- The value of a swapped ref; HEAD has none while it names a branch. -/
def value (w : Refs κ ρ) : SwapTarget ρ → Option (Option κ)
  | .branch ref => some (w.branch ref)
  | .head =>
    match w.head with
    | .branch _ => none
    | .detached sha => some (some sha)

/-- The ref gets a new commit. -/
def swapped [DecidableEq ρ] (w : Refs κ ρ) (new : κ) : SwapTarget ρ → Refs κ ρ
  | .branch ref => { w with branch := Function.update w.branch ref (some new) }
  | .head => { w with head := .detached new }

end Refs

/-- `PORTABLE_PATH`. -/
def portablePath : RepoPath :=
  ⟨[ofText "setup".toList], ofText "publish-targets.portable".toList, by decide⟩

/-- A call of `commit_paths`: the paths that it names (`paths`, `deleted_paths` and
`untracked_paths`), whether it regenerates the publish targets, and what it has assembled for them.
Within a `call_io_scope` a value of HEAD that was read before may be held. -/
structure CommitCall (σ κ : Type) where
  named : List RepoPath
  regenerates : Bool
  assembled : Table RepoPath (Change σ)
  allowEmpty : Bool
  mergeHead : Option κ
  message : Text
  inScope : Bool
  memo : Option (Option κ)
  assembled_named : ∀ p ∈ assembled.keys, p ∈ named ∨ regenerates = true ∧ p = portablePath
  file_modes : ∀ p m s, assembled.get p = some (.set m s) → m ≠ treeMode

/-- What `head_sha` is asked for. -/
inductive Lookup
  | old
  | spine
  | backstop
  deriving DecidableEq

/-- The next step of a call. -/
inductive CommitPc (κ ρ : Type)
  | head (l : Lookup)
  | ref (l : Lookup) (seen : Head κ ρ)
  | unbornHead
  | unbornRef (seen : Head κ ρ)
  | build
  | targetHead
  | targetRef (ref : ρ)
  | swap (target : SwapTarget ρ)

/-- A call under way. -/
structure Committing (σ κ ρ : Type) where
  call : CommitCall σ κ
  pc : CommitPc κ ρ
  memo : Option (Option κ)
  oldHead : Option κ
  spine : Option (Spine σ)
  unborn : Option ρ
  root : Option σ

namespace Committing

variable {σ κ ρ : Type}

/-- A call at its first read of HEAD. -/
def start (call : CommitCall σ κ) : Committing σ κ ρ where
  call := call
  pc := .head .old
  memo := if call.inScope then call.memo else none
  oldHead := none
  spine := none
  unborn := none
  root := none

/-- HEAD's entry of a path, by the spine. -/
def headEntry (spine : Spine σ) (p : RepoPath) : Option (Nat × σ) :=
  ((spine.get p.parent).getD ∅).get p.name

/-- `phantom_deletions` is not empty. -/
def phantomDeletion (spine : Spine σ) (assembled : Table RepoPath (Change σ)) : Bool :=
  assembled.entries.any fun e =>
    match e.2 with
    | .absent => (headEntry spine e.1).isNone
    | .set _ _ => false

/-- Every path is in `no_delta`. -/
def allNoDelta [DecidableEq σ] (spine : Spine σ) (assembled : Table RepoPath (Change σ)) : Bool :=
  assembled.entries.all fun e =>
    match e.2 with
    | .absent => (headEntry spine e.1).isNone
    | .set mode sha => headEntry spine e.1 = some (mode, sha)

variable (o : Objects σ κ)

/-- The tree of a commit that may be missing. -/
def treeOf (k : Option κ) : Option σ := (k.bind o.commit).map Commit.tree

/-- The call goes on with an answer of `head_sha`; nothing when it refuses. -/
def answered [DecidableEq σ] (s : Committing σ κ ρ) (l : Lookup) (v : Option κ) :
    Option (Committing σ κ ρ) :=
  match l with
  | .old => some { s with oldHead := v, pc := .head .spine }
  | .spine =>
    let spine := (treeOf o v).bind fun root => readTreeSpine o.tree root s.call.assembled.keys
    if s.oldHead.isNone then some { s with spine := spine, pc := .unbornHead }
    else if spine.isNone then none
    else some { s with spine := spine, pc := .build }
  | .backstop => if treeOf o v = s.root then none else some { s with pc := .targetHead }

/-- The spine is checked and written. -/
def build [DecidableEq σ] (s : Committing σ κ ρ) (spine : Spine σ) : Option (Committing σ κ ρ) :=
  if phantomDeletion spine s.call.assembled then none
  else if !s.call.allowEmpty && allNoDelta spine s.call.assembled then none
  else
    let filled := (synthesizeAbsentSpineDirs s.call.assembled.entries spine).1
    match rewriteHeadSpine o.writeTree filled s.call.assembled with
    | .ok (some root) =>
      some { s with
        root := some root
        pc := if s.call.allowEmpty then .targetHead else .head .backstop }
    | _ => none

/-- `_unborn_cas_target`, HEAD having been read. -/
def unbornTarget (w : Refs κ ρ) : Head κ ρ → Option ρ
  | .branch ref => if (w.branch ref).isSome then none else some ref
  | .detached _ => none

/-- A step before the swap; nothing when the call refuses. -/
def advance [DecidableEq σ] (w : Refs κ ρ) (s : Committing σ κ ρ) : Option (Committing σ κ ρ) :=
  match s.pc with
  | .head l =>
    match s.memo with
    | some v => s.answered o l v
    | none => some { s with pc := .ref l w.head }
  | .ref l seen =>
    let v := w.resolve seen
    { s with memo := if s.call.inScope then some v else none }.answered o l v
  | .unbornHead => some { s with pc := .unbornRef w.head }
  | .unbornRef seen =>
    let unborn := unbornTarget w seen
    match s.spine, unborn with
    | some spine, _ => some { s with unborn := unborn, spine := some spine, pc := .build }
    | none, some _ =>
      some { s with unborn := unborn, spine := some (Table.set ∅ [] ∅), pc := .build }
    | none, none => none
  | .build => s.spine.bind (s.build o)
  | .targetHead =>
    match w.head with
    | .detached _ => some { s with pc := .swap .head }
    | .branch ref => some { s with pc := .targetRef ref }
  | .targetRef ref =>
    if (w.branch ref).isSome then some { s with pc := .swap (.branch ref) }
    else s.unborn.map fun ref => { s with pc := .swap (.branch ref) }
  | .swap _ => none

/-- The commit that the call has written. -/
def commit (s : Committing σ κ ρ) (root : σ) : Commit σ κ where
  tree := root
  parents := s.oldHead.toList ++ s.call.mergeHead.toList
  message := s.call.message

end Committing

/-- A commit that landed: the ref held `before` when it was swapped. -/
structure Landing (σ κ ρ : Type) where
  call : CommitCall σ κ
  target : SwapTarget ρ
  before : Option κ
  sha : κ

/-- The repository, the calls under way, and the commits that landed so far. -/
structure Committers (ι σ κ ρ : Type) where
  refs : Refs κ ρ
  calls : ι → Option (Committing σ κ ρ)
  landed : List (Landing σ κ ρ)

/-- A session calls, goes on or refuses; another program moves a branch or HEAD. -/
inductive CommitAction (ι σ κ ρ : Type)
  | call (i : ι) (c : CommitCall σ κ)
  | advance (i : ι)
  | refuse (i : ι)
  | moveBranch (ref : ρ) (sha : Option κ)
  | moveHead (head : Head κ ρ)

namespace Committers

variable {ι σ κ ρ : Type} [DecidableEq ι] [DecidableEq σ] [DecidableEq κ] [DecidableEq ρ]

/-- The call of a session changes, or ends. -/
def setCall (s : Committers ι σ κ ρ) (i : ι) (c : Option (Committing σ κ ρ)) :
    Committers ι σ κ ρ :=
  { s with calls := Function.update s.calls i c }

/-- `cas_ref`, in one step: `commit_paths` holds the lock of the index around it, so no other
session swaps meanwhile, and the lock of the ref keeps git away from its comparison to its write. -/
def casRef (o : Objects σ κ) (s : Committers ι σ κ ρ) (i : ι) (c : Committing σ κ ρ)
    (target : SwapTarget ρ) : Committers ι σ κ ρ :=
  match c.root with
  | none => s.setCall i none
  | some root =>
    if s.refs.value target = some c.oldHead then
      let sha := o.writeCommit (c.commit root)
      { s.setCall i none with
        refs := s.refs.swapped sha target
        landed := ⟨c.call, target, c.oldHead, sha⟩ :: s.landed }
    else s.setCall i none

def step (o : Objects σ κ) (s : Committers ι σ κ ρ) :
    CommitAction ι σ κ ρ → Option (Committers ι σ κ ρ)
  | .call i c =>
    match s.calls i with
    | none => some (s.setCall i (some (.start c)))
    | some _ => none
  | .advance i =>
    (s.calls i).map fun c =>
      match c.pc with
      | .swap target => s.casRef o i c target
      | _ => s.setCall i (c.advance o s.refs)
  | .refuse i => (s.calls i).map fun _ => s.setCall i none
  | .moveBranch ref sha =>
    some { s with refs := { s.refs with branch := Function.update s.refs.branch ref sha } }
  | .moveHead head => some { s with refs := { s.refs with head := head } }

end Committers

end Git

end CoordinatorCore
