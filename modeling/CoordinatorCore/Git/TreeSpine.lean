import CoordinatorCore.Git.TreeObjects
import CoordinatorCore.Machine.Assign
import CoordinatorCore.Machine.BottomUp
import Mathlib.Data.List.Sort
import Mathlib.Data.List.Lex
import Mathlib.Order.Fin.Basic

/-!
# The tree spine

`git/git_state.py`, `read_tree_spine`, and `git/tree_spine.py`: the listings of the directories that
lead to some paths are read, directories that are missing are added empty, and the listings are
written again from the deepest up, with the changes applied. A path is the list of its parts.
-/

namespace CoordinatorCore

open PyStr

namespace Git

/-- The part of a path: not empty, and without a slash. -/
def PlainName (n : PyStr) : Prop := n ≠ [] ∧ (0x2f : CodePoint) ∉ n

instance : DecidablePred PlainName := fun n =>
  inferInstanceAs (Decidable (n ≠ [] ∧ (0x2f : CodePoint) ∉ n))

/-- A directory, from the root. -/
abbrev Dir := List PyStr

/-- A path in the repository: `path.rpartition("/")`. -/
structure RepoPath where
  parent : Dir
  name : PyStr
  plain : ∀ c ∈ parent ++ [name], PlainName c
  deriving DecidableEq

/-- All parts of the path. -/
def RepoPath.parts (p : RepoPath) : List PyStr := p.parent ++ [p.name]

/-- A path is its parts. -/
theorem RepoPath.ext_parts {p q : RepoPath} (h : p.parts = q.parts) : p = q := by
  obtain ⟨hparent, hname⟩ := List.append_inj' h rfl
  cases p
  cases q
  simp_all

/-- What a call does to a path: `_ABSENT`, or a mode and a hash. -/
inductive Change (σ : Type)
  | absent
  | set (mode : Nat) (sha : σ)
  deriving DecidableEq

/-- A listing as a dictionary. -/
abbrev Listing (σ : Type) := Table PyStr (Nat × σ)

abbrev Spine (σ : Type) := Table Dir (Listing σ)

variable {σ : Type}

/-- `_parse_tree_entries`. -/
def parseTreeEntries (es : List (TreeEntry σ)) : Listing σ :=
  Table.ofPairs (es.map fun e => (e.text, (e.mode, e.sha)))

/-! ### Reading -/

/-- The state of `read_tree_spine`. -/
structure Reading (σ : Type) where
  spine : Spine σ
  dirSha : Table Dir σ

section

variable (read : σ → Option (List (TreeEntry σ)))

/-- `_load_dir`; nothing for an object that cannot be read. -/
def loadDir (r : Reading σ) (d : Dir) : Option (Reading σ × Listing σ) :=
  match r.spine.get d with
  | some entries => some (r, entries)
  | none => do
    let sha ← r.dirSha.get d
    let es ← read sha
    pure ({ r with spine := r.spine.set d (parseTreeEntries es) }, parseTreeEntries es)

/-- The loop over `parts[:-1]`: the directory that the parts lead to, if they do. -/
def descend (r : Reading σ) (cur : Dir) : List PyStr → Option (Reading σ × Option Dir)
  | [] => some (r, some cur)
  | part :: parts => do
    let (r, entries) ← loadDir read r cur
    match entries.get part with
    | none => pure (r, none)
    | some (mode, sha) =>
      if mode = treeMode then
        descend { r with dirSha := r.dirSha.set (cur ++ [part]) sha } (cur ++ [part]) parts
      else pure (r, none)

/-- One path of `read_tree_spine`. -/
def readPath (r : Reading σ) (p : RepoPath) : Option (Reading σ) := do
  let (r, cur) ← descend read r [] p.parent
  match cur with
  | none => pure r
  | some d => (loadDir read r d).map Prod.fst

/-- `read_tree_spine`. -/
def readTreeSpine (root : σ) (paths : List RepoPath) : Option (Spine σ) := do
  let (r, _) ← loadDir read ⟨∅, Table.set ∅ [] root⟩ []
  let r ← paths.foldlM (readPath read) r
  pure r.spine

end

/-! ### Missing directories -/

/-- The loop over `depth`; whether it went through. -/
def fillLevels (parts : Dir) : List Nat → Spine σ → Spine σ × Bool
  | [], spine => (spine, true)
  | depth :: depths, spine =>
    if (spine.get (parts.take depth)).isSome then fillLevels parts depths spine
    else if depth = 0 then (spine, false)
    else
      let enclosing := (spine.get (parts.take (depth - 1))).getD ∅
      if (enclosing.get (parts.getD (depth - 1) [])).any fun e => e.1 ≠ treeMode then (spine, false)
      else fillLevels parts depths (spine.set (parts.take depth) ∅)

/-- `_synthesize_absent_spine_dirs`, which changes `spine` in place also when it refuses. -/
def synthesizeAbsentSpineDirs : List (RepoPath × Change σ) → Spine σ → Spine σ × Bool
  | [], spine => (spine, true)
  | (p, change) :: rest, spine =>
    if (spine.get p.parent).isSome then synthesizeAbsentSpineDirs rest spine
    else match change with
    | .absent => (spine, false)
    | .set _ _ =>
      match fillLevels p.parent (List.range (p.parent.length + 1)) spine with
      | (spine, true) => synthesizeAbsentSpineDirs rest spine
      | (spine, false) => (spine, false)

/-! ### Writing -/

/-- The `UnicodeEncodeError` of a name. -/
structure EncodeError where
  name : PyStr
  deriving DecidableEq

/-- `sort_name`. -/
def sortName (e : PyStr × (Nat × σ)) : PyStr :=
  if e.2.1 = treeMode then e.1 ++ [(0x2f : CodePoint)] else e.1

/-- One line of the object. -/
def encodeEntry (e : PyStr × (Nat × σ)) : Except EncodeError (TreeEntry σ) :=
  match encodeStrict e.1 with
  | some name => .ok ⟨name, e.2.1, e.2.2⟩
  | none => .error ⟨e.1⟩

section

variable (hash : List (TreeEntry σ) → σ)

/-- `_write_tree_level`. -/
def writeTreeLevel (entries : Listing σ) : Except EncodeError σ := do
  let items := entries.entries.insertionSort fun a b => sortName a ≤ sortName b
  let lines ← answers encodeEntry items
  pure (hash lines)

/-- `dir_leaf_changes`. -/
def dirLeafChanges (assembled : Table RepoPath (Change σ)) : Table Dir (Table PyStr (Change σ)) :=
  assembled.entries.foldl
    (fun t e => t.set e.1.parent (((t.get e.1.parent).getD ∅).set e.1.name e.2)) ∅

/-- A change of a name of the directory. -/
def applyChange (entries : Listing σ) (change : PyStr × Change σ) : Listing σ :=
  match change.2 with
  | .absent => entries.erase change.1
  | .set mode sha => entries.set change.1 (mode, sha)

/-- The result of a subdirectory; an empty one goes. -/
def mergeChild (entries : Listing σ) (child : Dir × Option σ) : Listing σ :=
  match child.2 with
  | none => entries.erase (child.1.getLast?.getD [])
  | some sha => entries.set (child.1.getLast?.getD []) (treeMode, sha)

/-- One directory of the loop of `_rewrite_head_spine`, with the results of its subdirectories. -/
def rewriteDir (spine : Spine σ) (changes : Table Dir (Table PyStr (Change σ))) (d : Dir)
    (children : List (Dir × Option σ)) : Except EncodeError (Option σ) :=
  let changed := ((changes.get d).getD ∅).entries.foldl applyChange ((spine.get d).getD ∅)
  let entries := children.foldl mergeChild changed
  if entries.entries = [] ∧ d ≠ [] then .ok none
  else (writeTreeLevel hash entries).map some

/-- `_rewrite_head_spine`. -/
def rewriteHeadSpine (spine : Spine σ) (assembled : Table RepoPath (Change σ)) :
    Except EncodeError (Option σ) :=
  let changes := dirLeafChanges assembled
  if ∃ d ∈ changes.keys, spine.get d = none then .ok none
  else do
    let dirs := spine.keys.insertionSort fun a b => b.length ≤ a.length
    let subtrees ← dirs.foldlM (BottomUp.visit (rewriteDir hash spine changes)) ∅
    pure (subtrees.get []).join

end

/-- The new root: the spine is read, missing directories are added, and it is written again. -/
def rewriteHead (read : σ → Option (List (TreeEntry σ))) (hash : List (TreeEntry σ) → σ) (head : σ)
    (assembled : Table RepoPath (Change σ)) : Except EncodeError (Option σ) :=
  match readTreeSpine read head assembled.keys with
  | none => .ok none
  | some spine =>
    rewriteHeadSpine hash (synthesizeAbsentSpineDirs assembled.entries spine).1 assembled

end Git

end CoordinatorCore
