import CoordinatorCore.Git.TreeScan

/-!
# The values of paths along a history

`_values_along` of `git/rollback_check.py` goes through the ancestors of a commit with a trie of the
paths. A node of the trie keeps the hash of the subtree it was last seen with, and where that comes
again nothing below is read. `_blob_at_commit` reads one path in one commit.

What carries the walk is `Fresh`: at a node that remembers a hash, the current values of all paths
below are those of that subtree. A step keeps it (`resolveNode_ensures`), and a run gives each path
at each ancestor the value of `_blob_at_commit` (`valuesAlong_ensures`), if the lookups of the paths'
parts in a tree fail together or not at all (`Alike`).

Paths are strings that `os.fsdecode` gives, and stand here by their bytes. The code goes through a
set of names; `items` is the order it comes in.
-/

namespace CoordinatorCore

open Text

namespace Git

namespace RollbackCheck

/-! ### Plain values -/

/-- What `_blob_at_commit` returns: `None`, `ABSENT`, or a hash. -/
inductive Version
  | unreadable
  | absent
  | blob (sha : Text)
deriving DecidableEq

/-- `_TREE_MODE`. -/
def treeModeInt : Int := 0o40000

/-- What the walk reads of a repository: its objects, and the tree that `commit_meta` names. -/
structure Store where
  readObject : Text → Option (Text × Bytes)
  commitTree : Text → Option Text

/-- The tree of a commit, if it is known and not empty. -/
def Store.tree (S : Store) (sha : Text) : Option Text := (S.commitTree sha).filter (· ≠ [])

/-- `path.split("/")`. -/
def parts (path : Bytes) : List Bytes := path.splitOn slashByte

section

variable (S : Store)

/-- The loop of `_blob_at_commit`. -/
def blobIn : Text → List Bytes → StateM Cache Version
  | _, [] => pure .absent
  | cur, [name] => do
    match ← treeEntry S.readObject cur name with
    | .unreadable => pure .unreadable
    | .absent => pure .absent
    | .found _ sha => pure (.blob sha)
  | cur, part :: rest => do
    match ← treeEntry S.readObject cur part with
    | .unreadable => pure .unreadable
    | .absent => pure .absent
    | .found mode sha => if mode ≠ treeModeInt then pure .absent else blobIn sha rest

/-- `_blob_at_commit`. -/
def blobAtCommit (commit : Text) (path : Bytes) : StateM Cache Version :=
  match S.tree commit with
  | none => pure .unreadable
  | some tree => blobIn S tree (parts path)

end

/-! ### The trie -/

/-- `_Node`: the files and the directories by their names, and the subtree hash last seen; inside,
`none` is `_NO_VERSION`. -/
inductive Node
  | mk (files : List (Bytes × Bytes)) (dirs : List (Bytes × Node)) (prev : Option (Option Text))

namespace Node

/-- `_Node()`. -/
def new : Node := ⟨[], [], none⟩

/-- `node.dirs.setdefault(part, _Node())`, and what is then done to that node. -/
def intoDir (part : Bytes) (f : Node → Node) : List (Bytes × Node) → List (Bytes × Node)
  | [] => [(part, f new)]
  | (name, child) :: dirs =>
    if name = part then (name, f child) :: dirs else (name, child) :: intoDir part f dirs

/-- A path is put below the node. -/
def insert : List Bytes → Bytes → Node → Node
  | [], _, node => node
  | [name], path, ⟨files, dirs, prev⟩ => ⟨Table.setEntries files name path, dirs, prev⟩
  | part :: rest, path, ⟨files, dirs, prev⟩ => ⟨files, intoDir part (insert rest path) dirs, prev⟩

/-- The trie of the paths. -/
def ofPaths (paths : List Bytes) : Node :=
  paths.foldl (fun root path => root.insert (parts path) path) new

mutual

/-- `_paths_below`, each path with its parts below the node. -/
def pathsBelow : Node → List (List Bytes × Bytes)
  | ⟨files, dirs, _⟩ => files.map (fun f => ([f.1], f.2)) ++ pathsBelowDirs dirs
termination_by structural node => node

def pathsBelowDirs : List (Bytes × Node) → List (List Bytes × Bytes)
  | [] => []
  | d :: dirs => pathsBelowDir d ++ pathsBelowDirs dirs
termination_by structural dirs => dirs

def pathsBelowDir : Bytes × Node → List (List Bytes × Bytes)
  | (name, child) => (pathsBelow child).map fun rp => (name :: rp.1, rp.2)
termination_by structural d => d

end

mutual

/-- `_forget_below`. -/
def forgetBelow : Node → Node
  | ⟨files, dirs, _⟩ => ⟨files, forgetDirs dirs, none⟩
termination_by structural node => node

def forgetDirs : List (Bytes × Node) → List (Bytes × Node)
  | [] => []
  | d :: dirs => forgetDir d :: forgetDirs dirs
termination_by structural dirs => dirs

def forgetDir : Bytes × Node → Bytes × Node
  | (name, child) => (name, forgetBelow child)
termination_by structural d => d

end

end Node

/-! ### The walk -/

/-- The values of the paths, as they are known. -/
abbrev Cur := Table Bytes Version

/-- `for p in paths: cur[p] = v`. -/
def setAll (cur : Cur) (paths : List Bytes) (v : Version) : Cur :=
  paths.foldl (fun cur p => cur.set p v) cur

section

variable (S : Store) (items : List Bytes → List Bytes)

/-- The loop of `_tree_lookup`. -/
def treeLookup (treeSha : Text) :
    List Bytes → Table Bytes (Int × Text) → StateM Cache (Option (Table Bytes (Int × Text)))
  | [], found => pure (some found)
  | name :: names, found => do
    match ← treeEntry S.readObject treeSha name with
    | .unreadable => pure none
    | .absent => treeLookup treeSha names found
    | .found mode sha => treeLookup treeSha names (found.set name (mode, sha))

/-- What an entry says of a file. -/
def fileVersion (entry : Option (Int × Text)) : Version :=
  match entry with
  | none => .absent
  | some e => .blob e.2

/-- What an entry says of a directory. -/
def childSha (entry : Option (Int × Text)) : Option Text :=
  match entry with
  | none => none
  | some e => if e.1 = treeModeInt then some e.2 else none

mutual

/-- `_resolve_node`. -/
def resolveNode : Node → Option Text → Cur → StateM Cache (Node × Cur)
  | ⟨files, dirs, prev⟩, treeSha, cur =>
    if prev = some treeSha then pure (⟨files, dirs, prev⟩, cur)
    else
      match treeSha with
      | none =>
        pure (⟨files, Node.forgetDirs dirs, some none⟩,
          setAll cur ((Node.pathsBelow ⟨files, dirs, prev⟩).map Prod.snd) .absent)
      | some sha => do
        match ← treeLookup S sha (items (files.map Prod.fst ++ dirs.map Prod.fst)) ∅ with
        | none =>
          pure (⟨files, Node.forgetDirs dirs, none⟩,
            setAll cur ((Node.pathsBelow ⟨files, dirs, prev⟩).map Prod.snd) .unreadable)
        | some entries => do
          let cur := files.foldl (fun cur f => cur.set f.2 (fileVersion (entries.get f.1))) cur
          let r ← resolveDirs entries dirs cur
          pure (⟨files, r.1, some (some sha)⟩, r.2)
termination_by structural node => node

def resolveDirs (entries : Table Bytes (Int × Text)) :
    List (Bytes × Node) → Cur → StateM Cache (List (Bytes × Node) × Cur)
  | [], cur => pure ([], cur)
  | d :: dirs, cur => do
    let r ← resolveDir entries d cur
    let rs ← resolveDirs entries dirs r.2
    pure (r.1 :: rs.1, rs.2)
termination_by structural dirs => dirs

def resolveDir (entries : Table Bytes (Int × Text)) :
    Bytes × Node → Cur → StateM Cache ((Bytes × Node) × Cur)
  | (name, child), cur => do
    let r ← resolveNode child (childSha (entries.get name)) cur
    pure ((name, r.1), r.2)
termination_by structural d => d

end

/-- What is returned: a list of values for each path, where `none` is a missing key. -/
abbrev Out := List (Bytes × List (Text × Option Version))

/-- `for p in paths: out[p].append((sha, cur[p]))`. -/
def appendRow (sha : Text) (cur : Cur) (out : Out) : Out :=
  out.map fun row => (row.1, row.2 ++ [(sha, cur.get row.1)])

/-- The loop over the ancestors. -/
def walkAlong (paths : List Bytes) : List (ℕ × Text) → Node → Cur → Out → StateM Cache Out
  | [], _, _, out => pure out
  | (_, sha) :: ancestors, root, cur, out => do
    match S.tree sha with
    | none =>
      let cur := setAll cur paths .unreadable
      walkAlong paths ancestors root.forgetBelow cur (appendRow sha cur out)
    | some tree => do
      let r ← resolveNode S items root (some tree) cur
      walkAlong paths ancestors r.1 r.2 (appendRow sha r.2 out)

/-- `_values_along`. -/
def valuesAlong (ancestors : List (ℕ × Text)) (paths : List Bytes) : StateM Cache Out :=
  walkAlong S items paths ancestors (Node.ofPaths paths) ∅ (paths.map fun p => (p, []))

end

/-! ### Induction on the trie -/

namespace Node

/-- A property of the children that passes to the node. -/
theorem induct {P : Node → Prop}
    (h : ∀ files dirs prev, (∀ d ∈ dirs, P d.2) → P ⟨files, dirs, prev⟩) (node : Node) : P node :=
  @Node.rec P (fun dirs => ∀ d ∈ dirs, P d.2) (fun d => P d.2) h (by simp)
    (fun _ _ hd hdirs => List.forall_mem_cons.mpr ⟨hd, hdirs⟩) (fun _ _ hchild => hchild) node

/-- The paths below the directories are those below each, with its name in front. -/
theorem pathsBelowDirs_eq (dirs : List (Bytes × Node)) :
    pathsBelowDirs dirs =
      dirs.flatMap fun d => d.2.pathsBelow.map fun rp => (d.1 :: rp.1, rp.2) := by
  induction dirs with
  | nil => rfl
  | cons d dirs ih =>
    obtain ⟨name, child⟩ := d
    rw [pathsBelowDirs, pathsBelowDir, ih]
    rfl

theorem forgetDirs_eq (dirs : List (Bytes × Node)) :
    forgetDirs dirs = dirs.map fun d => (d.1, d.2.forgetBelow) := by
  induction dirs with
  | nil => rfl
  | cons d dirs ih =>
    obtain ⟨name, child⟩ := d
    rw [forgetDirs, forgetDir, ih]
    rfl

theorem pathsBelow_mk (files : List (Bytes × Bytes)) (dirs : List (Bytes × Node))
    (prev : Option (Option Text)) : pathsBelow ⟨files, dirs, prev⟩ =
      files.map (fun f => ([f.1], f.2)) ++ pathsBelowDirs dirs := by rw [pathsBelow]

theorem forgetBelow_mk (files : List (Bytes × Bytes)) (dirs : List (Bytes × Node))
    (prev : Option (Option Text)) :
    forgetBelow ⟨files, dirs, prev⟩ = ⟨files, forgetDirs dirs, none⟩ := by rw [forgetBelow]

/-- A path below the directories is one below a directory. -/
theorem mem_pathsBelowDirs {dirs : List (Bytes × Node)} {rp : List Bytes × Bytes} :
    rp ∈ pathsBelowDirs dirs ↔
      ∃ d ∈ dirs, ∃ rp' ∈ d.2.pathsBelow, (d.1 :: rp'.1, rp'.2) = rp := by
  simp only [pathsBelowDirs_eq, List.mem_flatMap, List.mem_map]

/-- What is forgotten are not the paths. -/
theorem pathsBelow_forgetBelow (node : Node) : node.forgetBelow.pathsBelow = node.pathsBelow := by
  induction node using induct with
  | h files dirs prev ih =>
    rw [forgetBelow_mk, pathsBelow_mk, pathsBelow_mk, forgetDirs_eq, pathsBelowDirs_eq,
      pathsBelowDirs_eq, List.flatMap_map]
    congr 1
    refine List.flatMap_congr fun d hd => ?_
    simp only [ih d hd]

/-- What is forgotten stays forgotten. -/
theorem forgetBelow_forgetBelow (node : Node) :
    node.forgetBelow.forgetBelow = node.forgetBelow := by
  induction node using induct with
  | h files dirs prev ih =>
    rw [forgetBelow_mk, forgetBelow_mk, forgetDirs_eq, forgetDirs_eq, List.map_map]
    congr 1
    refine List.map_congr_left fun d hd => ?_
    simp only [Function.comp_apply, ih d hd]

/-- The names of the node and of all nodes below are among `N`. -/
inductive Named (N : Set Bytes) : Node → Prop
  | mk {files : List (Bytes × Bytes)} {dirs : List (Bytes × Node)} {prev : Option (Option Text)} :
      (∀ f ∈ files, f.1 ∈ N) → (∀ d ∈ dirs, d.1 ∈ N) → (∀ d ∈ dirs, Named N d.2) →
      Named N ⟨files, dirs, prev⟩

/-- Forgetting leaves the names. -/
theorem named_forgetBelow {N : Set Bytes} (node : Node) :
    Named N node.forgetBelow ↔ Named N node := by
  induction node using induct with
  | h files dirs prev ih =>
    rw [forgetBelow_mk, forgetDirs_eq]
    constructor
    · rintro ⟨hfiles, hdirs, hbelow⟩
      exact ⟨hfiles, fun d hd => hdirs (d.1, d.2.forgetBelow) (List.mem_map.mpr ⟨d, hd, rfl⟩),
        fun d hd => (ih d hd).mp (hbelow (d.1, d.2.forgetBelow) (List.mem_map.mpr ⟨d, hd, rfl⟩))⟩
    · rintro ⟨hfiles, hdirs, hbelow⟩
      refine ⟨hfiles, ?_, ?_⟩
      · rw [List.forall_mem_map]
        exact hdirs
      · rw [List.forall_mem_map]
        exact fun d hd => (ih d hd).mpr (hbelow d hd)

/-- The parts of a path begin with a name of the node. -/
theorem Named.exists_cons {N : Set Bytes} {node : Node} (h : Named N node)
    {rp : List Bytes × Bytes} (hrp : rp ∈ node.pathsBelow) :
    ∃ n rest, rp.1 = n :: rest ∧ n ∈ N := by
  obtain ⟨hfiles, hdirs, -⟩ := h
  rw [pathsBelow_mk, List.mem_append] at hrp
  obtain hrp | hrp := hrp
  · obtain ⟨f, hf, rfl⟩ := List.mem_map.mp hrp
    exact ⟨f.1, [], rfl, hfiles f hf⟩
  · obtain ⟨d, hd, rp', -, rfl⟩ := mem_pathsBelowDirs.mp hrp
    exact ⟨d.1, rp'.1, rfl, hdirs d hd⟩

end Node

/-! ### Lookups -/

section

variable {S : Store}

/-- What `_blob_at_commit` finds below a subtree, which may be absent. -/
def valueIn (S : Store) : Option Text → List Bytes → Version
  | none, _ => .absent
  | some _, [] => .absent
  | some cur, [name] =>
    match plainEntry S.readObject cur name with
    | .unreadable => .unreadable
    | .absent => .absent
    | .found _ sha => .blob sha
  | some cur, part :: rest =>
    match plainEntry S.readObject cur part with
    | .unreadable => .unreadable
    | .absent => .absent
    | .found mode sha => valueIn S (if mode = treeModeInt then some sha else none) rest

/-- Nothing is found in no tree. -/
theorem valueIn_none (r : List Bytes) : valueIn S none r = .absent := by
  rw [valueIn]

/-- The last name of a path is looked up in the tree it stands in. -/
theorem valueIn_name (cur name : _) : valueIn S (some cur) [name] =
    match plainEntry S.readObject cur name with
    | .unreadable => .unreadable
    | .absent => .absent
    | .found _ sha => .blob sha := by rw [valueIn]

/-- A path is looked up tree after tree. -/
theorem valueIn_cons (cur : Text) (part : Bytes) {rest : List Bytes} (h : rest ≠ []) :
    valueIn S (some cur) (part :: rest) =
      match plainEntry S.readObject cur part with
      | .unreadable => .unreadable
      | .absent => .absent
      | .found mode sha => valueIn S (if mode = treeModeInt then some sha else none) rest := by
  rw [valueIn]
  exact h

/-- A path in one tree. -/
theorem blobIn_ensures (cur : Text) (r : List Bytes) :
    Ensures (Sound S.readObject) (blobIn S cur r) fun v => v = valueIn S (some cur) r := by
  induction r generalizing cur with
  | nil => exact .pure rfl
  | cons part rest ih =>
    cases rest with
    | nil =>
      rw [blobIn, valueIn_name]
      refine (treeEntry_ensures cur part).bind ?_
      rintro _ rfl
      cases plainEntry S.readObject cur part with
      | unreadable => exact .pure rfl
      | absent => exact .pure rfl
      | found mode sha => exact .pure rfl
    | cons part' rest =>
      rw [blobIn, valueIn_cons cur part (List.cons_ne_nil part' rest)]
      · refine (treeEntry_ensures cur part).bind ?_
        rintro _ rfl
        cases plainEntry S.readObject cur part with
        | unreadable => exact .pure rfl
        | absent => exact .pure rfl
        | found mode sha =>
          by_cases hmode : mode = treeModeInt
          · simpa only [hmode, ne_eq, not_true_eq_false, if_false, if_true] using ih sha
          · simp only [hmode, ne_eq, not_false_eq_true, if_false, if_true, valueIn_none]
            exact .pure rfl
      · exact List.cons_ne_nil part' rest

/-- The plain value of a path in a commit. -/
def plainBlob (S : Store) (commit : Text) (path : Bytes) : Version :=
  match S.tree commit with
  | none => .unreadable
  | some tree => valueIn S (some tree) (parts path)

/-- With sound caches `_blob_at_commit` answers what the plain lookup does. -/
theorem blobAtCommit_ensures (commit : Text) (path : Bytes) :
    Ensures (Sound S.readObject) (blobAtCommit S commit path)
      fun v => v = plainBlob S commit path := by
  rw [blobAtCommit, plainBlob]
  cases S.tree commit with
  | none => exact .pure rfl
  | some tree => exact blobIn_ensures tree (parts path)

/-- An entry that is there. -/
def Entry.present : Entry → Option (Int × Text)
  | .found mode sha => some (mode, sha)
  | _ => none

/-- A listing that holds nothing wrong. -/
def Right (S : Store) (treeSha : Text) (t : Table Bytes (Int × Text)) : Prop :=
  ∀ n e, t.get n = some e → (plainEntry S.readObject treeSha n).present = some e

/-- What `_tree_lookup` returns: nothing when the lookup of a name fails, otherwise all entries of
the names. -/
def LookedUp (S : Store) (treeSha : Text) (names : List Bytes) :
    Option (Table Bytes (Int × Text)) → Prop
  | none => ∃ n ∈ names, plainEntry S.readObject treeSha n = .unreadable
  | some t => Right S treeSha t ∧ ∀ n ∈ names,
      plainEntry S.readObject treeSha n ≠ .unreadable ∧
        ∀ e, (plainEntry S.readObject treeSha n).present = some e → t.get n = some e

/-- With sound caches the lookup of several names answers for each what the plain one does. -/
theorem treeLookup_ensures (treeSha : Text) (names : List Bytes)
    {found : Table Bytes (Int × Text)} (hfound : Right S treeSha found) :
    Ensures (Sound S.readObject) (treeLookup S treeSha names found) fun r =>
      LookedUp S treeSha names r ∧ ∀ t, r = some t → ∀ n e, found.get n = some e →
        t.get n = some e := by
  induction names generalizing found with
  | nil =>
    refine .pure ⟨⟨hfound, by simp⟩, fun t ht n e h => ?_⟩
    rwa [← Option.some.inj ht]
  | cons name names ih =>
    rw [treeLookup]
    refine (treeEntry_ensures treeSha name).bind ?_
    rintro _ rfl
    cases hentry : plainEntry S.readObject treeSha name with
    | unreadable => exact .pure ⟨⟨name, List.mem_cons_self, hentry⟩, by simp⟩
    | absent =>
      refine (ih hfound).imp fun r h => ⟨?_, h.2⟩
      cases r with
      | none =>
        obtain ⟨n, hn, hun⟩ := h.1
        exact ⟨n, List.mem_cons_of_mem name hn, hun⟩
      | some t =>
        refine ⟨h.1.1, List.forall_mem_cons.mpr ⟨⟨by simp [hentry], fun e he => ?_⟩, h.1.2⟩⟩
        rw [hentry] at he
        cases he
    | found mode sha =>
      have hset : Right S treeSha (found.set name (mode, sha)) := by
        intro n e h
        rw [Table.get_set] at h
        split_ifs at h with hn
        · rw [hn, hentry]
          exact h
        · exact hfound n e h
      refine (ih hset).imp fun r h => ?_
      cases r with
      | none =>
        obtain ⟨n, hn, hun⟩ := h.1
        exact ⟨⟨n, List.mem_cons_of_mem name hn, hun⟩, by simp⟩
      | some t =>
        have hname := h.2 t rfl name (mode, sha) (Table.get_set_self _ _ _)
        refine ⟨⟨h.1.1, List.forall_mem_cons.mpr
          ⟨⟨by simp [hentry], fun e he => ?_⟩, h.1.2⟩⟩, ?_⟩
        · rw [hentry] at he
          rw [hname]
          exact he
        · intro t' ht n e hn
          obtain rfl := Option.some.inj ht
          by_cases heq : n = name
          · -- what is written again is the same
            have := hfound n e hn
            rw [heq, hentry] at this
            rw [heq, hname]
            exact this
          · refine h.2 t rfl n e ?_
            rw [Table.get_set, if_neg heq, hn]

/-! ### A step -/

/-- Where a node remembers a subtree, the values of the paths below are those of the subtree. -/
inductive Fresh (S : Store) (cur : Cur) : Node → Prop
  | mk {files : List (Bytes × Bytes)} {dirs : List (Bytes × Node)} {prev : Option (Option Text)} :
      (∀ sub, prev = some sub → ∀ rp ∈ Node.pathsBelow ⟨files, dirs, prev⟩,
        cur.get rp.2 = some (valueIn S sub rp.1)) →
      (∀ d ∈ dirs, Fresh S cur d.2) → Fresh S cur ⟨files, dirs, prev⟩

/-- Only the values of the paths below count. -/
theorem Fresh.congr {cur cur' : Cur} {node : Node} (h : Fresh S cur node)
    (heq : ∀ rp ∈ node.pathsBelow, cur'.get rp.2 = cur.get rp.2) : Fresh S cur' node := by
  induction node using Node.induct with
  | h files dirs prev ih =>
    obtain ⟨hhere, hdirs⟩ := h
    refine ⟨fun sub hsub rp hrp => ?_, fun d hd => ?_⟩
    · rw [heq rp hrp]
      exact hhere sub hsub rp hrp
    · refine ih d hd (hdirs d hd) fun rp hrp => ?_
      refine heq (d.1 :: rp.1, rp.2) ?_
      rw [Node.pathsBelow_mk]
      exact List.mem_append_right _ (Node.mem_pathsBelowDirs.mpr ⟨d, hd, rp, hrp, rfl⟩)

/-- A node that remembers nothing. -/
theorem fresh_forgetBelow (cur : Cur) (node : Node) : Fresh S cur node.forgetBelow := by
  induction node using Node.induct with
  | h files dirs prev ih =>
    rw [Node.forgetBelow_mk, Node.forgetDirs_eq]
    refine ⟨fun sub hsub => absurd hsub.symm (Option.some_ne_none sub), ?_⟩
    rw [List.forall_mem_map]
    exact ih

/-- What a step does to a node. -/
structure Resolved (S : Store) (node : Node) (sub : Option Text) (cur : Cur) (r : Node × Cur) :
    Prop where
  same : r.1.forgetBelow = node.forgetBelow
  fresh : Fresh S r.2 r.1
  value : ∀ rp ∈ node.pathsBelow, r.2.get rp.2 = some (valueIn S sub rp.1)
  other : ∀ p ∉ node.pathsBelow.map Prod.snd, r.2.get p = cur.get p

/-- Resolving a node leaves the paths below it. -/
theorem Resolved.pathsBelow {node : Node} {sub : Option Text} {cur : Cur} {r : Node × Cur}
    (h : Resolved S node sub cur r) : r.1.pathsBelow = node.pathsBelow := by
  rw [← Node.pathsBelow_forgetBelow, h.same, Node.pathsBelow_forgetBelow]

/-- What a step does to the directories of a node. -/
structure ResolvedDirs (S : Store) (entries : Table Bytes (Int × Text))
    (dirs : List (Bytes × Node)) (cur : Cur) (r : List (Bytes × Node) × Cur) : Prop where
  same : Node.forgetDirs r.1 = Node.forgetDirs dirs
  fresh : ∀ d ∈ r.1, Fresh S r.2 d.2
  value : ∀ d ∈ dirs, ∀ rp ∈ d.2.pathsBelow,
    r.2.get rp.2 = some (valueIn S (childSha (entries.get d.1)) rp.1)
  other : ∀ p ∉ (Node.pathsBelowDirs dirs).map Prod.snd, r.2.get p = cur.get p

/-- Only the given paths are set. -/
theorem get_setAll (cur : Cur) (paths : List Bytes) (v : Version) (p : Bytes) :
    (setAll cur paths v).get p = if p ∈ paths then some v else cur.get p := by
  rw [setAll]
  induction paths generalizing cur with
  | nil => simp
  | cons q paths ih =>
    rw [List.foldl_cons, ih, Table.get_set]
    by_cases hp : p ∈ paths
    · rw [if_pos hp, if_pos (List.mem_cons_of_mem q hp)]
    · by_cases hq : p = q <;> simp [hp, hq]

/-- A step that gives all paths below one value. -/
theorem resolved_setAll {files : List (Bytes × Bytes)} {dirs : List (Bytes × Node)}
    {prev prev' : Option (Option Text)} {sub : Option Text} {cur : Cur} {v : Version}
    (hv : ∀ rp ∈ Node.pathsBelow ⟨files, dirs, prev⟩, valueIn S sub rp.1 = v)
    (hprev : ∀ m, prev' = some m → m = sub) :
    Resolved S ⟨files, dirs, prev⟩ sub cur (⟨files, Node.forgetDirs dirs, prev'⟩,
      setAll cur ((Node.pathsBelow ⟨files, dirs, prev⟩).map Prod.snd) v) := by
  have hsame : Node.forgetBelow ⟨files, Node.forgetDirs dirs, prev'⟩ =
      Node.forgetBelow ⟨files, dirs, prev⟩ := by
    have htwice := Node.forgetBelow_forgetBelow ⟨files, dirs, prev⟩
    rw [Node.forgetBelow_mk files dirs prev, Node.forgetBelow_mk] at htwice
    rw [Node.forgetBelow_mk, Node.forgetBelow_mk, htwice]
  have hvalue : ∀ rp ∈ Node.pathsBelow ⟨files, dirs, prev⟩,
      (setAll cur ((Node.pathsBelow ⟨files, dirs, prev⟩).map Prod.snd) v).get rp.2 =
        some (valueIn S sub rp.1) := by
    intro rp hrp
    rw [get_setAll, if_pos (List.mem_map_of_mem hrp), hv rp hrp]
  refine ⟨hsame, ⟨fun m hm rp hrp => ?_, ?_⟩, hvalue, fun p hp => ?_⟩
  · rw [← Node.pathsBelow_forgetBelow, hsame, Node.pathsBelow_forgetBelow] at hrp
    rw [hprev m hm]
    exact hvalue rp hrp
  · rw [Node.forgetDirs_eq, List.forall_mem_map]
    exact fun d _ => fresh_forgetBelow _ d.2
  · rw [get_setAll, if_neg hp]

/-- Lookups of names of `N` in one tree fail together or not at all. -/
def AlikeOn (S : Store) (N : Set Bytes) : Prop :=
  ∀ treeSha, ∀ n ∈ N, ∀ n' ∈ N, plainEntry S.readObject treeSha n = .unreadable →
    plainEntry S.readObject treeSha n' = .unreadable

variable {items : List Bytes → List Bytes} {N : Set Bytes}

/-- A child is resolved as `_resolve_node` says. -/
def StepLaw (S : Store) (items : List Bytes → List Bytes) (node : Node) : Prop :=
  ∀ sub cur, Fresh S cur node → (node.pathsBelow.map Prod.snd).Nodup →
    Ensures (Sound S.readObject) (resolveNode S items node sub cur) (Resolved S node sub cur)

/-- The directories of a node, one behind the other. -/
theorem resolveDirs_ensures (entries : Table Bytes (Int × Text)) (dirs : List (Bytes × Node))
    (hstep : ∀ d ∈ dirs, StepLaw S items d.2) :
    ∀ cur, (∀ d ∈ dirs, Fresh S cur d.2) → ((Node.pathsBelowDirs dirs).map Prod.snd).Nodup →
      Ensures (Sound S.readObject) (resolveDirs S items entries dirs cur)
        (ResolvedDirs S entries dirs cur) := by
  induction dirs with
  | nil =>
    intro cur _ _
    rw [resolveDirs]
    exact .pure ⟨rfl, by simp, by simp, fun p _ => rfl⟩
  | cons d dirs ih =>
    intro cur hfresh hnd
    obtain ⟨name, child⟩ := d
    obtain ⟨hchild, hdirs⟩ := List.forall_mem_cons.mp hfresh
    have hpaths : (Node.pathsBelowDirs ((name, child) :: dirs)).map Prod.snd =
        child.pathsBelow.map Prod.snd ++ (Node.pathsBelowDirs dirs).map Prod.snd := by
      rw [Node.pathsBelowDirs, Node.pathsBelowDir, List.map_append, List.map_map]
      rfl
    rw [hpaths, List.nodup_append] at hnd
    obtain ⟨hndc, hndd, hdisj⟩ := hnd
    have hsep : ∀ p ∈ child.pathsBelow.map Prod.snd, p ∉ (Node.pathsBelowDirs dirs).map Prod.snd :=
      fun p hp hp' => hdisj p hp p hp' rfl
    rw [resolveDirs, resolveDir]
    have hfirst : Ensures (Sound S.readObject)
        (do
          let r ← resolveNode S items child (childSha (entries.get name)) cur
          pure ((name, r.1), r.2))
        fun r => r.1.1 = name ∧ Resolved S child (childSha (entries.get name)) cur (r.1.2, r.2) :=
      (hstep _ List.mem_cons_self _ _ hchild hndc).bind fun r hr => .pure ⟨rfl, hr⟩
    refine hfirst.bind ?_
    rintro ⟨⟨name', child'⟩, cur₁⟩ ⟨rfl, hres⟩
    -- the paths of the other directories are left as they are
    have hfresh₁ : ∀ d ∈ dirs, Fresh S cur₁ d.2 := fun d hd =>
      (hdirs d hd).congr fun rp hrp => hres.other rp.2 fun hmem => hsep rp.2 hmem
        (List.mem_map.mpr ⟨_, Node.mem_pathsBelowDirs.mpr ⟨d, hd, rp, hrp, rfl⟩, rfl⟩)
    refine (ih (fun d hd => hstep d (List.mem_cons_of_mem _ hd)) cur₁ hfresh₁ hndd).bind ?_
    rintro ⟨dirs', cur₂⟩ hrest
    have hkept : ∀ rp ∈ child.pathsBelow, cur₂.get rp.2 = cur₁.get rp.2 := fun rp hrp =>
      hrest.other rp.2 (hsep rp.2 (List.mem_map_of_mem hrp))
    refine .pure ⟨?_, ?_, ?_, fun p hp => ?_⟩
    · have hsame := hres.same
      rw [Node.forgetDirs, Node.forgetDirs, hrest.same, Node.forgetDir, Node.forgetDir, hsame]
    · refine List.forall_mem_cons.mpr ⟨hres.fresh.congr fun rp hrp => ?_, hrest.fresh⟩
      exact hkept rp (hres.pathsBelow ▸ hrp)
    · refine List.forall_mem_cons.mpr ⟨fun rp hrp => ?_, hrest.value⟩
      exact (hkept rp hrp).trans (hres.value rp hrp)
    · rw [hpaths, List.mem_append, not_or] at hp
      exact (hrest.other p hp.2).trans (hres.other p hp.1)

/-- Below a tree in which a lookup fails, no path is read. -/
theorem valueIn_unreadable (hal : AlikeOn S N) {node : Node} (hnamed : Node.Named N node)
    {treeSha : Text} {n : Bytes} (hn : n ∈ N)
    (hun : plainEntry S.readObject treeSha n = .unreadable) {rp : List Bytes × Bytes}
    (hrp : rp ∈ node.pathsBelow) : valueIn S (some treeSha) rp.1 = .unreadable := by
  obtain ⟨m, rest, hcons, hm⟩ := hnamed.exists_cons hrp
  have hmun := hal treeSha n hn m hm hun
  rw [hcons]
  by_cases hrest : rest = []
  · rw [hrest, valueIn_name, hmun]
  · rw [valueIn_cons _ _ hrest, hmun]

/-- What an entry says of the value of a file. -/
theorem valueIn_file {treeSha : Text} {n : Bytes} {entries : Table Bytes (Int × Text)}
    (hread : plainEntry S.readObject treeSha n ≠ .unreadable)
    (hget : entries.get n = (plainEntry S.readObject treeSha n).present) :
    valueIn S (some treeSha) [n] = fileVersion (entries.get n) := by
  rw [valueIn_name, hget]
  cases hentry : plainEntry S.readObject treeSha n with
  | unreadable => exact absurd hentry hread
  | absent => rfl
  | found mode sha => rfl

/-- What an entry says of the values below a directory. -/
theorem valueIn_dir {treeSha : Text} {n : Bytes} {rest : List Bytes} (hrest : rest ≠ [])
    {entries : Table Bytes (Int × Text)} (hread : plainEntry S.readObject treeSha n ≠ .unreadable)
    (hget : entries.get n = (plainEntry S.readObject treeSha n).present) :
    valueIn S (some treeSha) (n :: rest) = valueIn S (childSha (entries.get n)) rest := by
  rw [valueIn_cons _ _ hrest, hget]
  cases hentry : plainEntry S.readObject treeSha n with
  | unreadable => exact absurd hentry hread
  | absent => exact (valueIn_none rest).symm
  | found mode sha => rfl

/-- The listing of the names of a tree that can be read. -/
theorem LookedUp.get_eq {treeSha : Text} {names : List Bytes} {t : Table Bytes (Int × Text)}
    (h : LookedUp S treeSha names (some t)) {n : Bytes} (hn : n ∈ names) :
    plainEntry S.readObject treeSha n ≠ .unreadable ∧
      t.get n = (plainEntry S.readObject treeSha n).present := by
  obtain ⟨hright, hall⟩ := h
  obtain ⟨hread, hget⟩ := hall n hn
  refine ⟨hread, ?_⟩
  cases hpresent : (plainEntry S.readObject treeSha n).present with
  | some e => exact hget e hpresent
  | none =>
    refine Option.eq_none_iff_forall_ne_some.mpr fun e he => ?_
    rw [hright n e he] at hpresent
    cases hpresent

/-- The values of the files of a node. -/
theorem get_files {files : List (Bytes × Bytes)} (h : (files.map Prod.snd).Nodup) (cur : Cur)
    (entries : Table Bytes (Int × Text)) :
    (∀ f ∈ files, (files.foldl (fun cur f => cur.set f.2 (fileVersion (entries.get f.1))) cur).get
        f.2 = some (fileVersion (entries.get f.1))) ∧
      ∀ p ∉ files.map Prod.snd,
        (files.foldl (fun cur f => cur.set f.2 (fileVersion (entries.get f.1))) cur).get p =
          cur.get p := by
  have hkeys : (files.map fun f => (f.2, fileVersion (entries.get f.1))).map Prod.fst =
      files.map Prod.snd := by
    rw [List.map_map]
    rfl
  obtain ⟨hmem, hnot⟩ := @Table.get_foldl_set _ _ _
    (files.map fun f => (f.2, fileVersion (entries.get f.1))) (hkeys ▸ h) cur
  rw [List.foldl_map] at hmem hnot
  exact ⟨fun f hf => hmem _ _ (List.mem_map_of_mem hf), fun p hp => hnot p (hkeys ▸ hp)⟩

/-- **A step brings all values below a node up to date**, and leaves the others alone. -/
theorem resolveNode_ensures (hitems : ∀ l n, n ∈ items l ↔ n ∈ l) (hal : AlikeOn S N)
    (node : Node) (hnamed : Node.Named N node) : StepLaw S items node := by
  induction node using Node.induct with
  | h files dirs prev ih =>
    intro sub cur hfresh hnd
    have hnamed' := hnamed
    obtain ⟨hfiles, hnames, hbelow⟩ := hnamed'
    unfold resolveNode
    split_ifs with hprev
    · -- the subtree was last seen here
      have hkept := hfresh
      obtain ⟨hhere, -⟩ := hkept
      exact .pure ⟨rfl, hfresh, hhere sub hprev, fun p _ => rfl⟩
    cases sub with
    | none =>
      refine .pure (resolved_setAll (fun rp _ => valueIn_none rp.1) ?_)
      exact fun m hm => (Option.some.inj hm).symm
    | some sha =>
      refine (treeLookup_ensures sha _ fun n e h => by cases h).bind ?_
      rintro r ⟨hlook, -⟩
      cases r with
      | none =>
        obtain ⟨n, hn, hun⟩ := hlook
        have hnN : n ∈ N := by
          rw [hitems, List.mem_append] at hn
          obtain hn | hn := hn
          · obtain ⟨f, hf, rfl⟩ := List.mem_map.mp hn
            exact hfiles f hf
          · obtain ⟨d, hd, rfl⟩ := List.mem_map.mp hn
            exact hnames d hd
        refine .pure (resolved_setAll (fun rp hrp => valueIn_unreadable hal hnamed hnN hun hrp) ?_)
        exact fun m hm => by cases hm
      | some entries =>
        have hpaths : (Node.pathsBelow ⟨files, dirs, prev⟩).map Prod.snd =
            files.map Prod.snd ++ (Node.pathsBelowDirs dirs).map Prod.snd := by
          rw [Node.pathsBelow_mk, List.map_append, List.map_map]
          rfl
        rw [hpaths, List.nodup_append] at hnd
        obtain ⟨hndf, hndd, hdisj⟩ := hnd
        have hget : ∀ n, n ∈ files.map Prod.fst ++ dirs.map Prod.fst →
            plainEntry S.readObject sha n ≠ .unreadable ∧
              entries.get n = (plainEntry S.readObject sha n).present :=
          fun n hn => hlook.get_eq ((hitems _ n).mpr hn)
        -- first the files
        obtain ⟨hput, hrest⟩ := get_files hndf cur entries
        have hdirsFresh : ∀ d ∈ dirs, Fresh S
            (files.foldl (fun cur f => cur.set f.2 (fileVersion (entries.get f.1))) cur) d.2 := by
          obtain ⟨-, hdirs⟩ := hfresh
          refine fun d hd => (hdirs d hd).congr fun rp hrp => hrest rp.2 fun hmem => ?_
          exact hdisj rp.2 hmem rp.2 (List.mem_map.mpr
            ⟨_, Node.mem_pathsBelowDirs.mpr ⟨d, hd, rp, hrp, rfl⟩, rfl⟩) rfl
        refine (resolveDirs_ensures entries dirs (fun d hd => ih d hd (hbelow d hd)) _ hdirsFresh
          hndd).bind ?_
        rintro ⟨dirs', cur'⟩ hres
        have hvalue : ∀ rp ∈ Node.pathsBelow ⟨files, dirs, prev⟩,
            cur'.get rp.2 = some (valueIn S (some sha) rp.1) := by
          intro rp hrp
          rw [Node.pathsBelow_mk, List.mem_append] at hrp
          obtain hrp | hrp := hrp
          · obtain ⟨f, hf, rfl⟩ := List.mem_map.mp hrp
            obtain ⟨hread, heq⟩ := hget f.1 (List.mem_append_left _ (List.mem_map_of_mem hf))
            have hout : f.2 ∉ (Node.pathsBelowDirs dirs).map Prod.snd := fun hmem =>
              hdisj f.2 (List.mem_map_of_mem hf) f.2 hmem rfl
            rw [hres.other f.2 hout, hput f hf, valueIn_file hread heq]
          · obtain ⟨d, hd, rp', hrp', rfl⟩ := Node.mem_pathsBelowDirs.mp hrp
            obtain ⟨hread, heq⟩ := hget d.1 (List.mem_append_right _ (List.mem_map_of_mem hd))
            obtain ⟨m, rest, hcons, -⟩ := (hbelow d hd).exists_cons hrp'
            have hne : rp'.1 ≠ [] := by rw [hcons]; exact List.cons_ne_nil m rest
            rw [hres.value d hd rp' hrp', valueIn_dir hne hread heq]
        have hsame : Node.forgetBelow ⟨files, dirs', some (some sha)⟩ =
            Node.forgetBelow ⟨files, dirs, prev⟩ := by
          rw [Node.forgetBelow_mk, Node.forgetBelow_mk, hres.same]
        refine .pure ⟨hsame, ⟨fun m hm rp hrp => ?_, hres.fresh⟩, hvalue, fun p hp => ?_⟩
        · rw [← Node.pathsBelow_forgetBelow, hsame, Node.pathsBelow_forgetBelow] at hrp
          rw [← Option.some.inj hm]
          exact hvalue rp hrp
        · rw [hpaths, List.mem_append, not_or] at hp
          rw [hres.other p hp.2, hrest p hp.1]

end

/-! ### The trie of the paths -/

/-- A path has a part. -/
theorem parts_ne_nil (path : Bytes) : parts path ≠ [] := List.splitOn_ne_nil _ _

/-- A path is told by its parts. -/
theorem parts_injective : Function.Injective parts := by
  have hjoin : ∀ p, [slashByte].intercalate (parts p) = p := fun p =>
    List.intercalate_splitOn slashByte
  intro p q h
  rw [← hjoin p, h, hjoin q]

namespace Node

/-- A directory that gets a path more. -/
theorem pathsBelowDirs_intoDir {part : Bytes} {f : Node → Node} {rp : List Bytes × Bytes}
    {dirs : List (Bytes × Node)}
    (hf : ∀ child, (child = new ∨ (part, child) ∈ dirs) →
      (f child).pathsBelow.Perm (rp :: child.pathsBelow)) :
    (pathsBelowDirs (intoDir part f dirs)).Perm ((part :: rp.1, rp.2) :: pathsBelowDirs dirs) := by
  induction dirs with
  | nil =>
    have h := (hf new (.inl rfl)).map fun rp => (part :: rp.1, rp.2)
    simpa [intoDir, pathsBelowDirs, pathsBelowDir, new, pathsBelow_mk] using h
  | cons d dirs ih =>
    obtain ⟨name, child⟩ := d
    rw [intoDir]
    split_ifs with hname
    · subst hname
      have h := (hf child (.inr List.mem_cons_self)).map fun rp => (name :: rp.1, rp.2)
      rw [pathsBelowDirs, pathsBelowDirs, pathsBelowDir, pathsBelowDir]
      exact h.append_right _
    · rw [pathsBelowDirs, pathsBelowDirs]
      refine ((ih fun c hc => hf c (hc.imp_right (List.mem_cons_of_mem _))).append_left _).trans ?_
      exact List.perm_middle

/-- A path that is new is put below the node. -/
theorem pathsBelow_insert {r : List Bytes} (hr : r ≠ []) (path : Bytes) {node : Node}
    (hnew : ∀ q, (r, q) ∉ node.pathsBelow) :
    (insert r path node).pathsBelow.Perm ((r, path) :: node.pathsBelow) := by
  induction r generalizing node with
  | nil => exact absurd rfl hr
  | cons part rest ih =>
    obtain ⟨files, dirs, prev⟩ := node
    cases rest with
    | nil =>
      have hfresh : part ∉ files.map Prod.fst := by
        intro hmem
        obtain ⟨f, hf, rfl⟩ := List.mem_map.mp hmem
        refine hnew f.2 ?_
        rw [pathsBelow_mk]
        exact List.mem_append_left _ (List.mem_map.mpr ⟨f, hf, rfl⟩)
      rw [insert, pathsBelow_mk, pathsBelow_mk, Table.setEntries, if_neg hfresh, List.map_append]
      exact ((List.perm_append_singleton _ _).append_right _)
    | cons part' rest =>
      rw [insert, pathsBelow_mk, pathsBelow_mk]
      · refine ((@pathsBelowDirs_intoDir part _ (part' :: rest, path) _ ?_).append_left _).trans
          List.perm_middle
        rintro child hchild
        refine ih (List.cons_ne_nil part' rest) fun q hq => ?_
        obtain rfl | hmem := hchild
        · rw [new, pathsBelow_mk] at hq
          cases hq
        · refine hnew q ?_
          rw [pathsBelow_mk]
          exact List.mem_append_right _ (mem_pathsBelowDirs.mpr ⟨_, hmem, _, hq, rfl⟩)
      · exact List.cons_ne_nil part' rest

/-- What holds of all directories, and of one that gets a path more. -/
theorem forall_mem_intoDir {part : Bytes} {f : Node → Node} {dirs : List (Bytes × Node)}
    {P : Bytes × Node → Prop} (hnew : P (part, f new))
    (hf : ∀ child, P (part, child) → P (part, f child)) (h : ∀ d ∈ dirs, P d) :
    ∀ d ∈ intoDir part f dirs, P d := by
  induction dirs with
  | nil => simpa [intoDir] using hnew
  | cons d dirs ih =>
    obtain ⟨name, child⟩ := d
    obtain ⟨hd, hdirs⟩ := List.forall_mem_cons.mp h
    rw [intoDir]
    split_ifs with hname
    · subst hname
      exact List.forall_mem_cons.mpr ⟨hf child hd, hdirs⟩
    · exact List.forall_mem_cons.mpr ⟨hd, ih hdirs⟩

theorem named_new (N : Set Bytes) : Named N new := ⟨by simp, by simp, by simp⟩

/-- Inserting a path names its parts. -/
theorem named_insert {N : Set Bytes} {r : List Bytes} (hr : ∀ n ∈ r, n ∈ N) (path : Bytes)
    {node : Node} (h : Named N node) : Named N (insert r path node) := by
  induction r generalizing node with
  | nil => exact h
  | cons part rest ih =>
    obtain ⟨hpart, hrest⟩ := List.forall_mem_cons.mp hr
    obtain ⟨files, dirs, prev⟩ := node
    obtain ⟨hfiles, hnames, hbelow⟩ := h
    cases rest with
    | nil =>
      rw [insert]
      refine ⟨?_, hnames, hbelow⟩
      intro f hf
      rw [Table.setEntries] at hf
      split_ifs at hf with hmem
      · obtain ⟨f', hf', rfl⟩ := List.mem_map.mp hf
        split_ifs
        · exact hpart
        · exact hfiles f' hf'
      · obtain hf | hf := List.mem_append.mp hf
        · exact hfiles f hf
        · obtain rfl := List.mem_singleton.mp hf
          exact hpart
    | cons part' rest =>
      rw [insert]
      · have hdirs := @forall_mem_intoDir part (insert (part' :: rest) path) dirs
          (fun d => d.1 ∈ N ∧ Named N d.2) ⟨hpart, ih hrest (named_new N)⟩
          (fun child hchild => ⟨hpart, ih hrest hchild.2⟩) fun d hd => ⟨hnames d hd, hbelow d hd⟩
        exact ⟨hfiles, fun d hd => (hdirs d hd).1, fun d hd => (hdirs d hd).2⟩
      · exact List.cons_ne_nil part' rest

/-- Paths are put below a node one after another. -/
theorem pathsBelow_foldl {paths : List Bytes} (hnd : paths.Nodup) {root : Node}
    (hnew : ∀ p ∈ paths, ∀ q, (parts p, q) ∉ root.pathsBelow) :
    (paths.foldl (fun root path => root.insert (parts path) path) root).pathsBelow.Perm
      (paths.map (fun p => (parts p, p)) ++ root.pathsBelow) := by
  induction paths generalizing root with
  | nil => exact List.Perm.refl _
  | cons p paths ih =>
    obtain ⟨hp, hnd⟩ := List.nodup_cons.mp hnd
    obtain ⟨hnewp, hnew⟩ := List.forall_mem_cons.mp hnew
    have hinsert := pathsBelow_insert (parts_ne_nil p) p hnewp
    refine (ih hnd fun p' hp' q hq => ?_).trans ?_
    · obtain heq | hmem := List.mem_cons.mp (hinsert.mem_iff.mp hq)
      · rw [parts_injective (congrArg Prod.fst heq)] at hp'
        exact hp hp'
      · exact hnew p' hp' q hmem
    · exact (hinsert.append_left _).trans List.perm_middle

theorem forgetBelow_new : new.forgetBelow = new := by
  rw [new, forgetBelow_mk]
  rfl

theorem forgetDirs_intoDir {part : Bytes} {f : Node → Node}
    (hf : ∀ child, (f child).forgetBelow = f child.forgetBelow) (dirs : List (Bytes × Node)) :
    forgetDirs (intoDir part f dirs) = intoDir part f (forgetDirs dirs) := by
  induction dirs with
  | nil =>
    simp only [intoDir, forgetDirs, forgetDir, hf, forgetBelow_new]
  | cons d dirs ih =>
    obtain ⟨name, child⟩ := d
    rw [forgetDirs, forgetDir, intoDir, intoDir]
    split_ifs with hname
    · rw [forgetDirs, forgetDir, hf]
    · rw [forgetDirs, forgetDir, ih]

/-- A path that is put below a node changes nothing that is remembered. -/
theorem forgetBelow_insert (r : List Bytes) (path : Bytes) (node : Node) :
    (insert r path node).forgetBelow = insert r path node.forgetBelow := by
  induction r generalizing node with
  | nil => rfl
  | cons part rest ih =>
    obtain ⟨files, dirs, prev⟩ := node
    cases rest with
    | nil => rw [insert, forgetBelow_mk, forgetBelow_mk, insert]
    | cons part' rest =>
      rw [insert, forgetBelow_mk, forgetBelow_mk, insert, forgetDirs_intoDir ih]
      all_goals exact List.cons_ne_nil part' rest

/-- A fresh tree of nodes remembers nothing. -/
theorem forgetBelow_ofPaths (paths : List Bytes) : (ofPaths paths).forgetBelow = ofPaths paths := by
  rw [ofPaths]
  have hnew := forgetBelow_new
  generalize new = root at hnew
  induction paths generalizing root with
  | nil => exact hnew
  | cons p paths ih => exact ih _ (by rw [forgetBelow_insert, hnew])

/-- The paths of the trie are the paths it is made of. -/
theorem pathsBelow_ofPaths {paths : List Bytes} (hnd : paths.Nodup) :
    (ofPaths paths).pathsBelow.Perm (paths.map fun p => (parts p, p)) := by
  have hnil : new.pathsBelow = [] := by
    rw [new, pathsBelow_mk]
    rfl
  have h := @pathsBelow_foldl _ hnd new fun p _ q hq => by
    rw [hnil] at hq
    cases hq
  rwa [hnil, List.append_nil] at h

/-- The nodes are named by parts of the paths. -/
theorem named_ofPaths (paths : List Bytes) :
    Named {n | ∃ p ∈ paths, n ∈ parts p} (ofPaths paths) := by
  have hfold : ∀ (N : Set Bytes) (ps : List Bytes) (root : Node),
      (∀ p ∈ ps, ∀ n ∈ parts p, n ∈ N) → Named N root →
        Named N (ps.foldl (fun root path => root.insert (parts path) path) root) := by
    intro N ps
    induction ps with
    | nil => exact fun root _ h => h
    | cons p ps ih =>
      intro root hps h
      obtain ⟨hp, hps⟩ := List.forall_mem_cons.mp hps
      exact ih _ hps (named_insert hp p h)
  exact hfold _ paths new (fun p hp n hn => ⟨p, hp, hn⟩) (named_new _)

end Node

/-! ### A run -/

section

variable {S : Store} {items : List Bytes → List Bytes}

/-- In every tree the lookups of the parts of the paths fail together or not at all. -/
def Alike (S : Store) (paths : List Bytes) : Prop := AlikeOn S {n | ∃ p ∈ paths, n ∈ parts p}

/-- The rows that the ancestors add. -/
def plainRows (S : Store) (ancestors : List (ℕ × Text)) (p : Bytes) :
    List (Text × Option Version) :=
  ancestors.map fun a => (a.2, some (plainBlob S a.2 p))

/-- The walk adds for each path the plain value at every ancestor; by induction on the ancestors. -/
theorem walkAlong_ensures (hitems : ∀ l n, n ∈ items l ↔ n ∈ l) {N : Set Bytes}
    (hal : AlikeOn S N) {paths : List Bytes} (ancestors : List (ℕ × Text)) :
    ∀ root cur out, Node.Named N root → root.pathsBelow.Perm (paths.map fun p => (parts p, p)) →
      paths.Nodup → Fresh S cur root → (∀ row ∈ out, row.1 ∈ paths) →
      Ensures (Sound S.readObject) (walkAlong S items paths ancestors root cur out) fun out' =>
        out' = out.map fun row => (row.1, row.2 ++ plainRows S ancestors row.1) := by
  induction ancestors with
  | nil =>
    intro root cur out _ _ _ _ _
    refine .pure ?_
    simp [plainRows]
  | cons a ancestors ih =>
    intro root cur out hnamed hperm hnd hfresh hout
    obtain ⟨step, sha⟩ := a
    -- a level adds one row to each path, what the tree of the commit has there
    have hrow : ∀ cur' : Cur, (∀ p ∈ paths, cur'.get p = some (plainBlob S sha p)) →
        (appendRow sha cur' out).map (fun row => (row.1, row.2 ++ plainRows S ancestors row.1)) =
          out.map fun row => (row.1, row.2 ++ plainRows S ((step, sha) :: ancestors) row.1) := by
      intro cur' hcur
      rw [appendRow, List.map_map]
      refine List.map_congr_left fun row hr => ?_
      rw [Function.comp_apply, hcur row.1 (hout row hr), List.append_assoc]
      rfl
    have hrows : ∀ cur' : Cur, ∀ row ∈ appendRow sha cur' out, row.1 ∈ paths := by
      intro cur'
      rw [appendRow, List.forall_mem_map]
      exact hout
    rw [walkAlong]
    -- without a tree no path has anything, and nothing is remembered
    cases htree : S.tree sha with
    | none =>
      refine (ih _ _ _ ((Node.named_forgetBelow root).mpr hnamed)
        (by rwa [Node.pathsBelow_forgetBelow]) hnd (fresh_forgetBelow _ root) (hrows _)).imp ?_
      rintro _ rfl
      refine hrow _ fun p hp => ?_
      rw [get_setAll, if_pos hp, plainBlob, htree]
    | some tree =>
      -- no path is asked for twice
      have hndp : (root.pathsBelow.map Prod.snd).Nodup := by
        have h := hperm.map Prod.snd
        rw [List.map_map] at h
        have hid : paths.map (Prod.snd ∘ fun p => (parts p, p)) = paths := List.map_id paths
        rw [hid] at h
        exact h.nodup_iff.mpr hnd
      refine (resolveNode_ensures hitems hal root hnamed (some tree) cur hfresh hndp).bind ?_
      rintro ⟨root', cur'⟩ hres
      have hnamed' : Node.Named N root' := by
        rw [← Node.named_forgetBelow, hres.same, Node.named_forgetBelow]
        exact hnamed
      refine (ih root' cur' _ hnamed' (hres.pathsBelow ▸ hperm) hnd hres.fresh (hrows _)).imp ?_
      rintro _ rfl
      refine hrow _ fun p hp => ?_
      have hmem : (parts p, p) ∈ root.pathsBelow :=
        hperm.mem_iff.mpr (List.mem_map.mpr ⟨p, hp, rfl⟩)
      rw [hres.value _ hmem, plainBlob, htree]

/-- `_values_along` gives each path its plain values. -/
theorem valuesAlong_ensures (hitems : ∀ l n, n ∈ items l ↔ n ∈ l) (ancestors : List (ℕ × Text))
    {paths : List Bytes} (hnd : paths.Nodup) (hal : Alike S paths) :
    Ensures (Sound S.readObject) (valuesAlong S items ancestors paths) fun out =>
      out = paths.map fun p => (p, plainRows S ancestors p) := by
  have hfresh : Fresh S ∅ (Node.ofPaths paths) :=
    Node.forgetBelow_ofPaths paths ▸ fresh_forgetBelow ∅ (Node.ofPaths paths)
  refine (walkAlong_ensures hitems hal ancestors _ ∅ _ (Node.named_ofPaths paths)
    (Node.pathsBelow_ofPaths hnd) hnd hfresh ?_).imp ?_
  · simp
  · rintro _ rfl
    rw [List.map_map]
    rfl

/-- **The walk has the values of the single reads, and the scan the entries of the parse.** The
caches hold what any earlier calls left in them. -/
theorem walk_and_scan (hitems : ∀ l n, n ∈ items l ↔ n ∈ l) (calls calls' : List (Text × Bytes)) :
    (∀ (ancestors : List (ℕ × Text)) (paths : List Bytes), paths.Nodup → Alike S paths →
      ((valuesAlong S items ancestors paths).run (cacheAfter S.readObject calls)).1 =
        paths.map fun p => (p, ancestors.map fun a =>
          (a.2, some ((blobAtCommit S a.2 p).run (cacheAfter S.readObject calls')).1))) ∧
      ∀ (treeSha : Text) (raw name : Bytes) (es : List (TreeEntry Text)),
        readTree S.readObject treeSha = some raw → TreeBytes.Payload es raw →
        (∀ e ∈ es, TreeBytes.octal e.mode ∈ knownModes) → (es.map TreeEntry.name).Nodup →
        Exact es raw name →
        ((treeEntry S.readObject treeSha name).run (cacheAfter S.readObject calls)).1 =
          fullEntry raw name := by
  constructor
  · intro ancestors paths hnd hal
    rw [(valuesAlong_ensures hitems ancestors hnd hal).result_eq (sound_cacheAfter calls)]
    refine List.map_congr_left fun p _ => ?_
    rw [plainRows]
    congr 1
    refine List.map_congr_left fun a _ => ?_
    rw [(blobAtCommit_ensures a.2 p).result_eq (sound_cacheAfter calls')]
  · intro treeSha raw name es hread hP hmodes hnd hexact
    rw [(treeEntry_ensures treeSha name).result_eq (sound_cacheAfter calls), plainEntry, hread]
    exact scanTree_eq hP hmodes hnd hexact

end

/-! ### Runs -/

/-- `100644 `, with the space. -/
def modeAndSpace : Bytes := [0x31, 0x30, 0x30, 0x36, 0x34, 0x34, 0x20]

theorem octal_file : TreeBytes.octal 0o100644 = [0x31, 0x30, 0x30, 0x36, 0x34, 0x34] := by
  norm_num [TreeBytes.octal]
  decide

/-- A tree with the file `a`. -/
def plainTree : List (TreeEntry Text) := [⟨[0x61], 0o100644, hex (List.replicate 20 1)⟩]

def plainBytes : Bytes := modeAndSpace ++ [0x61, 0] ++ List.replicate 20 1

theorem payload_plain : TreeBytes.Payload plainTree plainBytes := by
  have h : plainBytes = TreeBytes.lineBytes ⟨[0x61], 0o100644, hex (List.replicate 20 1)⟩
      (List.replicate 20 1) ++ [] := by
    rw [TreeBytes.lineBytes, octal_file]
    rfl
  rw [h]
  exact .cons rfl rfl (by decide) .nil

theorem exact_plain : Exact plainTree plainBytes [0x61] := by
  intro front mode behind hraw hmode hbehind _
  have hlen := congrArg List.length hraw
  have hpos : plainBytes.length = 29 := rfl
  simp only [List.length_append, hpos, needleOf, List.length_cons, List.length_nil] at hlen
  have hfive : ∀ m ∈ knownModes, 5 ≤ m.length := by decide
  have hm := hfive mode hmode
  cases front with
  | nil => exact ⟨[], _, [], rfl, rfl, .nil⟩
  | cons b front =>
    -- a mode of five digits would be the rest of that of the file
    obtain rfl : front = [] := by
      refine List.eq_nil_of_length_eq_zero ?_
      simp only [List.length_cons] at hlen
      omega
    have hmodes : ∀ m ∈ knownModes, m.length = 5 → m = modeTree := by decide
    obtain rfl := hmodes mode hmode (by simp only [List.length_cons, List.length_nil] at hlen; omega)
    simp [plainBytes, modeAndSpace, modeTree] at hraw

/-- `40000 d`, and its end. -/
def directoryD : Bytes := [0x34, 0x30, 0x30, 0x30, 0x30, 0x20, 0x64, 0]

/-- Two trees with a file `a` and a directory `d`, and the two directories, each with a file `a`. A
history goes from the first tree to the second and back. -/
def backAndForth : Store where
  readObject sha :=
    (if sha = ['t'] then
      some (modeAndSpace ++ [0x61, 0] ++ List.replicate 20 2 ++ directoryD ++ List.replicate 20 4)
    else if sha = ['u'] then
      some (modeAndSpace ++ [0x61, 0] ++ List.replicate 20 3 ++ directoryD ++ List.replicate 20 5)
    else if sha = hex (List.replicate 20 4) then some plainBytes
    else if sha = hex (List.replicate 20 5) then
      some (modeAndSpace ++ [0x61, 0] ++ List.replicate 20 6)
    else none).map fun raw => ("tree".toList, raw)
  commitTree sha :=
    if sha = ['a'] ∨ sha = ['c'] then some ['t'] else if sha = ['b'] then some ['u'] else none

/-- `a`, and `d/a`. -/
def twoPaths : List Bytes := [[0x61], [0x64, 0x2f, 0x61]]

/-- No tree of the history is torn. -/
theorem alike_backAndForth : Alike backAndForth twoPaths := by
  intro treeSha n hn n' hn' hun
  have hparts : ∀ m ∈ ({n | ∃ p ∈ twoPaths, n ∈ parts p} : Set Bytes),
      m ∈ ([[0x61], [0x64]] : List Bytes) := by
    have hall : ∀ p ∈ twoPaths, ∀ m ∈ parts p, m ∈ ([[0x61], [0x64]] : List Bytes) := by decide
    rintro m ⟨p, hp, hm⟩
    exact hall p hp m hm
  have hreadable : ∀ sha ∈ [['t'], ['u'], hex (List.replicate 20 4), hex (List.replicate 20 5)],
      ∀ m ∈ ([[0x61], [0x64]] : List Bytes),
        plainEntry backAndForth.readObject sha m ≠ .unreadable := by decide
  by_cases hsha : treeSha ∈ [['t'], ['u'], hex (List.replicate 20 4), hex (List.replicate 20 5)]
  · exact absurd hun (hreadable treeSha hsha n (hparts n hn))
  · simp only [List.mem_cons, List.not_mem_nil, or_false, not_or] at hsha
    obtain ⟨ht, hu, h4, h5⟩ := hsha
    have hnone : readTree backAndForth.readObject treeSha = none := by
      have hread : backAndForth.readObject treeSha = none := by
        simp only [backAndForth, if_neg ht, if_neg hu, if_neg h4, if_neg h5, Option.map_none]
      rw [readTree, hread]
    rw [plainEntry, hnone]

/-- A history that returns to its first tree, and a lookup of the file in a directory. -/
theorem walk_and_scan_backAndForth :
    ((valuesAlong backAndForth id [(1, ['a']), (2, ['b']), (3, ['c'])] twoPaths).run ∅).1 =
        twoPaths.map (fun p => (p, [['a'], ['b'], ['c']].map fun sha =>
          (sha, some ((blobAtCommit backAndForth sha p).run ∅).1))) ∧
      (twoPaths.map fun p => ((blobAtCommit backAndForth ['b'] p).run ∅).1) =
        [.blob (hex (List.replicate 20 3)), .blob (hex (List.replicate 20 6))] ∧
      ((treeEntry backAndForth.readObject (hex (List.replicate 20 4)) [0x61]).run ∅).1 =
        fullEntry plainBytes [0x61] := by
  have h := @walk_and_scan backAndForth id (fun l n => Iff.rfl) [] []
  refine ⟨h.1 [(1, ['a']), (2, ['b']), (3, ['c'])] twoPaths (by decide) alike_backAndForth,
    by decide, h.2 _ plainBytes [0x61] plainTree (by decide) payload_plain ?_ (by decide)
      exact_plain⟩
  intro e he
  obtain rfl := List.mem_singleton.mp he
  rw [octal_file]
  decide

/-- A hash that ends in a mode and a space. -/
def straySha : Bytes := List.replicate 13 1 ++ modeAndSpace

/-- The files `a` and `y`. -/
def strayTree : List (TreeEntry Text) :=
  [⟨[0x61], 0o100644, hex straySha⟩, ⟨[0x79], 0o100644, hex (List.replicate 20 2)⟩]

def strayBytes : Bytes :=
  modeAndSpace ++ [0x61, 0] ++ straySha ++ (modeAndSpace ++ [0x79, 0] ++ List.replicate 20 2)

theorem payload_stray : TreeBytes.Payload strayTree strayBytes := by
  have h : strayBytes = TreeBytes.lineBytes ⟨[0x61], 0o100644, hex straySha⟩ straySha ++
      (TreeBytes.lineBytes ⟨[0x79], 0o100644, hex (List.replicate 20 2)⟩ (List.replicate 20 2) ++
        []) := by
    rw [TreeBytes.lineBytes, TreeBytes.lineBytes, octal_file]
    rfl
  rw [h]
  exact .cons rfl rfl (by decide) (.cons rfl rfl (by decide) .nil)

/-- Bytes with one too many, and before that the files `b` and `100644 a`. -/
def tornBytes : Bytes :=
  modeAndSpace ++ [0x62, 0] ++ List.replicate 20 1 ++
    (modeAndSpace ++ modeAndSpace ++ [0x61, 0] ++ List.replicate 20 2) ++ [0x78]

/-- One commit, whose tree is torn. -/
def tornStore : Store where
  readObject sha := if sha = ['t'] then some ("tree".toList, tornBytes) else none
  commitTree sha := if sha = ['c'] then some ['t'] else none

/-- A mode and the name lie across a hash and the entry behind it, in no name and in no hash; and in
a tree with a byte too many the walk reads nothing where the single read finds a file. -/
theorem stray_and_torn :
    (TreeBytes.Payload strayTree strayBytes ∧
      (∀ e ∈ strayTree, e.mode = 0o100644 ∧
        ∀ mode ∈ knownModes, ¬ mode ++ 0x20 :: (modeAndSpace ++ [0x79]) <:+: e.name) ∧
      (∀ sha ∈ [straySha, List.replicate 20 2],
        ∀ mode ∈ knownModes, ¬ mode ++ 0x20 :: (modeAndSpace ++ [0x79]) <:+: sha) ∧
      (strayTree.map TreeEntry.name).Nodup ∧
      scanTree strayBytes (modeAndSpace ++ [0x79]) ≠
        fullEntry strayBytes (modeAndSpace ++ [0x79])) ∧
      ((valuesAlong tornStore id [(1, ['c'])] [[0x61], [0x62]]).run ∅).1 =
        [([0x61], [(['c'], some .unreadable)]), ([0x62], [(['c'], some .unreadable)])] ∧
      ((blobAtCommit tornStore ['c'] [0x62]).run ∅).1 = .blob (hex (List.replicate 20 1)) := by
  have habsent : fullEntry strayBytes (modeAndSpace ++ [0x79]) = .absent :=
    (fullEntry_eq payload_stray (by decide)).2 _ (by decide)
  refine ⟨⟨payload_stray, by decide, by decide, by decide, ?_⟩, ?_, ?_⟩
  · rw [habsent]
    decide
  · decide
  · decide

end RollbackCheck

end Git

end CoordinatorCore
