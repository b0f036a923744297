import CoordinatorCore.Git.TreeBytes
import CoordinatorCore.Git.Splice
import CoordinatorCore.Text.Basic

/-!
# The diff of two commits

`diff_commit_trees` of `git/git_state.py`: a walk over two trees at once that opens a pair of
subtrees only where their hashes differ, and lists what it finds by path. The flattened tree is
`FileAt`; the changes should be the difference of the two flattened trees, point by point
(`PointwiseDiff`), also where a file stands in the place of a directory. They are, for every pair of
well-formed trees (`diffCommitTrees_pointwise`).

The code iterates over a set of names; the order it comes in is the parameter `order`.
-/

namespace CoordinatorCore

open PyStr Text

namespace Git

namespace TreeDiff

open TreeBytes

/-! ### The changes -/

inductive Status
  | added
  | modified
  | deleted
  | typeChanged
  deriving DecidableEq

structure TreeChange where
  status : Status
  path : PyStr
  old : Option (Int × Text)
  new : Option (Int × Text)
  deriving DecidableEq

/-- Why there is no diff: an object cannot be read, or the fuel is gone. -/
inductive Stop
  | unreadable
  | fuel
  deriving DecidableEq

/-- `_TREE_MODE`. -/
def isTree (e : Int × Text) : Bool := e.1 = 0o40000

/-- `f"{prefix}/{name}" if prefix else name`. -/
def childPath (dir name : PyStr) : PyStr := if dir = [] then name else dir ++ slashPoint :: name

/-! ### Commits -/

/-- What stands in front of the first empty line. -/
def commitHeader : Bytes → Bytes
  | [] => []
  | b :: bs => if b = 0x0a ∧ bs.head? = some 0x0a then [] else b :: commitHeader bs

/-- `line.decode("ascii", errors="replace")`. -/
def decodeAscii (line : Bytes) : Text :=
  line.map fun b => if b < 0x80 then Char.ofNat b.toNat else Char.ofNat 0xfffd

/-- `b"tree "` -/
def treeField : Bytes := [0x74, 0x72, 0x65, 0x65, 0x20]

/-- `b"parent "` -/
def parentField : Bytes := [0x70, 0x61, 0x72, 0x65, 0x6e, 0x74, 0x20]

/-- The values of a header field. -/
def fieldValues (field : Bytes) (lines : List Bytes) : List Text :=
  (lines.filter field.isPrefixOf).map fun line => strip (decodeAscii (line.drop field.length))

/-- The header of `CommitInfo`. -/
structure CommitInfo where
  tree : Text
  parents : List Text

section

variable (readObject : Text → Option (Text × Bytes)) (order : List PyStr → List PyStr)

/-- `read_commit`. -/
def readCommit (sha : Text) : Option CommitInfo :=
  match readObject sha with
  | none => none
  | some (kind, payload) =>
    if kind ≠ "commit".toList then none
    else
      let lines := (commitHeader payload).splitOn 0x0a
      let parents := fieldValues parentField lines
      match (fieldValues treeField lines).getLast? with
      | none => none
      | some tree =>
        if tree.length ≠ 40 ∨ parents.any (·.length ≠ 40) then none else some ⟨tree, parents⟩

/-! ### The walk -/

/-- `load`. -/
def load : Option Text → Option Entries
  | none => some ∅
  | some sha =>
    match readObject sha with
    | some (kind, payload) => if kind = "tree".toList then parseTreeEntries payload else none
    | none => none

/-- `emit_side`; `walk` is the walk with what is left of the fuel. -/
def emitSide (walk : PyStr → Option Text → Option Text → Except Stop (List TreeChange))
    (path : PyStr) (e : Int × Text) (added : Bool) : Except Stop (List TreeChange) :=
  if isTree e then if added then walk path none (some e.2) else walk path (some e.2) none
  else .ok [if added then ⟨.added, path, none, some e⟩ else ⟨.deleted, path, some e, none⟩]

/-- What the walk does with a name. -/
def compare (walk : PyStr → Option Text → Option Text → Except Stop (List TreeChange))
    (path : PyStr) : Option (Int × Text) → Option (Int × Text) → Except Stop (List TreeChange)
  | none, none => .ok []
  | some o, none => emitSide walk path o false
  | none, some n => emitSide walk path n true
  | some o, some n =>
    if o = n then .ok []
    else if isTree o && isTree n then walk path (some o.2) (some n.2)
    else if !isTree o && !isTree n then
      .ok [⟨if o.1 ≠ n.1 then .typeChanged else .modified, path, some o, some n⟩]
    else do
      let gone ← emitSide walk path o false
      let come ← emitSide walk path n true
      .ok (gone ++ come)

/-- The names of two listings. -/
def unionNames (os ns : Entries) : List PyStr := os.keys ++ ns.keys.filter fun n => n ∉ os.keys

/-- `walk`. -/
def walk : Nat → PyStr → Option Text → Option Text → Except Stop (List TreeChange)
  | 0, _, _, _ => .error .fuel
  | fuel + 1, dir, old, new =>
    if old = new then .ok []
    else
      match load readObject old, load readObject new with
      | some os, some ns => do
        let found ← (order (unionNames os ns)).mapM fun name =>
          compare (walk fuel) (childPath dir name) (os.get name) (ns.get name)
        .ok found.flatten
      | _, _ => .error .unreadable

/-- `diff_commit_trees`, with some fuel. The recursion limit of the host language is not modelled. -/
def diffCommitTrees (fuel : Nat) (oldCommit newCommit : Text) : Except Stop (List TreeChange) :=
  match readCommit readObject oldCommit, readCommit readObject newCommit with
  | some old, some new => do
    let out ← walk readObject order fuel [] (some old.tree) (some new.tree)
    .ok (out.mergeSort fun a b => a.path ≤ b.path)
  | _, _ => .error .unreadable

end

/-! ### What it should be -/

section

variable (read : Text → Option (List (TreeEntry Text)))

/-- The path of a file, as a string. -/
def joined (parts : List PyStr) : PyStr := [slashPoint].intercalate parts

/-- The parts of a path. -/
def Plain (parts : List PyStr) : Prop := ∀ x ∈ parts, x ≠ [] ∧ slashPoint ∉ x

/-- What the flattened tree has at a path. -/
def At (root : Text) (parts : List PyStr) : Option (Int × Text) → Prop
  | none => ∀ v, ¬ FileAt read root parts v
  | some v => ∃ m : Nat, (m : Int) = v.1 ∧ FileAt read root parts (m, v.2)

/-- The change from one value to another. -/
def changeOf (path : PyStr) (o n : Option (Int × Text)) : TreeChange where
  status :=
    match o, n with
    | none, _ => .added
    | some _, none => .deleted
    | some o, some n => if o.1 ≠ n.1 then .typeChanged else .modified
  path := path
  old := o
  new := n

/-- The changes are the difference of the flattened trees, one for a path. -/
structure PointwiseDiff (old new : Text) (changes : List TreeChange) : Prop where
  once : (changes.map TreeChange.path).Nodup
  exact : ∀ c, c ∈ changes ↔ ∃ parts o n, At read old parts o ∧ At read new parts n ∧ o ≠ n ∧
    c = changeOf (joined parts) o n
  applied : ∀ parts o n, parts ≠ [] → Plain parts → At read old parts o → At read new parts n →
    n = ((changes.find? fun c => c.path = joined parts).map TreeChange.new).getD o

/-- The objects of the trees are stored. -/
def Stores (readObject : Text → Option (Text × Bytes)) : Prop :=
  ∀ sha es, read sha = some es →
    ∃ payload, readObject sha = some ("tree".toList, payload) ∧ Payload es payload

end

/-! ### Paths -/

theorem joined_nil : joined [] = [] := rfl

/-- Two lists of parts that give one path are one list. -/
theorem joined_inj {ps qs : List PyStr} (hp : Plain ps) (hq : Plain qs)
    (h : joined ps = joined qs) : ps = qs := by
  have hempty {rs : List PyStr} (hr : Plain rs) (hnil : joined rs = []) : rs = [] := by
    cases rs with
    | nil => rfl
    | cons r rs =>
      cases rs with
      | nil => exact absurd (by simpa [joined] using hnil) (hr r List.mem_cons_self).1
      | cons r' rs => simp [joined, List.intercalate] at hnil
  by_cases hpn : ps = []
  · subst hpn
    exact (hempty hq h.symm).symm
  by_cases hqn : qs = []
  · subst hqn
    exact hempty hp h
  rw [← List.splitOn_intercalate slashPoint (fun l hl => (hp l hl).2) hpn,
    ← List.splitOn_intercalate slashPoint (fun l hl => (hq l hl).2) hqn]
  exact congrArg _ h

/-- Parts that are no empty texts join to no empty text. -/
theorem joined_ne_nil {ps : List PyStr} (hp : Plain ps) (hne : ps ≠ []) : joined ps ≠ [] :=
  fun h => hne (joined_inj hp (fun _ hx => by cases hx) (h.trans joined_nil.symm))

/-- A further part is joined by a slash. -/
theorem joined_concat {d : List PyStr} (hne : d ≠ []) (name : PyStr) :
    joined (d ++ [name]) = joined d ++ slashPoint :: name := by
  induction d with
  | nil => exact absurd rfl hne
  | cons p d ih =>
    by_cases hd : d = []
    · subst hd
      simp [joined, List.intercalate_cons_cons]
    · rw [List.cons_append, joined, List.intercalate_cons_of_ne_nil (by simp), ← joined, ih hd,
        joined, joined, List.intercalate_cons_of_ne_nil hd]
      simp

/-- The path of a child. -/
theorem childPath_joined {d : List PyStr} (hd : Plain d) (name : PyStr) :
    childPath (joined d) name = joined (d ++ [name]) := by
  rw [childPath]
  by_cases hne : d = []
  · subst hne
    simp [joined]
  · rw [if_neg (joined_ne_nil hd hne), joined_concat hne]

/-! ### Values -/

section

variable {read : Text → Option (List (TreeEntry Text))}

/-- Names of a well-formed tree are plain parts. -/
theorem plain_text {es : List (TreeEntry Text)} (h : TreeOk es) {e : TreeEntry Text}
    (he : e ∈ es) : e.text ≠ [] ∧ slashPoint ∉ e.text := by
  obtain ⟨hne, hslash⟩ := h.plain e he
  refine ⟨fun hnil => hne (fsDecode_injective (hnil.trans rfl)), fun hmem => hslash ?_⟩
  exact (ascii_mem_of_fsEncode (a := 0x2f) (by decide) (fsEncode_fsDecode e.name)).mpr hmem

/-- A file of a well-formed tree has a path with plain parts. -/
theorem plain_of_at {root : Text} (hwf : WellFormed read root) {parts : List PyStr}
    {v : Nat × Text} (h : FileAt read root parts v) : Plain parts := by
  induction h with
  | @file root es e hroot he hmode =>
    cases hwf with
    | mk hroot' hok _ _ =>
      rw [hroot] at hroot'
      cases hroot'
      intro x hx
      obtain rfl := List.mem_singleton.mp hx
      exact plain_text hok he
  | @dir root es e parts v hroot he hmode _ ih =>
    cases hwf with
    | mk hroot' hok hsub _ =>
      rw [hroot] at hroot'
      cases hroot'
      rintro x (_ | ⟨_, hx⟩)
      · exact plain_text hok he
      · exact ih (hsub e he hmode) x hx

/-- A path has one value. -/
theorem FileAt.unique {root : Text} (hwf : WellFormed read root) {parts : List PyStr}
    {v w : Nat × Text} (hv : FileAt read root parts v) (hw : FileAt read root parts w) : v = w := by
  induction hv generalizing w with
  | @file root es e hroot he hmode =>
    obtain ⟨es', hroot', e', he', htext, h⟩ := at_cons_iff.mp hw
    rw [hroot] at hroot'
    cases hroot'
    cases hwf with
    | mk hroot' hok _ _ =>
      rw [hroot] at hroot'
      cases hroot'
      obtain rfl := hok.eq_of_text he he' htext.symm
      obtain ⟨-, -, rfl⟩ | ⟨hmode', -⟩ := h
      · rfl
      · exact absurd hmode' hmode
  | @dir root es e parts v hroot he hmode _ ih =>
    obtain ⟨es', hroot', e', he', htext, h⟩ := at_cons_iff.mp hw
    rw [hroot] at hroot'
    cases hroot'
    cases hwf with
    | mk hroot' hok hsub _ =>
      rw [hroot] at hroot'
      cases hroot'
      obtain rfl := hok.eq_of_text he he' htext.symm
      obtain ⟨-, hmode', -⟩ | ⟨-, h⟩ := h
      · exact absurd hmode hmode'
      · exact ih (hsub e he hmode) h

/-- What a tree has at each path: values by their paths, one each, at plain paths. -/
structure Values (P : List PyStr → Option (Int × Text) → Prop) : Prop where
  unique : ∀ parts o o', P parts o → P parts o' → o = o'
  total : ∀ parts, ∃ o, P parts o
  plain : ∀ parts v, P parts (some v) → Plain parts

/-- The values of a tree that is not there. -/
def Nothing (_ : List PyStr) (o : Option (Int × Text)) : Prop := o = none

/-- Nothing has no values. -/
theorem values_nothing : Values Nothing :=
  ⟨fun _ _ _ h h' => h.trans h'.symm, fun _ => ⟨none, rfl⟩, fun _ _ h => by cases h⟩

/-- A well-formed tree has one value at each path. -/
theorem values_at {root : Text} (hwf : WellFormed read root) : Values (At read root) where
  unique := fun parts o o' h h' => by
    cases o with
    | none =>
      cases o' with
      | none => rfl
      | some v =>
        obtain ⟨m, -, hv⟩ := h'
        exact absurd hv (h _)
    | some v =>
      obtain ⟨m, hm, hv⟩ := h
      cases o' with
      | none => exact absurd hv (h' _)
      | some w =>
        obtain ⟨k, hk, hw⟩ := h'
        have heq := FileAt.unique hwf hv hw
        rw [Prod.mk.injEq] at heq
        rw [Option.some.injEq, Prod.ext_iff, ← hm, ← hk, heq.1]
        exact ⟨rfl, heq.2⟩
  total := fun parts => by
    by_cases h : ∃ v, FileAt read root parts v
    · obtain ⟨v, hv⟩ := h
      exact ⟨some ((v.1 : Int), v.2), v.1, rfl, hv⟩
    · exact ⟨none, fun v hv => h ⟨v, hv⟩⟩
  plain := fun parts v h => by
    obtain ⟨m, -, hv⟩ := h
    exact plain_of_at hwf hv

/-- The values below a root that may be missing. -/
def AtRoot (read : Text → Option (List (TreeEntry Text))) : Option Text → List PyStr →
    Option (Int × Text) → Prop
  | none => Nothing
  | some root => At read root

/-- The values below an entry that may be missing. -/
def Under (read : Text → Option (List (TreeEntry Text))) : Option (Int × Text) → List PyStr →
    Option (Int × Text) → Prop
  | none, _, o => o = none
  | some e, parts, o =>
    if isTree e then At read e.2 parts o else o = if parts = [] then some e else none

/-- An optional root has one value at each path. -/
theorem values_atRoot {root : Option Text} (h : ∀ s ∈ root, WellFormed read s) :
    Values (AtRoot read root) := by
  cases root with
  | none => exact values_nothing
  | some s => exact values_at (h s rfl)

/-- A listing as the code reads it. -/
def listing (es : List (TreeEntry Text)) : Entries := Table.ofPairs (es.map entryOf)

/-- The listing of a tree has its entries under their names. -/
theorem get_listing {es : List (TreeEntry Text)} (h : TreeOk es) {n : PyStr} {v : Int × Text} :
    (listing es).get n = some v ↔ ∃ e ∈ es, e.text = n ∧ ((e.mode : Int), e.sha) = v := by
  have hnodup : ((es.map entryOf).map Prod.fst).Nodup := by
    rw [List.map_map]
    have := h.distinct.map fsDecode_injective
    rwa [List.map_map] at this
  rw [listing, Table.get_ofPairs_of_nodup hnodup, List.mem_map]
  refine exists_congr fun e => and_congr_right fun _ => ?_
  simp only [entryOf, Prod.mk.injEq]

/-- A tree is told by its mode. -/
theorem isTree_mode (m : Nat) (sha : Text) : isTree ((m : Int), sha) = true ↔ m = treeMode := by
  rw [isTree, decide_eq_true_iff, treeMode]
  omega

/-- Below a name the tree has what its line says. -/
theorem at_cons {root : Text} {es : List (TreeEntry Text)} (hroot : read root = some es)
    (hok : TreeOk es) (name : PyStr) (rest : List PyStr) (o : Option (Int × Text)) :
    At read root (name :: rest) o ↔ Under read ((listing es).get name) rest o := by
  have hfile (v : Nat × Text) : FileAt read root (name :: rest) v ↔ ∃ e ∈ es, e.text = name ∧
      ((rest = [] ∧ e.mode ≠ treeMode ∧ v = (e.mode, e.sha)) ∨
        (e.mode = treeMode ∧ FileAt read e.sha rest v)) := by
    rw [at_cons_iff]
    constructor
    · rintro ⟨es', hes', h⟩
      rw [hroot] at hes'
      cases hes'
      exact h
    · exact fun h => ⟨es, hroot, h⟩
  cases hget : (listing es).get name with
  | none =>
    have hno : ∀ v, ¬ FileAt read root (name :: rest) v := by
      intro v hv
      obtain ⟨e, he, htext, -⟩ := (hfile v).mp hv
      have := (get_listing hok).mpr ⟨e, he, htext, rfl⟩
      rw [hget] at this
      cases this
    cases o with
    | none => exact ⟨fun _ => rfl, fun _ => hno⟩
    | some v => exact ⟨fun ⟨m, _, hv⟩ => absurd hv (hno _), fun h => by cases h⟩
  | some x =>
    obtain ⟨e, he, htext, rfl⟩ := (get_listing hok).mp hget
    -- the name has one line
    have hline (v : Nat × Text) : FileAt read root (name :: rest) v ↔
        (rest = [] ∧ e.mode ≠ treeMode ∧ v = (e.mode, e.sha)) ∨
          (e.mode = treeMode ∧ FileAt read e.sha rest v) := by
      rw [hfile]
      constructor
      · rintro ⟨e', he', htext', h⟩
        obtain rfl := hok.eq_of_text he he' (htext.trans htext'.symm)
        exact h
      · exact fun h => ⟨e, he, htext, h⟩
    rw [Under]
    by_cases hmode : e.mode = treeMode
    · rw [if_pos ((isTree_mode _ _).mpr hmode)]
      have hsame (v : Nat × Text) :
          FileAt read root (name :: rest) v ↔ FileAt read e.sha rest v := by
        rw [hline]
        simp [hmode]
      cases o with
      | none => exact forall_congr' fun v => not_congr (hsame v)
      | some v => exact exists_congr fun m => and_congr_right fun _ => hsame _
    · rw [if_neg fun h => hmode ((isTree_mode _ _).mp h)]
      have hsame (v : Nat × Text) :
          FileAt read root (name :: rest) v ↔ rest = [] ∧ v = (e.mode, e.sha) := by
        rw [hline]
        simp [hmode]
      cases o with
      | none =>
        refine (forall_congr' fun v => not_congr (hsame v)).trans ?_
        split_ifs with hrest
        · simp [hrest]
        · simp [hrest]
      | some v =>
        refine (exists_congr fun m => and_congr_right fun _ => hsame _).trans ?_
        obtain ⟨m, s⟩ := v
        split_ifs with hrest
        · simp only [hrest, true_and, Prod.mk.injEq, Option.some.injEq]
          constructor
          · rintro ⟨k, rfl, rfl, rfl⟩
            exact ⟨rfl, rfl⟩
          · rintro ⟨rfl, rfl⟩
            exact ⟨e.mode, rfl, rfl, rfl⟩
        · simp [hrest]

/-- The values under the entries of a listing. -/
theorem values_under {e : Option (Int × Text)}
    (h : ∀ x ∈ e, isTree x = true → WellFormed read x.2) : Values (Under read e) := by
  cases e with
  | none => exact values_nothing
  | some x =>
    by_cases htree : isTree x = true
    · have heq : Under read (some x) = At read x.2 := by
        funext parts o
        rw [Under, if_pos htree]
      rw [heq]
      exact values_at (h x rfl htree)
    · have heq : Under read (some x) = fun parts o => o = if parts = [] then some x else none := by
        funext parts o
        rw [Under, if_neg htree]
      rw [heq]
      refine ⟨fun _ _ _ h h' => h.trans h'.symm, fun _ => ⟨_, rfl⟩, fun parts v hv => ?_⟩
      split_ifs at hv with hparts
      rw [hparts]
      exact fun _ hx => by cases hx

end

/-! ### Lists of changes -/

section

variable {P Q : List PyStr → Option (Int × Text) → Prop} {d : List PyStr}

/-- A change between the values below a directory. -/
def Differ (P Q : List PyStr → Option (Int × Text) → Prop) (d : List PyStr) (c : TreeChange) :
    Prop :=
  ∃ rest o n, P rest o ∧ Q rest n ∧ o ≠ n ∧ c = changeOf (joined (d ++ rest)) o n

/-- The changes between the values below a directory, one for a path. -/
structure Lists (P Q : List PyStr → Option (Int × Text) → Prop) (d : List PyStr)
    (cs : List TreeChange) : Prop where
  once : (cs.map TreeChange.path).Nodup
  exact : ∀ c, c ∈ cs ↔ Differ P Q d c

/-- A change is about its path. -/
theorem changeOf_path (path : PyStr) (o n : Option (Int × Text)) :
    (changeOf path o n).path = path := rfl

/-- Where both sides have the same values nothing changes. -/
theorem lists_nil (hP : Values P) (d : List PyStr) : Lists P P d [] := by
  refine ⟨List.nodup_nil, fun c => ⟨nofun, ?_⟩⟩
  rintro ⟨rest, o, n, ho, hn, hne, -⟩
  exact absurd (hP.unique rest o n ho hn) hne

/-- The path of a change is plain. -/
theorem plain_of_differ (hP : Values P) (hQ : Values Q) {rest : List PyStr}
    {o n : Option (Int × Text)} (ho : P rest o) (hn : Q rest n) (hne : o ≠ n) : Plain rest := by
  cases o with
  | some v => exact hP.plain rest v ho
  | none =>
    cases n with
    | some w => exact hQ.plain rest w hn
    | none => exact absurd rfl hne

theorem plain_append {ps qs : List PyStr} (hp : Plain ps) (hq : Plain qs) : Plain (ps ++ qs) :=
  fun x hx => (List.mem_append.mp hx).elim (hp x) (hq x)

/-- What goes and what comes, where no path has both. -/
theorem Lists.append (hP : Values P) (hQ : Values Q) (hd : Plain d)
    (hdisj : ∀ rest, P rest none ∨ Q rest none) {gone come : List TreeChange}
    (hgone : Lists P Nothing d gone) (hcome : Lists Nothing Q d come) :
    Lists P Q d (gone ++ come) := by
  refine ⟨?_, fun c => ?_⟩
  · rw [List.map_append]
    refine List.nodup_append.mpr ⟨hgone.once, hcome.once, ?_⟩
    rintro path hg path' hc rfl
    obtain ⟨c, hc', rfl⟩ := List.mem_map.mp hg
    obtain ⟨c', hc'', heq⟩ := List.mem_map.mp hc
    obtain ⟨rest, o, n, ho, rfl, hne, rfl⟩ := (hgone.exact c).mp hc'
    obtain ⟨rest', o', n', rfl, hn', hne', rfl⟩ := (hcome.exact c').mp hc''
    rw [changeOf_path, changeOf_path] at heq
    have hrest := List.append_cancel_left (joined_inj
      (plain_append hd (plain_of_differ values_nothing hQ rfl hn' hne'))
      (plain_append hd (plain_of_differ hP values_nothing ho rfl hne)) heq)
    rw [hrest] at hn'
    obtain h | h := hdisj rest
    · exact hne (hP.unique _ _ _ ho h)
    · exact hne' (hQ.unique _ _ _ hn' h).symm
  · rw [List.mem_append, hgone.exact, hcome.exact]
    constructor
    · rintro (⟨rest, o, n, ho, rfl, hne, rfl⟩ | ⟨rest, o, n, rfl, hn, hne, rfl⟩)
      · obtain h | h := hdisj rest
        · exact absurd (hP.unique _ _ _ ho h) hne
        · exact ⟨rest, o, none, ho, h, hne, rfl⟩
      · obtain h | h := hdisj rest
        · exact ⟨rest, none, n, h, hn, hne, rfl⟩
        · exact absurd (hQ.unique _ _ _ hn h).symm hne
    · rintro ⟨rest, o, n, ho, hn, hne, rfl⟩
      obtain h | h := hdisj rest
      · obtain rfl := hP.unique _ _ _ ho h
        exact .inr ⟨rest, none, n, rfl, hn, hne, rfl⟩
      · obtain rfl := hQ.unique _ _ _ hn h
        exact .inl ⟨rest, o, none, ho, rfl, hne, rfl⟩

end

/-! ### One name -/

section

variable {read : Text → Option (List (TreeEntry Text))}

/-- The subtrees nest at most so deep. -/
inductive Within (read : Text → Option (List (TreeEntry Text))) : Nat → Text → Prop
  | mk {n : Nat} {root : Text} {es : List (TreeEntry Text)} : read root = some es → TreeOk es →
      (∀ e ∈ es, e.mode = treeMode → Within read n e.sha) → Within read (n + 1) root

/-- A well-formed tree that nests at most so deep. -/
structure Ready (read : Text → Option (List (TreeEntry Text))) (n : Nat) (root : Text) : Prop where
  wellFormed : WellFormed read root
  within : Within read n root

/-- The walk lists the changes below every directory. -/
def Walks (read : Text → Option (List (TreeEntry Text))) (n : Nat)
    (walk : PyStr → Option Text → Option Text → Except Stop (List TreeChange)) : Prop :=
  ∀ (d : List PyStr) (old new : Option Text), Plain d → (∀ s ∈ old, Ready read n s) →
    (∀ s ∈ new, Ready read n s) → ∃ cs, walk (joined d) old new = .ok cs ∧
      Lists (AtRoot read old) (AtRoot read new) d cs

variable {n : Nat} {walk : PyStr → Option Text → Option Text → Except Stop (List TreeChange)}
  {d : List PyStr}

/-- Below a tree entry are the tree's own values. -/
theorem under_tree {e : Int × Text} (h : isTree e = true) :
    Under read (some e) = At read e.2 := by
  funext parts o
  rw [Under, if_pos h]

/-- Below a file there is nothing. -/
theorem under_file {e : Int × Text} (h : ¬ isTree e = true) {parts : List PyStr}
    {o : Option (Int × Text)} :
    Under read (some e) parts o ↔ o = if parts = [] then some e else none := by
  rw [Under, if_neg h]

/-- One change at the directory itself. -/
theorem lists_singleton {P Q : List PyStr → Option (Int × Text) → Prop}
    {o n : Option (Int × Text)} (hne : o ≠ n)
    (hP : ∀ parts v, P parts v ↔ v = if parts = [] then o else none)
    (hQ : ∀ parts v, Q parts v ↔ v = if parts = [] then n else none) (d : List PyStr) :
    Lists P Q d [changeOf (joined d) o n] := by
  refine ⟨List.nodup_singleton _, fun c => ?_⟩
  rw [List.mem_singleton]
  constructor
  · rintro rfl
    exact ⟨[], o, n, (hP _ _).mpr rfl, (hQ _ _).mpr rfl, hne, by rw [List.append_nil]⟩
  · rintro ⟨rest, o', n', ho, hn, hne', rfl⟩
    rw [hP] at ho
    rw [hQ] at hn
    by_cases hrest : rest = []
    · rw [if_pos hrest] at ho hn
      rw [ho, hn, hrest, List.append_nil]
    · rw [if_neg hrest] at ho hn
      exact absurd (ho.trans hn.symm) hne'

theorem nothing_iff (parts : List PyStr) (v : Option (Int × Text)) :
    Nothing parts v ↔ v = if parts = [] then none else none := by
  rw [ite_self]
  rfl

/-- A side that goes is listed as gone, file by file. -/
theorem exists_gone (hw : Walks read n walk) (hd : Plain d) {e : Int × Text}
    (he : isTree e = true → Ready read n e.2) :
    ∃ cs, emitSide walk (joined d) e false = .ok cs ∧
      Lists (Under read (some e)) Nothing d cs := by
  by_cases htree : isTree e = true
  · obtain ⟨cs, hcs, hlists⟩ := hw d (some e.2) none hd
      (fun s hs => by obtain rfl := Option.mem_some_iff.mp hs; exact he htree)
      (fun s hs => by cases hs)
    rw [emitSide, if_pos htree, under_tree htree]
    exact ⟨cs, hcs, hlists⟩
  · rw [emitSide, if_neg htree]
    have hne : some e ≠ none := nofun
    exact ⟨[changeOf (joined d) (some e) none], rfl,
      lists_singleton hne (fun _ _ => under_file htree) nothing_iff d⟩

/-- A side that comes is listed as come, file by file. -/
theorem exists_come (hw : Walks read n walk) (hd : Plain d) {e : Int × Text}
    (he : isTree e = true → Ready read n e.2) :
    ∃ cs, emitSide walk (joined d) e true = .ok cs ∧
      Lists Nothing (Under read (some e)) d cs := by
  by_cases htree : isTree e = true
  · obtain ⟨cs, hcs, hlists⟩ := hw d none (some e.2) hd (fun s hs => by cases hs)
      (fun s hs => by obtain rfl := Option.mem_some_iff.mp hs; exact he htree)
    rw [emitSide, if_pos htree, under_tree htree]
    exact ⟨cs, hcs, hlists⟩
  · rw [emitSide, if_neg htree]
    have hne : none ≠ some e := nofun
    exact ⟨[changeOf (joined d) none (some e)], rfl,
      lists_singleton hne nothing_iff (fun _ _ => under_file htree) d⟩

/-- Two entries are compared, and the list is exact below them. -/
theorem exists_compare (hw : Walks read n walk) (hd : Plain d) {o m : Option (Int × Text)}
    (ho : ∀ x ∈ o, isTree x = true → Ready read n x.2)
    (hm : ∀ x ∈ m, isTree x = true → Ready read n x.2) :
    ∃ cs, compare walk (joined d) o m = .ok cs ∧ Lists (Under read o) (Under read m) d cs := by
  have hvo := values_under fun x hx htree => (ho x hx htree).wellFormed
  have hvm := values_under fun x hx htree => (hm x hx htree).wellFormed
  cases o with
  | none =>
    cases m with
    | none => exact ⟨[], rfl, lists_nil values_nothing d⟩
    | some m => exact exists_come hw hd (hm m rfl)
  | some o =>
    cases m with
    | none => exact exists_gone hw hd (ho o rfl)
    | some m =>
      rw [compare]
      by_cases heq : o = m
      · subst heq
        rw [if_pos rfl]
        exact ⟨[], rfl, lists_nil hvo d⟩
      rw [if_neg heq]
      -- two trees are walked together, two files are one change
      by_cases hto : isTree o = true <;> by_cases htm : isTree m = true
      · obtain ⟨cs, hcs, hlists⟩ := hw d (some o.2) (some m.2) hd
          (fun s hs => by obtain rfl := Option.mem_some_iff.mp hs; exact ho o rfl hto)
          (fun s hs => by obtain rfl := Option.mem_some_iff.mp hs; exact hm m rfl htm)
        rw [hto, htm, under_tree hto, under_tree htm]
        exact ⟨cs, hcs, hlists⟩
      -- a tree and a file share no path: the file stands at the empty rest only
      · have hdisj : ∀ rest, Under read (some o) rest none ∨ Under read (some m) rest none := by
          intro rest
          by_cases hrest : rest = []
          · left
            rw [hrest, under_tree hto]
            exact fun v hv => not_at_nil hv
          · right
            rw [under_file htm, if_neg hrest]
        obtain ⟨gone, hgone, hlg⟩ := exists_gone hw hd (ho o rfl)
        obtain ⟨come, hcome, hlc⟩ := exists_come hw hd (hm m rfl)
        rw [Bool.not_eq_true] at htm
        rw [hto, htm, hgone, hcome]
        exact ⟨gone ++ come, rfl, hlg.append hvo hvm hd hdisj hlc⟩
      · have hdisj : ∀ rest, Under read (some o) rest none ∨ Under read (some m) rest none := by
          intro rest
          by_cases hrest : rest = []
          · right
            rw [hrest, under_tree htm]
            exact fun v hv => not_at_nil hv
          · left
            rw [under_file hto, if_neg hrest]
        obtain ⟨gone, hgone, hlg⟩ := exists_gone hw hd (ho o rfl)
        obtain ⟨come, hcome, hlc⟩ := exists_come hw hd (hm m rfl)
        rw [Bool.not_eq_true] at hto
        rw [hto, htm, hgone, hcome]
        exact ⟨gone ++ come, rfl, hlg.append hvo hvm hd hdisj hlc⟩
      · have hne : some o ≠ some m := fun h => heq (Option.some.inj h)
        have hlist := lists_singleton (P := Under read (some o)) (Q := Under read (some m)) hne
          (fun _ _ => under_file hto) (fun _ _ => under_file htm) d
        rw [Bool.not_eq_true] at hto htm
        rw [hto, htm]
        exact ⟨[changeOf (joined d) (some o) (some m)], rfl, hlist⟩

end

/-! ### All names -/

section

variable {P Q : List PyStr → Option (Int × Text) → Prop} {d : List PyStr}

/-- The values below a name. -/
theorem Values.below (h : Values P) (name : PyStr) : Values fun rest => P (name :: rest) where
  unique := fun _ _ _ => h.unique _ _ _
  total := fun _ => h.total _
  plain := fun rest v hv x hx => h.plain (name :: rest) v hv x (List.mem_cons_of_mem _ hx)

/-- The changes under some names, one name behind the other. -/
theorem exists_mapM (hP : Values P) (hQ : Values Q) (hd : Plain d)
    {f : PyStr → Except Stop (List TreeChange)} {l : List PyStr} (hnodup : l.Nodup)
    (hf : ∀ name ∈ l, Plain [name] ∧ ∃ cs, f name = .ok cs ∧
      Lists (fun rest => P (name :: rest)) (fun rest => Q (name :: rest)) (d ++ [name]) cs) :
    ∃ css, l.mapM f = .ok css ∧ (css.flatten.map TreeChange.path).Nodup ∧
      ∀ c, c ∈ css.flatten ↔ ∃ name ∈ l,
        Differ (fun rest => P (name :: rest)) (fun rest => Q (name :: rest)) (d ++ [name]) c := by
  induction l with
  | nil => exact ⟨[], rfl, List.nodup_nil, fun c => by simp⟩
  | cons name l ih =>
    rw [List.nodup_cons] at hnodup
    obtain ⟨hplain, cs, hcs, hlists⟩ := hf name List.mem_cons_self
    obtain ⟨css, hcss, honce, hexact⟩ := ih hnodup.2 fun x hx => hf x (List.mem_cons_of_mem _ hx)
    refine ⟨cs :: css, by rw [List.mapM_cons, hcs, hcss]; rfl, ?_, fun c => ?_⟩
    · rw [List.flatten_cons, List.map_append]
      refine List.nodup_append.mpr ⟨hlists.once, honce, ?_⟩
      rintro path hp path' hp' rfl
      obtain ⟨c, hc, rfl⟩ := List.mem_map.mp hp
      obtain ⟨c', hc', heq⟩ := List.mem_map.mp hp'
      obtain ⟨rest, o, n, ho, hn, hne, rfl⟩ := (hlists.exact c).mp hc
      obtain ⟨name', hmem, rest', o', n', ho', hn', hne', rfl⟩ := (hexact c').mp hc'
      -- the two changes are below different names
      have hone := plain_append (plain_append hd hplain)
        (plain_of_differ (hP.below name) (hQ.below name) ho hn hne)
      have htwo := plain_append (plain_append hd (hf name' (List.mem_cons_of_mem _ hmem)).1)
        (plain_of_differ (hP.below name') (hQ.below name') ho' hn' hne')
      have hsame := joined_inj htwo hone heq
      rw [List.append_assoc, List.append_assoc] at hsame
      obtain rfl : name' = name := (List.cons.inj (List.append_cancel_left hsame)).1
      exact hnodup.1 hmem
    · rw [List.flatten_cons, List.mem_append, hlists.exact, hexact]
      simp

/-- The changes under all names that one of the sides has. -/
theorem lists_of_names (hP : Values P) (hQ : Values Q) {l : List PyStr} {cs : List TreeChange}
    (honce : (cs.map TreeChange.path).Nodup)
    (hexact : ∀ c, c ∈ cs ↔ ∃ name ∈ l,
      Differ (fun rest => P (name :: rest)) (fun rest => Q (name :: rest)) (d ++ [name]) c)
    (hroot : P [] none ∧ Q [] none)
    (hother : ∀ name ∉ l, ∀ rest, P (name :: rest) none ∧ Q (name :: rest) none) :
    Lists P Q d cs := by
  refine ⟨honce, fun c => ?_⟩
  rw [hexact]
  constructor
  · rintro ⟨name, -, rest, o, n, ho, hn, hne, rfl⟩
    exact ⟨name :: rest, o, n, ho, hn, hne, by rw [List.append_assoc]; rfl⟩
  · rintro ⟨parts, o, n, ho, hn, hne, rfl⟩
    cases parts with
    | nil => exact absurd ((hP.unique _ _ _ ho hroot.1).trans (hQ.unique _ _ _ hn hroot.2).symm) hne
    | cons name rest =>
      by_cases hmem : name ∈ l
      · exact ⟨name, hmem, rest, o, n, ho, hn, hne, by rw [List.append_assoc]; rfl⟩
      · obtain ⟨hp, hq⟩ := hother name hmem rest
        exact absurd ((hP.unique _ _ _ ho hp).trans (hQ.unique _ _ _ hn hq).symm) hne

end

/-! ### The walk -/

section

variable {read : Text → Option (List (TreeEntry Text))} {readObject : Text → Option (Text × Bytes)}
  {order : List PyStr → List PyStr}

/-- The listing of a root that may be missing. -/
structure Loaded (read : Text → Option (List (TreeEntry Text))) (n : Nat) (root : Option Text)
    (es : Entries) : Prop where
  below : ∀ name rest o, AtRoot read root (name :: rest) o ↔ Under read (es.get name) rest o
  plain : ∀ name ∈ es.keys, Plain [name]
  ready : ∀ name, ∀ x ∈ es.get name, isTree x = true → Ready read n x.2

/-- A tree that is within the store is loaded. -/
theorem exists_loaded (hstore : Stores read readObject) {n : Nat} {root : Option Text}
    (h : ∀ s ∈ root, Ready read (n + 1) s) :
    ∃ es, load readObject root = some es ∧ Loaded read n root es := by
  cases root with
  | none =>
    refine ⟨∅, rfl, fun _ _ _ => Iff.rfl, fun name hname => ?_, fun name x hx => ?_⟩
    · cases hname
    · cases hx
  | some s =>
    obtain ⟨hwf, hwithin⟩ := h s rfl
    cases hwithin with
    | @mk _ _ es hroot hok hsub =>
      cases hwf with
      | mk hroot' _ hwf _ =>
        rw [hroot] at hroot'
        cases hroot'
        obtain ⟨payload, hobj, hpayload⟩ := hstore s es hroot
        refine ⟨listing es, ?_, at_cons hroot hok, fun name hname => ?_, fun name x hx htree => ?_⟩
        · rw [load, hobj]
          exact (if_pos rfl).trans (parseTreeEntries_payload hpayload)
        · obtain ⟨v, hv⟩ := Table.mem_keys_iff.mp hname
          obtain ⟨e, he, rfl, -⟩ := (get_listing hok).mp hv
          intro y hy
          obtain rfl := List.mem_singleton.mp hy
          exact plain_text hok he
        · obtain ⟨e, he, -, rfl⟩ := (get_listing hok).mp hx
          have hmode := (isTree_mode _ _).mp htree
          exact ⟨hwf e he hmode, hsub e he hmode⟩

/-- The names of both sides are walked. -/
theorem mem_unionNames {os ns : Entries} {name : PyStr} :
    name ∈ unionNames os ns ↔ name ∈ os.keys ∨ name ∈ ns.keys := by
  rw [unionNames, List.mem_append, List.mem_filter, decide_eq_true_iff]
  tauto

/-- Each name is walked once. -/
theorem nodup_unionNames (os ns : Entries) : (unionNames os ns).Nodup := by
  refine List.nodup_append.mpr ⟨os.nodup, ns.nodup.filter _, fun a ha b hb => ?_⟩
  rintro rfl
  exact absurd ha (by simpa using (List.mem_filter.mp hb).2)

/-- With fuel for the depth of the trees, the walk lists the changes. -/
theorem walks (hstore : Stores read readObject) (horder : ∀ l, (order l).Perm l) {n fuel : Nat}
    (hfuel : n < fuel) : Walks read n (walk readObject order fuel) := by
  induction n generalizing fuel with
  | zero =>
    intro d old new hd ho hn
    obtain ⟨fuel, rfl⟩ : ∃ k, fuel = k + 1 := ⟨fuel - 1, by omega⟩
    -- no tree is ready within no level
    have hnone {root : Option Text} (h : ∀ s ∈ root, Ready read 0 s) : root = none := by
      cases root with
      | none => rfl
      | some s => cases (h s rfl).within
    rw [hnone ho, hnone hn]
    exact ⟨[], rfl, lists_nil values_nothing d⟩
  | succ n ih =>
    intro d old new hd ho hn
    obtain ⟨fuel, rfl⟩ : ∃ k, fuel = k + 1 := ⟨fuel - 1, by omega⟩
    have hvo := values_atRoot fun s hs => (ho s hs).wellFormed
    have hvn := values_atRoot fun s hs => (hn s hs).wellFormed
    rw [walk]
    by_cases heq : old = new
    · subst heq
      rw [if_pos rfl]
      exact ⟨[], rfl, lists_nil hvo d⟩
    rw [if_neg heq]
    obtain ⟨os, hos, hlo⟩ := exists_loaded hstore ho
    obtain ⟨ns, hns, hln⟩ := exists_loaded hstore hn
    rw [hos, hns]
    -- the names of either tree, each once, in whatever order
    have hmem (name : PyStr) : name ∈ order (unionNames os ns) ↔ name ∈ os.keys ∨ name ∈ ns.keys :=
      (horder _).mem_iff.trans mem_unionNames
    obtain ⟨css, hcss, honce, hexact⟩ := exists_mapM hvo hvn hd
      (f := fun name => compare (walk readObject order fuel) (childPath (joined d) name)
        (os.get name) (ns.get name))
      ((horder _).nodup_iff.mpr (nodup_unionNames os ns)) fun name hname => by
        have hplain : Plain [name] :=
          ((hmem name).mp hname).elim (hlo.plain name) (hln.plain name)
        refine ⟨hplain, ?_⟩
        obtain ⟨cs, hcs, hlists⟩ := exists_compare (ih (Nat.lt_of_succ_lt_succ hfuel))
          (plain_append hd hplain) (hlo.ready name) (hln.ready name)
        refine ⟨cs, by rw [childPath_joined hd]; exact hcs, ?_⟩
        -- under one name the trees are those of the entries
        have hbo : (fun rest => AtRoot read old (name :: rest)) = Under read (os.get name) := by
          funext rest o
          exact propext (hlo.below name rest o)
        have hbn : (fun rest => AtRoot read new (name :: rest)) = Under read (ns.get name) := by
          funext rest o
          exact propext (hln.below name rest o)
        rw [hbo, hbn]
        exact hlists
    refine ⟨css.flatten, ?_, lists_of_names hvo hvn honce hexact ?_ fun name hname rest => ?_⟩
    · simp only [hcss]
      rfl
    · have hnil (root : Option Text) : AtRoot read root [] none := by
        cases root with
        | none => rfl
        | some s => exact fun v hv => not_at_nil hv
      exact ⟨hnil old, hnil new⟩
    · rw [hmem, not_or, ← Table.get_eq_none_iff, ← Table.get_eq_none_iff] at hname
      rw [hlo.below, hln.below, hname.1, hname.2]
      exact ⟨rfl, rfl⟩

/-! ### The whole diff -/

/-- More fuel reaches as deep. -/
theorem Within.mono {n m : Nat} {root : Text} (h : Within read n root) (hle : n ≤ m) :
    Within read m root := by
  induction h generalizing m with
  | mk hroot hok _ ih =>
    obtain ⟨m, rfl⟩ : ∃ k, m = k + 1 := ⟨m - 1, by omega⟩
    exact .mk hroot hok fun e he hmode => ih e he hmode (Nat.le_of_succ_le_succ hle)

/-- A well-formed tree has a depth. -/
theorem exists_within {root : Text} (h : WellFormed read root) : ∃ n, Within read n root := by
  induction h with
  | @mk root es hroot hok _ _ ih =>
    have hall : ∀ l : List (TreeEntry Text), (∀ e ∈ l, e ∈ es) →
        ∃ n, ∀ e ∈ l, e.mode = treeMode → Within read n e.sha := by
      intro l
      induction l with
      | nil => exact fun _ => ⟨0, fun _ he => by cases he⟩
      | cons e l ihl =>
        intro hl
        obtain ⟨n, hn⟩ := ihl fun x hx => hl x (List.mem_cons_of_mem _ hx)
        by_cases hmode : e.mode = treeMode
        · obtain ⟨m, hm⟩ := ih e (hl e List.mem_cons_self) hmode
          refine ⟨max n m, ?_⟩
          rintro x (_ | ⟨_, hx⟩) hxmode
          · exact hm.mono (Nat.le_max_right _ _)
          · exact (hn x hx hxmode).mono (Nat.le_max_left _ _)
        · refine ⟨n, ?_⟩
          rintro x (_ | ⟨_, hx⟩) hxmode
          · exact absurd hxmode hmode
          · exact hn x hx hxmode
    obtain ⟨n, hn⟩ := hall es fun _ he => he
    exact ⟨n + 1, .mk hroot hok hn⟩

/-- Lists of changes below the root are the difference of the trees. -/
theorem Lists.pointwise {old new : Text} (ho : WellFormed read old) (hn : WellFormed read new)
    {cs : List TreeChange} (h : Lists (At read old) (At read new) [] cs) :
    PointwiseDiff read old new cs := by
  have hvo := values_at ho
  have hvn := values_at hn
  refine ⟨h.once, h.exact, fun parts o n hne hplain hold hnew => ?_⟩
  by_cases heq : o = n
  · -- no change has this path
    have hno : (cs.find? fun c => c.path = joined parts) = none := by
      refine List.find?_eq_none.mpr fun c hc hpath => ?_
      obtain ⟨rest, o', n', ho', hn', hne', rfl⟩ := (h.exact c).mp hc
      rw [decide_eq_true_iff, changeOf_path, List.nil_append] at hpath
      obtain rfl := joined_inj (plain_of_differ hvo hvn ho' hn' hne') hplain hpath
      exact hne' ((hvo.unique _ _ _ ho' hold).trans (heq.trans (hvn.unique _ _ _ hn' hnew).symm))
    rw [hno, ← heq]
    rfl
  · have hmem : changeOf (joined parts) o n ∈ cs :=
      (h.exact _).mpr ⟨parts, o, n, hold, hnew, heq, rfl⟩
    cases hfind : cs.find? fun c => c.path = joined parts with
    | none =>
      exact absurd (changeOf_path ..) (by simpa using List.find?_eq_none.mp hfind _ hmem)
    | some c =>
      have hpath : c.path = joined parts := by simpa using List.find?_some hfind
      have hsame : c = changeOf (joined parts) o n :=
        List.inj_on_of_nodup_map h.once (List.mem_of_find?_eq_some hfind) hmem hpath
      rw [hsame]
      rfl

/-- **The diff is the pointwise difference.** Between commits with well-formed trees,
`diff_commit_trees` comes to an end, and the changes are the difference of the flattened trees. -/
theorem diffCommitTrees_pointwise (hstore : Stores read readObject)
    (horder : ∀ l, (order l).Perm l) {oldCommit newCommit : Text} {old new : CommitInfo}
    (hold : readCommit readObject oldCommit = some old)
    (hnew : readCommit readObject newCommit = some new) (ho : WellFormed read old.tree)
    (hn : WellFormed read new.tree) :
    ∃ enough, ∀ fuel, enough < fuel → ∃ changes,
      diffCommitTrees readObject order fuel oldCommit newCommit = .ok changes ∧
        PointwiseDiff read old.tree new.tree changes := by
  obtain ⟨n, hwo⟩ := exists_within ho
  obtain ⟨m, hwn⟩ := exists_within hn
  refine ⟨max n m, fun fuel hfuel => ?_⟩
  obtain ⟨cs, hcs, hlists⟩ := walks hstore horder hfuel [] (some old.tree) (some new.tree)
    (fun _ hx => by cases hx)
    (fun s hs => by
      obtain rfl := Option.mem_some_iff.mp hs
      exact ⟨ho, hwo.mono (Nat.le_max_left _ _)⟩)
    (fun s hs => by
      obtain rfl := Option.mem_some_iff.mp hs
      exact ⟨hn, hwn.mono (Nat.le_max_right _ _)⟩)
  have hperm := List.mergeSort_perm cs fun a b : TreeChange => a.path ≤ b.path
  refine ⟨_, ?_, Lists.pointwise ho hn ⟨(hperm.map _).nodup_iff.mpr hlists.once,
    fun c => hperm.mem_iff.trans (hlists.exact c)⟩⟩
  rw [diffCommitTrees, hold, hnew]
  simp only [← joined_nil, hcs]
  rfl

end

/-! ### A file that becomes a directory -/

/-- Twenty bytes of one value. -/
def rawSha (b : UInt8) : Bytes := List.replicate 20 b

def fileLine (name : UInt8) : TreeEntry Text := ⟨[name], 0o100644, hex (rawSha 1)⟩

def dirLine : TreeEntry Text := ⟨[0x61], treeMode, hex (rawSha 2)⟩

/-- The old tree is `3`, with the file `a`; the new one is `4`, with `a/x`. -/
def twoTrees (sha : Text) : Option (List (TreeEntry Text)) :=
  if sha = hex (rawSha 3) then some [fileLine 0x61]
  else if sha = hex (rawSha 4) then some [dirLine]
  else if sha = hex (rawSha 2) then some [fileLine 0x78]
  else none

/-- A commit with this tree. -/
def commitBytes (b : UInt8) : Bytes :=
  treeField ++ ((hex (rawSha b)).map fun c => c.toNat.toUInt8) ++ [0x0a, 0x0a]

def twoCommits (sha : Text) : Option (Text × Bytes) :=
  if sha = ['o'] then some ("commit".toList, commitBytes 3)
  else if sha = ['n'] then some ("commit".toList, commitBytes 4)
  else if sha = hex (rawSha 3) then some ("tree".toList, lineBytes (fileLine 0x61) (rawSha 1) ++ [])
  else if sha = hex (rawSha 4) then some ("tree".toList, lineBytes dirLine (rawSha 2) ++ [])
  else if sha = hex (rawSha 2) then some ("tree".toList, lineBytes (fileLine 0x78) (rawSha 1) ++ [])
  else none

theorem stores_twoCommits : Stores twoTrees twoCommits := by
  intro sha es h
  rw [twoTrees] at h
  split_ifs at h with h3 h4 h2
  · obtain rfl := Option.some.inj h
    subst h3
    exact ⟨_, rfl, .cons rfl rfl (by decide) .nil⟩
  · obtain rfl := Option.some.inj h
    subst h4
    exact ⟨_, rfl, .cons rfl rfl (by decide) .nil⟩
  · obtain rfl := Option.some.inj h
    subst h2
    exact ⟨_, rfl, .cons rfl rfl (by decide) .nil⟩

theorem treeOk_singleton {e : TreeEntry Text} (h : e.name ≠ [] ∧ 0x2f ∉ e.name) : TreeOk [e] :=
  ⟨List.pairwise_singleton _ _, List.nodup_singleton _, fun x hx => by
    obtain rfl := List.mem_singleton.mp hx
    exact h⟩

theorem diffCommitTrees_fileToDir : ∃ enough, ∀ fuel, enough < fuel → ∃ changes,
    diffCommitTrees twoCommits id fuel ['o'] ['n'] = .ok changes ∧
      PointwiseDiff twoTrees (hex (rawSha 3)) (hex (rawSha 4)) changes := by
  have hfile : WellFormed twoTrees (hex (rawSha 2)) := by
    refine .mk rfl (treeOk_singleton (by decide)) (fun e he hmode => ?_) fun e he hmode => ?_
    all_goals
      obtain rfl := List.mem_singleton.mp he
      exact absurd hmode (by decide)
  have hold : readCommit twoCommits ['o'] = some ⟨hex (rawSha 3), []⟩ := rfl
  have hnew : readCommit twoCommits ['n'] = some ⟨hex (rawSha 4), []⟩ := rfl
  refine diffCommitTrees_pointwise stores_twoCommits (fun l => .refl l) hold hnew ?_ ?_
  · refine .mk rfl (treeOk_singleton (by decide)) (fun e he hmode => ?_) fun e he hmode => ?_
    all_goals
      obtain rfl := List.mem_singleton.mp he
      exact absurd hmode (by decide)
  · refine .mk rfl (treeOk_singleton (by decide)) (fun e he hmode => ?_) fun e he hmode => ?_
    · obtain rfl := List.mem_singleton.mp he
      exact hfile
    · obtain rfl := List.mem_singleton.mp he
      exact nofun

end TreeDiff

end Git

end CoordinatorCore
