import CoordinatorCore.Text.StrictUtf8
import CoordinatorCore.Machine.Table

/-!
# Tree objects

A directory of a commit is an object that lists its names, each with a mode and a hash; a
subdirectory is listed with the hash of its own object. Objects never change, so the store is the
function `read` from the hashes to the listings. `FileAt` flattens a tree: it relates a root to the
files below it. `WellFormed` is what git demands of a tree.
-/

namespace CoordinatorCore

open PyStr

namespace Git

/-- `0o40000`. -/
def treeMode : Nat := 0o40000

/-- A line of a tree object. -/
structure TreeEntry (σ : Type) where
  name : Bytes
  mode : Nat
  sha : σ
  deriving DecidableEq

namespace TreeEntry

variable {σ : Type}

/-- What git sorts by: the name, with a slash behind the name of a directory. -/
def key (e : TreeEntry σ) : Bytes := if e.mode = treeMode then e.name ++ [0x2f] else e.name

/-- The name as it is read. -/
def text (e : TreeEntry σ) : PyStr := fsDecode e.name

end TreeEntry

/-- A listing in git order, with one line for a name, and no name that is empty or a path. -/
structure TreeOk {σ : Type} (es : List (TreeEntry σ)) : Prop where
  order : es.Pairwise fun a b => a.key < b.key
  distinct : (es.map TreeEntry.name).Nodup
  plain : ∀ e ∈ es, e.name ≠ [] ∧ 0x2f ∉ e.name

section

variable {σ : Type} (read : σ → Option (List (TreeEntry σ)))

/-- A file of the flattened tree. -/
inductive FileAt : σ → List PyStr → Nat × σ → Prop
  | file {root : σ} {es : List (TreeEntry σ)} {e : TreeEntry σ} : read root = some es → e ∈ es →
      e.mode ≠ treeMode → FileAt root [e.text] (e.mode, e.sha)
  | dir {root : σ} {es : List (TreeEntry σ)} {e : TreeEntry σ} {path : List PyStr}
      {v : Nat × σ} : read root = some es → e ∈ es → e.mode = treeMode → FileAt e.sha path v →
      FileAt root (e.text :: path) v

/-- A directory of the tree, with its object. -/
inductive Reaches : σ → List PyStr → σ → Prop
  | root {root : σ} : Reaches root [] root
  | dir {root : σ} {es : List (TreeEntry σ)} {e : TreeEntry σ} {path : List PyStr} {s : σ} :
      read root = some es → e ∈ es → e.mode = treeMode → Reaches e.sha path s →
      Reaches root (e.text :: path) s

/-- Every listing of the tree is in order, and none is empty but that of the root. -/
inductive WellFormed : σ → Prop
  | mk {root : σ} {es : List (TreeEntry σ)} : read root = some es → TreeOk es →
      (∀ e ∈ es, e.mode = treeMode → WellFormed e.sha) →
      (∀ e ∈ es, e.mode = treeMode → read e.sha ≠ some []) → WellFormed root

end

section

variable {σ : Type} {read : σ → Option (List (TreeEntry σ))}

/-- A file is in the root, or below one of its directories. -/
theorem at_cons_iff {root : σ} {n : PyStr} {rest : List PyStr} {v : Nat × σ} :
    FileAt read root (n :: rest) v ↔ ∃ es, read root = some es ∧ ∃ e ∈ es, e.text = n ∧
      ((rest = [] ∧ e.mode ≠ treeMode ∧ v = (e.mode, e.sha)) ∨
        (e.mode = treeMode ∧ FileAt read e.sha rest v)) := by
  constructor
  · intro h
    cases h with
    | file hroot he hmode => exact ⟨_, hroot, _, he, rfl, .inl ⟨rfl, hmode, rfl⟩⟩
    | dir hroot he hmode h => exact ⟨_, hroot, _, he, rfl, .inr ⟨hmode, h⟩⟩
  · rintro ⟨es, hroot, e, he, rfl, ⟨rfl, hmode, rfl⟩ | ⟨hmode, h⟩⟩
    · exact .file hroot he hmode
    · exact .dir hroot he hmode h

theorem not_at_nil {root : σ} {v : Nat × σ} : ¬FileAt read root [] v := nofun

theorem reaches_cons_iff {root s : σ} {n : PyStr} {rest : List PyStr} :
    Reaches read root (n :: rest) s ↔ ∃ es, read root = some es ∧ ∃ e ∈ es, e.text = n ∧
      e.mode = treeMode ∧ Reaches read e.sha rest s := by
  constructor
  · intro h
    cases h with
    | dir hroot he hmode h => exact ⟨_, hroot, _, he, rfl, hmode, h⟩
  · rintro ⟨es, hroot, e, he, rfl, hmode, h⟩
    exact .dir hroot he hmode h

theorem reaches_nil_iff {root s : σ} : Reaches read root [] s ↔ s = root := by
  constructor
  · intro h
    cases h
    rfl
  · rintro rfl
    exact .root

/-- A way through the tree can be walked in two parts. -/
theorem reaches_append_iff {root s : σ} {d rest : List PyStr} :
    Reaches read root (d ++ rest) s ↔ ∃ t, Reaches read root d t ∧ Reaches read t rest s := by
  induction d generalizing root with
  | nil => simp [reaches_nil_iff]
  | cons n d ih =>
    rw [List.cons_append, reaches_cons_iff]
    simp only [reaches_cons_iff, ih]
    constructor
    · rintro ⟨es, hroot, e, he, hn, hmode, t, hd, hrest⟩
      exact ⟨t, ⟨es, hroot, e, he, hn, hmode, hd⟩, hrest⟩
    · rintro ⟨t, ⟨es, hroot, e, he, hn, hmode, hd⟩, hrest⟩
      exact ⟨es, hroot, e, he, hn, hmode, t, hd, hrest⟩

/-- A file below a directory is a file of that directory. -/
theorem at_append_iff {root : σ} {d rest : List PyStr} {v : Nat × σ} (hrest : rest ≠ []) :
    FileAt read root (d ++ rest) v ↔ ∃ t, Reaches read root d t ∧ FileAt read t rest v := by
  induction d generalizing root with
  | nil => simp [reaches_nil_iff]
  | cons n d ih =>
    rw [List.cons_append, at_cons_iff]
    simp only [reaches_cons_iff, ih, List.append_eq_nil_iff, hrest, and_false, false_and, false_or]
    constructor
    · rintro ⟨es, hroot, e, he, hn, hmode, t, hd, hrest⟩
      exact ⟨t, ⟨es, hroot, e, he, hn, hmode, hd⟩, hrest⟩
    · rintro ⟨t, ⟨es, hroot, e, he, hn, hmode, hd⟩, hrest⟩
      exact ⟨es, hroot, e, he, hn, hmode, t, hd, hrest⟩

theorem WellFormed.of_reaches {root s : σ} {d : List PyStr} (h : WellFormed read root)
    (hd : Reaches read root d s) : WellFormed read s := by
  induction hd with
  | root => exact h
  | dir hroot he hmode _ ih =>
    cases h with
    | mk hroot' _ hsub _ =>
      rw [hroot] at hroot'
      cases hroot'
      exact ih (hsub _ he hmode)

/-- A directory below the root is not empty. -/
theorem WellFormed.read_ne_nil {root s : σ} {d : List PyStr} (h : WellFormed read root)
    (hd : Reaches read root d s) (hne : d ≠ []) : read s ≠ some [] := by
  induction hd with
  | root => exact absurd rfl hne
  | @dir root es e path s hroot he hmode hsub ih =>
    cases h with
    | mk hroot' _ hwf hne' =>
      rw [hroot] at hroot'
      cases hroot'
      by_cases hp : path = []
      · subst hp
        rw [reaches_nil_iff] at hsub
        subst hsub
        exact hne' e he hmode
      · exact ih (hwf e he hmode) hp

/-- A tree that is not empty has a file. -/
theorem WellFormed.exists_at {root : σ} (h : WellFormed read root) (hne : read root ≠ some []) :
    ∃ path v, FileAt read root path v := by
  induction h with
  | @mk root es hroot _ _ hsub ih =>
    cases es with
    | nil => exact absurd hroot hne
    | cons e es =>
      by_cases hmode : e.mode = treeMode
      · obtain ⟨path, v, hat⟩ := ih e List.mem_cons_self hmode (hsub e List.mem_cons_self hmode)
        exact ⟨_, v, .dir hroot List.mem_cons_self hmode hat⟩
      · exact ⟨_, _, .file hroot List.mem_cons_self hmode⟩

/-- Two lines of one name are one line. -/
theorem TreeOk.eq_of_text {es : List (TreeEntry σ)} (h : TreeOk es) {a b : TreeEntry σ}
    (ha : a ∈ es) (hb : b ∈ es) (heq : a.text = b.text) : a = b :=
  List.inj_on_of_nodup_map h.distinct ha hb (fsDecode_injective heq)

/-- A path leads to one directory. -/
theorem Reaches.unique {root s t : σ} {d : List PyStr} (h : WellFormed read root)
    (hs : Reaches read root d s) (ht : Reaches read root d t) : s = t := by
  induction hs with
  | root => exact (reaches_nil_iff.mp ht).symm
  | dir hroot he hmode _ ih =>
    obtain ⟨es', hroot', e', he', htext, hmode', ht⟩ := reaches_cons_iff.mp ht
    cases h with
    | mk hroot'' hok hsub _ =>
      rw [hroot] at hroot' hroot''
      cases hroot'
      cases hroot''
      obtain rfl := hok.eq_of_text he he' htext.symm
      exact ih (hsub _ he hmode) ht

end

end Git

end CoordinatorCore
