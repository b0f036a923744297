import CoordinatorCore.Git.CommitPaths

/-!
# Commits that revert nobody

A landed commit should differ from its first parent in the named paths only. A call reads HEAD for
its old head and again for the spine, and compares the swapped ref with the old head alone: where
HEAD moves away and back, the tree is built on one commit and the parent is another
(`commitPaths_reverts_peer`). In every run in which the spine is read from the old head, and no
named path is a directory of it without a named path below, every landed commit keeps what it does
not name (`landed_faithful`).
-/

namespace CoordinatorCore

open PyStr Machine

namespace Git

section

variable {σ κ ρ : Type} (o : Objects σ κ)

/-- The tree of the commit is well formed. -/
def Sound (k : κ) : Prop := ∀ c, o.commit k = some c → WellFormed o.tree c.tree

/-- The commit of a detached HEAD is sound. -/
def SoundHead : Head κ ρ → Prop
  | .branch _ => True
  | .detached k => Sound o k

/-- A file of a commit, or of none. -/
def CommittedAt (k : Option κ) (path : Dir) (v : Nat × σ) : Prop :=
  ∃ root, Committing.treeOf o k = some root ∧ FileAt o.tree root path v

/-- The commit is a child of what its ref held, and keeps every path that its call did not name. -/
def Landing.Faithful (l : Landing σ κ ρ) : Prop :=
  ∃ c, o.commit l.sha = some c ∧ c.parents.head? = l.before ∧
    ∀ path, (∀ p ∈ l.call.named, p.parts ≠ path) →
      ∀ v, FileAt o.tree c.tree path v ↔ CommittedAt o l.before path v

/-- No changed path is a directory of the tree without a changed path below it. -/
def DirsBelow (root : σ) (assembled : Table RepoPath (Change σ)) : Prop :=
  ∀ p ∈ assembled.keys, InHead o.tree root p.parts → Below assembled p.parts

namespace Committing

/-- The spine is read from the old head; its tree is changed at files and emptied directories, and
a merge has a commit to merge into. -/
def Meets (w : Refs κ ρ) (c : Committing σ κ ρ) : Prop :=
  match c.pc with
  | .ref .spine seen => w.resolve seen = c.oldHead
  | .build => (∀ root, treeOf o c.oldHead = some root → DirsBelow o root c.call.assembled) ∧
      (c.oldHead = none → c.call.mergeHead = none)
  | _ => True

/-- The spine is that of the old head. -/
def SpineRead (c : Committing σ κ ρ) : Prop :=
  (∃ root spine, treeOf o c.oldHead = some root ∧ c.spine = some spine ∧
      readTreeSpine o.tree root c.call.assembled.keys = some spine) ∨
    c.oldHead = none ∧ c.spine = some (Table.set ∅ [] ∅)

/-- The root is the tree of the old head but for the named paths. -/
def Built (c : Committing σ κ ρ) : Prop :=
  ∃ root, c.root = some root ∧ WellFormed o.tree root ∧
    (c.oldHead = none → c.call.mergeHead = none) ∧
    ∀ path, (∀ p ∈ c.call.named, p.parts ≠ path) →
      ∀ v, FileAt o.tree root path v ↔ CommittedAt o c.oldHead path v

/-- What is known at each step of a call. -/
def Known (c : Committing σ κ ρ) : Prop :=
  match c.pc with
  | .head .old => True
  | .ref .old seen => SoundHead o seen
  | .head .spine => (∀ k ∈ c.oldHead, Sound o k) ∧ ∀ v ∈ c.memo, v = c.oldHead
  | .ref .spine seen => (∀ k ∈ c.oldHead, Sound o k) ∧ SoundHead o seen
  | .ref .backstop seen => Built o c ∧ SoundHead o seen
  | .unbornHead | .unbornRef _ => c.oldHead = none ∧ c.spine = none
  | .build => (∀ k ∈ c.oldHead, Sound o k) ∧ SpineRead o c
  | .head .backstop | .targetHead | .targetRef _ | .swap _ => Built o c

/-- The invariant of a call under way. -/
structure Inv (c : Committing σ κ ρ) : Prop where
  named : ∀ p ∈ c.call.assembled.keys, p ∈ c.call.named
  memo : ∀ v ∈ c.memo, ∀ k ∈ v, Sound o k
  known : c.Known o

end Committing

end

section

variable {σ κ ρ : Type} {o : Objects σ κ}

/-- A rewrite keeps the paths that it does not change, its directories aside. -/
theorem Rewritten.unchanged {read : σ → Option (List (TreeEntry σ))} {head root : σ}
    {assembled : Table RepoPath (Change σ)} (h : Rewritten read head assembled [] (some root))
    (hdirs : ∀ p ∈ assembled.keys, InHead read head p.parts → Below assembled p.parts) {path : Dir}
    (hpath : ∀ p ∈ assembled.keys, p.parts ≠ path) (v : Nat × σ) :
    FileAt read root path v ↔ FileAt read head path v := by
  by_cases hnil : path = []
  · subst hnil
    exact iff_of_false not_at_nil not_at_nil
  · rw [h.files root rfl path v hnil, List.nil_append]
    constructor
    · rintro (⟨p, hp, hval, -⟩ | ⟨-, hat, -⟩)
      · obtain ⟨c, hc, -⟩ := Option.bind_eq_some_iff.mp hval
        exact absurd hp (hpath p (Table.mem_keys_iff.mpr ⟨c, hc⟩))
      · exact hat
    · exact fun hat => .inr ⟨hpath, hat, fun p hp hpre =>
        hdirs p hp (inHead_of_isInit hat hpre (hpath p hp))⟩

/-- The empty tree. -/
theorem wellFormed_empty (o : Objects σ κ) : WellFormed o.tree (o.writeTree []) :=
  .mk (o.tree_writeTree []) ⟨.nil, List.nodup_nil, nofun⟩ nofun nofun

/-- An empty tree has no file. -/
theorem not_fileAt_empty {path : Dir} {v : Nat × σ} : ¬FileAt o.tree (o.writeTree []) path v := by
  intro hat
  cases path with
  | nil => exact not_at_nil hat
  | cons n path =>
    obtain ⟨es, hes, e, he, -⟩ := at_cons_iff.mp hat
    rw [o.tree_writeTree] at hes
    cases hes
    cases he

/-- The spine of an unborn branch. -/
theorem spineOk_empty (assembled : Table RepoPath (Change σ)) :
    SpineOk o.tree (o.writeTree []) assembled (Table.set ∅ [] ∅) := by
  have hkeys : ∀ d, d ∈ (Table.set (∅ : Spine σ) [] ∅).keys ↔ d = [] := by
    intro d
    rw [Table.mem_keys_iff]
    simp only [Table.get_set]
    by_cases hd : d = [] <;> simp [hd]
  refine ⟨(hkeys []).mpr rfl, fun d n hd => ?_, fun d hd => .inl ((hkeys d).mp hd),
    fun p _ d _ hin => ?_, fun d l hl => ?_⟩
  · exact absurd ((hkeys _).mp hd) (by simp)
  · obtain ⟨s, hs⟩ := hin
    refine (hkeys d).mpr ?_
    cases d with
    | nil => rfl
    | cons n d =>
      obtain ⟨es, hes, e, he, -⟩ := reaches_cons_iff.mp hs
      rw [o.tree_writeTree] at hes
      cases hes
      cases he
  · rw [Table.get_set] at hl
    split_ifs at hl with hd
    · cases hl
      exact .inl ⟨o.writeTree [], [], hd ▸ .root, o.tree_writeTree [], rfl⟩
    · cases hl

namespace Committing

variable {c c' : Committing σ κ ρ}

/-- The tree of a sound commit is well formed. -/
theorem treeOf_sound {k : Option κ} (hk : ∀ j ∈ k, Sound o j) {root : σ}
    (h : treeOf o k = some root) : WellFormed o.tree root := by
  obtain ⟨d, hd, rfl⟩ := Option.map_eq_some_iff.mp h
  obtain ⟨j, hj, hd⟩ := Option.bind_eq_some_iff.mp hd
  exact hk j hj d hd

/-- The write of the spine that was read from the old head. -/
theorem built_of_spineRead [DecidableEq σ] (hinv : c.Inv o) (hsound : ∀ k ∈ c.oldHead, Sound o k)
    (hread : SpineRead o c)
    (hdirs : ∀ root, treeOf o c.oldHead = some root → DirsBelow o root c.call.assembled)
    {spine : Spine σ} (hspine : c.spine = some spine) {root : σ}
    (hok : rewriteHeadSpine o.writeTree
      (synthesizeAbsentSpineDirs c.call.assembled.entries spine).1 c.call.assembled =
        .ok (some root)) :
    WellFormed o.tree root ∧ ∀ path, (∀ p ∈ c.call.named, p.parts ≠ path) →
      ∀ v, FileAt o.tree root path v ↔ CommittedAt o c.oldHead path v := by
  have hpath : ∀ {path : Dir}, (∀ p ∈ c.call.named, p.parts ≠ path) →
      ∀ p ∈ c.call.assembled.keys, p.parts ≠ path := fun h p hp => h p (hinv.named p hp)
  rcases hread with ⟨head, spine', hhead, hspine', hread⟩ | ⟨hnone, hspine'⟩
  · rw [hspine] at hspine'
    cases hspine'
    have hwf := treeOf_sound hsound hhead
    obtain ⟨hroot, -⟩ := rewriteHeadSpine_ok o.tree_writeTree hwf c.call.file_modes
      (spineOk_filled hwf (spineOk_readTreeSpine hwf hread)) hok
    refine ⟨(hroot.wellFormed root rfl).1, fun path hnot v => ?_⟩
    rw [hroot.unchanged (hdirs head hhead) (hpath hnot)]
    refine ⟨fun hat => ⟨head, hhead, hat⟩, ?_⟩
    rintro ⟨head', hhead', hat⟩
    rw [hhead] at hhead'
    cases hhead'
    exact hat
  · rw [hspine] at hspine'
    cases hspine'
    obtain ⟨hroot, -⟩ := rewriteHeadSpine_ok o.tree_writeTree (wellFormed_empty o)
      c.call.file_modes (spineOk_filled (wellFormed_empty o) (spineOk_empty _)) hok
    refine ⟨(hroot.wellFormed root rfl).1, fun path hnot v => ?_⟩
    have hdirs' : ∀ p ∈ c.call.assembled.keys, InHead o.tree (o.writeTree []) p.parts →
        Below c.call.assembled p.parts := by
      rintro p hp hin
      obtain ⟨rest, w, -, hat⟩ := exists_file (wellFormed_empty o) p.parts_ne_nil hin
      exact absurd hat not_fileAt_empty
    rw [hroot.unchanged hdirs' (hpath hnot)]
    refine iff_of_false not_fileAt_empty ?_
    rintro ⟨head, hhead, -⟩
    rw [hnone] at hhead
    cases hhead

/-- An answer of `head_sha`. -/
theorem inv_answered [DecidableEq σ] {l : Lookup} {v : Option κ} (hinv : c.Inv o)
    (hold : l = .old → (∀ k ∈ v, Sound o k) ∧ ∀ u ∈ c.memo, u = v)
    (hspine : l = .spine → (∀ k ∈ c.oldHead, Sound o k) ∧ v = c.oldHead)
    (hbuilt : l = .backstop → c.Built o) (hok : c.answered o l v = some c') : c'.Inv o := by
  cases l with
  | old =>
    cases hok
    exact ⟨hinv.named, hinv.memo, hold rfl⟩
  | spine =>
    obtain ⟨hsound, rfl⟩ := hspine rfl
    rw [answered] at hok
    split_ifs at hok with hnone hread
    · cases hok
      rw [Option.isNone_iff_eq_none] at hnone
      refine ⟨hinv.named, hinv.memo, hnone, ?_⟩
      rw [hnone]
      rfl
    · cases hok
      refine ⟨hinv.named, hinv.memo, hsound, ?_⟩
      obtain ⟨spine, hread⟩ := Option.ne_none_iff_exists'.mp fun heq =>
        hread (Option.isNone_iff_eq_none.mpr heq)
      obtain ⟨root, hroot, hbind⟩ := Option.bind_eq_some_iff.mp hread
      exact .inl ⟨root, spine, hroot, hread, hbind⟩
  | backstop =>
    rw [answered] at hok
    split_ifs at hok
    cases hok
    exact ⟨hinv.named, hinv.memo, hbuilt rfl⟩

/-- A spine that is built is rewritten. -/
theorem build_eq_some [DecidableEq σ] {spine : Spine σ} (h : c.build o spine = some c') :
    ∃ root, rewriteHeadSpine o.writeTree
        (synthesizeAbsentSpineDirs c.call.assembled.entries spine).1 c.call.assembled =
          .ok (some root) ∧
      (c' = { c with root := some root, pc := .targetHead } ∨
        c' = { c with root := some root, pc := .head .backstop }) := by
  rw [build] at h
  split_ifs at h with h1 h2 hempty
  all_goals
    dsimp only at h
    split at h
    · next root hr =>
      cases h
      exact ⟨root, hr, by simp⟩
    · cases h

/-- One step before the swap. -/
theorem inv_advance [DecidableEq σ] {w : Refs κ ρ} (hinv : c.Inv o)
    (hbranch : ∀ r k, w.branch r = some k → Sound o k) (hhead : SoundHead o w.head)
    (hmeets : c.Meets o w) (hok : c.advance o w = some c') : c'.Inv o := by
  obtain ⟨call, pc, memo, oldHead, spine, unborn, root⟩ := c
  have hknown := hinv.known
  cases pc with
  | head l =>
    simp only [advance] at hok
    -- a remembered head answers without a read
    cases memo with
    | none =>
      cases hok
      refine ⟨hinv.named, hinv.memo, ?_⟩
      cases l with
      | old => exact hhead
      | spine => exact ⟨hknown.1, hhead⟩
      | backstop => exact ⟨hknown, hhead⟩
    | some v =>
      refine inv_answered hinv ?_ ?_ ?_ hok
      · rintro -
        exact ⟨hinv.memo v rfl, fun u hu => (Option.some.inj hu).symm⟩
      · rintro rfl
        exact ⟨hknown.1, hknown.2 v rfl⟩
      · rintro rfl
        exact hknown
  | ref l seen =>
    simp only [advance] at hok
    have hseen : SoundHead o seen := by
      cases l with
      | old => exact hknown
      | spine => exact hknown.2
      | backstop => exact hknown.2
    -- what the ref resolves to is sound, whether it names a branch or a commit
    have hsound : ∀ k ∈ w.resolve seen, Sound o k := by
      intro k hk
      cases seen with
      | branch r => exact hbranch r k hk
      | detached j =>
        cases hk
        exact hseen
    -- within the scope of the call the answer is remembered
    have hnew : ∀ u ∈ (if call.inScope = true then some (w.resolve seen) else none),
        u = w.resolve seen := by
      intro u hu
      split_ifs at hu
      · cases hu
        rfl
      · cases hu
    have hinv₁ : Inv o (⟨call, .ref l seen, if call.inScope = true then some (w.resolve seen)
        else none, oldHead, spine, unborn, root⟩ : Committing σ κ ρ) := by
      refine ⟨hinv.named, fun u hu => ?_, ?_⟩
      · rw [hnew u hu]
        exact hsound
      · cases l <;> exact hknown
    refine inv_answered hinv₁ ?_ ?_ ?_ hok
    · rintro rfl
      exact ⟨hsound, hnew⟩
    · rintro rfl
      exact ⟨hknown.1, hmeets⟩
    · rintro rfl
      exact hknown.1
  | unbornHead =>
    cases hok
    exact ⟨hinv.named, hinv.memo, hknown⟩
  | unbornRef seen =>
    obtain ⟨rfl, rfl⟩ := hknown
    simp only [advance] at hok
    cases hun : unbornTarget w seen with
    | none =>
      rw [hun] at hok
      cases hok
    | some r =>
      rw [hun] at hok
      cases hok
      exact ⟨hinv.named, hinv.memo, nofun, .inr ⟨rfl, rfl⟩⟩
  -- the tree is built over the spine that was read
  | build =>
    obtain ⟨hdirs, hmerge⟩ := hmeets
    obtain ⟨sp, hsp, hok⟩ := Option.bind_eq_some_iff.mp hok
    obtain ⟨r, hr, hor⟩ := build_eq_some hok
    obtain ⟨hwf, hfiles⟩ := built_of_spineRead hinv hknown.1 hknown.2 hdirs hsp hr
    have hbuilt : Built o (⟨call, .targetHead, memo, oldHead, spine, unborn, some r⟩ :
        Committing σ κ ρ) := ⟨r, rfl, hwf, hmerge, hfiles⟩
    rcases hor with rfl | rfl
    · exact ⟨hinv.named, hinv.memo, hbuilt⟩
    · exact ⟨hinv.named, hinv.memo, hbuilt⟩
  | targetHead =>
    simp only [advance] at hok
    split at hok <;>
      · cases hok
        exact ⟨hinv.named, hinv.memo, hknown⟩
  | targetRef r =>
    simp only [advance] at hok
    split_ifs at hok
    · cases hok
      exact ⟨hinv.named, hinv.memo, hknown⟩
    · obtain ⟨r', -, rfl⟩ := Option.map_eq_some_iff.mp hok
      exact ⟨hinv.named, hinv.memo, hknown⟩
  | swap t => cases hok

end Committing

/-! ### Runs -/

variable {ι : Type} [DecidableEq ι] [DecidableEq σ] [DecidableEq κ] [DecidableEq ρ]

/-- What another program moves a ref to is sound, and so is a value of HEAD that a scope holds. -/
def CommitAction.Clean (o : Objects σ κ) : CommitAction ι σ κ ρ → Prop
  | .call _ c => ∀ v ∈ c.memo, ∀ k ∈ v, Sound o k
  | .moveBranch _ sha => ∀ k ∈ sha, Sound o k
  | .moveHead head => SoundHead o head
  | .advance _ | .refuse _ => True

omit [DecidableEq ι] [DecidableEq σ] [DecidableEq κ] in
/-- A branch that moves to a sound commit. -/
theorem sound_update {f : ρ → Option κ} (hf : ∀ r k, f r = some k → Sound o k) {r : ρ}
    {x : Option κ} (hx : ∀ k ∈ x, Sound o k) :
    ∀ r' k, Function.update f r x r' = some k → Sound o k := by
  intro r' k hk
  by_cases hr : r' = r
  · subst hr
    rw [Function.update_self] at hk
    exact hx k hk
  · rw [Function.update_of_ne hr] at hk
    exact hf r' k hk

namespace Committers

/-- A call names the publish targets that it regenerates, and goes on as `Committing.Meets` says. -/
def Meets (o : Objects σ κ) (s : Committers ι σ κ ρ) : CommitAction ι σ κ ρ → Prop
  | .call _ c => c.regenerates = true → portablePath ∈ c.named
  | .advance i => ∀ c, s.calls i = some c → c.Meets o s.refs
  | .refuse _ | .moveBranch .. | .moveHead _ => True

/-- A repository whose refs are sound, with no call under way. -/
def Fresh (o : Objects σ κ) (s : Committers ι σ κ ρ) : Prop :=
  (∀ r k, s.refs.branch r = some k → Sound o k) ∧ SoundHead o s.refs.head ∧
    (∀ i, s.calls i = none) ∧ s.landed = []

/-- The invariant of a run. -/
structure Inv (o : Objects σ κ) (s : Committers ι σ κ ρ) : Prop where
  branch : ∀ r k, s.refs.branch r = some k → Sound o k
  head : SoundHead o s.refs.head
  calls : ∀ i c, s.calls i = some c → c.Inv o
  landed : ∀ l ∈ s.landed, l.Faithful o

variable {s s' : Committers ι σ κ ρ}

omit [DecidableEq σ] [DecidableEq κ] [DecidableEq ρ] in
/-- A call that keeps the invariant keeps it for the session. -/
theorem Inv.setCall (h : s.Inv o) (i : ι) {c : Option (Committing σ κ ρ)}
    (hc : ∀ d, c = some d → d.Inv o) : (s.setCall i c).Inv o := by
  refine ⟨h.branch, h.head, fun j d hd => ?_, h.landed⟩
  rw [Committers.setCall] at hd
  dsimp only at hd
  by_cases hj : j = i
  · subst hj
    rw [Function.update_self] at hd
    exact hc d hd
  · rw [Function.update_of_ne hj] at hd
    exact h.calls j d hd

omit [DecidableEq σ] [DecidableEq κ] [DecidableEq ρ] in
/-- The end of a call keeps the invariant. -/
theorem Inv.endCall (h : s.Inv o) (i : ι) : (s.setCall i none).Inv o := by
  refine h.setCall i fun d hd => ?_
  cases hd

omit [DecidableEq σ] in
/-- A swap lands a faithful commit, or none. -/
theorem Inv.casRef (h : s.Inv o) {i : ι} {c : Committing σ κ ρ} {target : SwapTarget ρ}
    (hinv : c.Inv o) (hpc : c.pc = .swap target) : (s.casRef o i c target).Inv o := by
  have hend : (s.setCall i none).Inv o := h.endCall i
  have hknown := hinv.known
  rw [Committing.Known, hpc] at hknown
  obtain ⟨root, hroot, hwf, hmerge, hfiles⟩ := hknown
  rw [Committers.casRef, hroot]
  dsimp only
  split_ifs with hvalue
  · have hsound : Sound o (o.writeCommit (c.commit root)) := by
      intro d hd
      rw [o.commit_writeCommit] at hd
      cases hd
      exact hwf
    have hfaithful : (⟨c.call, target, c.oldHead, o.writeCommit (c.commit root)⟩ :
        Landing σ κ ρ).Faithful o := by
      refine ⟨c.commit root, o.commit_writeCommit _, ?_, hfiles⟩
      cases hold : c.oldHead with
      | none => simp [Committing.commit, hold, hmerge hold]
      | some k => simp [Committing.commit, hold]
    refine ⟨fun r k hk => ?_, ?_, hend.calls, fun l hl => ?_⟩
    · cases target with
      | head => exact h.branch r k hk
      | branch ref =>
        refine sound_update h.branch (fun j hj => ?_) r k hk
        cases hj
        exact hsound
    · cases target with
      | head => exact hsound
      | branch ref => exact h.head
    · rcases List.mem_cons.mp hl with rfl | hl
      · exact hfaithful
      · exact h.landed l hl
  · exact hend

/-- One step. -/
theorem inv_step {a : CommitAction ι σ κ ρ} (hC : s.Meets o a ∧ a.Clean o) (h : s.Inv o)
    (hstep : step o s a = some s') : s'.Inv o := by
  obtain ⟨hmeets, hclean⟩ := hC
  cases a with
  | call i c =>
    rw [step] at hstep
    split at hstep
    · cases hstep
      refine h.setCall i fun d hd => ?_
      cases hd
      refine ⟨fun p hp => ?_, fun v hv => ?_, trivial⟩
      · rcases c.assembled_named p hp with hp | ⟨hreg, rfl⟩
        · exact hp
        · exact hmeets hreg
      · rw [Committing.start] at hv
        split_ifs at hv
        · exact hclean v hv
        · cases hv
    · cases hstep
  | advance i =>
    obtain ⟨c, hc, rfl⟩ := Option.map_eq_some_iff.mp hstep
    have hinv := h.calls i c hc
    have hadvance : (s.setCall i (c.advance o s.refs)).Inv o := h.setCall i fun d hd =>
      Committing.inv_advance hinv h.branch h.head (hmeets c hc) hd
    cases hpc : c.pc with
    | swap target => exact h.casRef hinv hpc
    | _ => exact hadvance
  | refuse i =>
    obtain ⟨c, -, rfl⟩ := Option.map_eq_some_iff.mp hstep
    exact h.endCall i
  | moveBranch r sha =>
    cases hstep
    exact ⟨sound_update h.branch hclean, h.head, h.calls, h.landed⟩
  | moveHead head =>
    cases hstep
    exact ⟨h.branch, hclean, h.calls, h.landed⟩

/-- In a run whose steps read the spine from the old head, whatever else moves HEAD and the
branches, every commit that lands changes the named paths of its parent only. -/
theorem landed_faithful {as : List (CommitAction ι σ κ ρ)} (hfresh : s.Fresh o)
    (hclean : ∀ a ∈ as, a.Clean o) (hmeets : Along (step o) (Meets o) s as)
    (hrun : run (step o) s as = some s') : ∀ l ∈ s'.landed, l.Faithful o := by
  obtain ⟨hbranch, hhead, hcalls, hlanded⟩ := hfresh
  have hinv : s.Inv o := by
    refine ⟨hbranch, hhead, fun i c hc => ?_, fun l hl => ?_⟩
    · rw [hcalls] at hc
      cases hc
    · rw [hlanded] at hl
      cases hl
  exact (run_invariant_along (P := Inv o) (fun _ _ _ hC h ht => inv_step hC h ht)
    (hmeets.and_forall hclean) hinv hrun).landed

end Committers

end

/-! ### A repository that runs -/

/-- Ids that never collide: the id of an object spells it. -/
inductive Cell
  | atom (n : Nat)
  | pair (a b : Cell)
  deriving DecidableEq

namespace Cell

def ofList : List Cell → Cell
  | [] => .atom 0
  | c :: cs => .pair c (ofList cs)

def toList : Cell → List Cell
  | .atom _ => []
  | .pair c cs => c :: cs.toList

def number : Cell → Nat
  | .atom n => n
  | .pair _ _ => 0

theorem toList_ofList (cs : List Cell) : (ofList cs).toList = cs := by
  induction cs with
  | nil => rfl
  | cons c cs ih => rw [ofList, toList, ih]

def ofEntry (e : TreeEntry Cell) : Cell :=
  .pair (ofList (e.name.map fun b => .atom b.toNat)) (.pair (.atom e.mode) e.sha)

def toEntry : Cell → TreeEntry Cell
  | .pair name (.pair mode sha) => ⟨name.toList.map fun c => c.number.toUInt8, mode.number, sha⟩
  | c => ⟨[], 0, c⟩

theorem toEntry_ofEntry (e : TreeEntry Cell) : toEntry (ofEntry e) = e := by
  rw [ofEntry, toEntry, toList_ofList, List.map_map]
  simp [Function.comp_def, number]

/-- The store in which an id is its object. -/
def objects : Objects Cell Cell where
  tree
    | .atom _ => none
    | .pair _ es => some (es.toList.map toEntry)
  writeTree es := .pair (.atom 0) (ofList (es.map ofEntry))
  commit
    | .pair tree (.pair parents message) =>
      some ⟨tree, parents.toList, message.toList.map fun c => Char.ofNat c.number⟩
    | _ => none
  writeCommit c :=
    .pair c.tree (.pair (ofList c.parents) (ofList (c.message.map fun x => .atom x.toNat)))
  tree_writeTree es := by
    have hid : toEntry ∘ ofEntry = id := funext toEntry_ofEntry
    dsimp only
    rw [toList_ofList, List.map_map, hid, List.map_id]
  commit_writeCommit c := by
    simp [toList_ofList, Function.comp_def, number, Char.ofNat_toNat]

end Cell

/-- A tree with one file `x`. -/
def treeOfX (content : Nat) : Cell := Cell.objects.writeTree [⟨[0x78], 0o100644, .atom content⟩]

def firstCommit : Cell := Cell.objects.writeCommit ⟨treeOfX 0, [], []⟩

/-- A peer's commit, which changes `x`. -/
def peerCommit : Cell := Cell.objects.writeCommit ⟨treeOfX 1, [firstCommit], []⟩

/-- A call that adds `y`. -/
def addY : CommitCall Cell Cell where
  named := [⟨[], ofText ['y'], by decide⟩]
  regenerates := false
  assembled := ⟨[(⟨[], ofText ['y'], by decide⟩, .set 0o100644 (.atom 2))], List.nodup_singleton _⟩
  allowEmpty := false
  mergeHead := none
  message := []
  inScope := false
  memo := none
  assembled_named := by
    intro p hp
    exact .inl (by simpa [Table.keys] using hp)
  file_modes := by
    intro p m s h
    have := Table.get_eq_some_iff.mp h
    cases List.mem_singleton.mp this
    decide

/-- The one branch holds the peer's commit. -/
def quiet : Committers Unit Cell Cell Unit where
  refs := ⟨.branch (), fun _ => some peerCommit⟩
  calls _ := none
  landed := []

/-- A call that adds `z`. -/
def addZ : CommitCall Cell Cell where
  named := [⟨[], ofText ['z'], by decide⟩]
  regenerates := false
  assembled := ⟨[(⟨[], ofText ['z'], by decide⟩, .set 0o100644 (.atom 3))], List.nodup_singleton _⟩
  allowEmpty := false
  mergeHead := none
  message := []
  inScope := false
  memo := none
  assembled_named := by
    intro p hp
    exact .inl (by simpa [Table.keys] using hp)
  file_modes := by
    intro p m s h
    have := Table.get_eq_some_iff.mp h
    cases List.mem_singleton.mp this
    decide

/-- The same repository, with two sessions. -/
def quietTwo : Committers Bool Cell Cell Unit where
  refs := ⟨.branch (), fun _ => some peerCommit⟩
  calls _ := none
  landed := []

/-- Both sessions build on the peer's commit, and one of them swaps first. -/
def contended : List (CommitAction Bool Cell Cell Unit) :=
  [.call true addY, .call false addZ] ++
    (List.replicate 10 [.advance true, .advance false]).flatten

/-- The session that lost its swap calls again. -/
def retried : List (CommitAction Bool Cell Cell Unit) :=
  .call false addZ :: List.replicate 10 (.advance false)

/-- The branch moves to the first commit and back around the second read of HEAD. -/
def awayAndBack : List (CommitAction Unit Cell Cell Unit) :=
  [.call () addY, .advance (), .advance (), .moveBranch () (some firstCommit), .advance (),
    .advance (), .moveBranch () (some peerCommit)] ++ List.replicate 6 (.advance ())

theorem sound_writeCommit (content : Nat) (parents : List Cell) :
    Sound Cell.objects (Cell.objects.writeCommit ⟨treeOfX content, parents, []⟩) := by
  intro c hc
  rw [Cell.objects.commit_writeCommit] at hc
  cases hc
  refine .mk (Cell.objects.tree_writeTree _)
    ⟨List.pairwise_singleton _ _, List.nodup_singleton _, by simp⟩ ?_ ?_ <;> simp [treeMode]

theorem fresh_peerCommit {ι : Type} :
    (⟨⟨.branch (), fun _ => some peerCommit⟩, fun _ => none, []⟩ :
      Committers ι Cell Cell Unit).Fresh Cell.objects := by
  refine ⟨fun r k hk => ?_, trivial, fun i => rfl, rfl⟩
  cases hk
  exact sound_writeCommit 1 _

/-- A check of `Committers.Meets`, for changes of files of the root alone. -/
def meetsPlainly {ι : Type} (o : Objects Cell Cell) (s : Committers ι Cell Cell Unit) :
    CommitAction ι Cell Cell Unit → Bool
  | .call _ c => !c.regenerates
  | .advance i => (s.calls i).all fun c =>
    match c.pc with
    | .ref .spine seen => s.refs.resolve seen = c.oldHead
    | .build => c.oldHead.isSome && (c.call.assembled.keys.all fun p => p.parent = []) &&
        (Committing.treeOf o c.oldHead).all fun root =>
          ((o.tree root).getD []).all fun e => e.mode ≠ treeMode
    | _ => true
  | _ => true

/-- The plain test implies the condition. -/
theorem meets_of_meetsPlainly {ι : Type} [DecidableEq ι] {o : Objects Cell Cell}
    {s : Committers ι Cell Cell Unit} {a : CommitAction ι Cell Cell Unit}
    (h : meetsPlainly o s a = true) : s.Meets o a := by
  cases a with
  | call i c =>
    intro hreg
    rw [meetsPlainly, hreg] at h
    cases h
  | advance i =>
    intro c hc
    rw [meetsPlainly, hc, Option.all_some] at h
    rw [Committing.Meets]
    split
    · next seen hpc =>
      rw [hpc] at h
      exact of_decide_eq_true h
    · next hpc =>
      rw [hpc] at h
      simp only [Bool.and_eq_true, List.all_eq_true, decide_eq_true_eq] at h
      obtain ⟨⟨hsome, hroot⟩, htree⟩ := h
      refine ⟨fun root htreeOf p hp hin => ?_, fun hnone => by simp [hnone] at hsome⟩
      obtain ⟨t, ht⟩ := hin
      rw [RepoPath.parts, hroot p hp] at ht
      obtain ⟨es, hes, e, he, -, hmode, -⟩ := reaches_cons_iff.mp ht
      rw [htreeOf, Option.all_some, hes, Option.getD_some, List.all_eq_true] at htree
      exact absurd hmode (of_decide_eq_true (htree e he))
    · trivial
  | refuse i => trivial
  | moveBranch r sha => trivial
  | moveHead head => trivial

/-- Of two sessions that build on one commit, one lands; the other loses its swap, and lands when it
calls again. -/
theorem landed_faithful_contended :
    ∃ s s', run (Committers.step Cell.objects) quietTwo contended = some s ∧
      run (Committers.step Cell.objects) s retried = some s' ∧
      s.landed.map (·.call.named) = [addY.named] ∧
      s'.landed.map (·.call.named) = [addZ.named, addY.named] ∧
      ∀ l ∈ s'.landed, l.Faithful Cell.objects := by
  have hfirst : ((run (Committers.step Cell.objects) quietTwo contended).map fun s =>
      s.landed.map (·.call.named)) = some [addY.named] := by decide
  have hboth : ((run (Committers.step Cell.objects) quietTwo (contended ++ retried)).map fun s =>
      s.landed.map (·.call.named)) = some [addZ.named, addY.named] := by decide
  obtain ⟨s', hrun', hboth⟩ := Option.map_eq_some_iff.mp hboth
  obtain ⟨s, hrun, hretry⟩ := run_append_eq_some.mp hrun'
  rw [hrun] at hfirst
  have hplain : Along (Committers.step Cell.objects)
      (fun s a => meetsPlainly Cell.objects s a = true) quietTwo (contended ++ retried) := by
    decide
  refine ⟨s, s', hrun, hretry, Option.some.inj hfirst, hboth, Committers.landed_faithful
    fresh_peerCommit (fun a ha => ?_) (hplain.mono fun _ _ => meets_of_meetsPlainly) hrun'⟩
  simp only [contended, retried, List.mem_append, List.mem_cons, List.not_mem_nil, or_false,
    List.mem_flatten, List.mem_replicate] at ha
  rcases ha with ((rfl | rfl) | ⟨_, ⟨-, rfl⟩, ha⟩) | rfl | ⟨-, rfl⟩
  · exact fun _ hv => absurd hv (Option.not_mem_none _)
  · exact fun _ hv => absurd hv (Option.not_mem_none _)
  · simp only [List.mem_cons, List.not_mem_nil, or_false] at ha
    rcases ha with rfl | rfl <;> trivial
  · exact fun _ hv => absurd hv (Option.not_mem_none _)
  · trivial

/-- The commit that lands after HEAD was away and is back has the peer's commit for its parent, and
the `x` from before it: the call that adds `y` undoes the peer's change. -/
theorem commitPaths_reverts_peer :
    quiet.Fresh Cell.objects ∧ (∀ a ∈ awayAndBack, a.Clean Cell.objects) ∧
      ∃ s, run (Committers.step Cell.objects) quiet awayAndBack = some s ∧
        ∃ l ∈ s.landed, ¬l.Faithful Cell.objects := by
  -- the peer's commits are sound
  have hclean : ∀ a ∈ awayAndBack, a.Clean Cell.objects := by
    have hpeer : ∀ k ∈ some peerCommit, Sound Cell.objects k := fun k hk => by
      cases hk
      exact sound_writeCommit 1 _
    have hfirst : ∀ k ∈ some firstCommit, Sound Cell.objects k := fun k hk => by
      cases hk
      exact sound_writeCommit 0 _
    intro a ha
    simp only [awayAndBack, List.cons_append, List.nil_append, List.mem_cons,
      List.mem_replicate] at ha
    rcases ha with rfl | rfl | rfl | rfl | rfl | rfl | rfl | ⟨-, rfl⟩
    · exact nofun
    · trivial
    · trivial
    · exact hfirst
    · trivial
    · trivial
    · exact hpeer
    · trivial
  -- what landed stands on the peer's commit and holds the old `x`
  have hland : ((run (Committers.step Cell.objects) quiet awayAndBack).map fun s =>
      s.landed.map fun l => (l.sha, l.before, l.call.named)) =
        some [(Cell.objects.writeCommit ⟨Cell.objects.writeTree
          [⟨[0x78], 0o100644, .atom 0⟩, ⟨[0x79], 0o100644, .atom 2⟩], [peerCommit], []⟩,
          some peerCommit, addY.named)] := by decide
  obtain ⟨s, hrun, hland⟩ := Option.map_eq_some_iff.mp hland
  refine ⟨fresh_peerCommit, hclean, s, hrun, ?_⟩
  obtain ⟨l, landed, hl, hval, -⟩ := List.map_eq_cons_iff.mp hland
  refine ⟨l, hl ▸ List.mem_cons_self, ?_⟩
  simp only [Prod.mk.injEq] at hval
  obtain ⟨hsha, hbefore, hnamed⟩ := hval
  rintro ⟨c, hc, -, hfiles⟩
  rw [hsha, Cell.objects.commit_writeCommit] at hc
  cases hc
  -- `x` was not named, so a faithful commit would have left it as the peer had it
  have hx : fsDecode [0x78] = ofText ['x'] := by decide
  have hunnamed : ∀ p ∈ l.call.named, p.parts ≠ [ofText ['x']] := by
    rw [hnamed]
    decide
  have hat := (hfiles _ hunnamed (0o100644, .atom 0)).mp (hx ▸ .file
    (Cell.objects.tree_writeTree _) (e := ⟨[0x78], 0o100644, .atom 0⟩) List.mem_cons_self
      (by decide))
  obtain ⟨root, hroot, hat⟩ := hat
  rw [hbefore, Committing.treeOf, Option.bind_some, peerCommit,
    Cell.objects.commit_writeCommit] at hroot
  cases hroot
  obtain ⟨es, hes, e, he, -, ⟨-, -, hv⟩ | ⟨hmode, -⟩⟩ := at_cons_iff.mp hat
  · rw [treeOfX, Cell.objects.tree_writeTree] at hes
    cases hes
    cases List.mem_singleton.mp he
    cases hv
  · rw [treeOfX, Cell.objects.tree_writeTree] at hes
    cases hes
    cases List.mem_singleton.mp he
    exact absurd hmode (by decide)

end Git

end CoordinatorCore
