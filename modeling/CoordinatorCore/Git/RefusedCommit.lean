import CoordinatorCore.Git.CommitStages
import CoordinatorCore.Git.CommitRace

/-!
# A commit that is refused

What a call of `commit_paths` leaves behind when it refuses. Before the index lock it may have
written the publish targets; under the lock the reflogs get their lines before the ref is renamed;
and an unlink of the lock that fails is passed over. Nothing else is left: a refused call is
traceless exactly when none of the three happens (`traceless_iff`).
-/

namespace CoordinatorCore

open PyStr Machine

namespace Git

namespace CommitStages

variable {κ ρ : Type}

/-! ### What a refusal may leave -/

/-- Nothing that a call writes has changed, and no lock of the call is left. -/
structure Traceless (s s' : Stores κ ρ) : Prop where
  files : s'.files = s.files
  refs : s'.refs = s.refs
  reflog : s'.reflog = s.reflog
  index : s'.index.index = s.index.index
  lock : ∀ written, s'.index.lock ≠ some (.own written)

/-- `append_reflog` writes a line before anything else goes wrong. -/
def Swap.logs (c : Swap κ) : Bool :=
  if c.logsRef then !c.refLogFails else c.logsHead && !c.headLogFails

/-- The swap gets as far as the reflogs. -/
def Swap.reaches [DecidableEq κ] (c : Swap κ) (expected : Option κ) : Bool :=
  c.locked && decide (c.current = expected)

/-- The commit that a call is about to land, when it gets to the index lock. -/
def reachedPlan (seen : Seen κ ρ) (r : Request) (o : Objects Text κ) : Option (Plan κ ρ) :=
  match checkPathspec seen r, publishTargets seen r with
  | .ok (), .ok (_, paths) => (plan seen r o paths).toOption
  | _, _ => none

/-- The three ways to leave something are not taken: the publish targets that are written again are
those that are there; a lock that the call holds can be unlinked when the splice fails, and when the
call gives it up; and no reflog gets a line. -/
structure LeavesNothing [DecidableEq κ] (h : Digest) (w : Worktree) (o : Objects Text κ)
    (seen : Seen κ ρ) (r : Request) (s : Stores κ ρ) : Prop where
  targets : ∀ b paths, checkPathspec seen r = .ok () →
    publishTargets seen r = .ok (some b, paths) → s.files portablePath = some b
  failedSplice : ∀ p ∈ reachedPlan seen r o, ∀ e,
    (prepareIndexSplice h w seen.unlinks (indexUpdates p.assembled) p.collapse seen.takings
      s.index).1 = .error (.splice e) → underLock e = true → seen.unlinks = true
  heldLock : ∀ p ∈ reachedPlan seen r o,
    (prepareIndexSplice h w seen.unlinks (indexUpdates p.assembled) p.collapse seen.takings
      s.index).1 = .ok () → seen.held = true → seen.unlinks = true
  reflogs : ∀ p ∈ reachedPlan seen r o,
    (prepareIndexSplice h w seen.unlinks (indexUpdates p.assembled) p.collapse seen.takings
      s.index).1 = .ok () → seen.fenced = false → seen.abandonedLate = false → seen.held = true →
    seen.swap.reaches p.oldHead = true → seen.swap.logs = false

/-- The lock that is there is not the call's own. -/
def Foreign (files : IndexFiles) : Prop := ∀ written, files.lock ≠ some (.own written)

/-- Doing nothing leaves no trace. -/
theorem Traceless.refl {s : Stores κ ρ} (hfree : Foreign s.index) : Traceless s s :=
  ⟨rfl, rfl, rfl, rfl, hfree⟩

/-! ### The index lock -/

section

variable {h : Digest} {w : Worktree} {updates : List (PyStr × Update)} {collapse : List PyStr}

/-- A lock is nobody's or a peer's. -/
theorem Foreign.eq_held {files : IndexFiles} (hfree : Foreign files) :
    ∃ held : Bool, files.lock = if held then some .peer else none := by
  obtain ⟨index, lock⟩ := files
  match lock with
  | none => exact ⟨false, rfl⟩
  | some .peer => exact ⟨true, rfl⟩
  | some (.own written) => exact absurd rfl (hfree written)

/-- The splice leaves the index alone. -/
theorem prepareSplice_index (t : Taking) (files : IndexFiles) :
    (prepareSplice h w t files updates true collapse).2.index = files.index := by
  rw [prepareSplice]
  cases checkArguments updates collapse with
  | error e => rfl
  | ok names =>
    dsimp only
    rcases takeLock t files.lock with ⟨_ | _, lock⟩
    · rfl
    · dsimp only
      cases build h w t files.index updates true names <;> rfl

/-- A splice that raises leaves no lock of its own. -/
theorem prepareSplice_error_foreign {t : Taking} {files : IndexFiles} {e : PrepareError}
    (hfree : Foreign files) (herr : (prepareSplice h w t files updates true collapse).1 = .error e) :
    Foreign (prepareSplice h w t files updates true collapse).2 := by
  obtain ⟨held, hlock⟩ := hfree.eq_held
  rw [prepareSplice] at herr ⊢
  cases hargs : checkArguments updates collapse with
  | error e => exact hfree
  | ok names =>
    rw [hargs] at herr
    dsimp only at herr ⊢
    rcases htake : takeLock t files.lock with ⟨_ | _, lock⟩
    · refine fun written => @takeLock_not_own t held _ ?_ written
      rw [← hlock, htake]
    · rw [htake] at herr
      dsimp only at herr ⊢
      cases hbuild : build h w t files.index updates true names with
      | error e =>
        intro written hown
        cases hown
      | ok out =>
        rw [hbuild] at herr
        cases herr

/-- A splice that goes through holds the lock. -/
theorem prepareSplice_ok_lock {t : Taking} {files : IndexFiles}
    (hok : (prepareSplice h w t files updates true collapse).1 = .ok ()) :
    ∃ out, (prepareSplice h w t files updates true collapse).2.lock = some (.own out) := by
  rw [prepareSplice] at hok ⊢
  cases hargs : checkArguments updates collapse with
  | error e =>
    rw [hargs] at hok
    cases hok
  | ok names =>
    rw [hargs] at hok
    dsimp only at hok ⊢
    rcases htake : takeLock t files.lock with ⟨_ | _, lock⟩
    · rw [htake] at hok
      cases hok
    · rw [htake] at hok
      dsimp only at hok ⊢
      cases hbuild : build h w t files.index updates true names with
      | error e =>
        rw [hbuild] at hok
        cases hok
      | ok out => exact ⟨out, rfl⟩

/-- The retries leave the index alone; they end with the lock in hand, or with no lock of the call
unless the lock was held and could not be unlinked. -/
theorem prepareIndexSplice_spec {unlinks : Bool} (ts : List Taking) {files : IndexFiles}
    (hfree : Foreign files) :
    let res := prepareIndexSplice h w unlinks updates collapse ts files
    res.2.index = files.index ∧
      (res.1 = .ok () → ∃ out, res.2.lock = some (.own out)) ∧
      (∀ why, res.1 = .error why →
        (Foreign res.2 ↔ ∀ e, res.1 = .error (.splice e) → underLock e = true → unlinks = true)) := by
  induction ts generalizing files with
  | nil => exact ⟨rfl, nofun, fun _ _ => ⟨nofun, fun _ => hfree⟩⟩
  | cons t ts ih =>
    dsimp only
    rw [prepareIndexSplice]
    have hindex := @prepareSplice_index h w updates collapse t files
    have hforeign := @prepareSplice_error_foreign h w updates collapse t files
    have hlock := @prepareSplice_ok_lock h w updates collapse t files
    rcases hrun : prepareSplice h w t files updates true collapse with ⟨res, next⟩
    rw [hrun] at hindex hforeign hlock
    dsimp only at hindex
    match res with
    | .ok () => exact ⟨hindex, fun _ => hlock rfl, nofun⟩
    | .error .busy =>
      rw [← hindex]
      exact ih (hforeign hfree rfl)
    | .error (.dotGit _) | .error .noBytes | .error (.noUpdate _) =>
      refine ⟨hindex, nofun, fun _ _ => ⟨?_, fun _ => hforeign hfree rfl⟩⟩
      rintro - e he
      cases he
      exact nofun
    | .error .owner | .error .unreadable | .error (.splice _) | .error .abandoned =>
      cases unlinks
      · refine ⟨hindex, nofun, fun _ _ => ⟨fun hf => absurd rfl (hf []), fun hun => ?_⟩⟩
        exact absurd (hun _ rfl rfl) nofun
      · exact ⟨hindex, nofun, fun _ _ => ⟨fun _ _ _ _ => rfl, fun _ => hforeign hfree rfl⟩⟩

end

/-! ### From the lock on -/

section

variable {seen : Seen κ ρ} {p : Plan κ ρ} {s : Stores κ ρ}

/-- The lock is given up: it is gone, or a successor's, or it is the call's still. -/
theorem abort_foreign_iff {out : Bytes} (hlock : s.index.lock = some (.own out)) :
    Foreign (abort seen s).index ↔ (seen.held = true → seen.unlinks = true) := by
  rw [Foreign, abort, hlock]
  cases seen.held <;> cases seen.unlinks <;> simp

/-- A call that landed is not refused. -/
theorem publish_ne_refused (why : Refusal) : (publish seen p s).1 ≠ .refused why := by
  rw [publish]
  split
  · exact nofun
  · dsimp only
    cases seen.reset <;> exact nofun

variable [DecidableEq κ] [DecidableEq ρ]

/-- A swap that does not go through leaves what its reflog lines are. -/
theorem casRef_failed {c : Swap κ} (hno : (casRef c p s).1 ≠ .ok true) :
    (casRef c p s).2.files = s.files ∧ (casRef c p s).2.refs = s.refs ∧
      (casRef c p s).2.index = s.index ∧
      ((casRef c p s).2.reflog = s.reflog ↔ (c.reaches p.oldHead = true → c.logs = false)) := by
  obtain ⟨locked, current, logsRef, refLogFails, logsHead, headLogFails, renamed⟩ := c
  -- two lines more are not none
  have hcons (a b : SwapTarget ρ × Option κ × κ) : a :: b :: s.reflog ≠ s.reflog := fun heq => by
    have := congrArg List.length heq
    simp only [List.length_cons] at this
    omega
  cases locked
  · simp [casRef, Swap.reaches]
  by_cases hcur : current = p.oldHead
  · revert hno
    cases logsRef <;> cases refLogFails <;> cases logsHead <;> cases headLogFails <;>
      cases renamed <;> simp [casRef, Swap.reaches, Swap.logs, hcur, hcons]
  · simp [casRef, Swap.reaches, hcur]

/-- A refusal under the lock. -/
theorem swapAndPublish_refused {out : Bytes} {why : Refusal}
    (hlock : s.index.lock = some (.own out)) (hwhy : (swapAndPublish seen p s).1 = .refused why) :
    (swapAndPublish seen p s).2.files = s.files ∧ (swapAndPublish seen p s).2.refs = s.refs ∧
      (swapAndPublish seen p s).2.index.index = s.index.index ∧
      (Foreign (swapAndPublish seen p s).2.index ↔ (seen.held = true → seen.unlinks = true)) ∧
      ((swapAndPublish seen p s).2.reflog = s.reflog ↔
        (seen.fenced = false → seen.abandonedLate = false → seen.held = true →
          seen.swap.reaches p.oldHead = true → seen.swap.logs = false)) := by
  rw [swapAndPublish] at hwhy ⊢
  by_cases hfenced : seen.fenced
  · rw [if_pos hfenced]
    exact ⟨rfl, rfl, rfl, abort_foreign_iff hlock, by simp [abort, hfenced]⟩
  rw [if_neg hfenced] at hwhy ⊢
  by_cases hover : seen.abandonedLate || !seen.held
  · rw [if_pos hover]
    refine ⟨rfl, rfl, rfl, abort_foreign_iff hlock, iff_of_true rfl fun _ hlate hheld => ?_⟩
    simp [hlate, hheld] at hover
  rw [if_neg hover] at hwhy ⊢
  have hcas := @casRef_failed _ _ p s _ _ seen.swap
  rcases hrun : casRef seen.swap p s with ⟨res, next⟩
  rw [hrun] at hcas hwhy
  -- what is left of the swap: it failed, and the lock was given up
  have hfailed (hno : res ≠ .ok true) : next.files = s.files ∧ next.refs = s.refs ∧
      next.index.index = s.index.index ∧
      (Foreign (abort seen next).index ↔ (seen.held = true → seen.unlinks = true)) ∧
      (next.reflog = s.reflog ↔ (seen.fenced = false → seen.abandonedLate = false →
        seen.held = true → seen.swap.reaches p.oldHead = true → seen.swap.logs = false)) := by
    obtain ⟨hfiles, hrefs, hindex, hlog⟩ := hcas hno
    dsimp only at hindex
    refine ⟨hfiles, hrefs, by rw [hindex], abort_foreign_iff (by rw [hindex, hlock]), ?_⟩
    refine hlog.trans ⟨fun h _ _ _ => h, fun h => h ?_ ?_ ?_⟩
    · simpa using hfenced
    · simp_all
    · simp_all
  match res with
  | .error e => exact hfailed nofun
  | .ok false => exact hfailed nofun
  | .ok true => exact absurd hwhy (publish_ne_refused why)

end

/-! ### The call -/

section

variable [DecidableEq κ] [DecidableEq ρ] {h : Digest} {w : Worktree} {o : Objects Text κ}
  {seen : Seen κ ρ} {r : Request} {s : Stores κ ρ}

omit [DecidableEq κ] [DecidableEq ρ] in
@[simp]
theorem writeTargets_index (written : Option Bytes) :
    (writeTargets written s).index = s.index := by
  cases written <;> rfl

omit [DecidableEq κ] [DecidableEq ρ] in
@[simp]
theorem writeTargets_refs (written : Option Bytes) : (writeTargets written s).refs = s.refs := by
  cases written <;> rfl

omit [DecidableEq κ] [DecidableEq ρ] in
@[simp]
theorem writeTargets_reflog (written : Option Bytes) :
    (writeTargets written s).reflog = s.reflog := by
  cases written <;> rfl

omit [DecidableEq κ] [DecidableEq ρ] in
/-- Writing the targets leaves the files when they have the bytes already. -/
theorem writeTargets_files_eq_iff {written : Option Bytes} :
    (writeTargets written s).files = s.files ↔ ∀ b, written = some b →
      s.files portablePath = some b := by
  cases written with
  | none => exact iff_of_true rfl nofun
  | some b =>
    rw [writeTargets, Function.update_eq_self_iff]
    refine ⟨?_, fun h => (h b rfl).symm⟩
    rintro heq _ ⟨⟩
    exact heq.symm

omit [DecidableEq κ] [DecidableEq ρ] in
/-- The plan that is reached behind the path checks. -/
theorem reachedPlan_eq {written : Option Bytes} {paths : List RepoPath}
    (hcheck : checkPathspec seen r = .ok ())
    (htargets : publishTargets seen r = .ok (written, paths)) :
    reachedPlan seen r o = (plan seen r o paths).toOption := by
  rw [reachedPlan, hcheck, htargets]

/-- A planned commit that is refused. -/
theorem land_refused {p : Plan κ ρ} {why : Refusal} (hfree : Foreign s.index)
    (hwhy : (land seen h w p s).1 = .refused why) :
    let prepared := (prepareIndexSplice h w seen.unlinks (indexUpdates p.assembled) p.collapse
      seen.takings s.index).1
    (land seen h w p s).2.files = s.files ∧ (land seen h w p s).2.refs = s.refs ∧
      (land seen h w p s).2.index.index = s.index.index ∧
      (Foreign (land seen h w p s).2.index ↔
        (∀ e, prepared = .error (.splice e) → underLock e = true → seen.unlinks = true) ∧
        (prepared = .ok () → seen.held = true → seen.unlinks = true)) ∧
      ((land seen h w p s).2.reflog = s.reflog ↔
        (prepared = .ok () → seen.fenced = false → seen.abandonedLate = false → seen.held = true →
          seen.swap.reaches p.oldHead = true → seen.swap.logs = false)) := by
  have hspec := @prepareIndexSplice_spec h w (indexUpdates p.assembled) p.collapse seen.unlinks
    seen.takings _ hfree
  rw [land] at hwhy ⊢
  rcases hrun : prepareIndexSplice h w seen.unlinks (indexUpdates p.assembled) p.collapse
    seen.takings s.index with ⟨res, index⟩
  rw [hrun] at hspec hwhy
  obtain ⟨hindex, hlock, hforeign⟩ := hspec
  cases res with
  | error e =>
    refine ⟨rfl, rfl, hindex, (hforeign e rfl).trans ?_, iff_of_true rfl nofun⟩
    exact (and_iff_left nofun).symm
  | ok _ =>
    obtain ⟨out, hout⟩ := hlock rfl
    obtain ⟨hfiles, hrefs, hkept, hfree', hlog⟩ := swapAndPublish_refused hout hwhy
    refine ⟨hfiles, hrefs, hkept.trans hindex, hfree'.trans ?_, hlog.trans ?_⟩
    · exact ⟨fun h => ⟨nofun, fun _ => h⟩, fun h => h.2 rfl⟩
    · exact ⟨fun h _ => h, fun h => h rfl⟩

/-- **A refused commit leaves no trace** exactly when the publish targets that it wrote were those
in the worktree, every lock that it gave up could be unlinked, and no reflog line preceded a swap
that failed. -/
theorem traceless_iff {why : Refusal} (hfree : Foreign s.index)
    (hwhy : (commitPaths seen r o h w s).1 = .refused why) :
    Traceless s (commitPaths seen r o h w s).2 ↔ LeavesNothing h w o seen r s := by
  rw [commitPaths] at hwhy ⊢
  cases hcheck : checkPathspec seen r with
  | error e =>
    have hnone : reachedPlan seen r o = none := by rw [reachedPlan, hcheck]
    refine iff_of_true (.refl hfree) ⟨fun _ _ hok => ?_, ?_, ?_, ?_⟩
    · exact absurd (hcheck.symm.trans hok) nofun
    all_goals simp [hnone]
  | ok _ =>
    rw [hcheck] at hwhy
    dsimp only at hwhy ⊢
    cases htargets : publishTargets seen r with
    | error e =>
      have hnone : reachedPlan seen r o = none := by rw [reachedPlan, hcheck, htargets]
      refine iff_of_true (.refl hfree) ⟨fun _ _ _ hok => ?_, ?_, ?_, ?_⟩
      · exact absurd (htargets.symm.trans hok) nofun
      all_goals simp [hnone]
    | ok res =>
      obtain ⟨written, paths⟩ := res
      rw [htargets] at hwhy
      dsimp only at hwhy ⊢
      have hreached := reachedPlan_eq (o := o) hcheck htargets
      -- the publish targets are what they were
      have hfiles : (writeTargets written s).files = s.files ↔ ∀ b paths,
          checkPathspec seen r = .ok () → publishTargets seen r = .ok (some b, paths) →
          s.files portablePath = some b := by
        rw [writeTargets_files_eq_iff]
        refine ⟨?_, fun h b heq => h b paths hcheck (by rw [htargets, heq])⟩
        rintro h b _ - hok
        cases htargets.symm.trans hok
        exact h b rfl
      cases hplan : plan seen r o paths with
      | error e =>
        have hnone : reachedPlan seen r o = none := by
          rw [hreached, hplan]
          rfl
        change Traceless s (writeTargets written s) ↔ _
        constructor
        · exact fun h => ⟨hfiles.mp h.files, by simp [hnone], by simp [hnone], by simp [hnone]⟩
        · intro h
          refine ⟨hfiles.mpr h.targets, by simp, by simp, by simp, ?_⟩
          rw [writeTargets_index]
          exact hfree
      | ok p =>
        rw [hplan] at hreached hwhy
        obtain ⟨hkept, hrefs, hindex, hlock, hlog⟩ := land_refused (by simpa using hfree) hwhy
        rw [writeTargets_index] at hlock hlog hindex
        rw [writeTargets_reflog] at hlog
        rw [writeTargets_refs] at hrefs
        constructor
        · intro h
          have hlocked := hlock.mp h.lock
          have hlogged := hlog.mp h.reflog
          refine ⟨hfiles.mp (hkept.symm.trans h.files), ?_, ?_, ?_⟩ <;>
            rw [hreached] <;> rintro _ ⟨⟩
          · exact hlocked.1
          · exact hlocked.2
          · exact hlogged
        · intro h
          have hp : p ∈ reachedPlan seen r o := by rw [hreached]; rfl
          exact ⟨hkept.trans (hfiles.mpr h.targets), hrefs, hlog.mpr (h.reflogs p hp), hindex,
            hlock.mpr ⟨h.failedSplice p hp, h.heldLock p hp⟩⟩

end

/-! ### A store that runs -/

/-- Texts are quoted letter by letter, and ended. -/
def ofTexts : List Text → Text
  | [] => []
  | t :: ts => t.flatMap (fun c => ['c', c]) ++ 'e' :: ofTexts ts

def toTexts : Text → Text → List Text
  | 'c' :: c :: rest, read => toTexts rest (read ++ [c])
  | 'e' :: rest, read => read :: toTexts rest []
  | _, _ => []

theorem toTexts_ofTexts (ts : List Text) : toTexts (ofTexts ts) [] = ts := by
  have hquoted : ∀ (t rest read : Text),
      toTexts (t.flatMap (fun c => ['c', c]) ++ 'e' :: rest) read =
        (read ++ t) :: toTexts rest [] := by
    intro t
    induction t with
    | nil => simp [toTexts]
    | cons c t ih => simp [toTexts, ih]
  induction ts with
  | nil => rfl
  | cons t ts ih => rw [ofTexts, hquoted, List.nil_append, ih]

/-- The texts of a tree entry. -/
def entryTexts (e : TreeEntry Text) : List Text :=
  [e.name.map fun b => Char.ofNat b.toNat, List.replicate e.mode 'a', e.sha]

def textEntries : List Text → List (TreeEntry Text)
  | name :: mode :: sha :: rest =>
    ⟨name.map fun c => c.toNat.toUInt8, mode.length, sha⟩ :: textEntries rest
  | _ => []

theorem textEntries_entryTexts (es : List (TreeEntry Text)) :
    textEntries (es.flatMap entryTexts) = es := by
  have hbyte (b : UInt8) : (Char.ofNat b.toNat).toNat.toUInt8 = b := by
    have hvalid : b.toNat.isValidChar := .inl (by have := b.toNat_lt; omega)
    rw [Char.ofNat, dif_pos hvalid, Char.toNat]
    change (UInt32.ofNatLT b.toNat _).toNat.toUInt8 = b
    rw [UInt32.toNat_ofNatLT]
    exact UInt8.ofNat_toNat
  induction es with
  | nil => rfl
  | cons e es ih => simp [entryTexts, textEntries, ih, Function.comp_def, hbyte]

/-- The store in which a tree and a commit are named by their text. -/
def textObjects : Objects Text Cell where
  tree t := some (textEntries (toTexts t []))
  writeTree es := ofTexts (es.flatMap entryTexts)
  commit
    | .pair tree (.pair parents message) =>
      some ⟨tree.toList.map fun c => Char.ofNat c.number, parents.toList,
        message.toList.map fun c => Char.ofNat c.number⟩
    | _ => none
  writeCommit c := .pair (Cell.ofList (c.tree.map fun x => .atom x.toNat))
    (.pair (Cell.ofList c.parents) (Cell.ofList (c.message.map fun x => .atom x.toNat)))
  tree_writeTree es := by rw [toTexts_ofTexts, textEntries_entryTexts]
  commit_writeCommit c := by
    simp [Cell.toList_ofList, Function.comp_def, Cell.number, Char.ofNat_toNat]

/-- A new module under a published directory, which the landing does not classify. -/
def newModule : RepoPath := ⟨[ofText "coordinator_core".toList], ofText ['n'], by decide⟩

/-- A commit of the new module. -/
def addModule : Request where
  paths := [newModule]
  deleted := []
  untracked := []
  supplied _ := none
  modes _ := none
  preferStaged := []
  preferDeliberateStage := false
  allowEmpty := false
  finishMerge := false
  detectRollback := false
  expectedBlobs := []
  expectedContent := []
  message := []
  slashed := by decide

/-- A merge is pending, and the publish targets would be written with other bytes. -/
def duringMerge : Seen Cell Unit where
  outside := false
  nonCanonical := false
  machineLocal := false
  isDir _ := false
  badExpectation := false
  onDisk _ := false
  landing := some ⟨[(['r'], ['n'])], some ['t'], some ['t'], [0x74, 0x6e]⟩
  shapeDenied _ := false
  ephemeral _ := false
  checkpoint _ := false
  sequencer f := f = .mergeHead
  merge := none
  indexReadable := true
  staged _ := none
  content _ := .data []
  trackedAtHead _ := false
  worktreeBlob _ := some ['b']
  fileMode _ := 0o100644
  fallback := none
  oldHead := none
  spineHead := none
  unborn := some ()
  undeclared _ := false
  strayDeletion := false
  rollback := false
  backstopHead := none
  target := none
  abandonedEarly := false
  takings := [calm]
  fenced := false
  abandonedLate := false
  held := true
  unlinks := true
  swap := ⟨true, none, true, false, true, false, true⟩
  renamesIndex := true
  reset := none

/-- A repository whose publish targets have some bytes. -/
def withTargets (b : Bytes) : Stores Cell Unit where
  files := Function.update (fun _ => none) portablePath (some b)
  refs := ⟨.branch (), fun _ => none⟩
  reflog := []
  index := ⟨none, none⟩

/-- The same call with no merge pending, on a branch without a commit. No reflog is kept, and the
rename of the ref fails. -/
def lostSwap : Seen Cell Unit :=
  { duringMerge with
    landing := none
    sequencer := fun _ => false
    worktreeBlob := fun _ => some (List.replicate 40 'b')
    target := some (.branch ())
    swap := ⟨true, none, false, false, false, false, false⟩ }

/-- A call that builds its tree, takes the index lock and loses the ref leaves nothing. -/
theorem traceless_lostSwap :
    (commitPaths lostSwap addModule textObjects splitDigest bareWorktree (withTargets [0x74])).1 =
        .refused .casFailed ∧
      Traceless (withTargets [0x74]) (commitPaths lostSwap addModule textObjects splitDigest
        bareWorktree (withTargets [0x74])).2 := by
  have hrun : (commitPaths lostSwap addModule textObjects splitDigest bareWorktree
      (withTargets [0x74])).1 = .refused .casFailed := by
    decide +kernel
  refine ⟨hrun, (traceless_iff (by simp [Foreign, withTargets]) hrun).mpr
    ⟨fun b paths _ hok => ?_, fun _ _ _ _ _ => rfl, fun _ _ _ _ => rfl,
      fun _ _ _ _ _ _ _ => rfl⟩⟩
  have hnone : publishTargets lostSwap addModule = .ok (none, [newModule]) := by decide
  cases hnone.symm.trans hok

/-- A call that is refused for a pending merge has written the publish targets. -/
theorem refused_writes_targets :
    (commitPaths duringMerge addModule textObjects splitDigest bareWorktree
        (withTargets [0x74])).1 = .refused (.midSequence .mergeHead) ∧
      (commitPaths duringMerge addModule textObjects splitDigest bareWorktree
        (withTargets [0x74])).2.files portablePath = some [0x74, 0x6e] ∧
      ¬ Traceless (withTargets [0x74]) (commitPaths duringMerge addModule textObjects
        splitDigest bareWorktree (withTargets [0x74])).2 := by
  have hfiles : (commitPaths duringMerge addModule textObjects splitDigest bareWorktree
      (withTargets [0x74])).2.files portablePath = some [0x74, 0x6e] := by
    decide
  refine ⟨by decide, hfiles, fun h => ?_⟩
  have hkept := congrFun h.files portablePath
  rw [hfiles] at hkept
  exact absurd hkept (by decide)

end CommitStages

end Git

end CoordinatorCore
