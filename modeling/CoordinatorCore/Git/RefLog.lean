import CoordinatorCore.Machine.Run
import Mathlib.Logic.Function.Basic

/-!
# Refs and their reflogs

`_cas_ref` and `_cas_head_symref` of `git/git_objects.py`, each as one call, together with the
reflogs that they append to. Every file operation of a call may fail, which `Os` says; `CasRef` has
the calls of a ref that run beside each other, and leaves the reflogs out.

A reflog is a recoverable audit trail. It can be switched off, and a line that is not written within
the deadline is written later or never, and the caller goes on. So the lines are there where the
reflogs are on and the appends are done in time (`swap_law`).
-/

namespace CoordinatorCore

open Machine

namespace Git

namespace RefLog

/-! ### The repository -/

/-- What the file of a ref holds. -/
inductive Content (α : Type*)
  | sha (a : α)
  | symref (target : String)
  deriving DecidableEq

/-- The two shas of a line; nothing stands for forty zeros. -/
structure Line (α : Type*) where
  old : Option α
  new : α
  deriving DecidableEq

/-- The files of refs and their locks, `packed-refs`, the reflogs, and what `config` says about
them, each by its directory. A file may be empty. -/
structure Repo (δ α : Type*) where
  file : δ → String → Option (Option (Content α))
  packed : δ → String → Option α
  log : δ → String → List (Line α)
  logAllRefUpdates : δ → Bool

/-- How the lock is opened. -/
inductive Open
  | opened
  | denied
  | raised
  deriving DecidableEq

/-- How a line is appended: `late` is one that outlives the deadline. -/
inductive Append
  | done
  | late
  | raised
  deriving DecidableEq

/-- How `os.replace` ends; `denied` is a `PermissionError`. -/
inductive Replace
  | done
  | denied
  | failed
  deriving DecidableEq

/-- What the file operations of a call come to. Reads are counted, and so are attempts to rename. -/
structure Os where
  mkdir : Bool
  open_ : Open
  close : Bool
  readable : Nat → Bool
  packedReadable : Nat → Bool
  headReadable : Nat → Bool
  write : Bool
  append : Append
  appendHead : Append
  replace : Nat → Replace
  unlink : Bool

inductive Reply
  | raised
  | returned (won : Bool)
  deriving DecidableEq

/-- The arguments of `_cas_ref`; `logged` says that there is a committer and a message. -/
structure Cas (δ α : Type*) where
  dir : δ
  ref : String
  expected : Option α
  new : α
  logged : Bool
  headDir : Option δ

/-- The arguments of `_cas_head_symref`. -/
structure HeadSwap (δ α : Type*) where
  dir : δ
  expectedTarget : String
  newTarget : String
  sha : Option α
  logged : Bool

def lockName (ref : String) : String := ref ++ ".lock"

def Cas.line {δ α : Type*} (c : Cas δ α) : Line α := ⟨c.expected, c.new⟩

/-! ### The calls -/

section

variable {δ α : Type*} [DecidableEq δ]

namespace Repo

def setFile (s : Repo δ α) (dir : δ) (name : String) (f : Option (Option (Content α))) :
    Repo δ α :=
  { s with file := fun d r => if d = dir ∧ r = name then f else s.file d r }

def addLine (s : Repo δ α) (dir : δ) (ref : String) (line : Line α) : Repo δ α :=
  { s with log := fun d r => if d = dir ∧ r = ref then s.log d r ++ [line] else s.log d r }

/-- `_read_ref_raw`. -/
def readRefRaw (s : Repo δ α) (dir : δ) (ref : String) : Option (Content α) :=
  (s.file dir ref).join

/-- The value of a ref: what its file holds, or else `packed-refs`. -/
def value (s : Repo δ α) (dir : δ) (ref : String) : Option (Content α) :=
  (s.readRefRaw dir ref).orElse fun _ => (s.packed dir ref).map .sha

/-- The value as the look `n` of a call finds it; a read that fails reads as nothing. -/
def read (s : Repo δ α) (os : Os) (n : Nat) (dir : δ) (ref : String) : Option (Content α) :=
  (if os.readable n then s.readRefRaw dir ref else none).orElse fun _ =>
    if os.packedReadable n then (s.packed dir ref).map .sha else none

/-- `_head_symref_target`. -/
def headSymrefTarget (s : Repo δ α) (readable : Bool) (dir : δ) : Option String :=
  if readable then
    match s.readRefRaw dir "HEAD" with
    | some (.symref target) => some target
    | _ => none
  else none

/-- `append_reflog`, and whether it comes back. -/
def appendReflog (s : Repo δ α) (how : Append) (dir : δ) (ref : String) (line : Line α) :
    Bool × Repo δ α :=
  if s.logAllRefUpdates dir = false then (true, s)
  else match how with
    | .done => (true, s.addLine dir ref line)
    | .late => (true, s)
    | .raised => (false, s)

/-- `os.replace` of a lock, where it succeeds. -/
def moveLock (s : Repo δ α) (dir : δ) (ref : String) : Repo δ α :=
  (s.setFile dir ref (s.file dir (lockName ref))).setFile dir (lockName ref) none

/-- What the `finally` does. -/
def cleanup (s : Repo δ α) (os : Os) (dir : δ) (ref : String) : Repo δ α :=
  if (s.file dir (lockName ref)).isSome && os.unlink then s.setFile dir (lockName ref) none else s

end Repo

/-- `_replace_with_retry`, with the number of attempts that are left. -/
def replaceWithRetry (replace : Nat → Replace) (stillValid : Nat → Bool) : Nat → Nat → Bool
  | 0, _ => false
  | left + 1, n =>
    if n ≠ 0 ∧ stillValid n = false then false
    else match replace n with
      | .done => true
      | .denied => replaceWithRetry replace stillValid left (n + 1)
      | .failed => false

/-- One attempt, and one after each of `_REPLACE_RETRY_DELAYS_S`. -/
def attempts : Nat := 7

/-- HEAD is given, is another ref, and is read as naming this one. -/
def Cas.namesHead (c : Cas δ α) (os : Os) (s : Repo δ α) (dir : δ) : Bool :=
  c.headDir = some dir && c.ref ≠ "HEAD" &&
    s.headSymrefTarget (os.headReadable 0) dir = some c.ref

/-- The reflogs of a swap, and whether the appends come back. -/
def Cas.appendReflogs (c : Cas δ α) (os : Os) (s : Repo δ α) : Bool × Repo δ α :=
  if c.logged then
    let (back, s') := s.appendReflog os.append c.dir c.ref c.line
    match c.headDir with
    | some dir =>
      if back && c.namesHead os s' dir then s'.appendReflog os.appendHead dir "HEAD" c.line
      else (back, s')
    | none => (back, s')
  else (true, s)

variable [DecidableEq α]

/-- The `try` of `_cas_ref`. -/
def casLocked (os : Os) (c : Cas δ α) (s : Repo δ α) : Reply × Repo δ α :=
  if os.close = false then (.raised, s)
  else if s.read os 0 c.dir c.ref ≠ c.expected.map .sha then (.returned false, s)
  else if os.write = false then (.raised, s)
  else
    let (back, s) := c.appendReflogs os
      (s.setFile c.dir (lockName c.ref) (some (some (.sha c.new))))
    if back = false then (.raised, s)
    else if replaceWithRetry os.replace
        (fun n => s.read os n c.dir c.ref = c.expected.map .sha) attempts 0 then
      (.returned true, s.moveLock c.dir c.ref)
    else (.returned false, s)

/-- `_cas_ref`. -/
def casRef (os : Os) (c : Cas δ α) (s : Repo δ α) : Reply × Repo δ α :=
  if os.mkdir = false then (.raised, s)
  else match os.open_ with
    | .raised => (.raised, s)
    | .denied => (.returned false, s)
    | .opened =>
      -- `FileExistsError`
      if (s.file c.dir (lockName c.ref)).isSome then (.returned false, s)
      else
        let (reply, s) := casLocked os c (s.setFile c.dir (lockName c.ref) (some none))
        (reply, s.cleanup os c.dir c.ref)

/-- The `try` of `_cas_head_symref`. -/
def headSwapLocked (os : Os) (c : HeadSwap δ α) (s : Repo δ α) : Reply × Repo δ α :=
  if os.close = false then (.raised, s)
  else if s.headSymrefTarget (os.headReadable 0) c.dir ≠ some c.expectedTarget then
    (.returned false, s)
  else if os.write = false then (.raised, s)
  else
    let s := s.setFile c.dir (lockName "HEAD") (some (some (.symref c.newTarget)))
    if replaceWithRetry os.replace
        (fun n => s.headSymrefTarget (os.headReadable n) c.dir = some c.expectedTarget)
        attempts 0 then
      let s := s.moveLock c.dir "HEAD"
      match c.sha with
      | some sha =>
        if c.logged then
          let (back, s) := s.appendReflog os.append c.dir "HEAD" ⟨some sha, sha⟩
          (if back then .returned true else .raised, s)
        else (.returned true, s)
      | none => (.returned true, s)
    else (.returned false, s)

/-- `_cas_head_symref`. -/
def casHeadSymref (os : Os) (c : HeadSwap δ α) (s : Repo δ α) : Reply × Repo δ α :=
  match os.open_ with
  | .raised | .denied => (.returned false, s)
  | .opened =>
    if (s.file c.dir (lockName "HEAD")).isSome then (.returned false, s)
    else
      let (reply, s) := headSwapLocked os c (s.setFile c.dir (lockName "HEAD") (some none))
      (reply, s.cleanup os c.dir "HEAD")

end

/-! ### What a call promises -/

section

variable {δ α : Type*} [DecidableEq δ] [DecidableEq α]

/-- The call comes to its first append. -/
structure Reaches (os : Os) (c : Cas δ α) (s : Repo δ α) : Prop where
  mkdir : os.mkdir = true
  opened : os.open_ = .opened
  free : s.file c.dir (lockName c.ref) = none
  close : os.close = true
  expected : s.read os 0 c.dir c.ref = c.expected.map .sha
  write : os.write = true

/-- The reflog of the ref is on, and the line is appended in time; likewise for HEAD. -/
structure InTime (os : Os) (c : Cas δ α) (s : Repo δ α) : Prop where
  on : s.logAllRefUpdates c.dir = true
  append : os.append = .done
  head : ∀ dir, c.namesHead os s dir = true →
    s.logAllRefUpdates dir = true ∧ os.appendHead = .done

/-- What `_cas_ref` promises. A call that fails behind an append that was done is left out. -/
structure CasLaw (os : Os) (c : Cas δ α) (s : Repo δ α) : Prop where
  packed : (casRef os c s).2.packed = s.packed
  kept : (casRef os c s).1 ≠ .returned true →
    (casRef os c s).2.file c.dir c.ref = s.file c.dir c.ref
  keptLog : (casRef os c s).1 ≠ .returned true → c.logged = false ∨ ¬ Reaches os c s →
    (casRef os c s).2.log = s.log
  moved : (casRef os c s).1 = .returned true →
    (casRef os c s).2.value c.dir c.ref = some (.sha c.new)
  line : (casRef os c s).1 = .returned true → c.logged = true → InTime os c s →
    (casRef os c s).2.log c.dir c.ref = s.log c.dir c.ref ++ [c.line]
  headLine : (casRef os c s).1 = .returned true → c.logged = true → InTime os c s →
    ∀ dir, c.namesHead os s dir = true →
      (casRef os c s).2.log dir "HEAD" = s.log dir "HEAD" ++ [c.line]
  otherLogs : ∀ dir ref, ¬ (dir = c.dir ∧ ref = c.ref) →
    ¬ (ref = "HEAD" ∧ c.namesHead os s dir = true) →
      (casRef os c s).2.log dir ref = s.log dir ref

/-- What `_cas_head_symref` promises. A swap whose append raises is left out. -/
structure HeadLaw (os : Os) (c : HeadSwap δ α) (s : Repo δ α) : Prop where
  packed : (casHeadSymref os c s).2.packed = s.packed
  kept : (casHeadSymref os c s).1 = .returned false →
    (casHeadSymref os c s).2.file c.dir "HEAD" = s.file c.dir "HEAD" ∧
      (casHeadSymref os c s).2.log = s.log
  raised : (casHeadSymref os c s).1 = .raised → os.append ≠ .raised →
    (casHeadSymref os c s).2.file c.dir "HEAD" = s.file c.dir "HEAD" ∧
      (casHeadSymref os c s).2.log = s.log
  moved : (casHeadSymref os c s).1 = .returned true →
    (casHeadSymref os c s).2.value c.dir "HEAD" = some (.symref c.newTarget)
  line : (casHeadSymref os c s).1 = .returned true → c.logged = true →
    s.logAllRefUpdates c.dir = true → os.append = .done → ∀ sha, c.sha = some sha →
      (casHeadSymref os c s).2.log c.dir "HEAD" = s.log c.dir "HEAD" ++ [⟨some sha, sha⟩]
  otherLogs : ∀ dir ref, ¬ (dir = c.dir ∧ ref = "HEAD") →
    (casHeadSymref os c s).2.log dir ref = s.log dir ref

/-- A call with what its file operations come to. -/
inductive Call (δ α : Type*)
  | cas (os : Os) (c : Cas δ α)
  | head (os : Os) (c : HeadSwap δ α)

/-- One call of a run. -/
def callStep (s : Repo δ α) : Call δ α → Option (Repo δ α)
  | .cas os c => some (casRef os c s).2
  | .head os c => some (casHeadSymref os c s).2

/-- The last line of the reflog ends in the value of the ref. -/
def InStep (dir : δ) (ref : String) (s : Repo δ α) : Prop :=
  (s.log dir ref).getLast?.map (fun l => Content.sha l.new) = s.value dir ref

/-- A swap of the ref that wins logs its line in time, and one that fails has not come to its
appends. -/
def Settled (dir : δ) (ref : String) (s : Repo δ α) : Call δ α → Prop
  | .cas os c => c.dir = dir ∧ c.ref = ref →
    ((casRef os c s).1 = .returned true → c.logged = true ∧ InTime os c s) ∧
    ((casRef os c s).1 ≠ .returned true → c.logged = false ∨ ¬ Reaches os c s)
  | .head _ _ => True

end

/-! ### Files and reflogs of a state -/

section

variable {δ α : Type*} [DecidableEq δ] {s : Repo δ α}

namespace Repo

@[simp] theorem setFile_packed (dir : δ) (name : String) (f : Option (Option (Content α))) :
    (s.setFile dir name f).packed = s.packed := rfl

@[simp] theorem setFile_log (dir : δ) (name : String) (f : Option (Option (Content α))) :
    (s.setFile dir name f).log = s.log := rfl

@[simp] theorem setFile_logAllRefUpdates (dir : δ) (name : String)
    (f : Option (Option (Content α))) :
    (s.setFile dir name f).logAllRefUpdates = s.logAllRefUpdates := rfl

@[simp] theorem setFile_self (dir : δ) (name : String) (f : Option (Option (Content α))) :
    (s.setFile dir name f).file dir name = f := if_pos ⟨rfl, rfl⟩

/-- Setting one file leaves the others. -/
theorem setFile_of_ne {dir d : δ} {name r : String} (h : ¬ (d = dir ∧ r = name))
    (f : Option (Option (Content α))) : (s.setFile dir name f).file d r = s.file d r := if_neg h

/-- The later of two values of a file stays. -/
theorem setFile_setFile (dir : δ) (name : String) (f g : Option (Option (Content α))) :
    (s.setFile dir name f).setFile dir name g = s.setFile dir name g := by
  simp only [setFile, Repo.mk.injEq, and_true]
  funext d r
  split_ifs <;> rfl

@[simp] theorem addLine_file (dir : δ) (ref : String) (line : Line α) :
    (s.addLine dir ref line).file = s.file := rfl

@[simp] theorem addLine_packed (dir : δ) (ref : String) (line : Line α) :
    (s.addLine dir ref line).packed = s.packed := rfl

@[simp] theorem addLine_logAllRefUpdates (dir : δ) (ref : String) (line : Line α) :
    (s.addLine dir ref line).logAllRefUpdates = s.logAllRefUpdates := rfl

@[simp] theorem addLine_self (dir : δ) (ref : String) (line : Line α) :
    (s.addLine dir ref line).log dir ref = s.log dir ref ++ [line] := if_pos ⟨rfl, rfl⟩

/-- A reflog line leaves the other reflogs. -/
theorem addLine_of_ne {dir d : δ} {ref r : String} (h : ¬ (d = dir ∧ r = ref)) (line : Line α) :
    (s.addLine dir ref line).log d r = s.log d r := if_neg h

/-- Two states with the same files and reflogs but for one file. -/
structure SameBut (dir : δ) (name : String) (s s' : Repo δ α) : Prop where
  packed : s'.packed = s.packed
  logging : s'.logAllRefUpdates = s.logAllRefUpdates
  file : ∀ d r, ¬ (d = dir ∧ r = name) → s'.file d r = s.file d r

end Repo

/-- A ref is not its own lock. -/
theorem ne_lockName (ref : String) : ref ≠ lockName ref := by
  intro h
  have hlen := congrArg String.length h
  have hlock : ".lock".length = 5 := by decide
  rw [lockName, String.length_append] at hlen
  omega

/-- `HEAD` is no lock. -/
theorem head_ne_lockName (ref : String) : "HEAD" ≠ lockName ref := by
  intro h
  have hlen := congrArg String.length h
  have hlock : ".lock".length = 5 := by decide
  have hhead : "HEAD".length = 4 := by decide
  rw [lockName, String.length_append] at hlen
  omega

namespace Repo

omit [DecidableEq δ] in
theorem SameBut.refl (dir : δ) (name : String) : SameBut dir name s s :=
  ⟨rfl, rfl, fun _ _ _ => rfl⟩

omit [DecidableEq δ] in
theorem SameBut.trans {dir : δ} {name : String} {s₁ s₂ s₃ : Repo δ α} (h : SameBut dir name s₁ s₂)
    (h' : SameBut dir name s₂ s₃) : SameBut dir name s₁ s₃ where
  packed := h'.packed.trans h.packed
  logging := h'.logging.trans h.logging
  file := fun d r hr => (h'.file d r hr).trans (h.file d r hr)

/-- Setting a file changes nothing else. -/
theorem sameBut_setFile (dir : δ) (name : String) (f : Option (Option (Content α))) :
    SameBut dir name s (s.setFile dir name f) :=
  ⟨rfl, rfl, fun _ _ hr => setFile_of_ne hr f⟩

/-- A cleanup touches the lock only. -/
theorem sameBut_cleanup (os : Os) (dir : δ) (ref : String) :
    SameBut dir (lockName ref) s (s.cleanup os dir ref) := by
  rw [cleanup]
  split_ifs
  · exact sameBut_setFile dir (lockName ref) none
  · exact .refl dir (lockName ref)

@[simp] theorem cleanup_log (os : Os) (dir : δ) (ref : String) :
    (s.cleanup os dir ref).log = s.log := by
  rw [cleanup]
  split_ifs <;> rfl

/-- A lock is not what a read of the ref looks at. -/
theorem read_setFile_lock (os : Os) (n : Nat) (dir : δ) (ref : String)
    (f : Option (Option (Content α))) :
    (s.setFile dir (lockName ref) f).read os n dir ref = s.read os n dir ref := by
  rw [read, readRefRaw, setFile_of_ne fun h => ne_lockName ref h.2]
  rfl

/-- What `HEAD` names does not depend on a lock. -/
theorem headSymrefTarget_setFile_lock (readable : Bool) (d dir : δ) (ref : String)
    (f : Option (Option (Content α))) :
    (s.setFile dir (lockName ref) f).headSymrefTarget readable d =
      s.headSymrefTarget readable d := by
  rw [headSymrefTarget, readRefRaw, setFile_of_ne fun h => head_ne_lockName ref h.2]
  rfl

/-! ### Appending -/

/-- A reflog append leaves the files. -/
theorem appendReflog_file (how : Append) (dir : δ) (ref : String) (line : Line α) :
    (s.appendReflog how dir ref line).2.file = s.file := by
  unfold appendReflog
  split_ifs
  · rfl
  · cases how <;> rfl

theorem appendReflog_packed (how : Append) (dir : δ) (ref : String) (line : Line α) :
    (s.appendReflog how dir ref line).2.packed = s.packed := by
  unfold appendReflog
  split_ifs
  · rfl
  · cases how <;> rfl

theorem appendReflog_logging (how : Append) (dir : δ) (ref : String) (line : Line α) :
    (s.appendReflog how dir ref line).2.logAllRefUpdates = s.logAllRefUpdates := by
  unfold appendReflog
  split_ifs
  · rfl
  · cases how <;> rfl

/-- Only the reflog of the ref gets a line. -/
theorem appendReflog_of_ne (how : Append) {dir d : δ} {ref r : String} (line : Line α)
    (h : ¬ (d = dir ∧ r = ref)) : (s.appendReflog how dir ref line).2.log d r = s.log d r := by
  unfold appendReflog
  split_ifs
  · rfl
  · cases how with
    | done => exact addLine_of_ne h line
    | late => rfl
    | raised => rfl

/-- An append in time, with reflogs on, adds its line. -/
theorem appendReflog_done {dir : δ} {how : Append} (hon : s.logAllRefUpdates dir = true)
    (hhow : how = .done) (ref : String) (line : Line α) :
    s.appendReflog how dir ref line = (true, s.addLine dir ref line) := by
  simp only [appendReflog, hon, hhow, Bool.true_eq_false, if_false]

/-- An append does not look at the files. -/
theorem appendReflog_setFile (how : Append) (dir d : δ) (ref name : String) (line : Line α)
    (f : Option (Option (Content α))) :
    (s.setFile d name f).appendReflog how dir ref line =
      ((s.appendReflog how dir ref line).1,
        (s.appendReflog how dir ref line).2.setFile d name f) := by
  unfold appendReflog
  rw [setFile_logAllRefUpdates]
  split_ifs
  · rfl
  · cases how <;> rfl

end Repo

section

variable {os : Os} {c : Cas δ α}

/-- Whether `HEAD` is logged depends on the `HEAD` files alone. -/
theorem Cas.namesHead_congr {s' : Repo δ α} (h : ∀ d, s'.file d "HEAD" = s.file d "HEAD") (dir : δ) :
    c.namesHead os s' dir = c.namesHead os s dir := by
  rw [Cas.namesHead, Cas.namesHead, Repo.headSymrefTarget, Repo.headSymrefTarget,
    Repo.readRefRaw, Repo.readRefRaw, h]

theorem Cas.appendReflogs_file (os : Os) (c : Cas δ α) :
    (c.appendReflogs os s).2.file = s.file := by
  unfold Cas.appendReflogs
  split_ifs with hlog
  · cases c.headDir with
    | none => exact s.appendReflog_file ..
    | some dir =>
      dsimp only
      split_ifs
      · exact (Repo.appendReflog_file ..).trans (s.appendReflog_file ..)
      · exact s.appendReflog_file ..
  · rfl

theorem Cas.appendReflogs_packed (os : Os) (c : Cas δ α) :
    (c.appendReflogs os s).2.packed = s.packed := by
  unfold Cas.appendReflogs
  split_ifs with hlog
  · cases c.headDir with
    | none => exact s.appendReflog_packed ..
    | some dir =>
      dsimp only
      split_ifs
      · exact (Repo.appendReflog_packed ..).trans (s.appendReflog_packed ..)
      · exact s.appendReflog_packed ..
  · rfl

theorem Cas.appendReflogs_logging (os : Os) (c : Cas δ α) :
    (c.appendReflogs os s).2.logAllRefUpdates = s.logAllRefUpdates := by
  unfold Cas.appendReflogs
  split_ifs with hlog
  · cases c.headDir with
    | none => exact s.appendReflog_logging ..
    | some dir =>
      dsimp only
      split_ifs
      · exact (Repo.appendReflog_logging ..).trans (s.appendReflog_logging ..)
      · exact s.appendReflog_logging ..
  · rfl

/-- The appends of a swap change nothing but reflogs. -/
theorem Cas.sameBut_appendReflogs (os : Os) (c : Cas δ α) :
    Repo.SameBut c.dir (lockName c.ref) s (c.appendReflogs os s).2 :=
  ⟨Cas.appendReflogs_packed os c, Cas.appendReflogs_logging os c,
    fun _ _ _ => by rw [Cas.appendReflogs_file]⟩

/-- No reflog but those of the ref and of the HEAD that names it gets a line. -/
theorem Cas.appendReflogs_of_ne {dir : δ} {ref : String} (hself : ¬ (dir = c.dir ∧ ref = c.ref))
    (hhead : ¬ (ref = "HEAD" ∧ c.namesHead os s dir = true)) :
    (c.appendReflogs os s).2.log dir ref = s.log dir ref := by
  have hfirst := s.appendReflog_of_ne os.append c.line hself
  unfold Cas.appendReflogs
  split_ifs with hlog
  · cases c.headDir with
    | none => exact hfirst
    | some d =>
      dsimp only
      split_ifs with hd
      · have hnames : c.namesHead os s d = true := by
          rw [← Cas.namesHead_congr fun d => by rw [Repo.appendReflog_file]]
          exact (Bool.and_eq_true_iff.mp hd).2
        refine (Repo.appendReflog_of_ne _ _ fun h => hhead ⟨h.2, ?_⟩).trans hfirst
        rw [h.1, hnames]
      · exact hfirst
  · rfl

/-- The lines that are there when the appends are done in time. -/
theorem Cas.appendReflogs_inTime (hlog : c.logged = true) (h : InTime os c s) :
    (c.appendReflogs os s).2.log c.dir c.ref = s.log c.dir c.ref ++ [c.line] ∧
      ∀ dir, c.namesHead os s dir = true →
        (c.appendReflogs os s).2.log dir "HEAD" = s.log dir "HEAD" ++ [c.line] := by
  have hnames (d : δ) : c.namesHead os (s.addLine c.dir c.ref c.line) d = c.namesHead os s d :=
    Cas.namesHead_congr (fun _ => rfl) d
  unfold Cas.appendReflogs
  rw [if_pos hlog, Repo.appendReflog_done h.on h.append]
  cases hd : c.headDir with
  | none =>
    refine ⟨Repo.addLine_self .., fun dir hdir => ?_⟩
    simp [Cas.namesHead, hd] at hdir
  | some d =>
    simp only [Bool.true_and, hnames]
    have heq : ∀ dir, c.namesHead os s dir = true → d = dir ∧ c.ref ≠ "HEAD" := by
      intro dir hdir
      simp only [Cas.namesHead, hd, Bool.and_eq_true, decide_eq_true_eq, Option.some.injEq] at hdir
      exact hdir.1
    split_ifs with hn
    · obtain ⟨hon, hdone⟩ := h.head d hn
      rw [Repo.appendReflog_done (by exact hon) hdone]
      constructor
      · rw [Repo.addLine_of_ne fun hc => (heq d hn).2 hc.2, Repo.addLine_self]
      · intro dir hdir
        obtain rfl := (heq dir hdir).1
        rw [Repo.addLine_self, Repo.addLine_of_ne fun hc => (heq _ hn).2 hc.2.symm]
    · refine ⟨Repo.addLine_self .., fun dir hdir => ?_⟩
      obtain rfl := (heq dir hdir).1
      exact absurd hdir hn

/-- The appends do not look at the ref's lock. -/
theorem Cas.appendReflogs_setFile_lock (os : Os) (c : Cas δ α) (f : Option (Option (Content α))) :
    c.appendReflogs os (s.setFile c.dir (lockName c.ref) f) =
      ((c.appendReflogs os s).1,
        (c.appendReflogs os s).2.setFile c.dir (lockName c.ref) f) := by
  have hnames (s : Repo δ α) (d : δ) :
      c.namesHead os (s.setFile c.dir (lockName c.ref) f) d = c.namesHead os s d :=
    Cas.namesHead_congr (fun _ => Repo.setFile_of_ne (fun h => head_ne_lockName _ h.2) _) d
  unfold Cas.appendReflogs
  rw [Repo.appendReflog_setFile]
  split_ifs
  · cases c.headDir with
    | none => rfl
    | some d =>
      simp only [hnames, Repo.appendReflog_setFile]
      split_ifs <;> rfl
  · rfl

end

/-! ### What a call comes to -/

section

variable [DecidableEq α] {os : Os} {c : Cas δ α}

/-- A swap ends before its appends, or it ends behind them without the rename, or it wins. -/
theorem casRef_cases (os : Os) (c : Cas δ α) (s : Repo δ α) :
    ((casRef os c s).1 ≠ .returned true ∧
      Repo.SameBut c.dir (lockName c.ref) s (casRef os c s).2 ∧
      ((¬ Reaches os c s ∧ (casRef os c s).2.log = s.log) ∨
        (Reaches os c s ∧ (casRef os c s).2.log = (c.appendReflogs os s).2.log))) ∨
    ((casRef os c s).1 = .returned true ∧ Reaches os c s ∧
      (casRef os c s).2 = (((c.appendReflogs os s).2.setFile c.dir (lockName c.ref)
        (some (some (.sha c.new)))).moveLock c.dir c.ref).cleanup os c.dir c.ref) := by
  unfold casRef
  by_cases hmkdir : os.mkdir = false
  · rw [if_pos hmkdir]
    exact .inl ⟨nofun, .refl .., .inl ⟨fun h => by simp [h.mkdir] at hmkdir, rfl⟩⟩
  rw [if_neg hmkdir]
  cases hopen : os.open_ with
  | raised => exact .inl ⟨nofun, .refl .., .inl ⟨fun h => by simp [h.opened] at hopen, rfl⟩⟩
  | denied => exact .inl ⟨nofun, .refl .., .inl ⟨fun h => by simp [h.opened] at hopen, rfl⟩⟩
  | opened =>
    by_cases hfree : (s.file c.dir (lockName c.ref)).isSome = true
    · dsimp only
      rw [if_pos hfree]
      exact .inl ⟨nofun, .refl .., .inl ⟨fun h => by simp [h.free] at hfree, rfl⟩⟩
    dsimp only
    rw [if_neg hfree]
    -- the lock is there, and goes with the `finally`
    have hbut := (Repo.sameBut_setFile (s := s) c.dir (lockName c.ref) (some none)).trans
      (Repo.sameBut_cleanup os c.dir c.ref)
    unfold casLocked
    by_cases hclose : os.close = false
    · rw [if_pos hclose]
      exact .inl ⟨nofun, hbut, .inl ⟨fun h => by simp [h.close] at hclose, Repo.cleanup_log ..⟩⟩
    rw [if_neg hclose, Repo.read_setFile_lock]
    by_cases hread : s.read os 0 c.dir c.ref = c.expected.map .sha
    swap
    · rw [if_pos hread]
      exact .inl ⟨nofun, hbut, .inl ⟨fun h => hread h.expected, Repo.cleanup_log ..⟩⟩
    rw [if_neg (not_not.mpr hread)]
    by_cases hwrite : os.write = false
    · rw [if_pos hwrite]
      exact .inl ⟨nofun, hbut, .inl ⟨fun h => by simp [h.write] at hwrite, Repo.cleanup_log ..⟩⟩
    rw [if_neg hwrite]
    have hreach : Reaches os c s :=
      ⟨by simpa using hmkdir, hopen, by simpa using hfree, by simpa using hclose, hread,
        by simpa using hwrite⟩
    rw [Repo.setFile_setFile, Cas.appendReflogs_setFile_lock]
    have hbehind : Repo.SameBut c.dir (lockName c.ref) s (((c.appendReflogs os s).2.setFile c.dir
        (lockName c.ref) (some (some (.sha c.new)))).cleanup os c.dir c.ref) :=
      ((Cas.sameBut_appendReflogs os c).trans (Repo.sameBut_setFile ..)).trans
        (Repo.sameBut_cleanup ..)
    dsimp only
    by_cases hback : (c.appendReflogs os s).1 = false
    · rw [if_pos hback]
      exact .inl ⟨nofun, hbehind, .inr ⟨hreach, Repo.cleanup_log ..⟩⟩
    rw [if_neg hback]
    split_ifs
    · exact .inr ⟨rfl, hreach, rfl⟩
    · exact .inl ⟨nofun, hbehind, .inr ⟨hreach, Repo.cleanup_log ..⟩⟩

omit [DecidableEq α] in
/-- The files behind a rename. -/
theorem Repo.moveLock_file (dir : δ) (ref : String) (f : Option (Option (Content α))) :
    ((s.setFile dir (lockName ref) f).moveLock dir ref).file =
      ((s.setFile dir ref f).setFile dir (lockName ref) none).file := by
  funext d r
  by_cases hlock : d = dir ∧ r = lockName ref
  · obtain ⟨rfl, rfl⟩ := hlock
    simp only [Repo.moveLock, Repo.setFile_self]
  · rw [Repo.moveLock, Repo.setFile_of_ne hlock, Repo.setFile_of_ne hlock, Repo.setFile_self]
    by_cases hself : d = dir ∧ r = ref
    · obtain ⟨rfl, rfl⟩ := hself
      rw [Repo.setFile_self, Repo.setFile_self]
    · rw [Repo.setFile_of_ne hself, Repo.setFile_of_ne hself, Repo.setFile_of_ne hlock]

/-- A swap that wins. -/
structure Won (os : Os) (c : Cas δ α) (s s' : Repo δ α) : Prop where
  packed : s'.packed = s.packed
  log : s'.log = (c.appendReflogs os s).2.log
  self : s'.file c.dir c.ref = some (some (.sha c.new))
  file : ∀ d r, ¬ (d = c.dir ∧ r = c.ref) → ¬ (d = c.dir ∧ r = lockName c.ref) →
    s'.file d r = s.file d r

/-- A swap that returns true has won. -/
theorem won_of_returned (h : (casRef os c s).1 = .returned true) :
    Won os c s (casRef os c s).2 := by
  obtain ⟨hne, -⟩ | ⟨-, -, heq⟩ := casRef_cases os c s
  · exact absurd h hne
  · rw [heq]
    have hclean (d : δ) (r : String) (hlock : ¬ (d = c.dir ∧ r = lockName c.ref)) :=
      (Repo.sameBut_cleanup (s := ((c.appendReflogs os s).2.setFile c.dir (lockName c.ref)
        (some (some (.sha c.new)))).moveLock c.dir c.ref) os c.dir c.ref).file d r hlock
    refine ⟨?_, Repo.cleanup_log .., ?_, fun d r hself hlock => ?_⟩
    · exact (Repo.sameBut_cleanup os c.dir c.ref).packed.trans (Cas.appendReflogs_packed os c)
    · rw [hclean _ _ fun h => ne_lockName c.ref h.2, Repo.moveLock_file,
        Repo.setFile_of_ne fun h => ne_lockName c.ref h.2, Repo.setFile_self]
    · rw [hclean d r hlock, Repo.moveLock_file, Repo.setFile_of_ne hlock, Repo.setFile_of_ne hself,
        Cas.appendReflogs_file]

/-- The promise of `_cas_ref`. -/
theorem casLaw (os : Os) (c : Cas δ α) (s : Repo δ α) : CasLaw os c s where
  packed := by
    obtain ⟨-, hbut, -⟩ | ⟨hwon, -⟩ := casRef_cases os c s
    · exact hbut.packed
    · exact (won_of_returned hwon).packed
  kept := fun hne => by
    obtain ⟨-, hbut, -⟩ | ⟨hwon, -⟩ := casRef_cases os c s
    · exact hbut.file _ _ fun h => ne_lockName c.ref h.2
    · exact absurd hwon hne
  keptLog := fun hne hearly => by
    obtain ⟨-, -, ⟨-, hlog⟩ | ⟨hreach, hlog⟩⟩ | ⟨hwon, -⟩ := casRef_cases os c s
    · exact hlog
    · obtain hoff | hno := hearly
      · rw [hlog, Cas.appendReflogs, hoff]
        rfl
      · exact absurd hreach hno
    · exact absurd hwon hne
  moved := fun hwon => by
    rw [Repo.value, Repo.readRefRaw, (won_of_returned hwon).self]
    rfl
  line := fun hwon hlog hin => by
    rw [(won_of_returned hwon).log]
    exact (Cas.appendReflogs_inTime hlog hin).1
  headLine := fun hwon hlog hin => by
    rw [(won_of_returned hwon).log]
    exact (Cas.appendReflogs_inTime hlog hin).2
  otherLogs := fun dir ref hself hhead => by
    obtain ⟨-, -, ⟨-, hlog⟩ | ⟨-, hlog⟩⟩ | ⟨hwon, -⟩ := casRef_cases os c s
    · rw [hlog]
    · rw [hlog, Cas.appendReflogs_of_ne hself hhead]
    · rw [(won_of_returned hwon).log, Cas.appendReflogs_of_ne hself hhead]

end

/-! ### HEAD -/

section

variable {os : Os} {c : HeadSwap δ α}

/-- The reflog of a HEAD that has been repointed. -/
def HeadSwap.appended (os : Os) (c : HeadSwap δ α) (s : Repo δ α) : Bool × Repo δ α :=
  match c.sha with
  | some sha =>
    if c.logged then s.appendReflog os.append c.dir "HEAD" ⟨some sha, sha⟩ else (true, s)
  | none => (true, s)

/-- HEAD names the new target. -/
structure Repointed (os : Os) (c : HeadSwap δ α) (s s' : Repo δ α) : Prop where
  target : s.headSymrefTarget (os.headReadable 0) c.dir = some c.expectedTarget
  packed : s'.packed = s.packed
  log : s'.log = (c.appended os s).2.log
  self : s'.file c.dir "HEAD" = some (some (.symref c.newTarget))
  file : ∀ d r, ¬ (d = c.dir ∧ r = "HEAD") → ¬ (d = c.dir ∧ r = lockName "HEAD") →
    s'.file d r = s.file d r

/-- The append of a `HEAD` swap leaves the files. -/
theorem HeadSwap.appended_file (os : Os) (c : HeadSwap δ α) : (c.appended os s).2.file = s.file := by
  unfold HeadSwap.appended
  cases c.sha with
  | none => rfl
  | some sha =>
    dsimp only
    split_ifs
    · exact s.appendReflog_file ..
    · rfl

theorem HeadSwap.appended_packed (os : Os) (c : HeadSwap δ α) :
    (c.appended os s).2.packed = s.packed := by
  unfold HeadSwap.appended
  cases c.sha with
  | none => rfl
  | some sha =>
    dsimp only
    split_ifs
    · exact s.appendReflog_packed ..
    · rfl

/-- The append of a `HEAD` swap does not look at the files. -/
theorem HeadSwap.appended_setFile (os : Os) (c : HeadSwap δ α) (d : δ) (name : String)
    (f : Option (Option (Content α))) :
    c.appended os (s.setFile d name f) =
      ((c.appended os s).1, (c.appended os s).2.setFile d name f) := by
  unfold HeadSwap.appended
  cases c.sha with
  | none => rfl
  | some sha =>
    dsimp only
    split_ifs
    · exact s.appendReflog_setFile ..
    · rfl

/-- The append that does not come back is the one that raises. -/
theorem HeadSwap.raised_of_appended (h : (c.appended os s).1 = false) : os.append = .raised := by
  unfold HeadSwap.appended at h
  cases hsha : c.sha with
  | none => simp [hsha] at h
  | some sha =>
    simp only [hsha] at h
    split_ifs at h
    unfold Repo.appendReflog at h
    split_ifs at h
    cases happend : os.append with
    | done => simp [happend] at h
    | late => simp [happend] at h
    | raised => rfl

/-- What `_cas_head_symref` does behind the rename. -/
theorem HeadSwap.reply_appended (os : Os) (c : HeadSwap δ α) (s : Repo δ α) :
    (match c.sha with
      | some sha =>
        if c.logged then
          let (back, s) := s.appendReflog os.append c.dir "HEAD" ⟨some sha, sha⟩
          (if back then .returned true else .raised, s)
        else (.returned true, s)
      | none => (.returned true, s) : Reply × Repo δ α) =
    (if (c.appended os s).1 then .returned true else .raised, (c.appended os s).2) := by
  unfold HeadSwap.appended
  cases c.sha with
  | none => rfl
  | some sha =>
    dsimp only
    split_ifs <;> first | rfl | contradiction

/-- A `HEAD` swap that went through has repointed `HEAD`, and its cleanup changes nothing of it. -/
theorem repointed_cleanup (os : Os) (c : HeadSwap δ α)
    (htarget : s.headSymrefTarget (os.headReadable 0) c.dir = some c.expectedTarget) :
    Repointed os c s ((c.appended os ((s.setFile c.dir (lockName "HEAD")
      (some (some (.symref c.newTarget)))).moveLock c.dir "HEAD")).2.cleanup os c.dir "HEAD") := by
  have hclean := Repo.sameBut_cleanup (s := (c.appended os ((s.setFile c.dir (lockName "HEAD")
    (some (some (.symref c.newTarget)))).moveLock c.dir "HEAD")).2) os c.dir "HEAD"
  refine ⟨htarget, ?_, ?_, ?_, fun d r hself hlock => ?_⟩
  · rw [hclean.packed, HeadSwap.appended_packed]
    rfl
  · rw [Repo.cleanup_log, Repo.moveLock, HeadSwap.appended_setFile, HeadSwap.appended_setFile,
      HeadSwap.appended_setFile]
    rfl
  · rw [hclean.file _ _ fun h => ne_lockName "HEAD" h.2, HeadSwap.appended_file,
      Repo.moveLock_file, Repo.setFile_of_ne fun h => ne_lockName "HEAD" h.2, Repo.setFile_self]
  · rw [hclean.file d r hlock, HeadSwap.appended_file, Repo.moveLock_file,
      Repo.setFile_of_ne hlock, Repo.setFile_of_ne hself]

/-- A swap of HEAD leaves HEAD alone, or HEAD is repointed, and then only its append may raise. -/
theorem casHeadSymref_cases (os : Os) (c : HeadSwap δ α) (s : Repo δ α) :
    ((casHeadSymref os c s).1 ≠ .returned true ∧
      Repo.SameBut c.dir (lockName "HEAD") s (casHeadSymref os c s).2 ∧
      (casHeadSymref os c s).2.log = s.log) ∨
    (((casHeadSymref os c s).1 = .returned true ∨
      (casHeadSymref os c s).1 = .raised ∧ os.append = .raised) ∧
      Repointed os c s (casHeadSymref os c s).2) := by
  unfold casHeadSymref
  cases os.open_ with
  | raised => exact .inl ⟨nofun, .refl .., rfl⟩
  | denied => exact .inl ⟨nofun, .refl .., rfl⟩
  | opened =>
    by_cases hfree : (s.file c.dir (lockName "HEAD")).isSome = true
    · dsimp only
      rw [if_pos hfree]
      exact .inl ⟨nofun, .refl .., rfl⟩
    dsimp only
    rw [if_neg hfree]
    have hbut := (Repo.sameBut_setFile (s := s) c.dir (lockName "HEAD") (some none)).trans
      (Repo.sameBut_cleanup os c.dir "HEAD")
    unfold headSwapLocked
    -- up to the rename a failure is cleaned up without a trace
    by_cases hclose : os.close = false
    · rw [if_pos hclose]
      exact .inl ⟨nofun, hbut, Repo.cleanup_log ..⟩
    rw [if_neg hclose, Repo.headSymrefTarget_setFile_lock]
    by_cases htarget : s.headSymrefTarget (os.headReadable 0) c.dir = some c.expectedTarget
    swap
    · rw [if_pos htarget]
      exact .inl ⟨nofun, hbut, Repo.cleanup_log ..⟩
    rw [if_neg (not_not.mpr htarget)]
    by_cases hwrite : os.write = false
    · rw [if_pos hwrite]
      exact .inl ⟨nofun, hbut, Repo.cleanup_log ..⟩
    rw [if_neg hwrite, Repo.setFile_setFile]
    dsimp only
    rw [HeadSwap.reply_appended]
    -- behind the rename only the append can raise
    split_ifs with hreplace happended
    · exact .inr ⟨.inl rfl, repointed_cleanup os c htarget⟩
    · exact .inr ⟨.inr ⟨rfl, HeadSwap.raised_of_appended (Bool.not_eq_true _ ▸ happended)⟩,
        repointed_cleanup os c htarget⟩
    · exact .inl ⟨nofun, (Repo.sameBut_setFile ..).trans (Repo.sameBut_cleanup ..),
        Repo.cleanup_log ..⟩

/-- The promise of `_cas_head_symref`. -/
theorem headLaw (os : Os) (c : HeadSwap δ α) (s : Repo δ α) : HeadLaw os c s where
  packed := by
    obtain ⟨-, hbut, -⟩ | ⟨-, hre⟩ := casHeadSymref_cases os c s
    · exact hbut.packed
    · exact hre.packed
  kept := fun hfalse => by
    obtain ⟨-, hbut, hlog⟩ | ⟨hreply, -⟩ := casHeadSymref_cases os c s
    · exact ⟨hbut.file _ _ fun h => ne_lockName "HEAD" h.2, hlog⟩
    · rw [hfalse] at hreply
      obtain h | ⟨h, -⟩ := hreply <;> cases h
  raised := fun hraised happend => by
    obtain ⟨-, hbut, hlog⟩ | ⟨hreply, -⟩ := casHeadSymref_cases os c s
    · exact ⟨hbut.file _ _ fun h => ne_lockName "HEAD" h.2, hlog⟩
    · rw [hraised] at hreply
      obtain h | ⟨-, h⟩ := hreply
      · cases h
      · exact absurd h happend
  moved := fun hwon => by
    obtain ⟨hne, -⟩ | ⟨-, hre⟩ := casHeadSymref_cases os c s
    · exact absurd hwon hne
    · rw [Repo.value, Repo.readRefRaw, hre.self]
      rfl
  line := fun hwon hlog hon happend sha hsha => by
    obtain ⟨hne, -⟩ | ⟨-, hre⟩ := casHeadSymref_cases os c s
    · exact absurd hwon hne
    · rw [hre.log, HeadSwap.appended, hsha]
      simp only [hlog, if_true, Repo.appendReflog_done hon happend, Repo.addLine_self]
  otherLogs := fun dir ref hne => by
    obtain ⟨-, -, hlog⟩ | ⟨-, hre⟩ := casHeadSymref_cases os c s
    · rw [hlog]
    · rw [hre.log]
      unfold HeadSwap.appended
      cases c.sha with
      | none => rfl
      | some sha =>
        dsimp only
        split_ifs
        · exact s.appendReflog_of_ne os.append _ hne
        · rfl

end

/-! ### Runs -/

section

variable [DecidableEq α] {dir : δ} {ref : String}

omit [DecidableEq δ] [DecidableEq α] in
/-- A ref's value is its file, or else the packed entry. -/
theorem value_congr {s' : Repo δ α} (hfile : s'.file dir ref = s.file dir ref)
    (hpacked : s'.packed = s.packed) : s'.value dir ref = s.value dir ref := by
  rw [Repo.value, Repo.value, Repo.readRefRaw, Repo.readRefRaw, hfile, hpacked]

omit [DecidableEq δ] [DecidableEq α] in
/-- A HEAD whose reflog ends in its value names no ref. -/
theorem InStep.headSymrefTarget (h : InStep dir "HEAD" s) (readable : Bool) :
    s.headSymrefTarget readable dir = none := by
  unfold Repo.headSymrefTarget
  split_ifs
  · cases hraw : s.readRefRaw dir "HEAD" with
    | none => rfl
    | some content =>
      cases content with
      | sha a => rfl
      | symref target =>
        rw [InStep, Repo.value, hraw] at h
        obtain ⟨l, -, hl⟩ := Option.map_eq_some_iff.mp h
        cases hl
  · rfl

/-- A swap of another ref leaves the ref as it is, and one of HEAD leaves HEAD. -/
theorem InStep.callStep (h : InStep dir ref s) (hlock : ∀ r, ref ≠ lockName r)
    {call : Call δ α} (hset : Settled dir ref s call) {s' : Repo δ α}
    (hs : callStep s call = some s') : InStep dir ref s' := by
  cases call with
  | cas os c =>
    obtain rfl := Option.some.inj hs
    have law := casLaw os c s
    by_cases hself : c.dir = dir ∧ c.ref = ref
    · obtain ⟨hwon, hlost⟩ := hset hself
      obtain ⟨rfl, rfl⟩ := hself
      by_cases hreply : (casRef os c s).1 = .returned true
      · obtain ⟨hlog, hin⟩ := hwon hreply
        rw [InStep, law.line hreply hlog hin, law.moved hreply, List.getLast?_concat]
        rfl
      · rw [InStep, law.keptLog hreply (hlost hreply),
          value_congr (law.kept hreply) law.packed]
        exact h
    · have hself' : ¬ (dir = c.dir ∧ ref = c.ref) := fun he => hself ⟨he.1.symm, he.2.symm⟩
      have hfile : (casRef os c s).2.file dir ref = s.file dir ref := by
        obtain ⟨-, hbut, -⟩ | ⟨hwon, -⟩ := casRef_cases os c s
        · exact hbut.file dir ref fun he => hlock c.ref he.2
        · exact (won_of_returned hwon).file dir ref hself' fun he => hlock c.ref he.2
      have hhead : ¬ (ref = "HEAD" ∧ c.namesHead os s dir = true) := by
        rintro ⟨rfl, hnames⟩
        simp [Cas.namesHead, h.headSymrefTarget] at hnames
      rw [InStep, law.otherLogs dir ref hself' hhead, value_congr hfile law.packed]
      exact h
  | head os c =>
    obtain rfl := Option.some.inj hs
    obtain ⟨-, hbut, hlog⟩ | ⟨-, hre⟩ := casHeadSymref_cases os c s
    · rw [InStep, hlog, value_congr (hbut.file dir ref fun he => hlock "HEAD" he.2) hbut.packed]
      exact h
    · have hself : ¬ (dir = c.dir ∧ ref = "HEAD") := by
        rintro ⟨rfl, rfl⟩
        have htarget := hre.target
        rw [h.headSymrefTarget] at htarget
        cases htarget
      rw [InStep, (headLaw os c s).otherLogs dir ref hself,
        value_congr (hre.file dir ref hself fun he => hlock "HEAD" he.2) hre.packed]
      exact h

end

end

/-! ### The law -/

section

variable (δ α : Type*) [DecidableEq δ] [DecidableEq α]

/-- **Swaps and their reflogs.** A call that fails leaves the ref and `packed-refs` as they are, and
the reflogs too when it fails before its appends; one that wins adds the lines of the swap. In every
run in which the swaps of a ref that win log in time, and the others fail before their appends, its
reflog keeps ending in its value. -/
theorem swap_law :
    (∀ (os : Os) (c : Cas δ α) (s : Repo δ α), CasLaw os c s) ∧
    (∀ (os : Os) (c : HeadSwap δ α) (s : Repo δ α), HeadLaw os c s) ∧
    ∀ (dir : δ) (ref : String) (s s' : Repo δ α) (calls : List (Call δ α)),
      (∀ r, ref ≠ lockName r) → Along callStep (Settled dir ref) s calls → InStep dir ref s →
        run callStep s calls = some s' → InStep dir ref s' :=
  ⟨casLaw, headLaw, fun _ _ _ _ _ hlock hset h hrun =>
    run_invariant_along (fun _ _ _ hset h hs => h.callStep hlock hset hs) hset h hrun⟩

end

/-- Every operation succeeds. -/
def Os.fine : Os where
  mkdir := true
  open_ := .opened
  close := true
  readable := fun _ => true
  packedReadable := fun _ => true
  headReadable := fun _ => true
  write := true
  append := .done
  appendHead := .done
  replace := fun _ => .done
  unlink := true

/-- A repository with no ref. -/
def emptyRepo (logAllRefUpdates : Bool) : Repo Unit Nat where
  file := fun _ _ => none
  packed := fun _ _ => none
  log := fun _ _ => []
  logAllRefUpdates := fun _ => logAllRefUpdates

/-- A branch is made. -/
def makeMain : Cas Unit Nat := ⟨(), "refs/heads/main", none, 1, true, none⟩

/-- A branch is made, a second session that saw no branch loses, and the branch is moved. -/
def threeSwaps : List (Call Unit Nat) :=
  [.cas .fine makeMain, .cas .fine { makeMain with new := 7 },
    .cas .fine { makeMain with expected := some 1, new := 2 }]

/-- Without disturbances a logged swap settles the ref, whether it wins or finds another value. -/
theorem settled_fine {c : Cas Unit Nat} {s : Repo Unit Nat} {dir : Unit} {ref : String}
    (hlogged : c.logged = true) (hhead : c.headDir = none)
    (hon : s.logAllRefUpdates c.dir = true)
    (h : (casRef .fine c s).1 = .returned true ∨
      s.read .fine 0 c.dir c.ref ≠ c.expected.map .sha) :
    Settled dir ref s (.cas .fine c) := by
  refine fun _ => ⟨fun _ => ⟨hlogged, hon, rfl, fun dir hdir => ?_⟩, fun hlost => .inr fun hre => ?_⟩
  · simp [Cas.namesHead, hhead] at hdir
  · exact h.elim hlost fun hne => hne hre.expected

theorem swap_law_threeSwaps : ∃ s, run callStep (emptyRepo true) threeSwaps = some s ∧
    InStep () "refs/heads/main" s ∧
      s.log () "refs/heads/main" = [⟨none, 1⟩, ⟨some 1, 2⟩] := by
  refine ⟨_, rfl, ?_, by decide⟩
  refine (swap_law Unit Nat).2.2 () "refs/heads/main" (emptyRepo true) _ threeSwaps ?_ ?_ rfl rfl
  · intro r h
    have hend := congrArg (fun t : String => t.toList.getLast?) h
    have hk : ".lock".toList.getLast? = some 'k' := by decide
    rw [lockName, String.toList_append, List.getLast?_append, hk, Option.some_or] at hend
    exact absurd hend (by decide)
  · refine ⟨settled_fine rfl rfl rfl (.inl (by decide)), fun s hs => ?_⟩
    obtain rfl := Option.some.inj hs
    refine ⟨settled_fine rfl rfl rfl (.inr (by decide)), fun s hs => ?_⟩
    obtain rfl := Option.some.inj hs
    exact ⟨settled_fine rfl rfl rfl (.inl (by decide)), fun _ _ => trivial⟩

/-- Where the reflogs are off, a swap wins without a line. -/
theorem reflog_off_no_line : ¬ ∀ (os : Os) (c : Cas Unit Nat) (s : Repo Unit Nat),
    (casRef os c s).1 = .returned true → c.logged = true →
      (casRef os c s).2.log c.dir c.ref = s.log c.dir c.ref ++ [c.line] := by
  intro h
  have hline := h .fine makeMain (emptyRepo false) (by decide) rfl
  exact absurd (congrArg List.length hline) (by decide)

end RefLog

end Git

end CoordinatorCore
