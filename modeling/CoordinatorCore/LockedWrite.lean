import CoordinatorCore.Machine.Serial
import CoordinatorCore.Text.Basic

/-!
# Locked read-modify-write

`locked_rmw` of `locked_write.py`, run by any number of processes at once. The model is a step
machine: each atomic step of a call (of its sidecar-opening worker thread, of the lock poll, of
the read, the mutate, the temporary file, the replace and the unlock) is one action, and an
interleaving is a list of actions.

A file is `absent`, holds a UTF-8 text, or holds bytes that do not decode. Reading goes through
`universalNewlines`, because `Path.read_text` opens in text mode, while the write goes through
`os.write` of the encoded text and translates nothing. This is why the effect of one call on the
file, `effect`, is stated on the translated text, and why a call whose mutate changes nothing
leaves the file alone.

The proof is a simulation: the machine of all calls implements the lock-protected register of
`Machine.Serial`. The invariant that carries it, `Snapshot`, says that while a call is between
its read and its replace, what it read is still what the file holds.
-/

namespace CoordinatorCore

open Machine

namespace LockedWrite

/-! ### Files -/

/-- What a path holds. -/
inductive FileState
  | absent
  | text (t : Text)
  | undecodable
deriving DecidableEq

/-- The newline translation of a text-mode read: `"\r\n"` and a lone `"\r"` become `"\n"`. -/
def universalNewlines : Text → Text
  | [] => []
  | '\r' :: '\n' :: cs => '\n' :: universalNewlines cs
  | '\r' :: cs => '\n' :: universalNewlines cs
  | c :: cs => c :: universalNewlines cs

theorem universalNewlines_cr (t : Text) : '\r' ∉ universalNewlines t := by
  fun_induction universalNewlines t with
  | case1 => simp
  | case2 cs ih => simpa using ih
  | case3 cs hne ih => simpa using ih
  | case4 c cs hne₁ hne₂ ih =>
    rw [List.mem_cons, not_or]
    exact ⟨fun h => hne₂ h.symm, ih⟩

theorem universalNewlines_of_not_mem {t : Text} (h : '\r' ∉ t) :
    universalNewlines t = t := by
  fun_induction universalNewlines t with
  | case1 => rfl
  | case2 cs ih => simp at h
  | case3 cs hne ih => simp at h
  | case4 c cs hne₁ hne₂ ih => rw [ih fun hm => h (by simp [hm])]

/-- What a call reads: the text behind the translation, or `""` for an absent file under
`missing_ok`. -/
def readBack (missingOk : Bool) : FileState → Option Text
  | .absent => if missingOk then some [] else none
  | .text t => some (universalNewlines t)
  | .undecodable => none

/-! ### One call -/

/-- Why a call raises. -/
inductive Failure (ε : Type*)
  | lockTimeout
  | openError
  | fileNotFound
  | unicodeDecode
  | mutate (e : ε)
  | os
  | replaceExpired

/-- How a call ends. -/
inductive Outcome (ε : Type*)
  | returned (newText : Text)
  | raised (f : Failure ε)

/-- The worker thread of `_open_sidecar_bounded`. -/
inductive Worker
  | absent
  | running
  | opened
  | finished
deriving DecidableEq

/-- What the worker and its caller share. -/
inductive Box
  | empty
  | abandoned
  | fd
  | err
deriving DecidableEq

/-- Where a call stands. From `locked` to `unlocking` it holds the lock. -/
inductive Phase (ε : Type*)
  | idle
  | opening
  | polling
  | locked
  | present
  | read (oldText : Text)
  | mutated (newText : Text)
  | tempOpen (newText : Text)
  | tempWritten (newText : Text) (tmp : FileState)
  | unlocking (r : Outcome ε)
  | closing (r : Outcome ε)
  | done (r : Outcome ε)

/-- A call: its own position, and its worker thread. -/
structure Call (ε : Type*) where
  phase : Phase ε
  worker : Worker
  box : Box

/-- The arguments of the calls, and what they use of the operating system. `leaves t c` says that
writing the encoding of `t` to a fresh temporary file may leave it holding `c`. -/
structure Env (ι ε : Type*) where
  target : ι → Text
  repoRoot : ι → Text
  mutate : ι → Text → Except ε Text
  missingOk : ι → Bool
  realpath : Text → Text
  gitCommonDir : Text → Text
  sha1 : Text → Text
  leaves : Text → FileState → Bool

variable {ι ε : Type*}

/-- The canonical file of a call. -/
def Env.targetPath (env : Env ι ε) (i : ι) : Text := env.realpath (env.target i)

/-- The sidecar: the lock directory of the repository and the `_lock_key` of the target. -/
def Env.sidecar (env : Env ι ε) (i : ι) : Text × Text :=
  (env.gitCommonDir (env.repoRoot i) ++ "/coordinator-locks".toList,
    env.sha1 (env.targetPath i) ++ ".lock".toList)

/-- The files, the holder of each sidecar's lock, the calls, and the order of acquisition. -/
structure State (ι ε : Type*) where
  files : Text → FileState
  holder : Text × Text → Option ι
  calls : ι → Call ε
  acquired : List ι

/-- No call has started. -/
def init (files : Text → FileState) : State ι ε :=
  ⟨files, fun _ => none, fun _ => ⟨.idle, .absent, .empty⟩, []⟩

/-- How one `os.replace` attempt of `replace_with_retry` goes. -/
inductive Attempt
  | won
  | denied
  | expired
  | failed

/-- The atomic steps of call `i`. -/
inductive Action (ι : Type*)
  | start (i : ι)
  | workerOpen (i : ι) (ok : Bool)
  | workerDeliver (i : ι)
  | takeFd (i : ι)
  | giveUp (i : ι)
  | tryLock (i : ι)
  | pollExpired (i : ι)
  | tryLockError (i : ι)
  | checkExists (i : ι)
  | readText (i : ι)
  | mutate (i : ι)
  | makeTemp (i : ι) (ok : Bool)
  | writeTemp (i : ι) (left : Option FileState)
  | replace (i : ι) (attempt : Attempt)
  | unlock (i : ι)
  | close (i : ι)

section Machine

variable [DecidableEq ι]

/-- Replace the record of call `i`. -/
def State.setCall (s : State ι ε) (i : ι) (c : Call ε) : State ι ε :=
  { s with calls := Function.update s.calls i c }

/-- Move call `i` to a new position. -/
def State.setPhase (s : State ι ε) (i : ι) (ph : Phase ε) : State ι ε :=
  s.setCall i { s.calls i with phase := ph }

/-- Change the worker side of call `i`. -/
def State.setWorker (s : State ι ε) (i : ι) (w : Worker) (b : Box) : State ι ε :=
  s.setCall i { s.calls i with worker := w, box := b }

@[simp] theorem State.setCall_self (s : State ι ε) (i : ι) (c : Call ε) :
    (s.setCall i c).calls i = c := Function.update_self ..

theorem State.setCall_of_ne (s : State ι ε) {i j : ι} (h : j ≠ i) (c : Call ε) :
    (s.setCall i c).calls j = s.calls j := Function.update_of_ne h ..

/-- One atomic step, `none` when the call is not at that position. -/
def step (env : Env ι ε) (s : State ι ε) : Action ι → Option (State ι ε)
  | .start i =>
    match (s.calls i).phase with
    | .idle => some (s.setCall i ⟨.opening, .running, .empty⟩)
    | _ => none
  | .workerOpen i ok =>
    match (s.calls i).worker, ok with
    | .running, true => some (s.setWorker i .opened (s.calls i).box)
    | .running, false =>
      some (s.setWorker i .finished (if (s.calls i).box = .abandoned then .abandoned else .err))
    | _, _ => none
  | .workerDeliver i =>
    match (s.calls i).worker, (s.calls i).box with
    | .opened, .abandoned => some (s.setWorker i .finished .abandoned)
    | .opened, _ => some (s.setWorker i .finished .fd)
    | _, _ => none
  | .takeFd i =>
    match (s.calls i).phase, (s.calls i).box with
    | .opening, .fd => some (s.setPhase i .polling)
    | .opening, .err => some (s.setPhase i (.done (.raised .openError)))
    | _, _ => none
  | .giveUp i =>
    match (s.calls i).phase, (s.calls i).box with
    | .opening, .empty =>
      some (s.setCall i ⟨.done (.raised .lockTimeout), (s.calls i).worker, .abandoned⟩)
    | _, _ => none
  | .tryLock i =>
    match (s.calls i).phase with
    | .polling =>
      if s.holder (env.sidecar i) = none then
        some { s.setPhase i .locked with
          holder := Function.update s.holder (env.sidecar i) (some i)
          acquired := s.acquired ++ [i] }
      else some s
    | _ => none
  | .pollExpired i =>
    match (s.calls i).phase with
    | .polling =>
      if s.holder (env.sidecar i) = none then none
      else some (s.setPhase i (.closing (.raised .lockTimeout)))
    | _ => none
  | .tryLockError i =>
    match (s.calls i).phase with
    | .polling => some (s.setPhase i (.closing (.raised .os)))
    | _ => none
  | .checkExists i =>
    match (s.calls i).phase with
    | .locked =>
      match s.files (env.targetPath i), env.missingOk i with
      | .absent, true => some (s.setPhase i (.read []))
      | .absent, false => some (s.setPhase i (.unlocking (.raised .fileNotFound)))
      | _, _ => some (s.setPhase i .present)
    | _ => none
  | .readText i =>
    match (s.calls i).phase with
    | .present =>
      match s.files (env.targetPath i) with
      | .absent => some (s.setPhase i (.unlocking (.raised .fileNotFound)))
      | .undecodable => some (s.setPhase i (.unlocking (.raised .unicodeDecode)))
      | .text t => some (s.setPhase i (.read (universalNewlines t)))
    | _ => none
  | .mutate i =>
    match (s.calls i).phase with
    | .read oldText =>
      match env.mutate i oldText with
      | .error e => some (s.setPhase i (.unlocking (.raised (.mutate e))))
      | .ok newText =>
        if newText = oldText then some (s.setPhase i (.unlocking (.returned newText)))
        else some (s.setPhase i (.mutated newText))
    | _ => none
  | .makeTemp i ok =>
    match (s.calls i).phase, ok with
    | .mutated newText, true => some (s.setPhase i (.tempOpen newText))
    | .mutated _, false => some (s.setPhase i (.unlocking (.raised .os)))
    | _, _ => none
  | .writeTemp i left =>
    match (s.calls i).phase, left with
    | .tempOpen newText, some tmp =>
      if env.leaves newText tmp then some (s.setPhase i (.tempWritten newText tmp)) else none
    | .tempOpen _, none => some (s.setPhase i (.unlocking (.raised .os)))
    | _, _ => none
  | .replace i attempt =>
    match (s.calls i).phase, attempt with
    | .tempWritten newText tmp, .won =>
      some { s.setPhase i (.unlocking (.returned newText)) with
        files := Function.update s.files (env.targetPath i) tmp }
    | .tempWritten _ _, .denied => some s
    | .tempWritten _ _, .expired => some (s.setPhase i (.unlocking (.raised .replaceExpired)))
    | .tempWritten _ _, .failed => some (s.setPhase i (.unlocking (.raised .os)))
    | _, _ => none
  | .unlock i =>
    match (s.calls i).phase with
    | .unlocking r =>
      some { s.setPhase i (.closing r) with
        holder := Function.update s.holder (env.sidecar i) none }
    | _ => none
  | .close i =>
    match (s.calls i).phase with
    | .closing r => some (s.setPhase i (.done r))
    | _ => none

end Machine

/-! ### What one call does to the file -/

/-- The effect of a call that returns normally: nothing when the mutate changes nothing of what
was read, and otherwise the mutated text. -/
def effect (env : Env ι ε) (i : ι) (c : FileState) : FileState :=
  match readBack (env.missingOk i) c with
  | none => c
  | some oldText =>
    match env.mutate i oldText with
    | .error _ => c
    | .ok newText => if newText = oldText then c else .text newText

/-- The call returned normally. -/
def Phase.returned : Phase ε → Bool
  | .done (.returned _) => true
  | _ => false

/-- Every call that started has ended. -/
def Final (s : State ι ε) : Prop :=
  ∀ i, (s.calls i).phase = .idle ∨ ∃ r, (s.calls i).phase = .done r

/-! ### The simulation -/

/-- The call holds the lock. -/
def Phase.holds : Phase ε → Bool
  | .locked | .present | .read _ | .mutated _ | .tempOpen _ | .tempWritten _ _ => true
  | .unlocking _ => true
  | _ => false

/-- The call is past the point from which it will return normally. -/
def Phase.committed : Phase ε → Bool
  | .unlocking (.returned _) | .closing (.returned _) | .done (.returned _) => true
  | _ => false

/-- The call has not tried for the lock with success or given up. -/
def Phase.waiting : Phase ε → Bool
  | .idle | .opening | .polling => true
  | _ => false

/-- The text a call holds is the mutate of what the file holds. -/
def Fresh (env : Env ι ε) (i : ι) (c : FileState) (newText : Text) : Prop :=
  ∃ oldText, readBack (env.missingOk i) c = some oldText ∧
    env.mutate i oldText = .ok newText ∧ newText ≠ oldText

/-- What a call has read or computed is still about the file. -/
def Snapshot (env : Env ι ε) (i : ι) (c : FileState) : Phase ε → Prop
  | .read oldText => readBack (env.missingOk i) c = some oldText
  | .mutated newText | .tempOpen newText => Fresh env i c newText
  | .tempWritten newText tmp => Fresh env i c newText ∧ env.leaves newText tmp = true
  | _ => True

/-- A step of call `i` that neither touches the file nor the lock. -/
structure Local (env : Env ι ε) (i : ι) (s s' : State ι ε) : Prop where
  files : s'.files = s.files
  holder : s'.holder = s.holder
  acquired : s'.acquired = s.acquired
  others : ∀ j, j ≠ i → (s'.calls j).phase = (s.calls j).phase
  holds : (s'.calls i).phase.holds = (s.calls i).phase.holds
  committed : (s'.calls i).phase.committed = (s.calls i).phase.committed
  waiting : (s'.calls i).phase.waiting = true → (s.calls i).phase.waiting = true
  snapshot : Snapshot env i (s.files (env.targetPath i)) (s'.calls i).phase

/-- The step with which call `i` takes the lock. -/
structure Acquires (env : Env ι ε) (i : ι) (s s' : State ι ε) : Prop where
  free : s.holder (env.sidecar i) = none
  waiting : (s.calls i).phase.waiting = true
  files : s'.files = s.files
  holder : s'.holder (env.sidecar i) = some i
  acquired : s'.acquired = s.acquired ++ [i]
  others : ∀ j, j ≠ i → (s'.calls j).phase = (s.calls j).phase
  phase : (s'.calls i).phase = .locked
  committed : (s.calls i).phase.committed = false

/-- The step from which call `i` will return normally; it puts its effect into the file. -/
structure Commits (env : Env ι ε) (i : ι) (s s' : State ι ε) : Prop where
  held : (s.calls i).phase.holds = true
  uncommitted : (s.calls i).phase.committed = false
  files : s'.files (env.targetPath i) = effect env i (s.files (env.targetPath i))
  holder : s'.holder = s.holder
  acquired : s'.acquired = s.acquired
  others : ∀ j, j ≠ i → (s'.calls j).phase = (s.calls j).phase
  phase : ∃ t, (s'.calls i).phase = .unlocking (.returned t)

/-- The step with which call `i` gives the lock back. -/
structure Releases (env : Env ι ε) (i : ι) (s s' : State ι ε) : Prop where
  held : (s.calls i).phase.holds = true
  files : s'.files = s.files
  holder : s'.holder (env.sidecar i) = none
  acquired : s'.acquired = s.acquired
  others : ∀ j, j ≠ i → (s'.calls j).phase = (s.calls j).phase
  phase : ∃ r, (s.calls i).phase = .unlocking r ∧ (s'.calls i).phase = .closing r

private theorem local_refl {env : Env ι ε} {i : ι} {s : State ι ε}
    (h : Snapshot env i (s.files (env.targetPath i)) (s.calls i).phase) : Local env i s s :=
  ⟨rfl, rfl, rfl, fun _ _ => rfl, rfl, rfl, id, h⟩

private theorem setCall_others [DecidableEq ι] {s : State ι ε} {i : ι} {c : Call ε} (j : ι) (h : j ≠ i) :
    ((s.setCall i c).calls j).phase = (s.calls j).phase := by
  rw [s.setCall_of_ne h]

variable [DecidableEq ι]

/-- Changing the worker side of a call is local. -/
private theorem local_setWorker {env : Env ι ε} {i : ι} {s : State ι ε} (w : Worker) (b : Box)
    (h : Snapshot env i (s.files (env.targetPath i)) (s.calls i).phase) :
    Local env i s (s.setWorker i w b) := by
  have hp : ((s.setWorker i w b).calls i).phase = (s.calls i).phase := by simp [State.setWorker]
  refine ⟨rfl, rfl, rfl, setCall_others, ?_, ?_, ?_, ?_⟩ <;> rw [hp]
  · exact id
  · exact h

/-- A call record with the right phase is a local change. -/
private theorem local_setCall {env : Env ι ε} {i : ι} {s : State ι ε} {ph : Phase ε} {c : Call ε}
    (hph : (s.calls i).phase = ph) (holds : c.phase.holds = ph.holds)
    (committed : c.phase.committed = ph.committed)
    (waiting : c.phase.waiting = true → ph.waiting = true)
    (h : Snapshot env i (s.files (env.targetPath i)) c.phase) : Local env i s (s.setCall i c) := by
  subst hph
  refine ⟨rfl, rfl, rfl, setCall_others, ?_, ?_, ?_, ?_⟩ <;> rw [s.setCall_self]
  · exact holds
  · exact committed
  · exact waiting
  · exact h

/-- Everything a step can do. -/
theorem step_cases {env : Env ι ε} (hleaves : ∀ t c, env.leaves t c = true → c = .text t)
    {s s' : State ι ε} {a : Action ι}
    (hsnap : ∀ i, Snapshot env i (s.files (env.targetPath i)) (s.calls i).phase)
    (h : step env s a = some s') :
    ∃ i, Local env i s s' ∨ Acquires env i s s' ∨ Commits env i s s' ∨ Releases env i s s' := by
  cases a with
  | start i =>
    unfold step at h
    dsimp only at h
    split at h
    · next hph => cases h; exact ⟨i, .inl (local_setCall hph rfl rfl (fun _ => rfl) trivial)⟩
    · cases h
  | workerOpen i ok =>
    unfold step at h
    dsimp only at h
    split at h
    · cases h; exact ⟨i, .inl (local_setWorker _ _ (hsnap i))⟩
    · cases h; exact ⟨i, .inl (local_setWorker _ _ (hsnap i))⟩
    · cases h
  | workerDeliver i =>
    unfold step at h
    dsimp only at h
    split at h
    · cases h; exact ⟨i, .inl (local_setWorker _ _ (hsnap i))⟩
    · cases h; exact ⟨i, .inl (local_setWorker _ _ (hsnap i))⟩
    · cases h
  | takeFd i =>
    unfold step at h
    dsimp only at h
    split at h
    · next hph _ => cases h; exact ⟨i, .inl (local_setCall hph rfl rfl (fun _ => rfl) trivial)⟩
    · next hph _ => cases h; exact ⟨i, .inl (local_setCall hph rfl rfl (fun _ => rfl) trivial)⟩
    · cases h
  | giveUp i =>
    unfold step at h
    dsimp only at h
    split at h
    · next hph _ => cases h; exact ⟨i, .inl (local_setCall hph rfl rfl (fun _ => rfl) trivial)⟩
    · cases h
  | tryLock i =>
    unfold step at h
    dsimp only at h
    split at h
    · next hph =>
      split_ifs at h with hfree
      · cases h
        exact ⟨i, .inr (.inl ⟨hfree, by rw [hph]; rfl, rfl, Function.update_self .., rfl,
          setCall_others, congrArg Call.phase (s.setCall_self ..), by rw [hph]; rfl⟩)⟩
      · cases h
        exact ⟨i, .inl (local_refl (hsnap i))⟩
    · cases h
  | pollExpired i =>
    unfold step at h
    dsimp only at h
    split at h
    · next hph =>
      split_ifs at h
      cases h
      exact ⟨i, .inl (local_setCall hph rfl rfl (fun _ => rfl) trivial)⟩
    · cases h
  | tryLockError i =>
    unfold step at h
    dsimp only at h
    split at h
    · next hph => cases h; exact ⟨i, .inl (local_setCall hph rfl rfl (fun _ => rfl) trivial)⟩
    · cases h
  | checkExists i =>
    unfold step at h
    dsimp only at h
    split at h
    · next hph =>
      split at h
      · next hfile hok =>
        cases h
        refine ⟨i, .inl (local_setCall hph rfl rfl nofun ?_)⟩
        rw [Snapshot, hfile, hok]
        rfl
      · cases h; exact ⟨i, .inl (local_setCall hph rfl rfl nofun trivial)⟩
      · cases h; exact ⟨i, .inl (local_setCall hph rfl rfl nofun trivial)⟩
    · cases h
  | readText i =>
    unfold step at h
    dsimp only at h
    split at h
    · next hph =>
      split at h
      · cases h; exact ⟨i, .inl (local_setCall hph rfl rfl nofun trivial)⟩
      · cases h; exact ⟨i, .inl (local_setCall hph rfl rfl nofun trivial)⟩
      · next t hfile =>
        cases h
        refine ⟨i, .inl (local_setCall hph rfl rfl nofun ?_)⟩
        rw [Snapshot, hfile]
        rfl
    · cases h
  | mutate i =>
    unfold step at h
    dsimp only at h
    split at h
    · next oldText hph =>
      have hold : readBack (env.missingOk i) (s.files (env.targetPath i)) = some oldText := by
        simpa [Snapshot, hph] using hsnap i
      split at h
      · cases h; exact ⟨i, .inl (local_setCall hph rfl rfl nofun trivial)⟩
      · next newText hnew =>
        split_ifs at h with heq
        · -- the write is skipped: the file already is what the effect makes of it
          cases h
          refine ⟨i, .inr (.inr (.inl ⟨by rw [hph]; rfl, by rw [hph]; rfl, ?_, rfl, rfl,
            setCall_others, newText, congrArg Call.phase (s.setCall_self ..)⟩))⟩
          simp only [effect, hold, hnew, if_pos heq]
          rfl
        · cases h
          exact ⟨i, .inl (local_setCall hph rfl rfl nofun ⟨oldText, hold, hnew, heq⟩)⟩
    · cases h
  | makeTemp i ok =>
    unfold step at h
    dsimp only at h
    split at h
    · next newText hph =>
      cases h
      have hfresh : Fresh env i (s.files (env.targetPath i)) newText := by
        simpa [Snapshot, hph] using hsnap i
      exact ⟨i, .inl (local_setCall hph rfl rfl nofun hfresh)⟩
    · next hph => cases h; exact ⟨i, .inl (local_setCall hph rfl rfl nofun trivial)⟩
    · cases h
  | writeTemp i left =>
    unfold step at h
    dsimp only at h
    split at h
    · next newText tmp hph =>
      have hfresh : Fresh env i (s.files (env.targetPath i)) newText := by
        simpa [Snapshot, hph] using hsnap i
      split_ifs at h with hl
      cases h
      exact ⟨i, .inl (local_setCall hph rfl rfl nofun ⟨hfresh, hl⟩)⟩
    · next hph => cases h; exact ⟨i, .inl (local_setCall hph rfl rfl nofun trivial)⟩
    · cases h
  | replace i attempt =>
    unfold step at h
    dsimp only at h
    split at h
    · next newText tmp hph =>
      cases h
      obtain ⟨⟨oldText, hold, hnew, hne⟩, hl⟩ :
          Fresh env i (s.files (env.targetPath i)) newText ∧ env.leaves newText tmp = true := by
        simpa [Snapshot, hph] using hsnap i
      refine ⟨i, .inr (.inr (.inl ⟨by rw [hph]; rfl, by rw [hph]; rfl, ?_, rfl, rfl,
        setCall_others, newText, congrArg Call.phase (s.setCall_self ..)⟩))⟩
      simp only [effect, hold, hnew, if_neg hne, Function.update_self]
      exact hleaves _ _ hl
    · cases h; exact ⟨i, .inl (local_refl (hsnap i))⟩
    · next hph => cases h; exact ⟨i, .inl (local_setCall hph rfl rfl nofun trivial)⟩
    · next hph => cases h; exact ⟨i, .inl (local_setCall hph rfl rfl nofun trivial)⟩
    · cases h
  | unlock i =>
    unfold step at h
    dsimp only at h
    split at h
    · next r hph =>
      cases h
      exact ⟨i, .inr (.inr (.inr ⟨by rw [hph]; rfl, rfl, Function.update_self .., rfl,
        setCall_others, r, hph, congrArg Call.phase (s.setCall_self ..)⟩))⟩
    · cases h
  | close i =>
    unfold step at h
    dsimp only at h
    split at h
    · next r hph =>
      cases h
      exact ⟨i, .inl (local_setCall hph rfl (by cases r <;> rfl) nofun trivial)⟩
    · cases h

/-! ### Refinement -/

/-- The lock-protected register a state of the calls implements, when all of them have the
canonical file `path` and the sidecar `lock`. -/
structure Refines (env : Env ι ε) (path : Text) (lock : Text × Text) (s : State ι ε)
    (t : Serial.State ι FileState) : Prop where
  value : t.value = s.files path
  holder : t.holder = s.holder lock
  acquired : t.acquired = s.acquired
  committed : ∀ i, t.committed i = (s.calls i).phase.committed
  holds_iff : ∀ i, (s.calls i).phase.holds = true ↔ s.holder lock = some i
  not_acquired : ∀ i, (s.calls i).phase.waiting = true → i ∉ s.acquired
  snapshot : ∀ i, Snapshot env i (s.files path) (s.calls i).phase

omit [DecidableEq ι] in
/-- Without the lock a call knows nothing about the file. -/
private theorem snapshot_of_not_holds {env : Env ι ε} {i : ι} {c : FileState} {ph : Phase ε}
    (h : ph.holds = false) : Snapshot env i c ph := by
  cases ph <;> first | exact trivial | cases h

omit [DecidableEq ι] in
private theorem refines_init (env : Env ι ε) (path : Text) (lock : Text × Text)
    (files : Text → FileState) :
    Refines env path lock (init files) (Serial.init (files path)) :=
  ⟨rfl, rfl, rfl, fun _ => rfl, fun _ => by simp [init, Phase.holds], fun _ _ => by simp [init],
    fun _ => trivial⟩

/-- Every step of the calls is a step of the lock-protected register, or none. -/
theorem refines_simulation {env : Env ι ε} {path : Text} {lock : Text × Text}
    (hleaves : ∀ t c, env.leaves t c = true → c = .text t)
    (hpath : ∀ i, env.targetPath i = path) (hlock : ∀ i, env.sidecar i = lock) :
    Simulation (step env) (Serial.step (effect env)) (Refines env path lock) := by
  intro s t a s' hR hstep
  have hsnap : ∀ i, Snapshot env i (s.files (env.targetPath i)) (s.calls i).phase := by
    intro i
    rw [hpath]
    exact hR.snapshot i
  obtain ⟨i, hl | ha | hc | hr⟩ := step_cases hleaves hsnap hstep
  · refine ⟨[], t, rfl, ?_⟩
    have hsn := hl.snapshot
    rw [hpath] at hsn
    refine ⟨by rw [hl.files, hR.value], by rw [hl.holder, hR.holder],
      by rw [hl.acquired, hR.acquired], fun j => ?_, fun j => ?_, fun j => ?_, fun j => ?_⟩ <;>
    rcases eq_or_ne j i with rfl | hne
    · rw [hl.committed, hR.committed]
    · rw [hl.others j hne, hR.committed]
    · rw [hl.holds, hl.holder, hR.holds_iff]
    · rw [hl.others j hne, hl.holder, hR.holds_iff]
    · rw [hl.acquired]
      exact fun hw => hR.not_acquired j (hl.waiting hw)
    · rw [hl.others j hne, hl.acquired]
      exact hR.not_acquired j
    · rw [hl.files]
      exact hsn
    · rw [hl.others j hne, hl.files]
      exact hR.snapshot j
  · have hfree := ha.free
    have hholder := ha.holder
    rw [hlock] at hfree hholder
    have hnew := hR.not_acquired i ha.waiting
    refine ⟨[.acquire i], { t with holder := some i, acquired := t.acquired ++ [i] }, ?_, ?_⟩
    · rw [run_cons, Serial.step, if_pos ⟨hR.holder.trans hfree, hR.acquired ▸ hnew⟩]
      rfl
    refine ⟨by rw [hR.value, ha.files], hholder.symm, by rw [ha.acquired, hR.acquired],
      fun j => ?_, fun j => ?_, fun j => ?_, fun j => ?_⟩ <;>
    rcases eq_or_ne j i with rfl | hne
    · rw [hR.committed, ha.committed, ha.phase]
      rfl
    · rw [ha.others j hne, hR.committed]
    · rw [ha.phase, hholder]
      simp [Phase.holds]
    · have hj := hR.holds_iff j
      rw [hfree] at hj
      rw [ha.others j hne, hholder, hj]
      simp [hne.symm]
    · rw [ha.phase]
      nofun
    · rw [ha.others j hne, ha.acquired, List.mem_append, List.mem_singleton, not_or]
      exact fun hw => ⟨hR.not_acquired j hw, hne⟩
    · rw [ha.phase]
      trivial
    · rw [ha.others j hne, ha.files]
      exact hR.snapshot j
  · have hfile := hc.files
    rw [hpath] at hfile
    have hheld := (hR.holds_iff i).mp hc.held
    obtain ⟨newText, hphase⟩ := hc.phase
    refine ⟨[.commit i], { t with
      value := effect env i t.value
      committed := Function.update t.committed i true }, ?_, ?_⟩
    · rw [run_cons, Serial.step,
        if_pos ⟨hR.holder.trans hheld, (hR.committed i).trans hc.uncommitted⟩]
      rfl
    refine ⟨by rw [hfile, hR.value], by rw [hR.holder, hc.holder],
      by rw [hc.acquired, hR.acquired], fun j => ?_, fun j => ?_, fun j => ?_, fun j => ?_⟩ <;>
    rcases eq_or_ne j i with rfl | hne
    · rw [hphase]
      exact Function.update_self ..
    · rw [hc.others j hne, ← hR.committed]
      exact Function.update_of_ne hne ..
    · rw [hphase, hc.holder, hheld]
      simp [Phase.holds]
    · rw [hc.others j hne, hc.holder, hR.holds_iff]
    · rw [hphase]
      nofun
    · rw [hc.others j hne, hc.acquired]
      exact hR.not_acquired j
    · rw [hphase]
      trivial
    · -- only the holder has a snapshot, and the holder is `i`
      rw [hc.others j hne]
      refine snapshot_of_not_holds (Bool.eq_false_iff.mpr fun h => hne ?_)
      have := (hR.holds_iff j).mp h
      rw [hheld] at this
      exact (Option.some_inj.mp this).symm
  · have hholder := hr.holder
    rw [hlock] at hholder
    have hheld := (hR.holds_iff i).mp hr.held
    obtain ⟨r, hbefore, hafter⟩ := hr.phase
    refine ⟨[.release i], { t with holder := none }, ?_, ?_⟩
    · rw [run_cons, Serial.step, if_pos (hR.holder.trans hheld)]
      rfl
    refine ⟨by rw [hR.value, hr.files], hholder.symm, by rw [hr.acquired, hR.acquired],
      fun j => ?_, fun j => ?_, fun j => ?_, fun j => ?_⟩ <;>
    rcases eq_or_ne j i with rfl | hne
    · rw [hR.committed, hbefore, hafter]
      cases r <;> rfl
    · rw [hr.others j hne, hR.committed]
    · rw [hafter, hholder]
      simp [Phase.holds]
    · rw [hr.others j hne, hholder, hR.holds_iff, hheld]
      simp [hne.symm]
    · rw [hafter]
      nofun
    · rw [hr.others j hne, hr.acquired]
      exact hR.not_acquired j
    · rw [hafter]
      trivial
    · rw [hr.others j hne, hr.files]
      exact hR.snapshot j

/-- The history of a run in which every call that started has ended: the lock was acquired in the
order `s.acquired`, at most once by each call, and the file is the initial file transformed by the
effects of exactly the calls that returned, in that order. A call that raised contributes
nothing. -/
structure Linearized (env : Env ι ε) (path : Text) (files : Text → FileState)
    (s : State ι ε) : Prop where
  nodup : s.acquired.Nodup
  acquired_of_returned : ∀ i, (s.calls i).phase.returned = true → i ∈ s.acquired
  file_eq : s.files path =
    (s.acquired.filter fun i => (s.calls i).phase.returned).foldl (fun c i => effect env i c)
      (files path)

/-- Concurrent locked updates of one file are linearizable and failure-atomic, whatever the number
of calls and whatever the interleaving of their steps. -/
theorem lockedRmw_linearizable {env : Env ι ε} {path commonDir : Text}
    {files : Text → FileState} {s : State ι ε} {as : List (Action ι)}
    (hleaves : ∀ t c, env.leaves t c = true → c = .text t)
    (hpath : ∀ i, env.realpath (env.target i) = path)
    (hdir : ∀ i, env.gitCommonDir (env.repoRoot i) = commonDir)
    (hrun : run (step env) (init files) as = some s) (hfinal : Final s) :
    Linearized env path files s := by
  have hlock : ∀ i, env.sidecar i =
      (commonDir ++ "/coordinator-locks".toList, env.sha1 path ++ ".lock".toList) := by
    intro i
    rw [Env.sidecar, Env.targetPath, hpath, hdir]
  obtain ⟨bs, t, hbs, hR⟩ :=
    (refines_simulation hleaves hpath hlock).run (refines_init env path _ files) hrun
  have hinv := Serial.inv_run hbs
  -- in a final state having committed and having returned are the same
  have hret : ∀ i, (s.calls i).phase.returned = t.committed i := by
    intro i
    rw [hR.committed]
    rcases hfinal i with h | ⟨r, h⟩ <;> rw [h]
    · rfl
    · cases r <;> rfl
  refine ⟨hR.acquired ▸ hinv.nodup, fun i hi => ?_, ?_⟩
  · rw [hret] at hi
    exact hR.acquired ▸ hinv.acquired_of_committed i hi
  · rw [← hR.value, ← hR.acquired, funext hret]
    exact Serial.value_eq_replay hbs

/-- Calls on one file of one repository, on a system whose writes are complete. -/
def sameFile (mutate : ι → Text → Except Unit Text) : Env ι Unit where
  target _ := "t".toList
  repoRoot _ := "r".toList
  mutate := mutate
  missingOk _ := false
  realpath p := p
  gitCommonDir p := p
  sha1 p := p
  leaves t c := c = .text t

/-- The steps of a call that takes the lock and runs its mutate. -/
def mutateSteps (i : ι) : List (Action ι) :=
  [.start i, .workerOpen i true, .workerDeliver i, .takeFd i, .tryLock i, .checkExists i,
    .readText i, .mutate i]

/-- The remaining steps of a call that writes. -/
def writeSteps (i : ι) : List (Action ι) :=
  [.makeTemp i true, .writeTemp i (some (.text "ab".toList)), .replace i .denied,
    .replace i .won, .unlock i, .close i]

/-- One call appends and returns, after the other one aborted and while its worker is late. -/
theorem lockedRmw_linearizable_append_abort :
    ∃ s, Linearized
        (sameFile fun (i : Bool) t => if i then .ok (t ++ ['b']) else .error ()) "t".toList
        (fun _ => .text "a".toList) s ∧ s.files "t".toList = .text "ab".toList := by
  refine ⟨_, lockedRmw_linearizable (fun t c h => of_decide_eq_true h) (fun _ => rfl)
    (fun _ => (rfl : _ = "r".toList)) (rfl : run _ _ (mutateSteps false ++ [.start true] ++
      [.unlock false, .close false] ++ (mutateSteps true).tail ++ writeSteps true) = some _) ?_,
    rfl⟩
  intro i
  cases i
  · exact .inr ⟨_, rfl⟩
  · exact .inr ⟨_, rfl⟩

/-- The transformation of a file by the mutate itself, without the newline translation. -/
def rawEffect (env : Env ι ε) (i : ι) (c : FileState) : FileState :=
  match c with
  | .text t =>
    match env.mutate i t with
    | .ok newText => .text newText
    | .error _ => c
  | c => c

/-- The file is not the initial file transformed by the mutate itself: a call that appends to a
CRLF file also rewrites its line endings. -/
theorem lockedRmw_translates_newlines :
    ∃ (env : Env Unit Unit) (files : Text → FileState) (s : State Unit Unit)
      (as : List (Action Unit)),
      (∀ t c, env.leaves t c = true → c = .text t) ∧ run (step env) (init files) as = some s ∧
      Final s ∧ (s.calls ()).phase.returned = true ∧
      s.files (env.targetPath ()) ≠
        (s.acquired.filter fun i => (s.calls i).phase.returned).foldl
          (fun c i => rawEffect env i c) (files (env.targetPath ())) := by
  refine ⟨sameFile fun _ t => .ok (t ++ ['b']), fun _ => .text "a\r\n".toList, _,
    mutateSteps () ++ [.makeTemp () true, .writeTemp () (some (.text "a\nb".toList)),
      .replace () .won, .unlock (), .close ()],
    fun t c h => of_decide_eq_true h, rfl, fun _ => .inr ⟨_, rfl⟩, rfl, by decide⟩

end LockedWrite

end CoordinatorCore
