import CoordinatorCore.Machine.Run
import Mathlib.Data.Fin.VecNotation
import Mathlib.Data.Fintype.Basic

/-!
# The index lock

`prepare_splice`, `PreparedSplice` and `_recover_dead_writer` of `git/index_write.py`, by any number
of calls in the threads of any number of processes, beside other git programs. The lock and the
owner file beside it are made, renamed and unlinked by name, and each of these is a step of its own,
like each look at the tokens of a process. A call may be abandoned, and its thread or its process
may end, in front of any step.

What goes wrong is always a name that has changed its file between a look and a step. When no
recovery takes another owner file than the one it has read, none is sure that a writer is gone which
is about to end, and the lock that is reaped for its age is one that nobody will miss, then the lock
belongs to whoever may still publish it (`indexLock_exclusive`).
-/

namespace CoordinatorCore

open Machine

namespace Git

namespace IndexLock

/-! ### The calls -/

/-- Who has made a lock: a call of `prepare_splice`, or a git program. -/
inductive Holder (ι γ : Type*)
  | writer (i : ι)
  | git (g : γ)
deriving DecidableEq

/-- Where a call stands: what it does next. -/
inductive Phase (ι α : Type*)
  | start
  | acquire (again : Bool)
  | recover
  | judge (t : ι)
  | claim (t : ι)
  | unlinkLock (t : ι)
  | busy
  | opened
  | registered
  | claimed
  | building (v : α)
  | built
  | prepared
  | publishPop
  | publishOwner
  | publishRename
  | abort
  | abortPop
  | abortOwner
  | abortLock
  | ended
deriving DecidableEq

namespace Phase

variable {ι α : Type*}

/-- The call is ending its splice: it does not look at its token any more. -/
def ending : Phase ι α → Bool
  | publishPop | publishOwner | publishRename | abortPop | abortOwner | abortLock => true
  | _ => false

/-- The call is past the writing of its owner file, and is not ending. -/
def between : Phase ι α → Bool
  | claimed | building _ | built | prepared | abort | ended => true
  | _ => false

/-- The call has made the lock, and has not lost it, given that its token is where it was put. -/
def owns (p : Phase ι α) (token : Bool) : Bool :=
  match p with
  | opened => true
  | registered | claimed | building _ | built | prepared | abort => token
  | p => p.ending

/-- The bytes of the call are in its lock. -/
def ready : Phase ι α → Bool
  | built | prepared | publishPop | publishOwner | publishRename => true
  | _ => false

/-- The call may go on to publish. -/
def publishes : Phase ι α → Bool
  | opened | registered | claimed | building _ => true
  | p => p.ready

end Phase

/-- The index, the lock with its bytes, the owner file, the tokens that stand in the tables of their
processes, where the calls stand, which of them are abandoned, which threads, processes and git
programs have ended. -/
structure State (ι π γ α : Type*) where
  index : α
  lock : Option (Holder ι γ × α)
  owner : Option ι
  token : ι → Bool
  phase : ι → Phase ι α
  abandoned : ι → Bool
  dead : ι → Bool
  killed : π → Bool
  gitDead : γ → Bool

/-- A call takes its next step, which the operating system or the caller may make fail; or somebody
else does something. -/
inductive Act (ι π γ α : Type*)
  | call (i : ι) (ok : Bool)
  | abandon (i : ι)
  | die (i : ι)
  | kill (p : π)
  | gitTake (g : γ)
  | gitRelease (g : γ) (v : Option α)
  | gitDie (g : γ)

section

variable {ι π γ α : Type*} [DecidableEq ι] [DecidableEq π] [DecidableEq γ] (proc : ι → π)
  (empty : α) (build : ι → α → α)

/-- The thread of the call runs. -/
def State.Alive (s : State ι π γ α) (i : ι) : Prop := s.dead i = false ∧ s.killed (proc i) = false

instance (s : State ι π γ α) (i : ι) : Decidable (s.Alive proc i) :=
  inferInstanceAs (Decidable (_ ∧ _))

def State.goTo (s : State ι π γ α) (i : ι) (p : Phase ι α) : State ι π γ α :=
  { s with phase := Function.update s.phase i p }

def State.setLock (s : State ι π γ α) (l : Option (Holder ι γ × α)) : State ι π γ α :=
  { s with lock := l }

def State.setOwner (s : State ι π γ α) (o : Option ι) : State ι π γ α := { s with owner := o }

def State.setToken (s : State ι π γ α) (i : ι) (b : Bool) : State ι π γ α :=
  { s with token := Function.update s.token i b }

/-- `_Holder.reapable`. -/
def State.Reapable (s : State ι π γ α) (t : ι) : Prop :=
  s.phase t ≠ .publishPop ∧ (s.dead t = true ∨ s.abandoned t = true)

/-- The verdict of `_recover_dead_writer`: of a writer of the same process the table of the tokens
decides, of another one whether its process is there. -/
def State.Gone [DecidableEq α] (s : State ι π γ α) (i t : ι) : Prop :=
  if proc t = proc i then s.token t = false ∨ s.Reapable t else s.killed (proc t) = true

variable [DecidableEq α]

instance (s : State ι π γ α) (i t : ι) : Decidable (s.Gone proc i t) := by
  unfold State.Gone State.Reapable
  infer_instance

/-- One step of a call. -/
def callStep (s : State ι π γ α) (i : ι) (ok : Bool) : Option (State ι π γ α) :=
  match s.phase i with
  -- `preflight_reap_stale_lock`: the lock is old, and goes
  | .start => some ((if ok then s else s.setLock none).goTo i (.acquire false))
  | .acquire again =>
    if s.lock = none then some ((s.setLock (some (.writer i, empty))).goTo i .opened)
    else some (s.goTo i (if again then .busy else .recover))
  | .recover =>
    match s.owner with
    | some t => some (s.goTo i (if ok then .judge t else .busy))
    | none => some (s.goTo i .busy)
  | .judge t =>
    if s.Gone proc i t then
      some ((if proc t = proc i then s.setToken t false else s).goTo i (.claim t))
    else some (s.goTo i .busy)
  | .claim t =>
    if ok = true ∧ s.owner ≠ none then some ((s.setOwner none).goTo i (.unlinkLock t))
    else some (s.goTo i .busy)
  | .unlinkLock _ =>
    if ok then some ((s.setLock none).goTo i (.acquire true)) else some (s.goTo i .busy)
  -- `_claim_owner`
  | .opened => some ((s.setToken i true).goTo i .registered)
  | .registered =>
    if ok then some ((s.setOwner (some i)).goTo i .claimed) else some (s.goTo i .abort)
  -- `_splice_locked`
  | .claimed => some (s.goTo i (if ok then .building s.index else .abort))
  | .building v =>
    if ok then
      some ((s.setLock (s.lock.map fun f =>
        if f.1 = .writer i then (f.1, build i v) else f)).goTo i .built)
    else some (s.goTo i .abort)
  | .built => some (s.goTo i (if s.abandoned i then .abort else .prepared))
  -- `publish`, or the caller aborts
  | .prepared => some (s.goTo i (if ok ∧ s.token i then .publishPop else .abort))
  | .publishPop => some ((s.setToken i false).goTo i .publishOwner)
  | .publishOwner => some ((s.setOwner none).goTo i .publishRename)
  | .publishRename =>
    match if ok then s.lock else none with
    | some f => some (({ s with index := f.2 }.setLock none).goTo i .ended)
    | none => some (s.goTo i .abortOwner)
  | .abort => some (s.goTo i (if s.token i then .abortPop else .ended))
  | .abortPop => some ((s.setToken i false).goTo i .abortOwner)
  | .abortOwner => some ((s.setOwner none).goTo i .abortLock)
  | .abortLock => some ((s.setLock none).goTo i .ended)
  | .busy | .ended => none

def step (s : State ι π γ α) : Act ι π γ α → Option (State ι π γ α)
  | .call i ok => if s.Alive proc i then callStep proc empty build s i ok else none
  | .abandon i => some { s with abandoned := Function.update s.abandoned i true }
  | .die i => some { s with dead := Function.update s.dead i true }
  | .kill p => some { s with killed := Function.update s.killed p true }
  | .gitTake g =>
    if s.lock = none ∧ s.gitDead g = false then some { s with lock := some (.git g, empty) }
    else none
  | .gitRelease g v =>
    if s.lock.map Prod.fst = some (.git g) ∧ s.gitDead g = false then
      some { s with lock := none, index := v.getD s.index }
    else none
  | .gitDie g => some { s with gitDead := Function.update s.gitDead g true }

/-- No call yet. -/
def init (index : α) : State ι π γ α :=
  ⟨index, none, none, fun _ => false, fun _ => .start, fun _ => false, fun _ => false,
    fun _ => false, fun _ => false⟩

/-! ### What should hold -/

/-- The call has made the lock, its token was not taken from it, and it may go on to publish. -/
def State.CanPublish (s : State ι π γ α) (i : ι) : Prop :=
  s.Alive proc i ∧ (s.phase i).publishes = true ∧ (s.phase i).owns (s.token i) = true

instance (s : State ι π γ α) (i : ι) : Decidable (s.CanPublish proc i) :=
  inferInstanceAs (Decidable (_ ∧ _))

/-- At most one call has the lock and can publish it. -/
def Exclusive (s : State ι π γ α) : Prop :=
  ∀ i j, s.CanPublish proc i → s.CanPublish proc j → i = j

/-- Whoever has made the lock will not miss it. -/
def State.Forsaken (s : State ι π γ α) : Holder ι γ → Prop
  | .writer j => ¬ s.Alive proc j ∨ s.abandoned j = true
  | .git g => s.gitDead g = true

/-- A step removes the lock that the call has made, or one that nobody will miss; and what it
renames onto the index is the lock it has made, with the bytes it has built from the index that is
there. -/
def StepSafe (s : State ι π γ α) : Act ι π γ α → Prop
  | .call i ok =>
    s.Alive proc i →
      match s.phase i with
      | .start => ok = false → ∀ f ∈ s.lock, s.Forsaken proc f.1
      | .unlinkLock _ => ok = true → ∀ f ∈ s.lock, s.Forsaken proc f.1
      | .abortLock => ∀ f ∈ s.lock, f.1 = .writer i
      | .publishRename => ok = true → s.lock = some (.writer i, build i s.index)
      | _ => True
  | _ => True

/-- The maker of the lock has ended. -/
def State.MakerEnded (s : State ι π γ α) : Holder ι γ → Prop
  | .writer j => ¬ s.Alive proc j
  | .git g => s.gitDead g = true

instance (s : State ι π γ α) : DecidablePred (s.MakerEnded proc)
  | .writer _ => inferInstanceAs (Decidable (¬ _))
  | .git _ => inferInstanceAs (Decidable (_ = true))

/-- No name changes its file between a look and a step: the lock that is reaped for its age has no
owner file, its maker has ended, and nobody is about to unlink it; a recovery that judges a writer
gone finds it ended for good, or not about to end its splice; and it renames the owner file that it
has read. -/
def Steady (s : State ι π γ α) : Act ι π γ α → Prop
  | .call i ok =>
    (s.phase i = .start → ok = false → s.owner = none ∧ (∀ f ∈ s.lock, s.MakerEnded proc f.1) ∧
      ∀ j, s.Alive proc j → ∀ t, s.phase j ≠ .unlinkLock t) ∧
    (∀ t, s.phase i = .judge t → s.Gone proc i t → s.Alive proc t → (s.phase t).ending = false) ∧
    ∀ t, s.phase i = .claim t → ∀ t' ∈ s.owner, t' = t
  | _ => True

instance [Fintype ι] (s : State ι π γ α) : DecidablePred (Steady proc s)
  | .call _ _ => @instDecidableAnd _ _ inferInstance inferInstance
  | .abandon _ | .die _ | .kill _ | .gitTake _ | .gitRelease _ _ | .gitDie _ =>
    inferInstanceAs (Decidable True)

end

/-! ### The invariant -/

section

variable {ι π γ α : Type*} {proc : ι → π} {build : ι → α → α} {s : State ι π γ α} {i j t : ι}

/-- The call is past the writing of its owner file. -/
def Phase.past (p : Phase ι α) : Bool := p.between || p.ending

variable (proc) in
/-- A call that has ended, or will find its token gone and end. -/
def State.Retired (s : State ι π γ α) (t : ι) : Prop :=
  ¬ s.Alive proc t ∨ s.token t = false ∧ (s.phase t).between = true

def State.Owns (s : State ι π γ α) (i : ι) : Prop := (s.phase i).owns (s.token i) = true

def State.maker (s : State ι π γ α) : Option (Holder ι γ) := s.lock.map Prod.fst

variable (proc build) in
/-- A call that has not lost its lock is the maker of the lock that is there, and the maker of the
lock that is there has not lost it, or is abandoned, or has ended. The owner file is the one of the
maker. A recovery that has taken the owner file finds the lock of the writer that it has judged. -/
structure Inv (s : State ι π γ α) : Prop where
  holds : ∀ i, s.Alive proc i → s.Owns i → s.maker = some (.writer i)
  owned : ∀ t, s.maker = some (.writer t) → s.Alive proc t → s.Owns t ∨ s.abandoned t = true
  token : ∀ i, s.Alive proc i → s.phase i = .registered → s.token i = true
  owner : ∀ t, s.owner = some t → s.maker = some (.writer t) ∧ (s.phase t).past = true
  released : ∀ i, s.Alive proc i → s.phase i = .publishRename ∨ s.phase i = .abortLock →
    s.owner = none
  judged : ∀ i t, s.phase i = .judge t → (s.phase t).past = true
  retired : ∀ i t, s.phase i = .claim t ∨ s.phase i = .unlinkLock t → s.Retired proc t
  unlinking : ∀ i t, s.Alive proc i → s.phase i = .unlinkLock t →
    s.owner = none ∧ s.maker = some (.writer t)
  unique : ∀ i j t t', s.Alive proc i → s.Alive proc j → s.phase i = .unlinkLock t →
    s.phase j = .unlinkLock t' → i = j
  read : ∀ i v, s.Alive proc i → s.Owns i → s.phase i = .building v → v = s.index
  ready : ∀ i, s.Alive proc i → s.Owns i → (s.phase i).ready = true →
    s.lock = some (.writer i, build i s.index)

/-- A call that ends owns the lock. -/
theorem Phase.owns_of_ending {p : Phase ι α} (h : p.ending = true) (b : Bool) :
    p.owns b = true := by
  cases p <;> first | rfl | cases h

theorem Phase.not_owns_of_between {p : Phase ι α} (h : p.between = true) :
    p.owns false = false := by
  cases p <;> first | rfl | cases h

/-- A call that is retired and alive has lost its lock. -/
theorem State.Retired.not_owns (h : s.Retired proc t) (ht : s.Alive proc t) : ¬ s.Owns t := by
  obtain ⟨htoken, hbetween⟩ := h.resolve_left fun hn => hn ht
  rw [State.Owns, htoken, Phase.not_owns_of_between hbetween]
  exact Bool.false_ne_true

/-- While a recovery is about to unlink the lock, nobody holds it. -/
theorem Inv.not_owns_of_unlinking (h : Inv proc build s) (hi : s.Alive proc i)
    (hphase : s.phase i = .unlinkLock t) (hj : s.Alive proc j) : ¬ s.Owns j := by
  intro hown
  have hmaker := (h.unlinking i t hi hphase).2
  rw [h.holds j hj hown, Option.some.injEq, Holder.writer.injEq] at hmaker
  exact (h.retired i t (.inr hphase)).not_owns (hmaker ▸ hj) (hmaker ▸ hown)

/-- No call holds the lock at the start. -/
theorem inv_init (index : α) : Inv proc build (init index : State ι π γ α) :=
  ⟨nofun, nofun, nofun, nofun, fun _ _ h => by simp [init] at h, nofun,
    fun _ _ h => by simp [init] at h, nofun, nofun, nofun, nofun⟩

/-- A free lock: nobody owns it, it has no owner file, and no recovery is about to unlink it. -/
theorem Inv.of_free (h : Inv proc build s) (hmaker : ∀ t, s.maker ≠ some (.writer t)) :
    (∀ j, s.Alive proc j → ¬ s.Owns j) ∧ s.owner = none ∧
      ∀ j, s.Alive proc j → ∀ t, s.phase j ≠ .unlinkLock t := by
  refine ⟨fun j hj ho => hmaker j (h.holds j hj ho), ?_,
    fun j hj t hu => hmaker t (h.unlinking j t hj hu).2⟩
  cases ho : s.owner with
  | none => rfl
  | some t => exact absurd (h.owner t ho).1 (hmaker t)

/-- Beside the owner of the lock nobody owns it, and no recovery is about to unlink it. -/
theorem Inv.alone (h : Inv proc build s) (hi : s.Alive proc i) (ho : s.Owns i) :
    (∀ j ≠ i, s.Alive proc j → ¬ s.Owns j) ∧
      ∀ j, s.Alive proc j → ∀ t, s.phase j ≠ .unlinkLock t := by
  refine ⟨fun j hne hj hoj => hne ?_, fun j hj t hu => h.not_owns_of_unlinking hj hu hi ho⟩
  have := (h.holds j hj hoj).symm.trans (h.holds i hi ho)
  rw [Option.some.injEq, Holder.writer.injEq] at this
  exact this

/-- A lock without an owner file that no call owns changes hands between other programs. -/
theorem Inv.setLock (h : Inv proc build s) (hfree : ∀ j, s.Alive proc j → ¬ s.Owns j)
    (howner : s.owner = none)
    (hunlink : ∀ j, s.Alive proc j → ∀ t, s.phase j ≠ .unlinkLock t)
    {lock : Option (Holder ι γ × α)} (hlock : ∀ t, lock.map Prod.fst ≠ some (.writer t)) (v : α) :
    Inv proc build ({ s with index := v }.setLock lock) :=
  ⟨fun j hj ho => absurd ho (hfree j hj), fun t hm => absurd hm (hlock t), h.token,
    fun t ho => by simp [State.setLock, howner] at ho, fun _ _ _ => howner, h.judged, h.retired,
    fun j t hj hu => absurd hu (hunlink j hj t), h.unique, fun j _ hj ho => absurd ho (hfree j hj),
    fun j hj ho => absurd ho (hfree j hj)⟩

/-- The owner file goes away. -/
theorem Inv.dropOwner (h : Inv proc build s) : Inv proc build (s.setOwner none) :=
  ⟨h.holds, h.owned, h.token, nofun, fun _ _ _ => rfl, h.judged, h.retired,
    fun i t hi hu => ⟨rfl, (h.unlinking i t hi hu).2⟩, h.unique, h.read, h.ready⟩

/-- The owner of the lock makes its owner file. -/
theorem Inv.makeOwner (h : Inv proc build s) (hi : s.Alive proc i) (ho : s.Owns i)
    (hpast : (s.phase i).past = true) (hending : (s.phase i).ending = false) :
    Inv proc build (s.setOwner (some i)) := by
  obtain ⟨hothers, hunlink⟩ := h.alone hi ho
  refine ⟨h.holds, h.owned, h.token, fun t ht => ?_, fun j hj hrel => ?_, h.judged, h.retired,
    fun j t hj hu => absurd hu (hunlink j hj t), h.unique, h.read, h.ready⟩
  · obtain rfl : i = t := Option.some.inj ht
    exact ⟨h.holds i hi ho, hpast⟩
  · have hend : (s.phase j).ending = true := by
      rcases hrel with hrel | hrel <;>
      · change s.phase j = _ at hrel
        rw [hrel]
        rfl
    have hne : j ≠ i := by
      rintro rfl
      rw [hend] at hending
      cases hending
    exact absurd (Phase.owns_of_ending hend _) (hothers j hne hj)

/-- Calls are abandoned, and threads, processes and git programs end. -/
theorem Inv.others (h : Inv proc build s) {abandoned dead : ι → Bool} {killed : π → Bool}
    {gitDead : γ → Bool} (habandoned : ∀ j, s.abandoned j = true → abandoned j = true)
    (hdead : ∀ j, dead j = false → s.dead j = false)
    (hkilled : ∀ p, killed p = false → s.killed p = false) :
    Inv proc build { s with
      abandoned := abandoned, dead := dead, killed := killed, gitDead := gitDead } := by
  have halive : ∀ j, dead j = false ∧ killed (proc j) = false → s.Alive proc j := fun j hj =>
    ⟨hdead j hj.1, hkilled _ hj.2⟩
  exact ⟨fun j hj => h.holds j (halive j hj),
    fun t hm ht => (h.owned t hm (halive t ht)).imp_right (habandoned t),
    fun j hj => h.token j (halive j hj), h.owner, fun j hj => h.released j (halive j hj), h.judged,
    fun j t hj => (h.retired j t hj).imp_left fun hn ht => hn (halive t ht),
    fun j t hj => h.unlinking j t (halive j hj),
    fun j k t t' hj hk => h.unique j k t t' (halive j hj) (halive k hk),
    fun j v hj => h.read j v (halive j hj), fun j hj => h.ready j (halive j hj)⟩

/-- At most one call owns the lock. -/
theorem Inv.exclusive (h : Inv proc build s) : Exclusive proc s := by
  intro i j ⟨hi, _, hoi⟩ ⟨hj, _, hoj⟩
  have := (h.holds i hi hoi).symm.trans (h.holds j hj hoj)
  rw [Option.some.injEq, Holder.writer.injEq] at this
  exact this

/-- A steady step is safe where the invariant holds. -/
theorem Inv.stepSafe [DecidableEq π] [DecidableEq α] (h : Inv proc build s) {a : Act ι π γ α}
    (hsteady : Steady proc s a) : StepSafe proc build s a := by
  cases a with
  | call i ok =>
    intro hi
    split
    · next hphase =>
      intro hok f hf
      have hended := (hsteady.1 hphase hok).2.1 f hf
      cases hmaker : f.1 with
      | writer j =>
        rw [hmaker] at hended
        exact .inl hended
      | git g =>
        rw [hmaker] at hended
        exact hended
    · next t hphase =>
      intro _ f hf
      have hmaker := (h.unlinking i t hi hphase).2
      rw [State.maker, hf, Option.map_some, Option.some.injEq] at hmaker
      rw [hmaker]
      by_cases ht : s.Alive proc t
      · refine .inr ((h.owned t (h.unlinking i t hi hphase).2 ht).resolve_left ?_)
        exact (h.retired i t (.inr hphase)).not_owns ht
      · exact .inl ht
    · next hphase =>
      intro f hf
      have hmaker := h.holds i hi (by rw [State.Owns, hphase]; rfl)
      rw [State.maker, hf, Option.map_some, Option.some.injEq] at hmaker
      exact hmaker
    · next hphase =>
      exact fun _ => h.ready i hi (by rw [State.Owns, hphase]; rfl) (by rw [hphase]; rfl)
    · trivial
  | _ => trivial

/-- A flag that is set stays set. -/
theorem update_true {κ : Type*} [DecidableEq κ] (f : κ → Bool) (k j : κ) :
    (f j = true → Function.update f k true j = true) ∧
      (Function.update f k true j = false → f j = false) := by
  rw [Function.update_apply]
  split_ifs
  · exact ⟨fun _ => rfl, nofun⟩
  · exact ⟨id, id⟩

variable [DecidableEq ι]

theorem State.phase_goTo (s : State ι π γ α) (i : ι) (p : Phase ι α) (j : ι) :
    (s.goTo i p).phase j = if j = i then p else s.phase j :=
  Function.update_apply ..

theorem State.token_setToken (s : State ι π γ α) (i : ι) (b : Bool) (j : ι) :
    (s.setToken i b).token j = if j = i then b else s.token j :=
  Function.update_apply ..

theorem State.setToken_self (s : State ι π γ α) (i : ι) : s.setToken i (s.token i) = s := by
  rw [State.setToken, Function.update_eq_self]

/-- Who else owns the lock does not change with one call's phase. -/
theorem State.owns_iff_of_ne (s : State ι π γ α) (h : j ≠ i) (p : Phase ι α) (b : Bool) :
    ((s.setToken i b).goTo i p).Owns j ↔ s.Owns j := by
  rw [Owns, phase_goTo, if_neg h, Owns]
  change (s.phase j).owns ((s.setToken i b).token j) = true ↔ _
  rw [token_setToken, if_neg h]

/-- A call goes on to a place where it owns what it has owned. -/
theorem Inv.goTo (h : Inv proc build s) (hi : s.Alive proc i) {p : Phase ι α} {b : Bool}
    (howns : p.owns b = (s.phase i).owns (s.token i))
    (hpast : (s.phase i).past = true → p.past = true)
    (hretired : (s.phase i).between = true → s.token i = false → p.between = true ∧ b = false)
    (htoken : p = .registered → b = true)
    (hreleased : p = .publishRename ∨ p = .abortLock → s.owner = none)
    (hjudge : ∀ t, p = .judge t → (s.phase t).past = true)
    (hclaim : ∀ t, p = .claim t → s.Retired proc t) (hunlinkLock : ∀ t, p ≠ .unlinkLock t)
    (hread : ∀ v, p = .building v → v = s.index)
    (hready : p.ready = true → s.Owns i → s.lock = some (.writer i, build i s.index)) :
    Inv proc build ((s.setToken i b).goTo i p) := by
  have hphase := (s.setToken i b).phase_goTo i p
  -- the owners are as before
  have hown : ∀ j, ((s.setToken i b).goTo i p).Owns j ↔ s.Owns j := by
    intro j
    rcases eq_or_ne j i with rfl | hne
    · rw [State.Owns, hphase, if_pos rfl, State.Owns, ← howns]
      change p.owns ((s.setToken j b).token j) = true ↔ _
      rw [State.token_setToken, if_pos rfl]
    · exact s.owns_iff_of_ne hne p b
  -- a call past its owner file stays past it, a retired one stays retired
  have hpast' : ∀ t, (s.phase t).past = true →
      (((s.setToken i b).goTo i p).phase t).past = true := by
    intro t ht
    rw [hphase]
    split_ifs with heq
    · exact hpast (heq ▸ ht)
    · exact ht
  have hretired' : ∀ t, s.Retired proc t → ((s.setToken i b).goTo i p).Retired proc t := by
    intro t ht
    refine ht.imp_right fun ⟨hfalse, hbetween⟩ => ?_
    rw [hphase]
    change (s.setToken i b).token t = false ∧ _
    rw [State.token_setToken]
    split_ifs with heq
    · exact (hretired (heq ▸ hbetween) (heq ▸ hfalse)).symm
    · exact ⟨hfalse, hbetween⟩
  -- no call comes to unlink by this step
  have hunlink : ∀ j t, ((s.setToken i b).goTo i p).phase j = .unlinkLock t →
      s.phase j = .unlinkLock t := by
    intro j t hj
    rw [hphase] at hj
    split_ifs at hj
    · exact absurd hj (hunlinkLock t)
    · exact hj
  refine ⟨fun j hj ho => h.holds j hj ((hown j).mp ho),
    fun t hm ht => (h.owned t hm ht).imp_left (hown t).mpr, fun j hj hreg => ?_,
    fun t ho => ⟨(h.owner t ho).1, hpast' t (h.owner t ho).2⟩, fun j hj hrel => ?_,
    fun j t hj => ?_, fun j t hj => ?_, fun j t hj hu => h.unlinking j t hj (hunlink j t hu),
    fun j k t t' hj hk hu hu' => h.unique j k t t' hj hk (hunlink j t hu) (hunlink k t' hu'),
    fun j v hj ho hb => ?_, fun j hj ho hr => ?_⟩
  · rw [hphase] at hreg
    change (s.setToken i b).token j = true
    rw [State.token_setToken]
    split_ifs at hreg ⊢ with heq
    · exact htoken hreg
    · exact h.token j hj hreg
  · rw [hphase] at hrel
    split_ifs at hrel
    · exact hreleased hrel
    · exact h.released j hj hrel
  · rw [hphase] at hj
    split_ifs at hj
    · exact hpast' t (hjudge t hj)
    · exact hpast' t (h.judged j t hj)
  · rw [hphase] at hj
    split_ifs at hj
    · exact hretired' t (hclaim t (hj.resolve_right (hunlinkLock t)))
    · exact hretired' t (h.retired j t hj)
  · rw [hphase] at hb
    split_ifs at hb
    · exact hread v hb
    · exact h.read j v hj ((hown j).mp ho) hb
  · rw [hphase] at hr
    split_ifs at hr with heq
    · subst heq
      exact hready hr ((hown j).mp ho)
    · exact h.ready j hj ((hown j).mp ho) hr

/-- A step that leaves the tokens alone. -/
theorem Inv.move (h : Inv proc build s) (hi : s.Alive proc i) {p : Phase ι α}
    (howns : p.owns (s.token i) = (s.phase i).owns (s.token i))
    (hpast : (s.phase i).past = true → p.past = true)
    (hretired : (s.phase i).between = true → p.between = true ∨ s.token i = true)
    (htoken : p ≠ .registered)
    (hreleased : p = .publishRename ∨ p = .abortLock → s.owner = none)
    (hjudge : ∀ t, p = .judge t → (s.phase t).past = true)
    (hclaim : ∀ t, p = .claim t → s.Retired proc t) (hunlinkLock : ∀ t, p ≠ .unlinkLock t)
    (hread : ∀ v, p = .building v → v = s.index)
    (hready : p.ready = true → s.Owns i → s.lock = some (.writer i, build i s.index)) :
    Inv proc build (s.goTo i p) := by
  have hmoved := h.goTo hi howns hpast
    (fun hb hfalse => ⟨(hretired hb).resolve_right fun ht => by simp [hfalse] at ht, hfalse⟩)
    (fun heq => absurd heq htoken) hreleased hjudge hclaim hunlinkLock hread hready
  rwa [State.setToken_self] at hmoved

/-- A call takes a lock that is free, or leaves the lock free, while no other call owns it. -/
theorem Inv.swapLock (h : Inv proc build s) (hi : s.Alive proc i)
    (hothers : ∀ j ≠ i, s.Alive proc j → ¬ s.Owns j) (howner : s.owner = none)
    (hunlink : ∀ j ≠ i, s.Alive proc j → ∀ t, s.phase j ≠ .unlinkLock t)
    (hbetween : (s.phase i).between = false) {p : Phase ι α} {lock : Option (Holder ι γ × α)}
    (hpast : (s.phase i).past = true → p.past = true)
    (hp : (∃ c, p = .opened ∧ lock = some (.writer i, c)) ∨
      ((∃ again, p = .acquire again) ∨ p = .ended) ∧ lock = none) (v : α) :
    Inv proc build (({ s with index := v }.setLock lock).goTo i p) := by
  have hphase := ({ s with index := v }.setLock lock).phase_goTo i p
  -- no other live call owns the lock
  have hother : ∀ j ≠ i, s.Alive proc j →
      ¬ (({ s with index := v }.setLock lock).goTo i p).Owns j := by
    intro j hne hj ho
    rw [State.Owns, hphase, if_neg hne] at ho
    exact hothers j hne hj ho
  -- the new phase is none of those that the clauses on recovery and publishing speak of
  have hplain : p.ready = false ∧ p ≠ .registered ∧ p ≠ .publishRename ∧ p ≠ .abortLock ∧
      ∀ t v, p ≠ .judge t ∧ p ≠ .claim t ∧ p ≠ .unlinkLock t ∧ p ≠ .building v := by
    rcases hp with ⟨c, rfl, -⟩ | ⟨⟨again, rfl⟩ | rfl, -⟩ <;>
      exact ⟨rfl, nofun, nofun, nofun, fun _ _ => ⟨nofun, nofun, nofun, nofun⟩⟩
  obtain ⟨hready, hregistered, hrename, habort, hnot⟩ := hplain
  have hpast' : ∀ t, (s.phase t).past = true →
      ((({ s with index := v }.setLock lock).goTo i p).phase t).past = true := by
    intro t ht
    rw [hphase]
    split_ifs with heq
    · exact hpast (heq ▸ ht)
    · exact ht
  have hunlink' : ∀ j t, s.Alive proc j →
      (({ s with index := v }.setLock lock).goTo i p).phase j ≠ .unlinkLock t := by
    intro j t hj hu
    rw [hphase] at hu
    split_ifs at hu with heq
    · exact (hnot t v).2.2.1 hu
    · exact hunlink j heq hj t hu
  refine ⟨fun j hj ho => ?_, fun t hm ht => ?_, fun j hj hreg => ?_, fun t ho => ?_,
    fun _ _ _ => howner, fun j t hj => ?_, fun j t hj => ?_,
    fun j t hj hu => absurd hu (hunlink' j t hj),
    fun j k t t' hj _ hu _ => absurd hu (hunlink' j t hj), fun j v' hj ho hb => ?_,
    fun j hj ho hr => ?_⟩
  · rcases eq_or_ne j i with rfl | hne
    · rcases hp with ⟨c, -, rfl⟩ | ⟨hq, -⟩
      · rfl
      · rw [State.Owns, hphase, if_pos rfl] at ho
        rcases hq with ⟨again, rfl⟩ | rfl <;> cases ho
    · exact absurd ho (hother j hne hj)
  · rcases hp with ⟨c, rfl, rfl⟩ | ⟨-, rfl⟩
    · cases hm
      left
      rw [State.Owns, hphase, if_pos rfl]
      rfl
    · cases hm
  · rw [hphase] at hreg
    split_ifs at hreg
    · exact absurd hreg hregistered
    · exact h.token j hj hreg
  · exact absurd (ho.symm.trans howner) nofun
  · rw [hphase] at hj
    split_ifs at hj
    · exact absurd hj (hnot t v).1
    · exact hpast' t (h.judged j t hj)
  · rw [hphase] at hj
    split_ifs at hj
    · exact absurd hj (not_or.mpr ⟨(hnot t v).2.1, (hnot t v).2.2.1⟩)
    · refine (h.retired j t hj).imp_right fun ⟨hfalse, hb⟩ => ⟨hfalse, ?_⟩
      rw [hphase]
      split_ifs with heq
      · rw [heq, hbetween] at hb
        cases hb
      · exact hb
  · rcases eq_or_ne j i with rfl | hne
    · rw [hphase, if_pos rfl] at hb
      exact absurd hb (hnot j v').2.2.2
    · exact absurd ho (hother j hne hj)
  · rcases eq_or_ne j i with rfl | hne
    · rw [hphase, if_pos rfl, hready] at hr
      cases hr
    · exact absurd ho (hother j hne hj)

/-- A writer loses its token to a recovery. -/
theorem Inv.dropToken (h : Inv proc build s) (ht : s.Alive proc t → (s.phase t).between = true ∧
    (s.Owns t → s.abandoned t = true)) : Inv proc build (s.setToken t false) := by
  have hown : ∀ j, s.Alive proc j → (s.setToken t false).Owns j → j ≠ t ∧ s.Owns j := by
    intro j hj ho
    have hne : j ≠ t := by
      rintro rfl
      rw [State.Owns, State.token_setToken, if_pos rfl] at ho
      exact absurd ((Phase.not_owns_of_between (ht hj).1).symm.trans ho) Bool.false_ne_true
    rw [State.Owns, State.token_setToken, if_neg hne] at ho
    exact ⟨hne, ho⟩
  refine ⟨fun j hj ho => h.holds j hj (hown j hj ho).2, fun t' hm ht' => ?_, fun j hj hreg => ?_,
    h.owner, h.released, h.judged, fun j t' hj => (h.retired j t' hj).imp_right fun hr => ?_,
    h.unlinking, h.unique, fun j v hj ho => h.read j v hj (hown j hj ho).2,
    fun j hj ho => h.ready j hj (hown j hj ho).2⟩
  · rcases eq_or_ne t' t with rfl | hne
    · exact .inr ((h.owned t' hm ht').elim (ht ht').2 id)
    · refine (h.owned t' hm ht').imp_left fun ho => ?_
      rw [State.Owns, State.token_setToken, if_neg hne]
      exact ho
  · rw [State.token_setToken, if_neg]
    · exact h.token j hj hreg
    · rintro rfl
      have := (ht hj).1
      change s.phase j = _ at hreg
      rw [hreg] at this
      cases this
  · refine ⟨?_, hr.2⟩
    rw [State.token_setToken]
    split_ifs
    · rfl
    · exact hr.1

/-- A call writes its bytes into the lock that it has made. -/
theorem Inv.fill (h : Inv proc build s) [DecidableEq γ] {v : α} (hphase : s.phase i = .building v) :
    Inv proc build (s.setLock (s.lock.map fun f =>
      if f.1 = .writer i then (f.1, build i v) else f)) := by
  have hmaker : (s.setLock (s.lock.map fun f =>
      if f.1 = .writer i then (f.1, build i v) else f)).maker = s.maker := by
    rw [State.maker, State.maker, State.setLock, Option.map_map]
    refine congrArg (Option.map · s.lock) (funext fun f => ?_)
    rw [Function.comp_apply]
    split_ifs <;> rfl
  refine ⟨fun j hj ho => hmaker.trans (h.holds j hj ho),
    fun t hm ht => h.owned t (hmaker.symm.trans hm) ht, h.token,
    fun t ho => ⟨hmaker.trans (h.owner t ho).1, (h.owner t ho).2⟩, h.released, h.judged, h.retired,
    fun j t hj hu => ⟨(h.unlinking j t hj hu).1, hmaker.trans (h.unlinking j t hj hu).2⟩, h.unique,
    h.read, fun j hj ho hr => ?_⟩
  have hne : j ≠ i := by
    rintro rfl
    change (s.phase j).ready = true at hr
    rw [hphase] at hr
    cases hr
  change s.lock.map _ = _
  rw [h.ready j hj ho hr, Option.map_some, if_neg (fun heq => hne (Holder.writer.inj heq))]
  rfl

/-- A recovery takes the owner file that it has read. -/
theorem Inv.claim (h : Inv proc build s) (hphase : s.phase i = .claim t)
    (ho : s.owner = some t) : Inv proc build ((s.setOwner none).goTo i (.unlinkLock t)) := by
  have hmaker := (h.owner t ho).1
  -- while the owner file stands nobody is about to unlink
  have hnone : ∀ j, s.Alive proc j → ∀ t', s.phase j ≠ .unlinkLock t' := fun j hj t' hu =>
    absurd ((h.unlinking j t' hj hu).1.symm.trans ho) nofun
  have hat := (s.setOwner none).phase_goTo i (.unlinkLock t)
  -- the two phases differ in what they are about to do only
  have hsame : ∀ (q : Phase ι α → Bool), q (.claim t) = q (.unlinkLock t) → ∀ j,
      q (((s.setOwner none).goTo i (.unlinkLock t)).phase j) = q (s.phase j) := by
    intro q hq j
    rw [hat]
    split_ifs with heq
    · rw [heq, hphase, hq]
    · rfl
  have hown : ∀ j, ((s.setOwner none).goTo i (.unlinkLock t)).Owns j ↔ s.Owns j := fun j => by
    rw [State.Owns, State.Owns, ← hsame (·.owns (s.token j)) rfl j]
    rfl
  have hretired : ∀ t', s.Retired proc t' →
      ((s.setOwner none).goTo i (.unlinkLock t)).Retired proc t' := fun t' ht =>
    ht.imp_right fun hr => ⟨hr.1, (hsame Phase.between rfl t').trans hr.2⟩
  have hbefore : ∀ j p, ((s.setOwner none).goTo i (.unlinkLock t)).phase j = p →
      p ≠ .unlinkLock t → s.phase j = p := by
    rintro j p hj hne
    rw [hat] at hj
    split_ifs at hj
    · exact absurd hj.symm hne
    · exact hj
  have hunlink : ∀ j t', s.Alive proc j →
      ((s.setOwner none).goTo i (.unlinkLock t)).phase j = .unlinkLock t' → j = i ∧ t' = t := by
    intro j t' hj hu
    rw [hat] at hu
    split_ifs at hu with heq
    · exact ⟨heq, (Phase.unlinkLock.inj hu).symm⟩
    · exact absurd hu (hnone j hj t')
  refine ⟨fun j hj hoj => h.holds j hj ((hown j).mp hoj),
    fun t' hm ht' => (h.owned t' hm ht').imp_left (hown t').mpr,
    fun j hj hreg => h.token j hj (hbefore j _ hreg nofun), nofun, fun _ _ _ => rfl,
    fun j t' hj => (hsame Phase.past rfl t').trans (h.judged j t' (hbefore j _ hj nofun)),
    fun j t' hj => hretired t' ?_, fun j t' hj hu => ⟨rfl, ?_⟩, fun j k t₁ t₂ hj hk hu hu' => ?_,
    fun j v hj hoj hb => h.read j v hj ((hown j).mp hoj) (hbefore j _ hb nofun),
    fun j hj hoj hr => h.ready j hj ((hown j).mp hoj) ((hsame Phase.ready rfl j).symm.trans hr)⟩
  · rw [hat] at hj
    split_ifs at hj
    · rcases hj with hj | hj
      · cases hj
      · cases hj
        exact h.retired i t (.inl hphase)
    · exact h.retired j t' hj
  · rw [(hunlink j t' hj hu).2]
    exact hmaker
  · rw [(hunlink j t₁ hj hu).1, (hunlink k t₂ hk hu').1]

/-- What a verdict says of the writer: it has ended, or it will find its token gone. -/
theorem Inv.judge [DecidableEq π] [DecidableEq γ] [DecidableEq α] (h : Inv proc build s)
    (hi : s.Alive proc i) (hphase : s.phase i = .judge t) (hgone : s.Gone proc i t)
    (hending : s.Alive proc t → (s.phase t).ending = false) :
    Inv proc build ((if proc t = proc i then s.setToken t false else s).goTo i (.claim t)) := by
  have hpast := h.judged i t hphase
  have hbetween : s.Alive proc t → (s.phase t).between = true := fun ht => by
    rwa [Phase.past, hending ht, Bool.or_false] at hpast
  have hgo : ∀ s' : State ι π γ α, Inv proc build s' → s'.Alive proc i →
      s'.phase i = .judge t → s'.Retired proc t → Inv proc build (s'.goTo i (.claim t)) := by
    intro s' h' hi' hphase' hret
    refine h'.move hi' (by rw [hphase']; rfl) (by rw [hphase']; nofun) (by rw [hphase']; nofun)
      nofun (by simp) nofun (fun t' ht' => ?_) nofun nofun nofun
    cases ht'
    exact hret
  rw [State.Gone] at hgone
  split_ifs at hgone ⊢ with hproc
  · refine hgo _ (h.dropToken fun ht => ⟨hbetween ht, fun ho => ?_⟩) hi hphase ?_
    · rcases hgone with hfalse | ⟨-, hdead | habandoned⟩
      · rw [State.Owns, hfalse, Phase.not_owns_of_between (hbetween ht)] at ho
        cases ho
      · exact absurd (hdead.symm.trans ht.1) nofun
      · exact habandoned
    · by_cases ht : s.Alive proc t
      · refine .inr ⟨?_, hbetween ht⟩
        rw [State.token_setToken, if_pos rfl]
      · exact .inl ht
  · exact hgo _ h hi hphase (.inl fun ht => absurd (hgone.symm.trans ht.2) nofun)

variable [DecidableEq π] [DecidableEq γ] [DecidableEq α] {empty : α} {ok : Bool}
  {s' : State ι π γ α}

/-- A step of a call keeps the invariant; one case for each phase. -/
theorem Inv.callStep (h : Inv proc build s) (hi : s.Alive proc i)
    (hsteady : Steady proc s (.call i ok))
    (hs : IndexLock.callStep proc empty build s i ok = some s') : Inv proc build s' := by
  -- where the token is looked at, a call that has lost it goes to its end
  have hquiet : ∀ {p : Phase ι α}, p = .busy ∨ p = .recover ∨ (∃ b, p = .acquire b) →
      (s.phase i).past = false → (s.phase i).owns (s.token i) = false →
      Inv proc build (s.goTo i p) := by
    intro p hp hpast howns
    have hb : (s.phase i).between = false := (Bool.or_eq_false_iff.mp hpast).1
    refine h.move hi ?_ (by simp [hpast]) (by simp [hb]) ?_ ?_ ?_ ?_ ?_ ?_ ?_ <;>
      rcases hp with rfl | rfl | ⟨b, rfl⟩ <;>
      simp_all [Phase.owns, Phase.ending, Phase.ready]
  have hready : (s.phase i).ready = true → s.Owns i →
      s.lock = some (.writer i, build i s.index) := fun hr ho => h.ready i hi ho hr
  obtain ⟨hstart, hjudge, hclaim⟩ := hsteady
  rw [IndexLock.callStep] at hs
  cases hphase : s.phase i with
  | start =>
    simp only [hphase, Option.some.injEq] at hs hquiet
    subst hs
    cases ok with
    | true => exact hquiet (.inr (.inr ⟨_, rfl⟩)) rfl rfl
    | false =>
      obtain ⟨howner, hmaker, hunlink⟩ := hstart hphase rfl
      refine h.swapLock hi (fun j _ hj ho => ?_) howner (fun j _ hj => hunlink j hj)
        (by rw [hphase]; rfl) (by rw [hphase]; nofun) (.inr ⟨.inl ⟨_, rfl⟩, rfl⟩) s.index
      obtain ⟨f, hf, hfst⟩ := Option.map_eq_some_iff.mp (h.holds j hj ho)
      have := hmaker f hf
      rw [hfst] at this
      exact this hj
  | acquire again =>
    simp only [hphase] at hs hquiet
    by_cases hlock : s.lock = none
    · rw [if_pos hlock] at hs
      cases hs
      obtain ⟨hfree, howner, hunlink⟩ := h.of_free fun t hm => by simp [State.maker, hlock] at hm
      exact h.swapLock hi (fun j _ hj => hfree j hj) howner (fun j _ hj => hunlink j hj)
        (by rw [hphase]; rfl) (by rw [hphase]; nofun) (.inl ⟨_, rfl, rfl⟩) s.index
    · rw [if_neg hlock] at hs
      cases hs
      refine hquiet ?_ rfl rfl
      cases again
      · exact .inr (.inl rfl)
      · exact .inl rfl
  | recover =>
    simp only [hphase] at hs hquiet
    split at hs
    · next t howner =>
      cases hs
      cases ok with
      | true =>
        refine h.move hi (by rw [hphase]; rfl) (by rw [hphase]; nofun) (by rw [hphase]; nofun)
          nofun (by simp) (fun t' ht' => ?_) nofun nofun nofun nofun
        cases ht'
        exact (h.owner t howner).2
      | false => exact hquiet (.inl rfl) rfl rfl
    · cases hs
      exact hquiet (.inl rfl) rfl rfl
  | judge t =>
    simp only [hphase] at hs hquiet
    by_cases hgone : s.Gone proc i t
    · rw [if_pos hgone] at hs
      cases hs
      exact h.judge hi hphase hgone (hjudge t hphase hgone)
    · rw [if_neg hgone] at hs
      cases hs
      exact hquiet (.inl rfl) rfl rfl
  | claim t =>
    simp only [hphase] at hs hquiet
    split_ifs at hs with hok
    · cases hs
      obtain ⟨t', ht'⟩ := Option.ne_none_iff_exists'.mp hok.2
      exact h.claim hphase (hclaim t hphase t' ht' ▸ ht')
    · cases hs
      exact hquiet (.inl rfl) rfl rfl
  | unlinkLock t =>
    simp only [hphase] at hs hquiet
    split_ifs at hs
    · cases hs
      exact h.swapLock hi (fun j _ hj => h.not_owns_of_unlinking hi hphase hj)
        (h.unlinking i t hi hphase).1
        (fun j hne hj t' hu => hne (h.unique j i t' t hj hi hu hphase)) (by rw [hphase]; rfl)
        (by rw [hphase]; nofun) (.inr ⟨.inl ⟨_, rfl⟩, rfl⟩) s.index
    · cases hs
      exact hquiet (.inl rfl) rfl rfl
  | busy => simp [hphase] at hs
  | opened =>
    simp only [hphase, Option.some.injEq] at hs
    subst hs
    exact h.goTo hi (by rw [hphase]; rfl) (by rw [hphase]; nofun) (by rw [hphase]; nofun)
      (fun _ => rfl) (by simp) nofun nofun nofun nofun nofun
  | registered =>
    have htoken := h.token i hi hphase
    simp only [hphase] at hs
    split_ifs at hs
    · cases hs
      have hmoved : Inv proc build (s.goTo i .claimed) := by
        refine h.move hi ?_ (by rw [hphase]; nofun) (by rw [hphase]; nofun) nofun (by simp) nofun
          nofun nofun nofun nofun
        rw [hphase, htoken]
        rfl
      have hat : (s.goTo i .claimed).phase i = .claimed := by rw [State.phase_goTo, if_pos rfl]
      refine hmoved.makeOwner hi ?_ (by rw [hat]; rfl) (by rw [hat]; rfl)
      rw [State.Owns, hat]
      exact htoken
    · cases hs
      refine h.move hi ?_ (by rw [hphase]; nofun) (by rw [hphase]; nofun) nofun (by simp) nofun
        nofun nofun nofun nofun
      rw [hphase, htoken]
      rfl
  | claimed =>
    simp only [hphase, Option.some.injEq] at hs
    subst hs
    cases ok with
    | true =>
      refine h.move hi (by rw [hphase]; rfl) (fun _ => rfl) (fun _ => .inl rfl) nofun (by simp)
        nofun nofun nofun (fun v hv => ?_) nofun
      exact (Phase.building.inj hv).symm
    | false =>
      exact h.move hi (by rw [hphase]; rfl) (fun _ => rfl) (fun _ => .inl rfl) nofun (by simp)
        nofun nofun nofun nofun nofun
  | building v =>
    simp only [hphase] at hs
    split_ifs at hs
    · cases hs
      have hbefore : (s.phase i).owns (s.token i) = s.token i := by rw [hphase]; rfl
      refine (h.fill hphase).move hi hbefore.symm (fun _ => rfl) (fun _ => .inl rfl) nofun
        (by simp) nofun nofun nofun nofun fun _ ho => ?_
      obtain ⟨f, hf, hfst⟩ := Option.map_eq_some_iff.mp (h.holds i hi ho)
      change s.lock.map _ = _
      rw [hf, Option.map_some, if_pos hfst, hfst, h.read i v hi ho hphase]
      rfl
    · cases hs
      exact h.move hi (by rw [hphase]; rfl) (fun _ => rfl) (fun _ => .inl rfl) nofun (by simp)
        nofun nofun nofun nofun nofun
  | built =>
    rw [hphase] at hready
    simp only [hphase, Option.some.injEq] at hs
    subst hs
    split_ifs
    · exact h.move hi (by rw [hphase]; rfl) (fun _ => rfl) (fun _ => .inl rfl) nofun (by simp)
        nofun nofun nofun nofun nofun
    · exact h.move hi (by rw [hphase]; rfl) (fun _ => rfl) (fun _ => .inl rfl) nofun (by simp)
        nofun nofun nofun nofun fun _ => hready rfl
  | prepared =>
    rw [hphase] at hready
    simp only [hphase, Option.some.injEq] at hs
    subst hs
    split_ifs with hpub
    · refine h.move hi ?_ (fun _ => rfl) (fun _ => .inr hpub.2) nofun (by simp) nofun nofun nofun
        nofun fun _ => hready rfl
      rw [hphase, hpub.2]
      rfl
    · exact h.move hi (by rw [hphase]; rfl) (fun _ => rfl) (fun _ => .inl rfl) nofun (by simp)
        nofun nofun nofun nofun nofun
  | publishPop =>
    rw [hphase] at hready
    simp only [hphase, Option.some.injEq] at hs
    subst hs
    exact h.goTo hi (by rw [hphase]; rfl) (fun _ => rfl) (by rw [hphase]; nofun) nofun (by simp)
      nofun nofun nofun nofun fun _ => hready rfl
  | publishOwner =>
    rw [hphase] at hready
    simp only [hphase, Option.some.injEq] at hs
    subst hs
    refine h.dropOwner.move hi ?_ (fun _ => rfl) ?_ nofun (fun _ => rfl) nofun nofun nofun nofun
      fun _ => hready rfl
    · change _ = (s.phase i).owns _
      rw [hphase]
      rfl
    · change (s.phase i).between = true → _
      rw [hphase]
      nofun
  | publishRename =>
    have howns : s.Owns i := by rw [State.Owns, hphase]; rfl
    simp only [hphase] at hs
    split at hs
    · next f hf =>
      cases hs
      obtain ⟨hothers, hunlink⟩ := h.alone hi howns
      exact h.swapLock hi hothers (h.released i hi (.inl hphase)) (fun j _ hj => hunlink j hj)
        (by rw [hphase]; rfl) (fun _ => rfl) (.inr ⟨.inr rfl, rfl⟩) f.2
    · cases hs
      exact h.move hi (by rw [hphase]; rfl) (fun _ => rfl) (by rw [hphase]; nofun) nofun (by simp)
        nofun nofun nofun nofun nofun
  | abort =>
    simp only [hphase, Option.some.injEq] at hs
    subst hs
    split_ifs with htoken
    · refine h.move hi ?_ (fun _ => rfl) (fun _ => .inr htoken) nofun (by simp) nofun nofun nofun
        nofun nofun
      rw [hphase, htoken]
      rfl
    · refine h.move hi ?_ (fun _ => rfl) (fun _ => .inl rfl) nofun (by simp) nofun nofun nofun
        nofun nofun
      rw [hphase, Bool.eq_false_iff.mpr htoken]
      rfl
  | abortPop =>
    simp only [hphase, Option.some.injEq] at hs
    subst hs
    exact h.goTo hi (by rw [hphase]; rfl) (fun _ => rfl) (by rw [hphase]; nofun) nofun (by simp)
      nofun nofun nofun nofun nofun
  | abortOwner =>
    simp only [hphase, Option.some.injEq] at hs
    subst hs
    refine h.dropOwner.move hi ?_ (fun _ => rfl) ?_ nofun (fun _ => rfl) nofun nofun nofun nofun
      nofun
    · change _ = (s.phase i).owns _
      rw [hphase]
      rfl
    · change (s.phase i).between = true → _
      rw [hphase]
      nofun
  | abortLock =>
    have howns : s.Owns i := by rw [State.Owns, hphase]; rfl
    simp only [hphase, Option.some.injEq] at hs
    subst hs
    obtain ⟨hothers, hunlink⟩ := h.alone hi howns
    exact h.swapLock hi hothers (h.released i hi (.inr hphase)) (fun j _ hj => hunlink j hj)
      (by rw [hphase]; rfl) (fun _ => rfl) (.inr ⟨.inr rfl, rfl⟩) s.index
  | ended => simp [hphase] at hs

/-- Every steady step keeps the invariant. -/
theorem Inv.step (h : Inv proc build s) {a : Act ι π γ α} (hsteady : Steady proc s a)
    (hs : IndexLock.step proc empty build s a = some s') : Inv proc build s' := by
  cases a with
  | call i ok =>
    simp only [IndexLock.step] at hs
    split_ifs at hs with hi
    exact h.callStep hi hsteady hs
  | abandon i =>
    cases hs
    exact h.others (fun j => (update_true s.abandoned i j).1) (fun _ => id) fun _ => id
  | die i =>
    cases hs
    exact h.others (fun _ => id) (fun j => (update_true s.dead i j).2) fun _ => id
  | kill p =>
    cases hs
    exact h.others (fun _ => id) (fun _ => id) fun q => (update_true s.killed p q).2
  | gitTake g =>
    simp only [IndexLock.step] at hs
    split_ifs at hs with hfree
    cases hs
    obtain ⟨hothers, howner, hunlink⟩ := h.of_free fun t hm => by
      simp [State.maker, hfree.1] at hm
    exact h.setLock hothers howner hunlink (fun t => by simp) s.index
  | gitRelease g v =>
    simp only [IndexLock.step] at hs
    split_ifs at hs with hgit
    cases hs
    obtain ⟨hothers, howner, hunlink⟩ := h.of_free fun t hm => by
      simp [State.maker, hgit.1] at hm
    exact h.setLock hothers howner hunlink (fun t => by simp) (v.getD s.index)
  | gitDie g =>
    cases hs
    exact h.others (fun _ => id) (fun _ => id) fun _ => id

/-- **The lock excludes.** In every run in which no name changes its file between a look and a step,
at most one call has the lock and can publish it, no step of a call removes a lock that somebody
would miss, and every index that is published was built by its own call from the index that is
there. -/
theorem indexLock_exclusive (proc : ι → π) (empty : α) (build : ι → α → α) (index : α)
    {as : List (Act ι π γ α)}
    (hsteady : Along (IndexLock.step proc empty build) (Steady proc) (init index) as) :
    Always (IndexLock.step proc empty build) (Exclusive proc) (init index) as ∧
      Along (IndexLock.step proc empty build) (StepSafe proc build) (init index) as :=
  ⟨Always.of_condition (fun _ _ _ hc h hs => h.step hc hs) (fun _ h => h.exclusive) hsteady
      (inv_init index),
    Along.of_condition (fun _ _ _ hc h hs => h.step hc hs) (fun _ _ hc h => h.stepSafe hc) hsteady
      (inv_init index)⟩

end

/-! ### Stale looks -/

/-- Four calls: the first in a process of its own, the others in the threads of another one. -/
def procs : Fin 4 → Fin 2 := ![0, 1, 1, 1]

/-- The bytes that a call builds: the index with the call behind it. -/
def append (i : Fin 4) (index : List (Fin 4)) : List (Fin 4) := index ++ [i]

def calls (n : Nat) (i : Fin 4) : List (Act (Fin 4) (Fin 2) Unit (List (Fin 4))) :=
  List.replicate n (.call i true)

/-- A writer is killed beside its lock, the second call recovers it and publishes, a git program
takes the lock and gives it back, and the third call publishes. -/
def steadyRun : List (Act (Fin 4) (Fin 2) Unit (List (Fin 4))) :=
  calls 6 0 ++ [.kill 0] ++ calls 16 1 ++ [.gitTake (), .call 2 true, .gitRelease () none] ++
    calls 11 3

/-- Two calls one after the other, in a run that is steady. -/
theorem indexLock_exclusive_steady :
    (run (step procs [] append) (init []) steadyRun).map State.index = some [1, 3] ∧
      Always (step procs [] append) (Exclusive procs) (init []) steadyRun ∧
      Along (step procs [] append) (StepSafe procs append) (init []) steadyRun :=
  ⟨by decide, indexLock_exclusive procs [] append [] (by decide)⟩

/-- Two recoveries have judged the killed writer; the one takes the lock anew, the other takes the
owner file of the first, unlinks its lock and makes its own. -/
def staleRun : List (Act (Fin 4) (Fin 2) Unit (List (Fin 4))) :=
  calls 6 0 ++ [.kill 0] ++ calls 4 1 ++ calls 4 2 ++ calls 8 1 ++ calls 3 2

/-- Both calls have taken a lock and can publish. -/
theorem indexLock_stale :
    ∃ s, run (step procs [] append) (init []) staleRun = some s ∧ s.CanPublish procs 1 ∧
      s.CanPublish procs 2 := by
  obtain ⟨s, hs⟩ : ∃ s, run (step procs [] append) (init []) staleRun = some s :=
    Option.isSome_iff_exists.mp (by decide)
  have hend : (run (step procs [] append) (init []) staleRun).all fun s =>
      s.CanPublish procs 1 ∧ s.CanPublish procs 2 := by decide
  rw [hs, Option.all_some, decide_eq_true_eq] at hend
  exact ⟨s, hs, hend⟩

end IndexLock

end Git

end CoordinatorCore
