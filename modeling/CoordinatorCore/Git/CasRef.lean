import CoordinatorCore.Machine.Run
import Mathlib.Data.Fin.VecNotation
import Mathlib.Data.Fintype.Basic
import Mathlib.Data.List.Perm.Basic

/-!
# Swapping a ref

`_cas_ref` of `git/git_objects.py`, by any number of calls on one ref. The lock of the ref is a
file: it is made exclusively, it goes away by being renamed onto the ref, and what is left of it is
unlinked at the end of the call, by name, when a file of that name is there. Each of these is a step
of its own. Every call of a run has an index of its own, and a file remembers which call made it.

A call that has won no longer has a lock to clean up, but it looks for one; when another call has
made its lock in between, that one is unlinked. As long as this does not happen, and no read of the
ref fails, the calls that win are the swaps of an atomic register, in the order of their renames
(`casRef_linearizable`).
-/

namespace CoordinatorCore

open Machine

namespace Git

namespace CasRef

/-! ### The register -/

/-- `expected` and `new`. -/
structure Swap (α : Type*) where
  expected : Option α
  new : α
deriving DecidableEq

/-- A swap of the atomic register. -/
def swap {α : Type*} [DecidableEq α] (v : Option α) (c : Swap α) : Option (Option α) :=
  if v = c.expected then some (some c.new) else none

/-! ### The calls -/

/-- Where a call stands: what it does next. `written n` and `waiting n` are in front of the attempt
`n` to rename; the flag says whether the call returns `True`. -/
inductive Phase
  | start
  | opened
  | checked
  | written (n : Nat)
  | waiting (n : Nat)
  | cleanup (won : Bool)
  | unlinking (won : Bool)
  | returned (won : Bool)
deriving DecidableEq

/-- The call returns `True`, or has. -/
def Phase.won : Phase → Bool
  | .cleanup w | .unlinking w | .returned w => w
  | _ => false

/-- The call has made a lock that it has not renamed. -/
def Phase.holds : Phase → Bool
  | .opened | .checked | .written _ | .waiting _ | .cleanup false | .unlinking false => true
  | _ => false

/-- The ref file and the lock file, where the calls stand, and the renames so far. An empty file
reads as none. -/
structure State (ι α : Type*) where
  ref : Option α
  lock : Option (ι × Option α)
  phase : ι → Phase
  renames : List ι

/-- A step of a call. A read may fail, and reads as none then. -/
inductive Act (ι : Type*)
  | open_ (i : ι)
  | refuse (i : ι)
  | check (i : ι) (readable : Bool)
  | fail (i : ι)
  | write (i : ι)
  | rename (i : ι)
  | blocked (i : ι)
  | recheck (i : ι) (readable : Bool)
  | look (i : ι)
  | unlink (i : ι)
  | keep (i : ι)
deriving DecidableEq

section

variable {ι α : Type*} [DecidableEq ι] [DecidableEq α] (calls : ι → Swap α) (packed : Option α)

/-- `len(_REPLACE_RETRY_DELAYS_S)`. -/
def retries : Nat := 6

/-- The call goes on. -/
def State.goTo (s : State ι α) (i : ι) (p : Phase) : State ι α :=
  { s with phase := Function.update s.phase i p }

/-- `_read_ref_raw`, or else `read_packed_ref`. -/
def State.value (s : State ι α) : Option α := s.ref.orElse fun _ => packed

/-- What a read of the ref gives. -/
def State.read (s : State ι α) (readable : Bool) : Option α :=
  if readable then s.value packed else packed

/-- Where a call goes whose attempt to rename has failed. -/
def nextAttempt (n : Nat) : Phase := if n < retries then .waiting (n + 1) else .cleanup false

/-- One step of `_cas_ref`. -/
def step (s : State ι α) : Act ι → Option (State ι α)
  | .open_ i =>
    if s.phase i = .start ∧ s.lock = none then
      some ({ s with lock := some (i, none) }.goTo i .opened)
    else none
  | .refuse i => if s.phase i = .start then some (s.goTo i (.returned false)) else none
  | .check i readable =>
    if s.phase i = .opened then
      some (s.goTo i (if s.read packed readable = (calls i).expected then .checked
        else .cleanup false))
    else none
  -- a read, the write or the reflog raises
  | .fail i =>
    if s.phase i = .opened ∨ s.phase i = .checked ∨ s.phase i = .written 0 then
      some (s.goTo i (.cleanup false))
    else none
  | .write i =>
    if s.phase i = .checked then
      some ({ s with lock := some ((s.lock.map Prod.fst).getD i, some (calls i).new) }.goTo i
        (.written 0))
    else none
  | .rename i =>
    match s.phase i with
    | .written _ =>
      match s.lock with
      | some file =>
        some ({ s with ref := file.2, lock := none, renames := s.renames ++ [i] }.goTo i
          (.cleanup true))
      | none => some (s.goTo i (.cleanup false))
    | _ => none
  -- `PermissionError`
  | .blocked i =>
    match s.phase i with
    | .written n => some (s.goTo i (nextAttempt n))
    | _ => none
  | .recheck i readable =>
    match s.phase i with
    | .waiting n =>
      some (s.goTo i (if s.read packed readable = (calls i).expected then .written n
        else .cleanup false))
    | _ => none
  | .look i =>
    match s.phase i with
    | .cleanup w => some (s.goTo i (if s.lock.isSome then .unlinking w else .returned w))
    | _ => none
  | .unlink i =>
    match s.phase i with
    | .unlinking w => some ({ s with lock := none }.goTo i (.returned w))
    | _ => none
  -- the unlink fails
  | .keep i =>
    match s.phase i with
    | .unlinking w => some (s.goTo i (.returned w))
    | _ => none

/-- A ref with this file, and no call yet. -/
def init (ref : Option α) : State ι α := ⟨ref, none, fun _ => .start, []⟩

/-! ### What should hold -/

/-- The calls that win are, in the order of their renames, a run of the atomic register from the
initial value to the value of the ref. -/
structure Linear (ref : Option α) (s : State ι α) : Prop where
  nodup : s.renames.Nodup
  won : ∀ i, i ∈ s.renames ↔ (s.phase i).won = true
  chain : run swap (ref.orElse fun _ => packed) (s.renames.map calls) = some (s.value packed)

/-- What a call unlinks is a file that it made itself. -/
def RemovesOwn (s : State ι α) : Act ι → Prop
  | .unlink i => ∀ file ∈ s.lock, file.1 = i
  | _ => True

/-- No read fails, and a call that has won finds no lock when it looks for one. -/
def Unhindered (s : State ι α) : Act ι → Prop
  | .check _ readable | .recheck _ readable => readable = true
  | .look i => s.phase i = .cleanup true → s.lock = none
  | _ => True

instance (s : State ι α) : DecidablePred (Unhindered s)
  | .check _ readable | .recheck _ readable => inferInstanceAs (Decidable (readable = true))
  | .look i => inferInstanceAs (Decidable (s.phase i = .cleanup true → s.lock = none))
  | .open_ _ | .refuse _ | .fail _ | .write _ | .rename _ | .blocked _ | .unlink _ | .keep _ =>
    inferInstanceAs (Decidable True)

end

/-! ### The invariant -/

/-- The call has seen the value that it expects. -/
def Phase.sure : Phase → Bool
  | .checked | .written _ | .waiting _ => true
  | _ => false

/-- The call has written its lock. -/
def Phase.ready : Phase → Bool
  | .written _ | .waiting _ => true
  | _ => false

section

variable {ι α : Type*} [DecidableEq ι] {packed : Option α} {s : State ι α} {i j : ι}

@[simp] theorem State.goTo_ref (i : ι) (p : Phase) : (s.goTo i p).ref = s.ref := rfl

@[simp] theorem State.goTo_lock (i : ι) (p : Phase) : (s.goTo i p).lock = s.lock := rfl

@[simp] theorem State.goTo_renames (i : ι) (p : Phase) : (s.goTo i p).renames = s.renames := rfl

@[simp] theorem State.goTo_self (i : ι) (p : Phase) : (s.goTo i p).phase i = p :=
  Function.update_self ..

/-- The other calls stay where they are. -/
theorem State.goTo_of_ne (h : j ≠ i) (p : Phase) : (s.goTo i p).phase j = s.phase j :=
  Function.update_of_ne h ..

@[simp] theorem State.value_goTo (i : ι) (p : Phase) :
    (s.goTo i p).value packed = s.value packed := rfl

end

section

variable {ι α : Type*} [DecidableEq α] {calls : ι → Swap α} {packed ref : Option α}
  {s s' : State ι α} {i j : ι}

/-- A call that holds the lock is the one that made it; from its look at the ref to its rename the
value is the one it expects, and what it wrote stands in the lock. -/
structure Inv (calls : ι → Swap α) (packed ref : Option α) (s : State ι α) : Prop where
  linear : Linear calls packed ref s
  holder : ∀ i, (s.phase i).holds = true → ∃ c, s.lock = some (i, c)
  sure : ∀ i, (s.phase i).sure = true → s.value packed = (calls i).expected
  ready : ∀ i, (s.phase i).ready = true → s.lock = some (i, some (calls i).new)
  lost : ∀ i, s.phase i ≠ .unlinking true

/-- A call that is sure of the value holds the lock. -/
theorem Phase.holds_of_sure {p : Phase} (h : p.sure = true) : p.holds = true := by
  cases p <;> first | rfl | cases h

/-- A call that is ready to rename is sure of the value. -/
theorem Phase.sure_of_ready {p : Phase} (h : p.ready = true) : p.sure = true := by
  cases p <;> first | rfl | cases h

/-- A call that holds the lock has not won yet. -/
theorem Phase.not_won_of_holds {p : Phase} (h : p.holds = true) : p.won = false := by
  cases p with
  | cleanup w | unlinking w =>
    cases w
    · rfl
    · cases h
  | returned w => cases h
  | _ => rfl

/-- There is one holder at most. -/
theorem Inv.eq_of_holds (h : Inv calls packed ref s) (hi : (s.phase i).holds = true)
    (hj : (s.phase j).holds = true) : j = i := by
  obtain ⟨c, hc⟩ := h.holder i hi
  obtain ⟨d, hd⟩ := h.holder j hj
  rw [hc] at hd
  exact (congrArg Prod.fst (Option.some.inj hd)).symm

/-- Beside the holder nobody holds the lock. -/
theorem Inv.alone (h : Inv calls packed ref s) (hi : (s.phase i).holds = true) :
    ∀ j ≠ i, (s.phase j).holds = false := fun _ hne =>
  Bool.eq_false_iff.mpr fun hj => hne (h.eq_of_holds hi hj)

/-- The invariant holds before any call. -/
theorem inv_init (ref : Option α) : Inv calls packed ref (init ref : State ι α) where
  linear := ⟨List.nodup_nil, fun i => by simp [init, Phase.won], rfl⟩
  holder := fun i hi => by cases hi
  sure := fun i hi => by cases hi
  ready := fun i hi => by cases hi
  lost := fun i hi => by cases hi

variable [DecidableEq ι]

/-- A call goes on without touching a file, to a place that asks for no more than it has. -/
theorem Inv.goTo (h : Inv calls packed ref s) {p : Phase} (hwon : p.won = (s.phase i).won)
    (hholds : p.holds = true → (s.phase i).holds = true)
    (hsure : p.sure = true → s.value packed = (calls i).expected)
    (hready : p.ready = true → (s.phase i).ready = true) (hlost : p ≠ .unlinking true) :
    Inv calls packed ref (s.goTo i p) := by
  refine ⟨⟨h.linear.nodup, fun j => ?_, h.linear.chain⟩, fun j hj => ?_, fun j hj => ?_,
    fun j hj => ?_, fun j hj => ?_⟩ <;> rcases eq_or_ne j i with rfl | hne
  · rw [State.goTo_self, hwon]
    exact h.linear.won j
  · rw [State.goTo_of_ne hne]
    exact h.linear.won j
  · rw [State.goTo_self] at hj
    exact h.holder j (hholds hj)
  · rw [State.goTo_of_ne hne] at hj
    exact h.holder j hj
  · rw [State.goTo_self] at hj
    exact hsure hj
  · rw [State.goTo_of_ne hne] at hj
    exact h.sure j hj
  · rw [State.goTo_self] at hj
    exact h.ready j (hready hj)
  · rw [State.goTo_of_ne hne] at hj
    exact h.ready j hj
  · rw [State.goTo_self] at hj
    exact hlost hj
  · rw [State.goTo_of_ne hne] at hj
    exact h.lost j hj

/-- The holder changes its lock, or the free lock is taken: nobody else holds one. -/
theorem Inv.setLock (h : Inv calls packed ref s) {p : Phase} {lock : Option (ι × Option α)}
    (halone : ∀ j ≠ i, (s.phase j).holds = false) (hwon : p.won = (s.phase i).won)
    (hholds : p.holds = true → ∃ c, lock = some (i, c))
    (hsure : p.sure = true → (s.phase i).sure = true)
    (hready : p.ready = true → lock = some (i, some (calls i).new)) (hlost : p ≠ .unlinking true) :
    Inv calls packed ref ({ s with lock := lock }.goTo i p) := by
  have hother : ∀ j ≠ i, ∀ q : Phase → Bool, (∀ p, q p = true → p.holds = true) →
      q (s.phase j) = false := fun j hne q hq =>
    Bool.eq_false_iff.mpr fun hj => by
      have := hq _ hj
      rw [halone j hne] at this
      cases this
  refine ⟨⟨h.linear.nodup, fun j => ?_, h.linear.chain⟩, fun j hj => ?_, fun j hj => ?_,
    fun j hj => ?_, fun j hj => ?_⟩ <;> rcases eq_or_ne j i with rfl | hne
  · rw [State.goTo_self, hwon]
    exact h.linear.won j
  · rw [State.goTo_of_ne hne]
    exact h.linear.won j
  · rw [State.goTo_self] at hj
    exact hholds hj
  · rw [State.goTo_of_ne hne, halone j hne] at hj
    cases hj
  · rw [State.goTo_self] at hj
    exact h.sure j (hsure hj)
  · rw [State.goTo_of_ne hne, hother j hne _ fun _ => Phase.holds_of_sure] at hj
    cases hj
  · rw [State.goTo_self] at hj
    exact hready hj
  · rw [State.goTo_of_ne hne,
      hother j hne _ fun _ hr => Phase.holds_of_sure (Phase.sure_of_ready hr)] at hj
    cases hj
  · rw [State.goTo_self] at hj
    exact hlost hj
  · rw [State.goTo_of_ne hne] at hj
    exact h.lost j hj

/-- A rename of the holder is a swap of the register. -/
theorem Inv.rename (h : Inv calls packed ref s) {n : Nat} (hi : s.phase i = .written n) :
    Inv calls packed ref ((⟨some (calls i).new, none, s.phase, s.renames ++ [i]⟩ :
      State ι α).goTo i (.cleanup true)) := by
  have hready : (s.phase i).ready = true := by rw [hi]; rfl
  have hsure := Phase.sure_of_ready hready
  -- nobody else holds the lock
  have halone := h.alone (Phase.holds_of_sure hsure)
  have hnew : i ∉ s.renames := by
    rw [h.linear.won, hi]
    simp [Phase.won]
  refine ⟨⟨?_, fun j => ?_, ?_⟩, fun j hj => ?_, fun j hj => ?_, fun j hj => ?_, fun j hj => ?_⟩
  · exact List.nodup_append.mpr ⟨h.linear.nodup, List.nodup_singleton i, fun a ha b hb => by
      rw [List.mem_singleton.mp hb]
      rintro rfl
      exact hnew ha⟩
  · rcases eq_or_ne j i with rfl | hne
    · simp [Phase.won]
    · rw [State.goTo_of_ne hne]
      simpa [hne] using h.linear.won j
  · rw [State.goTo_renames, List.map_append, run_append_eq_some]
    refine ⟨_, h.linear.chain, ?_⟩
    rw [List.map_singleton, run_cons_eq_some]
    exact ⟨_, if_pos (h.sure i hsure), rfl⟩
  all_goals rcases eq_or_ne j i with rfl | hne
  · rw [State.goTo_self] at hj
    cases hj
  · rw [State.goTo_of_ne hne, halone j hne] at hj
    cases hj
  · rw [State.goTo_self] at hj
    cases hj
  · rw [State.goTo_of_ne hne] at hj
    have := Phase.holds_of_sure hj
    rw [halone j hne] at this
    cases this
  · rw [State.goTo_self] at hj
    cases hj
  · rw [State.goTo_of_ne hne] at hj
    have := Phase.holds_of_sure (Phase.sure_of_ready hj)
    rw [halone j hne] at this
    cases this
  · rw [State.goTo_self] at hj
    cases hj
  · rw [State.goTo_of_ne hne] at hj
    exact h.lost j hj

/-- What a step preserves. -/
theorem Inv.step {a : Act ι} (h : Inv calls packed ref s) (hC : Unhindered s a)
    (hs : step calls packed s a = some s') : Inv calls packed ref s' := by
  cases a with
  | open_ i =>
    obtain ⟨⟨hi, hfree⟩, rfl⟩ : _ ∧ _ = s' := by simpa [CasRef.step] using hs
    refine h.setLock (fun j _ => Bool.eq_false_iff.mpr fun hj => ?_) (by rw [hi]; rfl)
      (fun _ => ⟨_, rfl⟩) (fun hp => by cases hp) (fun hp => by cases hp) nofun
    obtain ⟨c, hc⟩ := h.holder j hj
    rw [hfree] at hc
    cases hc
  | refuse i =>
    obtain ⟨hi, rfl⟩ : _ ∧ _ = s' := by simpa [CasRef.step] using hs
    exact h.goTo (by rw [hi]; rfl) nofun nofun nofun nofun
  | check i readable =>
    obtain rfl : readable = true := hC
    obtain ⟨hi, rfl⟩ : _ ∧ _ = s' := by simpa [CasRef.step] using hs
    have hread : s.read packed true = s.value packed := rfl
    rw [hread]
    split_ifs with hval
    · exact h.goTo (by rw [hi]; rfl) (fun _ => by rw [hi]; rfl) (fun _ => hval) nofun nofun
    · exact h.goTo (by rw [hi]; rfl) (fun _ => by rw [hi]; rfl) nofun nofun nofun
  | fail i =>
    obtain ⟨hi, rfl⟩ : _ ∧ _ = s' := by simpa [CasRef.step] using hs
    have hholds : (s.phase i).holds = true := by rcases hi with hi | hi | hi <;> rw [hi] <;> rfl
    exact h.goTo (Phase.not_won_of_holds hholds).symm (fun _ => hholds) nofun nofun nofun
  | write i =>
    obtain ⟨hi, rfl⟩ : _ ∧ _ = s' := by simpa [CasRef.step] using hs
    have hholds : (s.phase i).holds = true := by rw [hi]; rfl
    obtain ⟨c, hc⟩ := h.holder i hholds
    rw [hc]
    exact h.setLock (h.alone hholds) (by rw [hi]; rfl) (fun _ => ⟨_, rfl⟩)
      (fun _ => by rw [hi]; rfl) (fun _ => rfl) nofun
  | rename i =>
    simp only [CasRef.step] at hs
    split at hs
    · next n hi =>
      have hready : (s.phase i).ready = true := by rw [hi]; rfl
      rw [h.ready i hready] at hs
      cases hs
      exact h.rename hi
    · cases hs
  | blocked i =>
    simp only [CasRef.step] at hs
    split at hs
    · next n hi =>
      cases hs
      have hready : (s.phase i).ready = true := by rw [hi]; rfl
      have hsure := Phase.sure_of_ready hready
      have hholds := Phase.holds_of_sure hsure
      rw [nextAttempt]
      split_ifs
      · exact h.goTo (by rw [hi]; rfl) (fun _ => hholds) (fun _ => h.sure i hsure)
          (fun _ => hready) nofun
      · exact h.goTo (by rw [hi]; rfl) (fun _ => hholds) nofun nofun nofun
    · cases hs
  | recheck i readable =>
    obtain rfl : readable = true := hC
    simp only [CasRef.step] at hs
    split at hs
    · next n hi =>
      cases hs
      have hready : (s.phase i).ready = true := by rw [hi]; rfl
      have hholds := Phase.holds_of_sure (Phase.sure_of_ready hready)
      have hread : s.read packed true = s.value packed := rfl
      rw [hread]
      split_ifs with hval
      · exact h.goTo (by rw [hi]; rfl) (fun _ => hholds) (fun _ => hval) (fun _ => hready) nofun
      · exact h.goTo (by rw [hi]; rfl) (fun _ => hholds) nofun nofun nofun
    · cases hs
  | look i =>
    simp only [CasRef.step] at hs
    split at hs
    · next w hi =>
      cases hs
      cases w with
      | true =>
        rw [hC hi]
        exact h.goTo (by rw [hi]; rfl) nofun nofun nofun nofun
      | false =>
        split_ifs
        · exact h.goTo (by rw [hi]; rfl) (fun _ => by rw [hi]; rfl) nofun nofun nofun
        · exact h.goTo (by rw [hi]; rfl) nofun nofun nofun nofun
    · cases hs
  | unlink i =>
    simp only [CasRef.step] at hs
    split at hs
    · next w hi =>
      cases hs
      obtain rfl : w = false := by
        cases w with
        | true => exact absurd hi (h.lost i)
        | false => rfl
      exact h.setLock (h.alone (by rw [hi]; rfl)) (by rw [hi]; rfl) nofun nofun nofun nofun
    · cases hs
  | keep i =>
    simp only [CasRef.step] at hs
    split at hs
    · next w hi =>
      cases hs
      exact h.goTo (by rw [hi]; rfl) nofun nofun nofun nofun
    · cases hs

/-- A call in the invariant unlinks its own lock. -/
theorem Inv.removesOwn (h : Inv calls packed ref s) {a : Act ι}
    (hs : (CasRef.step calls packed s a).isSome = true) : RemovesOwn s a := by
  cases a with
  | unlink i =>
    intro file hfile
    simp only [CasRef.step] at hs
    split at hs
    · next w hi =>
      obtain rfl : w = false := by
        cases w with
        | true => exact absurd hi (h.lost i)
        | false => rfl
      obtain ⟨c, hc⟩ := h.holder i (by rw [hi]; rfl)
      rw [hc] at hfile
      rw [← Option.mem_some_iff.mp hfile]
    · cases hs
  | _ => trivial

end

/-! ### Runs -/

section

variable {ι α : Type*} [DecidableEq ι] [DecidableEq α]

/-- **The swaps of a ref.** In a run of any number of calls in which no call that has won finds a
lock to clean up, and no read of the ref fails, the calls that win are the swaps of an atomic
register in the order of their renames, and no call removes the lock of another. -/
theorem casRef_linearizable (calls : ι → Swap α) (packed ref : Option α) (as : List (Act ι))
    (hC : Along (step calls packed) Unhindered (init ref) as) :
    (∀ s, run (step calls packed) (init ref) as = some s → Linear calls packed ref s) ∧
      Along (step calls packed)
        (fun s a => (step calls packed s a).isSome = true → RemovesOwn s a) (init ref) as := by
  have hstep : ∀ s a s', Unhindered s a → Inv calls packed ref s →
      step calls packed s a = some s' → Inv calls packed ref s' := fun _ _ _ hC h => h.step hC
  exact ⟨fun s hrun => (run_invariant_along hstep hC (inv_init ref) hrun).linear,
    Along.of_invariant hstep (fun _ _ h => h.removesOwn) hC (inv_init ref)⟩

end

/-- Three calls: from `0` to `1`, and two from `1`. -/
def threeCalls : Fin 3 → Swap Nat := ![⟨some 0, 1⟩, ⟨some 1, 2⟩, ⟨some 1, 3⟩]

/-- One call behind the other. -/
def serialRun : List (Act (Fin 3)) :=
  [.open_ 0, .check 0 true, .write 0, .blocked 0, .recheck 0 true, .rename 0, .look 0,
    .open_ 1, .refuse 2, .check 1 true, .write 1, .rename 1, .look 1]

/-- Three calls one after the other. -/
theorem casRef_linearizable_serial :
    ∃ s, run (step threeCalls none) (init (some 0)) serialRun = some s ∧
      Linear threeCalls none (some 0) s := by
  have hC : Along (step threeCalls none) Unhindered (init (some 0)) serialRun := by decide
  obtain ⟨s, hs⟩ : ∃ s, run (step threeCalls none) (init (some 0)) serialRun = some s :=
    Option.isSome_iff_exists.mp (by decide)
  exact ⟨s, hs, (casRef_linearizable threeCalls none (some 0) serialRun hC).1 s hs⟩

/-- The second call makes its lock between the rename of the first and its look for a lock. -/
def threeCallsRun : List (Act (Fin 3)) :=
  [.open_ 0, .check 0 true, .write 0, .rename 0, .open_ 1, .check 1 true, .look 0, .unlink 0,
    .open_ 2, .check 2 true, .write 1, .rename 1, .look 1, .write 2, .rename 2, .look 2]

/-- All three calls return `True`, but they are a run of the register in no order: the update of the
second is lost. -/
theorem casRef_loses_update :
    ∃ s, run (step threeCalls none) (init (some 0)) threeCallsRun = some s ∧
      (∀ i, s.phase i = .returned true) ∧
      ¬Along (step threeCalls none) RemovesOwn (init (some 0)) threeCallsRun ∧
      ¬∃ order : List (Fin 3), order.Nodup ∧ (∀ i, i ∈ order) ∧
        run swap (some 0) (order.map threeCalls) = some (s.value none) := by
  obtain ⟨s, hs⟩ : ∃ s, run (step threeCalls none) (init (some 0)) threeCallsRun = some s :=
    Option.isSome_iff_exists.mp (by decide)
  have hend : (run (step threeCalls none) (init (some 0)) threeCallsRun).all fun s =>
      decide (∀ i, s.phase i = .returned true) && decide (s.value none = some 3) := by decide
  rw [hs, Option.all_some, Bool.and_eq_true, decide_eq_true_eq, decide_eq_true_eq] at hend
  refine ⟨s, hs, hend.1, fun h => ?_, ?_⟩
  · -- behind seven steps the first call unlinks the lock of the second
    rw [← List.take_append_drop 7 threeCallsRun] at h
    obtain ⟨t, ht⟩ : ∃ t, run (step threeCalls none) (init (some 0)) (threeCallsRun.take 7) =
        some t := Option.isSome_iff_exists.mp (by decide)
    have hlock : (run (step threeCalls none) (init (some 0)) (threeCallsRun.take 7)).all fun t =>
        t.lock = some (1, none) := by decide
    rw [ht, Option.all_some, decide_eq_true_eq] at hlock
    exact absurd ((Along.of_append h ht).1 _ hlock) (by decide)
  · rintro ⟨order, hnodup, hall, hrun⟩
    rw [hend.2] at hrun
    have hperm : order.Perm [0, 1, 2] :=
      (List.perm_ext_iff_of_nodup hnodup (by decide)).mpr fun i =>
        ⟨fun _ => (by decide : ∀ i : Fin 3, i ∈ [0, 1, 2]) i, fun _ => hall i⟩
    obtain ⟨a, b, c, rfl⟩ := List.length_eq_three.mp hperm.length_eq
    revert a b c
    decide

end CasRef

end Git

end CoordinatorCore
