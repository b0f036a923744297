import CoordinatorCore.Machine.Run
import Mathlib.Data.List.Nodup
import Mathlib.Logic.Function.Basic

/-!
# A register behind an exclusive lock

The specification of every lock-protected update: parties `ι` acquire one exclusive lock, may
commit their effect on the register once while they hold it, and release it. The state carries
two ghost components, the order in which the lock was acquired and the set of parties that
committed.

The main result, `value_eq_replay`, says that in every reachable state the register holds what
the effects of the committed parties make of the initial value, applied one after the other in
the order of acquisition. An implementation inherits it by simulating this machine.
-/

namespace Machine.Serial

variable {ι V : Type*}

/-- The register, the holder of the lock, and the two ghost components. -/
structure State (ι V : Type*) where
  value : V
  holder : Option ι
  acquired : List ι
  committed : ι → Bool

/-- The actions of a party. -/
inductive Action (ι : Type*)
  | acquire (i : ι)
  | commit (i : ι)
  | release (i : ι)

/-- Nobody has acted. -/
def init (v : V) : State ι V := ⟨v, none, [], fun _ => false⟩

/-- The effects of the committed parties, applied to `v` in the given order. -/
def replay (effect : ι → V → V) (order : List ι) (committed : ι → Bool) (v : V) : V :=
  (order.filter committed).foldl (fun v i => effect i v) v

/-- What holds in every reachable state: the holder is the last acquirer, only acquirers commit,
and the register is the replay. -/
structure Inv (effect : ι → V → V) (v : V) (s : State ι V) : Prop where
  nodup : s.acquired.Nodup
  holder_last : ∀ i, s.holder = some i → ∃ l, s.acquired = l ++ [i]
  acquired_of_committed : ∀ i, s.committed i = true → i ∈ s.acquired
  value_eq : s.value = replay effect s.acquired s.committed v

theorem inv_init (effect : ι → V → V) (v : V) : Inv effect v (init v) :=
  ⟨List.nodup_nil, by simp [init], by simp [init], rfl⟩

variable [DecidableEq ι]

/-- One action. A party acquires at most once and commits at most once. -/
def step (effect : ι → V → V) (s : State ι V) : Action ι → Option (State ι V)
  | .acquire i =>
    if s.holder = none ∧ i ∉ s.acquired then
      some { s with holder := some i, acquired := s.acquired ++ [i] }
    else none
  | .commit i =>
    if s.holder = some i ∧ s.committed i = false then
      some { s with
        value := effect i s.value
        committed := Function.update s.committed i true }
    else none
  | .release i => if s.holder = some i then some { s with holder := none } else none

/-- A commit of the last acquirer extends the replay at its end. -/
private theorem replay_update (effect : ι → V → V) (v : V) {l : List ι} {i : ι}
    {committed : ι → Bool} (hi : i ∉ l) (hc : committed i = false) :
    replay effect (l ++ [i]) (Function.update committed i true) v =
      effect i (replay effect (l ++ [i]) committed v) := by
  have hl : l.filter (Function.update committed i true) = l.filter committed :=
    List.filter_congr fun j hj => Function.update_of_ne (ne_of_mem_of_not_mem hj hi) _ _
  simp [replay, hl, hc]

theorem inv_step {effect : ι → V → V} {v : V} {s s' : State ι V} {a : Action ι}
    (h : Inv effect v s) (hstep : step effect s a = some s') : Inv effect v s' := by
  cases a with
  | acquire i =>
    obtain ⟨⟨-, hi⟩, ⟨⟩⟩ := Option.ite_none_right_eq_some.mp hstep
    have hc : s.committed i = false :=
      Bool.eq_false_iff.mpr fun hc => hi (h.acquired_of_committed i hc)
    refine ⟨?_, ?_, ?_, ?_⟩
    · exact List.nodup_append.mpr ⟨h.nodup, List.nodup_singleton i, by
        rintro j hj k hk rfl
        exact hi (List.mem_singleton.mp hk ▸ hj)⟩
    · rintro j hj
      obtain rfl : i = j := by simpa using hj
      exact ⟨s.acquired, rfl⟩
    · exact fun j hj => List.mem_append_left _ (h.acquired_of_committed j hj)
    · rw [h.value_eq]
      simp [replay, hc]
  | commit i =>
    obtain ⟨⟨hh, hc⟩, ⟨⟩⟩ := Option.ite_none_right_eq_some.mp hstep
    obtain ⟨l, hl⟩ := h.holder_last i hh
    have hi : i ∉ l := by
      have := h.nodup
      rw [hl, List.nodup_append] at this
      exact fun hm => this.2.2 i hm i (by simp) rfl
    refine ⟨h.nodup, h.holder_last, fun j hj => ?_, ?_⟩
    · rcases eq_or_ne j i with rfl | hne
      · rw [hl]; simp
      · exact h.acquired_of_committed j ((Function.update_of_ne hne _ _).symm.trans hj)
    · have := replay_update effect v hi hc
      rw [← hl] at this
      rw [this, h.value_eq]
  | release i =>
    obtain ⟨-, ⟨⟩⟩ := Option.ite_none_right_eq_some.mp hstep
    exact ⟨h.nodup, by simp, h.acquired_of_committed, h.value_eq⟩

theorem inv_run {effect : ι → V → V} {v : V} {s : State ι V} {as : List (Action ι)}
    (hrun : run (step effect) (init v) as = some s) : Inv effect v s :=
  run_invariant (fun _ _ _ h hs => inv_step h hs) (inv_init effect v) hrun

/-- In every reachable state the register is the replay of the committed effects in the order of
acquisition. -/
theorem value_eq_replay {effect : ι → V → V} {v : V} {s : State ι V} {as : List (Action ι)}
    (hrun : run (step effect) (init v) as = some s) :
    s.value = replay effect s.acquired s.committed v := (inv_run hrun).value_eq

end Machine.Serial
