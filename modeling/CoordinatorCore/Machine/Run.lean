import Mathlib.Data.Option.Basic
import Mathlib.Logic.Relation
import Mathlib.Tactic.SplitIfs

/-!
# Runs of partial machines

A machine is a step function `step : σ → α → Option σ`: in state `s` the action `a` is either
impossible, or it leads to one state. Nondeterminism lives in the choice of the action. A run is
a list of actions, executed from left to right.

Two rules carry every result about runs. `run_invariant` lifts what one step preserves to whole
runs, and `Simulation.run` lifts a step-by-step simulation, where one step may be matched by any
number of steps of the other machine, to a simulation of runs.
-/

namespace Machine

variable {σ τ α β : Type*}

/-- Execute the actions in order; one impossible action makes the whole run impossible. -/
def run (step : σ → α → Option σ) : σ → List α → Option σ
  | s, [] => some s
  | s, a :: as => (step s a).bind fun s' => run step s' as

@[simp] theorem run_nil (step : σ → α → Option σ) (s : σ) : run step s [] = some s := rfl

theorem run_cons (step : σ → α → Option σ) (s : σ) (a : α) (as : List α) :
    run step s (a :: as) = (step s a).bind fun s' => run step s' as := rfl

theorem run_cons_eq_some {step : σ → α → Option σ} {s s' : σ} {a : α} {as : List α} :
    run step s (a :: as) = some s' ↔ ∃ t, step s a = some t ∧ run step t as = some s' :=
  Option.bind_eq_some_iff

/-- A run is split at any point. -/
theorem run_append_eq_some {step : σ → α → Option σ} {s s' : σ} {as bs : List α} :
    run step s (as ++ bs) = some s' ↔
      ∃ t, run step s as = some t ∧ run step t bs = some s' := by
  induction as generalizing s with
  | nil => simp
  | cons a as ih =>
    rw [List.cons_append, run_cons_eq_some]
    constructor
    · rintro ⟨t, ht, hrun⟩
      obtain ⟨u, hu, hbs⟩ := ih.mp hrun
      exact ⟨u, run_cons_eq_some.mpr ⟨t, ht, hu⟩, hbs⟩
    · rintro ⟨u, hu, hbs⟩
      obtain ⟨t, ht, hrun⟩ := run_cons_eq_some.mp hu
      exact ⟨t, ht, ih.mpr ⟨u, hrun, hbs⟩⟩

/-- What every step preserves, every run preserves. -/
theorem run_invariant {step : σ → α → Option σ} {P : σ → Prop}
    (hstep : ∀ s a s', P s → step s a = some s' → P s') {s s' : σ} {as : List α} (hs : P s)
    (hrun : run step s as = some s') : P s' := by
  induction as generalizing s with
  | nil => cases hrun; exact hs
  | cons a as ih =>
    obtain ⟨t, ht, hrun⟩ := run_cons_eq_some.mp hrun
    exact ih (hstep s a t hs ht) hrun

/-- `P` holds of each state of the run and the action taken there. -/
def Along (step : σ → α → Option σ) (P : σ → α → Prop) : σ → List α → Prop
  | _, [] => True
  | s, a :: as => P s a ∧ ∀ s', step s a = some s' → Along step P s' as

/-- Along a given run a decidable predicate is decided step by step. -/
instance Along.instDecidable {step : σ → α → Option σ} {P : σ → α → Prop}
    [∀ s a, Decidable (P s a)] : ∀ (s : σ) (as : List α), Decidable (Along step P s as)
  | _, [] => inferInstanceAs (Decidable True)
  | s, a :: as =>
    match h : step s a with
    | none => decidable_of_iff (P s a) (by simp [Along, h])
    | some t =>
      have : Decidable (Along step P t as) := Along.instDecidable t as
      decidable_of_iff (P s a ∧ Along step P t as) (by simp [Along, h])

theorem Along.of_prefix {step : σ → α → Option σ} {P : σ → α → Prop} {s : σ} {as bs : List α}
    (h : Along step P s (as ++ bs)) : Along step P s as := by
  induction as generalizing s with
  | nil => trivial
  | cons a as ih => exact ⟨h.1, fun t ht => ih (h.2 t ht)⟩

/-- Behind the first part of a run `P` holds along the rest. -/
theorem Along.of_append {step : σ → α → Option σ} {P : σ → α → Prop} {s t : σ} {as bs : List α}
    (h : Along step P s (as ++ bs)) (hrun : run step s as = some t) : Along step P t bs := by
  induction as generalizing s with
  | nil => cases hrun; exact h
  | cons a as ih =>
    obtain ⟨u, hu, hrun⟩ := run_cons_eq_some.mp hrun
    exact ih (h.2 u hu) hrun

/-- What holds along the parts of a run holds along the run. -/
theorem Along.append {step : σ → α → Option σ} {P : σ → α → Prop} {s : σ} {as bs : List α}
    (h : Along step P s as) (h' : ∀ t, run step s as = some t → Along step P t bs) :
    Along step P s (as ++ bs) := by
  induction as generalizing s with
  | nil => exact h' s rfl
  | cons a as ih =>
    exact ⟨h.1, fun t ht => ih (h.2 t ht) fun u hu => h' u (run_cons_eq_some.mpr ⟨t, ht, hu⟩)⟩

theorem Along.mono {step : σ → α → Option σ} {P Q : σ → α → Prop} (h : ∀ s a, P s a → Q s a)
    {s : σ} {as : List α} (hP : Along step P s as) : Along step Q s as := by
  induction as generalizing s with
  | nil => trivial
  | cons a as ih => exact ⟨h s a hP.1, fun t ht => ih (hP.2 t ht)⟩

/-- What holds of each action of a run holds along it. -/
theorem Along.and_forall {step : σ → α → Option σ} {P : σ → α → Prop} {Q : α → Prop} {s : σ}
    {as : List α} (h : Along step P s as) (hQ : ∀ a ∈ as, Q a) :
    Along step (fun s a => P s a ∧ Q a) s as := by
  induction as generalizing s with
  | nil => trivial
  | cons a as ih =>
    exact ⟨⟨h.1, hQ a List.mem_cons_self⟩,
      fun t ht => ih (h.2 t ht) fun b hb => hQ b (List.mem_cons_of_mem a hb)⟩

/-- What every step with `C` preserves, every run along which `C` holds preserves. -/
theorem run_invariant_along {step : σ → α → Option σ} {C : σ → α → Prop} {P : σ → Prop}
    (hstep : ∀ s a s', C s a → P s → step s a = some s' → P s') {s s' : σ} {as : List α}
    (hC : Along step C s as) (hs : P s) (hrun : run step s as = some s') : P s' := by
  induction as generalizing s with
  | nil => cases hrun; exact hs
  | cons a as ih =>
    obtain ⟨t, ht, hrun⟩ := run_cons_eq_some.mp hrun
    exact ih (hC.2 t ht) (hstep s a t hC.1 hs ht) hrun

/-- Along a run with `C`, what follows from an invariant holds. -/
theorem Along.of_condition {step : σ → α → Option σ} {C P : σ → α → Prop} {I : σ → Prop}
    (hstep : ∀ s a s', C s a → I s → step s a = some s' → I s')
    (hP : ∀ s a, C s a → I s → P s a) {s : σ} {as : List α} (hC : Along step C s as) (hs : I s) :
    Along step P s as := by
  induction as generalizing s with
  | nil => trivial
  | cons a as ih => exact ⟨hP s a hC.1 hs, fun t ht => ih (hC.2 t ht) (hstep s a t hC.1 hs ht)⟩

theorem Along.of_invariant {step : σ → α → Option σ} {C P : σ → α → Prop} {I : σ → Prop}
    (hstep : ∀ s a s', C s a → I s → step s a = some s' → I s') (hP : ∀ s a, I s → P s a)
    {s : σ} {as : List α} (hC : Along step C s as) (hs : I s) : Along step P s as :=
  Along.of_condition hstep (fun s a _ => hP s a) hC hs

/-- `Q` holds of every state of the run. -/
def Always (step : σ → α → Option σ) (Q : σ → Prop) : σ → List α → Prop
  | s, [] => Q s
  | s, a :: as => Q s ∧ ∀ s', step s a = some s' → Always step Q s' as

theorem Always.of_condition {step : σ → α → Option σ} {C : σ → α → Prop} {I Q : σ → Prop}
    (hstep : ∀ s a s', C s a → I s → step s a = some s' → I s') (hQ : ∀ s, I s → Q s) {s : σ}
    {as : List α} (hC : Along step C s as) (hs : I s) : Always step Q s as := by
  induction as generalizing s with
  | nil => exact hQ s hs
  | cons a as ih => exact ⟨hQ s hs, fun t ht => ih (hC.2 t ht) (hstep s a t hC.1 hs ht)⟩

theorem Always.start {step : σ → α → Option σ} {Q : σ → Prop} {s : σ} {as : List α}
    (h : Always step Q s as) : Q s := by
  cases as with
  | nil => exact h
  | cons a as => exact h.1

/-- What each step keeps exactly under a condition, a run keeps in each of its states exactly when
its steps all meet the condition. -/
theorem always_iff_along {step : σ → α → Option σ} {C D : σ → α → Prop} {I Q : σ → Prop}
    (hI : ∀ s a s', D s a → I s → step s a = some s' → I s')
    (hQ : ∀ s a s', D s a → I s → Q s → step s a = some s' → (Q s' ↔ C s a))
    (hC : ∀ s a, step s a = none → C s a) {s : σ} {as : List α} (hD : Along step D s as)
    (hs : I s) (hq : Q s) : Always step Q s as ↔ Along step C s as := by
  induction as generalizing s with
  | nil => exact iff_of_true hq trivial
  | cons a as ih =>
    cases ha : step s a with
    | none =>
      refine iff_of_true ⟨hq, fun t ht => ?_⟩ ⟨hC s a ha, fun t ht => ?_⟩ <;>
      exact nomatch ha.symm.trans ht
    | some t =>
      have hstep := hQ s a t hD.1 hs hq ha
      have hrest := fun h => ih (hD.2 t ha) (hI s a t hD.1 hs ha) (hstep.mpr h)
      constructor
      · intro h
        have hc := hstep.mp (h.2 t ha).start
        refine ⟨hc, fun u hu => ?_⟩
        obtain rfl := Option.some.inj (ha.symm.trans hu)
        exact (hrest hc).mp (h.2 t ha)
      · intro h
        refine ⟨hq, fun u hu => ?_⟩
        obtain rfl := Option.some.inj (ha.symm.trans hu)
        exact (hrest h.1).mpr (h.2 t ha)

/-- Every step of the first machine is matched by a run of the second. -/
def Simulation (step : σ → α → Option σ) (step' : τ → β → Option τ) (R : σ → τ → Prop) : Prop :=
  ∀ s t a s', R s t → step s a = some s' → ∃ bs t', run step' t bs = some t' ∧ R s' t'

/-- A simulation of steps is a simulation of runs. -/
theorem Simulation.run {step : σ → α → Option σ} {step' : τ → β → Option τ} {R : σ → τ → Prop}
    (h : Simulation step step' R) {s s' : σ} {t : τ} {as : List α} (hR : R s t)
    (hrun : Machine.run step s as = some s') :
    ∃ bs t', Machine.run step' t bs = some t' ∧ R s' t' := by
  induction as generalizing s t with
  | nil => cases hrun; exact ⟨[], t, rfl, hR⟩
  | cons a as ih =>
    obtain ⟨u, hu, hrun⟩ := run_cons_eq_some.mp hrun
    obtain ⟨bs, t', hbs, hR'⟩ := h s t a u hR hu
    obtain ⟨cs, t'', hcs, hR''⟩ := ih hR' hrun
    exact ⟨bs ++ cs, t'', run_append_eq_some.mpr ⟨t', hbs, hcs⟩, hR''⟩

/-! ### Loops -/

/-- Iterate a deterministic machine until it halts, for at most `n` steps. -/
def loop (next : σ → Option σ) : Nat → σ → Option σ
  | 0, s => if (next s).isNone then some s else none
  | n + 1, s =>
    match next s with
    | none => some s
    | some s' => loop next n s'

/-- A number of iterations of the machine. -/
abbrev Steps (next : σ → Option σ) : σ → σ → Prop :=
  Relation.ReflTransGen fun s s' => next s = some s'

/-- A loop that can get to a halted state stops there, whatever the bound from some point on. -/
theorem loop_of_steps {next : σ → Option σ} {s s' : σ} (h : Steps next s s')
    (hs' : next s' = none) : ∃ n, ∀ m, n ≤ m → loop next m s = some s' := by
  induction h using Relation.ReflTransGen.head_induction_on with
  | refl =>
    refine ⟨0, fun m _ => ?_⟩
    cases m with
    | zero => simp [loop, hs']
    | succ m => simp [loop, hs']
  | head hstep _ ih =>
    obtain ⟨n, hn⟩ := ih
    refine ⟨n + 1, fun m hm => ?_⟩
    obtain ⟨k, rfl⟩ : ∃ k, m = k + 1 := ⟨m - 1, by omega⟩
    rw [loop, hstep]
    exact hn k (by omega)

/-- What every step preserves, the loop preserves, and it stops in a halted state. -/
theorem loop_eq_some {next : σ → Option σ} {s s' : σ} {n : Nat} (h : loop next n s = some s') :
    Steps next s s' ∧ next s' = none := by
  induction n generalizing s with
  | zero =>
    rw [loop] at h
    split_ifs at h with hs
    cases h
    exact ⟨.refl, Option.isNone_iff_eq_none.mp hs⟩
  | succ n ih =>
    rw [loop] at h
    split at h
    · cases h
      exact ⟨.refl, ‹_›⟩
    · obtain ⟨hsteps, hhalt⟩ := ih h
      exact ⟨.head ‹_› hsteps, hhalt⟩

/-- What every step preserves, any number of iterations preserves. -/
theorem Steps.invariant {next : σ → Option σ} {P : σ → Prop}
    (hstep : ∀ s s', P s → next s = some s' → P s') {s s' : σ} (h : Steps next s s') (hs : P s) :
    P s' := by
  induction h with
  | refl => exact hs
  | tail _ hnext ih => exact hstep _ _ ih hnext

/-- Iterate a machine whose steps decrease a measure until it halts. -/
def drain (next : σ → Option σ) (μ : σ → Nat) (hμ : ∀ s s', next s = some s' → μ s' < μ s)
    (s : σ) : σ :=
  match _h : next s with
  | none => s
  | some s' => drain next μ hμ s'
termination_by μ s
decreasing_by exact hμ s s' _h

/-- The machine was iterated, and it has halted. -/
theorem steps_drain {next : σ → Option σ} {μ : σ → Nat}
    (hμ : ∀ s s', next s = some s' → μ s' < μ s) (s : σ) :
    Steps next s (drain next μ hμ s) ∧ next (drain next μ hμ s) = none := by
  induction s using drain.induct next μ hμ with
  | case1 s h =>
    rw [drain]
    split
    · exact ⟨.refl, h⟩
    · next h' => rw [h] at h'; cases h'
  | case2 s s' h ih =>
    rw [drain]
    split
    · next h' => rw [h] at h'; cases h'
    · next h' =>
      obtain rfl : s' = _ := Option.some.inj (h.symm.trans h')
      exact ⟨.head h ih.1, ih.2⟩

/-! ### Few actors

Examples have two actors, or four calls, and name them by numerals. -/

instance instNeZeroTwo : @NeZero Nat Zero.ofOfNat0 2 := ⟨by decide⟩

instance instNeZeroFour : @NeZero Nat Zero.ofOfNat0 4 := ⟨by decide⟩

end Machine
