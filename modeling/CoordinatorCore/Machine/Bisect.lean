import Mathlib.Data.List.Induction
import Mathlib.Tactic.SplitIfs

/-!
# Bisection

The search for the place where a test that may fail turns from true to false. On a test that turns
once it finds the place (`bisect_eq`), whatever it costs to ask. The search that stops at a hit
finds the one place that compares as equal (`bisectFind_eq_some`). In a sorted list, the entries
that pass a test which is closed downwards are the first ones (`lt_countP_iff`).
-/

namespace Machine

/-- `bisect_left` between two bounds: where `before` is true the place is further on. -/
def bisect {ε : Type*} (before : Nat → Except ε Bool) : Nat → Nat → Nat → Except ε Nat
  | 0, lo, _ => .ok lo
  | fuel + 1, lo, hi =>
    if lo < hi then do
      let answer ← before ((lo + hi) / 2)
      if answer then bisect before fuel ((lo + hi) / 2 + 1) hi
      else bisect before fuel lo ((lo + hi) / 2)
    else .ok lo

/-- The place where the test turns. -/
theorem bisect_eq {ε : Type*} {before : Nat → Except ε Bool} {lo hi place : Nat}
    (hlo : lo ≤ place) (hhi : place ≤ hi)
    (h : ∀ i, lo ≤ i → i < hi → before i = .ok (decide (i < place))) {fuel : Nat}
    (hfuel : hi - lo ≤ fuel) : bisect before fuel lo hi = .ok place := by
  induction fuel generalizing lo hi with
  | zero =>
    have : lo = place := by omega
    rw [bisect, this]
  | succ fuel ih =>
    rw [bisect]
    split_ifs with hlt
    · rw [h _ (by omega) (by omega)]
      simp only [bind, Except.bind, decide_eq_true_eq]
      split_ifs with hmid
      · exact ih (by omega) hhi (fun i hi' => h i (by omega)) (by omega)
      · exact ih hlo (by omega) (fun i hi' hi'' => h i hi' (by omega)) (by omega)
    · have : lo = place := by omega
      rw [this]

/-- The search between two bounds for a place that compares as equal; where the comparison says
less, it is further on. -/
def bisectFind (cmp : Nat → Ordering) : Nat → Nat → Nat → Option Nat
  | 0, _, _ => none
  | fuel + 1, lo, hi =>
    if lo < hi then
      match cmp ((lo + hi) / 2) with
      | .eq => some ((lo + hi) / 2)
      | .lt => bisectFind cmp fuel ((lo + hi) / 2 + 1) hi
      | .gt => bisectFind cmp fuel lo ((lo + hi) / 2)
    else none

/-- The place is found that all others are compared with rightly. -/
theorem bisectFind_eq_some {cmp : Nat → Ordering} {lo hi place : Nat} (hlo : lo ≤ place)
    (hhi : place < hi) (h : ∀ i, lo ≤ i → i < hi → cmp i = compare i place) {fuel : Nat}
    (hfuel : hi - lo ≤ fuel) : bisectFind cmp fuel lo hi = some place := by
  induction fuel generalizing lo hi with
  | zero => omega
  | succ fuel ih =>
    rw [bisectFind, if_pos (by omega), h _ (by omega) (by omega)]
    rcases Nat.lt_trichotomy ((lo + hi) / 2) place with hlt | heq | hgt
    · rw [Nat.compare_eq_lt.mpr hlt]
      exact ih (by omega) hhi (fun i hi' => h i (by omega)) (by omega)
    · rw [heq, Nat.compare_eq_eq.mpr rfl]
    · rw [Nat.compare_eq_gt.mpr hgt]
      exact ih hlo hgt (fun i hi' hi'' => h i hi' (by omega)) (by omega)

theorem bisectFind_eq_none {cmp : Nat → Ordering} {lo hi : Nat}
    (h : ∀ i, lo ≤ i → i < hi → cmp i ≠ .eq) (fuel : Nat) : bisectFind cmp fuel lo hi = none := by
  induction fuel generalizing lo hi with
  | zero => rfl
  | succ fuel ih =>
    rw [bisectFind]
    split_ifs with hlt
    · have hmid := h ((lo + hi) / 2) (by omega) (by omega)
      rcases hcmp : cmp ((lo + hi) / 2)
      · exact ih fun i hi' => h i (by omega)
      · exact absurd hcmp hmid
      · exact ih fun i hi' hi'' => h i hi' (by omega)
    · rfl

/-- The entries that pass are the first ones. -/
theorem lt_countP_iff {α : Type*} {r : α → α → Prop} {p : α → Bool} {l : List α}
    (hl : l.Pairwise r) (hp : ∀ a b, r a b → p b = true → p a = true) {i : Nat} {a : α}
    (hi : l[i]? = some a) : i < l.countP p ↔ p a = true := by
  induction l generalizing i with
  | nil => cases hi
  | cons b l ih =>
    rw [List.pairwise_cons] at hl
    by_cases hb : p b = true
    · rw [List.countP_cons_of_pos hb]
      cases i with
      | zero =>
        cases hi
        exact iff_of_true (Nat.succ_pos _) hb
      | succ i => exact Nat.succ_lt_succ_iff.trans (ih hl.2 hi)
    · have hnone : ∀ c ∈ l, ¬ p c = true := fun c hc hpc => hb (hp b c (hl.1 c hc) hpc)
      rw [List.countP_cons_of_neg hb, List.countP_eq_zero.mpr hnone]
      refine iff_of_false (Nat.not_lt_zero i) ?_
      rcases List.mem_cons.mp (List.mem_of_getElem? hi) with rfl | hmem
      · exact hb
      · exact hnone a hmem

end Machine
