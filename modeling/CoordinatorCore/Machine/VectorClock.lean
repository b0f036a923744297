import Mathlib.Logic.Relation
import Mathlib.Order.Lattice

/-!
# Vector clocks that are written now and then

Processes write records one after another, and a process sees the records of the others only up to
some position each. A *mark* is a record that says up to where. The record `(p, i)`, the one of `p`
at the position `i`, happened before `(m, k)` if it is an earlier one of the same process, or if it
was read at a mark on the way (`HappensBefore`, the transitive closure of the two).

Marks are sparse: a record is given the mark in effect in front of it, and its own position
(`IsClock`). Where marks keep what was known before them (`Closed`), these clocks are ordered,
component by component, exactly as the records happened (`Closed.happensBefore_iff_le`).
-/

namespace VectorClock

open Relation

variable {P T : Type*} [LinearOrder T] (Mark : P → T → (P → T) → Prop)

/-- An earlier record of the same process, or one that the mark has read. -/
def Direct (a b : P × T) : Prop :=
  (a.1 = b.1 ∧ a.2 < b.2) ∨ (a.1 ≠ b.1 ∧ ∃ v, Mark b.1 b.2 v ∧ a.2 ≤ v a.1)

def HappensBefore : P × T → P × T → Prop := TransGen (Direct Mark)

/-- A mark says no less than the earlier ones of its process and than the marks that it has read;
and no one has read a mark before it is written. -/
structure Closed : Prop where
  mono {p x : P} {j k : T} {v w : P → T} :
    Mark p j v → Mark p k w → j ≤ k → x ≠ p → v x ≤ w x
  own {m q : P} {j k : T} {v w : P → T} : Mark m k w → Mark q j v → q ≠ m → j ≤ w q → v m < k
  trans {m q x : P} {j k : T} {v w : P → T} :
    Mark m k w → Mark q j v → q ≠ m → j ≤ w q → x ≠ q → x ≠ m → v x ≤ w x

/-- What one mark of the process tells. -/
def Seen (a b : P × T) : Prop :=
  (a.1 = b.1 ∧ a.2 < b.2) ∨ (a.1 ≠ b.1 ∧ ∃ k v, k ≤ b.2 ∧ Mark b.1 k v ∧ a.2 ≤ v a.1)

variable {Mark}

theorem Seen.trans (h : Closed Mark) {a b c : P × T} (hab : Seen Mark a b) (hbc : Seen Mark b c) :
    Seen Mark a c := by
  obtain ⟨p, i⟩ := a
  obtain ⟨q, j⟩ := b
  obtain ⟨m, k⟩ := c
  rcases hab with ⟨rfl, hij⟩ | ⟨hpq, j', v, hj', hv, hi⟩ <;>
    rcases hbc with ⟨rfl, hjk⟩ | ⟨hqm, k', w, hk', hw, hj⟩
  · exact .inl ⟨rfl, hij.trans hjk⟩
  · exact .inr ⟨hqm, k', w, hk', hw, hij.le.trans hj⟩
  · exact .inr ⟨hpq, j', v, hj'.trans hjk.le, hv, hi⟩
  · -- a mark that has read a mark
    by_cases hpm : p = m
    · subst hpm
      exact .inl ⟨rfl, (hi.trans_lt (h.own hw hv hqm (hj'.trans hj))).trans_le hk'⟩
    · exact .inr ⟨hpm, k', w, hk', hw, hi.trans (h.trans hw hv hqm (hj'.trans hj) hpq hpm)⟩

theorem happensBefore_of_seen {a b : P × T} (h : Seen Mark a b) : HappensBefore Mark a b := by
  obtain ⟨p, i⟩ := a
  obtain ⟨m, k⟩ := b
  rcases h with h | ⟨hne, j, v, hj, hv, hi⟩
  · exact .single (.inl h)
  · have hread : HappensBefore Mark (p, i) (m, j) := .single (.inr ⟨hne, v, hv, hi⟩)
    rcases hj.eq_or_lt with rfl | hlt
    · exact hread
    · exact hread.tail (.inl ⟨rfl, hlt⟩)

/-- The transitive closure is one step long. -/
theorem Closed.happensBefore_iff (h : Closed Mark) {a b : P × T} :
    HappensBefore Mark a b ↔ Seen Mark a b := by
  have hdirect : ∀ {a b}, Direct Mark a b → Seen Mark a b := by
    rintro a b (h | ⟨hne, v, hv, hi⟩)
    · exact .inl h
    · exact .inr ⟨hne, b.2, v, le_rfl, hv, hi⟩
  refine ⟨fun hab => ?_, happensBefore_of_seen⟩
  induction hab with
  | single hab => exact hdirect hab
  | tail _ hbc ih => exact ih.trans h (hdirect hbc)

theorem Closed.irrefl (h : Closed Mark) (a : P × T) : ¬HappensBefore Mark a a := by
  rw [h.happensBefore_iff]
  rintro (⟨-, hlt⟩ | ⟨hne, -⟩)
  · exact lt_irrefl _ hlt
  · exact hne rfl

variable [Zero T]

/-- The clock of a record: its own position, and what the last mark in front of it says. -/
structure IsClock (Mark : P → T → (P → T) → Prop) (a : P × T) (c : P → T) : Prop where
  own : c a.1 = a.2
  inEffect :
    (∃ j v, j < a.2 ∧ Mark a.1 j v ∧ (∀ k w, Mark a.1 k w → k < a.2 → k ≤ j) ∧
        ∀ x ≠ a.1, c x = v x) ∨
      ((∀ k v, Mark a.1 k v → ¬k < a.2) ∧ ∀ x ≠ a.1, c x = 0)

/-- Clocks decide what happened before, unless the later record is itself a mark. -/
theorem Closed.happensBefore_iff_le (h : Closed Mark)
    (hnonneg : ∀ p k v x, Mark p k v → x ≠ p → 0 ≤ v x) {a b : P × T} {c d : P → T}
    (hc : IsClock Mark a c) (hd : IsClock Mark b d) (hpos : 0 < a.2) (hposb : 0 < b.2)
    (hmark : ∀ v, ¬Mark b.1 b.2 v) :
    HappensBefore Mark a b ↔ a ≠ b ∧ ∀ x, c x ≤ d x := by
  obtain ⟨p, i⟩ := a
  obtain ⟨m, k⟩ := b
  have hzero : ∀ x, 0 ≤ d x := by
    intro x
    by_cases hx : x = m
    · rw [hx, hd.own]
      exact hposb.le
    · rcases hd.inEffect with ⟨j, v, -, hv, -, heq⟩ | ⟨-, heq⟩ <;> rw [heq x hx]
      exact hnonneg m j v x hv hx
  rw [h.happensBefore_iff]
  constructor
  · rintro (⟨rfl, hlt⟩ | ⟨hpm, k', w, hk', hw, hi⟩)
    · -- a later record has a later mark in effect
      refine ⟨fun heq => hlt.ne (congrArg Prod.snd heq), fun x => ?_⟩
      by_cases hx : x = p
      · rw [hx, hc.own, hd.own]
        exact hlt.le
      · rcases hc.inEffect with ⟨j, v, hj, hv, -, heq⟩ | ⟨-, heq⟩
        · rcases hd.inEffect with ⟨j', v', -, hv', hlast, heq'⟩ | ⟨hno, -⟩
          · rw [heq x hx, heq' x hx]
            exact h.mono hv hv' (hlast j v hv (hj.trans hlt)) hx
          · exact absurd (hj.trans hlt) (hno j v hv)
        · rw [heq x hx]
          exact hzero x
    · -- the mark that has read `(p, i)` has read the mark in effect there
      have hk : k' < k := lt_of_le_of_ne hk' (by rintro rfl; exact hmark w hw)
      rcases hd.inEffect with ⟨j', v', hj', hv', hlast, heq'⟩ | ⟨hno, -⟩
      · have hi' : i ≤ v' p := hi.trans (h.mono hw hv' (hlast k' w hw hk) hpm)
        refine ⟨fun heq => hpm (congrArg Prod.fst heq), fun x => ?_⟩
        by_cases hxp : x = p
        · rw [hxp, hc.own, heq' p hpm]
          exact hi'
        rcases hc.inEffect with ⟨j, v, hj, hv, -, heq⟩ | ⟨-, heq⟩
        · rw [heq x hxp]
          by_cases hxm : x = m
          · rw [hxm, hd.own]
            exact ((h.own hv' hv hpm (hj.le.trans hi')).trans hj').le
          · rw [heq' x hxm]
            exact h.trans hv' hv hpm (hj.le.trans hi') hxp hxm
        · rw [heq x hxp]
          exact hzero x
      · exact absurd hk (hno k' w hw)
  · rintro ⟨hne, hle⟩
    have hi := hle p
    rw [hc.own] at hi
    by_cases hpm : p = m
    · subst hpm
      rw [hd.own] at hi
      exact .inl ⟨rfl, lt_of_le_of_ne hi fun heq => hne (congrArg (Prod.mk p) heq)⟩
    · rcases hd.inEffect with ⟨j, v, hj, hv, -, heq⟩ | ⟨-, heq⟩
      · exact .inr ⟨hpm, j, v, hj.le, hv, (heq p hpm) ▸ hi⟩
      · rw [heq p hpm] at hi
        exact absurd hpos (not_lt.mpr hi)

end VectorClock
