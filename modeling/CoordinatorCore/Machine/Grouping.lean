import CoordinatorCore.Machine.Table
import Mathlib.Data.List.Perm.Basic

/-!
# Tables filled from a list

Two ways a program turns a list of keyed values into a table: the last value of a key wins, or the
values of a key are collected in their order. The first depends on the order of the list exactly
where one key has two different values.
-/

namespace CoordinatorCore

namespace Table

variable {α β : Type*} [DecidableEq α]

/-- The values of one key, in their order. -/
def valuesOf (ps : List (α × β)) (k : α) : List β :=
  (ps.filter fun p => p.1 = k).map Prod.snd

/-- `t.setdefault(k, []).append(v)`. -/
def addTo (t : Table α (List β)) (p : α × β) : Table α (List β) :=
  t.set p.1 ((t.get p.1).getD [] ++ [p.2])

/-- The table that collects the values of each key. -/
def grouped (ps : List (α × β)) : Table α (List β) := ps.foldl addTo ∅

theorem valuesOf_append (ps qs : List (α × β)) (k : α) :
    valuesOf (ps ++ qs) k = valuesOf ps k ++ valuesOf qs k := by
  simp [valuesOf]

theorem mem_valuesOf {ps : List (α × β)} {k : α} {v : β} :
    v ∈ valuesOf ps k ↔ (k, v) ∈ ps := by
  simp only [valuesOf, List.mem_map, List.mem_filter, decide_eq_true_eq]
  constructor
  · rintro ⟨⟨k', v'⟩, ⟨hmem, rfl⟩, rfl⟩
    exact hmem
  · intro hmem
    exact ⟨(k, v), ⟨hmem, rfl⟩, rfl⟩

theorem valuesOf_perm {ps qs : List (α × β)} (h : ps.Perm qs) (k : α) :
    (valuesOf ps k).Perm (valuesOf qs k) :=
  (h.filter _).map _

/-- A key is there when it has a value, with all its values. -/
theorem get_grouped (ps : List (α × β)) (k : α) :
    (grouped ps).get k = if valuesOf ps k = [] then none else some (valuesOf ps k) := by
  induction ps using List.reverseRecOn with
  | nil => rfl
  | append_singleton ps p ih =>
    have hstep : grouped (ps ++ [p]) = addTo (grouped ps) p := by simp [grouped]
    rw [hstep, addTo, get_set, valuesOf_append]
    by_cases hk : k = p.1
    · subst hk
      have hone : valuesOf [p] p.1 = [p.2] := by simp [valuesOf]
      have hne : valuesOf ps p.1 ++ [p.2] ≠ [] := by simp
      rw [if_pos rfl, ih, hone, if_neg hne]
      split_ifs with hnil
      · rw [hnil]
        rfl
      · rfl
    · have hnone : valuesOf [p] k = [] := by simp [valuesOf, Ne.symm hk]
      rw [if_neg hk, ih, hnone, List.append_nil]

/-- The last value of a key is the one in the table. -/
theorem get_ofPairs_eq_getLast? (ps : List (α × β)) (k : α) :
    (ofPairs ps).get k = (valuesOf ps k).getLast? := by
  rw [get_ofPairs, valuesOf, List.getLast?_map, List.getLast?_eq_head?_reverse,
    ← List.filter_reverse, List.head?_filter]

theorem mem_of_get_ofPairs {ps : List (α × β)} {k : α} {v : β}
    (h : (ofPairs ps).get k = some v) : (k, v) ∈ ps := by
  rw [get_ofPairs_eq_getLast?] at h
  exact mem_valuesOf.mp (List.mem_of_getLast? h)

theorem get_ofPairs_ne_none {ps : List (α × β)} {k : α} {v : β} (h : (k, v) ∈ ps) :
    (ofPairs ps).get k ≠ none := by
  rw [get_ofPairs_eq_getLast?, ne_eq, List.getLast?_eq_none_iff]
  exact List.ne_nil_of_mem (mem_valuesOf.mpr h)

/-- Where every key has one value, the table has each of them. -/
theorem get_ofPairs_of_mem {ps : List (α × β)} {k : α} {v : β} (h : (k, v) ∈ ps)
    (huniq : ∀ w, (k, w) ∈ ps → w = v) : (ofPairs ps).get k = some v := by
  cases hget : (ofPairs ps).get k with
  | none => exact absurd hget (get_ofPairs_ne_none h)
  | some w => rw [huniq w (mem_of_get_ofPairs hget)]

/-- Where a key has one value at most, the order of the list does not matter to it. -/
theorem get_ofPairs_perm {ps qs : List (α × β)} (h : ps.Perm qs) {k : α}
    (huniq : ∀ v w, (k, v) ∈ ps → (k, w) ∈ ps → v = w) :
    (ofPairs ps).get k = (ofPairs qs).get k := by
  cases hget : (ofPairs ps).get k with
  | none =>
    symm
    rw [get_ofPairs_eq_getLast?, List.getLast?_eq_none_iff] at hget ⊢
    have hperm := valuesOf_perm h k
    rw [hget] at hperm
    exact hperm.symm.eq_nil
  | some v =>
    have hv := mem_of_get_ofPairs hget
    exact (get_ofPairs_of_mem (h.mem_iff.mp hv) fun w hw =>
      huniq w v (h.mem_iff.mpr hw) hv).symm

end Table

/-- Any member of a list can come last. -/
theorem exists_perm_getLast? {α : Type*} {l : List α} {x : α} (h : x ∈ l) :
    ∃ l', l.Perm l' ∧ l'.getLast? = some x := by
  obtain ⟨s, t, rfl⟩ := List.append_of_mem h
  refine ⟨s ++ (t ++ [x]), ?_, by simp⟩
  exact List.Perm.append_left s (List.perm_append_singleton x t).symm

end CoordinatorCore
