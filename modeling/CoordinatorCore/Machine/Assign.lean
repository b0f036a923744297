import Mathlib.Data.List.Forall2
import Mathlib.Data.List.Perm.Basic

/-!
# Sorting a list by a fallible test

A loop that asks a question about each item of a list and puts the item with its answer into an
accumulator. The answers are the list's assignment; whatever the loop accumulates is a fold over
it, and a part of the list has the part of the assignment.
-/

namespace CoordinatorCore

variable {ε α κ σ : Type*}

/-- A computation with a continuation ends well when both do. -/
theorem except_bind_eq_ok {β : Type*} {x : Except ε α} {f : α → Except ε β} {b : β} :
    x.bind f = .ok b ↔ ∃ a, x = .ok a ∧ f a = .ok b := by
  cases x with
  | error e => simp [Except.bind]
  | ok a => simp [Except.bind]

theorem except_map_eq_ok {β : Type*} {x : Except ε α} {f : α → β} {b : β} :
    x.map f = .ok b ↔ ∃ a, x = .ok a ∧ f a = b := by
  cases x with
  | error e => simp [Except.map]
  | ok a => simp [Except.map]

/-- Every item with its answer, when every question has one. -/
def assign (f : α → Except ε κ) : List α → Except ε (List (α × κ))
  | [] => .ok []
  | a :: as => (f a).bind fun k => (assign f as).map fun ps => (a, k) :: ps

section

variable {f : α → Except ε κ}

theorem assign_eq_ok {as : List α} {ps : List (α × κ)} :
    assign f as = .ok ps ↔ ps.map Prod.fst = as ∧ ∀ p ∈ ps, f p.1 = .ok p.2 := by
  induction as generalizing ps with
  | nil =>
    rw [assign, Except.ok.injEq, List.map_eq_nil_iff]
    constructor
    · rintro rfl
      exact ⟨rfl, fun p hp => absurd hp List.not_mem_nil⟩
    · rintro ⟨rfl, -⟩
      rfl
  | cons a as ih =>
    rw [assign, except_bind_eq_ok]
    constructor
    · rintro ⟨k, hk, hrest⟩
      obtain ⟨qs, hqs, rfl⟩ := except_map_eq_ok.mp hrest
      obtain ⟨hfst, hall⟩ := ih.mp hqs
      refine ⟨by rw [List.map_cons, hfst], fun p hp => ?_⟩
      rcases List.mem_cons.mp hp with rfl | hp
      · exact hk
      · exact hall p hp
    · rintro ⟨hfst, hall⟩
      cases ps with
      | nil => cases hfst
      | cons p qs =>
        obtain ⟨rfl, hqs⟩ := List.cons_eq_cons.mp hfst
        refine ⟨p.2, hall p (List.mem_cons_self ..), except_map_eq_ok.mpr ⟨qs, ?_, rfl⟩⟩
        exact ih.mpr ⟨hqs, fun q hq => hall q (List.mem_cons_of_mem _ hq)⟩

/-- A list is assigned when each item has an answer. -/
theorem exists_assign_iff {as : List α} :
    (∃ ps, assign f as = .ok ps) ↔ ∀ a ∈ as, ∃ k, f a = .ok k := by
  constructor
  · rintro ⟨ps, hps⟩ a ha
    obtain ⟨hfst, hall⟩ := assign_eq_ok.mp hps
    rw [← hfst] at ha
    obtain ⟨p, hp, rfl⟩ := List.mem_map.mp ha
    exact ⟨p.2, hall p hp⟩
  · intro h
    induction as with
    | nil => exact ⟨[], rfl⟩
    | cons a as ih =>
      obtain ⟨k, hk⟩ := h a (List.mem_cons_self ..)
      obtain ⟨ps, hps⟩ := ih fun b hb => h b (List.mem_cons_of_mem a hb)
      exact ⟨(a, k) :: ps, by rw [assign, hk, hps]; rfl⟩

/-- A list is not assigned because of one of its items. -/
theorem exists_error_of_assign {as : List α} {e : ε} (h : assign f as = .error e) :
    ∃ a ∈ as, f a = .error e := by
  induction as with
  | nil => cases h
  | cons a as ih =>
    rw [assign] at h
    cases ha : f a with
    | error e' =>
      rw [ha] at h
      obtain rfl := Except.error.inj h
      exact ⟨a, List.mem_cons_self, ha⟩
    | ok k =>
      rw [ha] at h
      cases hrest : assign f as with
      | error e' =>
        rw [hrest] at h
        obtain rfl := Except.error.inj h
        obtain ⟨b, hb, hfb⟩ := ih hrest
        exact ⟨b, List.mem_cons_of_mem a hb, hfb⟩
      | ok ps =>
        rw [hrest] at h
        cases h

theorem assign_congr {g : α → Except ε κ} {as : List α} (h : ∀ a ∈ as, f a = g a) :
    assign f as = assign g as := by
  induction as with
  | nil => rfl
  | cons a as ih =>
    rw [assign, assign, h a (List.mem_cons_self ..),
      ih fun b hb => h b (List.mem_cons_of_mem a hb)]

/-- A loop over the items is a fold over their assignment. -/
theorem foldlM_eq_assign (add : σ → α → κ → σ) (as : List α) (s : σ) :
    as.foldlM (fun s a => (f a).map (add s a)) s =
      (assign f as).map fun ps => ps.foldl (fun s p => add s p.1 p.2) s := by
  induction as generalizing s with
  | nil => rfl
  | cons a as ih =>
    rw [List.foldlM_cons, assign]
    cases f a with
    | error e => rfl
    | ok k =>
      rw [Except.map, Except.bind]
      change as.foldlM _ (add s a k) = _
      rw [ih]
      cases assign f as with
      | error e => rfl
      | ok ps => rfl

/-- `[f(a) for a in as]`. -/
def answers (f : α → Except ε κ) (as : List α) : Except ε (List κ) :=
  (assign f as).map fun ps => ps.map Prod.snd

theorem exists_error_of_answers {as : List α} {e : ε} (h : answers f as = .error e) :
    ∃ a ∈ as, f a = .error e := by
  rw [answers] at h
  cases hps : assign f as with
  | ok ps =>
    rw [hps] at h
    cases h
  | error e' =>
    rw [hps] at h
    obtain rfl := Except.error.inj h
    exact exists_error_of_assign hps

/-- The answers are one for each item, in their order. -/
theorem answers_eq_ok {as : List α} {ks : List κ} :
    answers f as = .ok ks ↔ List.Forall₂ (fun a k => f a = .ok k) as ks := by
  rw [answers, except_map_eq_ok]
  constructor
  · rintro ⟨ps, hps, rfl⟩
    obtain ⟨hfst, hall⟩ := assign_eq_ok.mp hps
    rw [← hfst, List.forall₂_map_left_iff, List.forall₂_map_right_iff, List.forall₂_same]
    exact hall
  · intro h
    induction h with
    | nil => exact ⟨[], rfl, rfl⟩
    | @cons a k as ks hk _ ih =>
      obtain ⟨ps, hps, rfl⟩ := ih
      exact ⟨(a, k) :: ps, by rw [assign, hk, hps]; rfl, rfl⟩

/-- Each item of one list has its counterpart in the other. -/
theorem forall₂_counterpart {R : α → κ → Prop} {as : List α} {ks : List κ}
    (h : List.Forall₂ R as ks) : (∀ a ∈ as, ∃ k ∈ ks, R a k) ∧ ∀ k ∈ ks, ∃ a ∈ as, R a k := by
  induction h with
  | nil => exact ⟨nofun, nofun⟩
  | @cons a k as ks hak _ ih =>
    refine ⟨fun b hb => ?_, fun j hj => ?_⟩
    · rcases List.mem_cons.mp hb with rfl | hb
      · exact ⟨k, List.mem_cons_self, hak⟩
      · obtain ⟨j, hj, hbj⟩ := ih.1 b hb
        exact ⟨j, List.mem_cons_of_mem k hj, hbj⟩
    · rcases List.mem_cons.mp hj with rfl | hj
      · exact ⟨a, List.mem_cons_self, hak⟩
      · obtain ⟨b, hb, hbj⟩ := ih.2 j hj
        exact ⟨b, List.mem_cons_of_mem a hb, hbj⟩

/-- The items whose answer a predicate accepts. -/
def answered (p : κ → Bool) (ps : List (α × κ)) : List α :=
  (ps.filter fun a => p a.2).map Prod.fst

theorem mem_answered {p : κ → Bool} {ps : List (α × κ)} {a : α} :
    a ∈ answered p ps ↔ ∃ k, (a, k) ∈ ps ∧ p k = true := by
  simp only [answered, List.mem_map, List.mem_filter]
  constructor
  · rintro ⟨⟨a', k⟩, ⟨hmem, hp⟩, rfl⟩
    exact ⟨k, hmem, hp⟩
  · rintro ⟨k, hmem, hp⟩
    exact ⟨(a, k), ⟨hmem, hp⟩, rfl⟩

theorem answered_eq_nil {p : κ → Bool} {ps : List (α × κ)} :
    answered p ps = [] ↔ ∀ a ∈ ps, p a.2 = false := by
  simp [answered, List.filter_eq_nil_iff]

theorem answered_cons (p : κ → Bool) (a : α × κ) (ps : List (α × κ)) :
    answered p (a :: ps) = if p a.2 then a.1 :: answered p ps else answered p ps := by
  rw [answered, List.filter_cons]
  split_ifs <;> rfl

/-- The two halves of a split are the list. -/
theorem answered_append_perm (p : κ → Bool) (ps : List (α × κ)) :
    (answered p ps ++ answered (fun k => !p k) ps).Perm (ps.map Prod.fst) := by
  rw [answered, answered, ← List.map_append]
  exact (List.filter_append_perm _ ps).map _

end

end CoordinatorCore
