import Mathlib.Algebra.BigOperators.Group.List.Basic
import Mathlib.Data.List.Basic
import Mathlib.Logic.Relation
import Mathlib.Algebra.GroupWithZero.Nat

/-!
# Search with a stack

A node is taken from a stack; one that was seen is dropped, any other is expanded onto the stack.
The search finds its goal exactly when the goal can be reached from the stack
(`search_eq_true_iff`), and the rounds it needs are bounded by the stack and the successors of the
nodes not yet seen. A new edge closes a cycle exactly when its source can be reached from its
target (`acyclic_insert`).
-/

namespace Search

open Relation

variable {α : Type*}

/-! ### The loop -/

section Loop

variable [DecidableEq α] (succ : α → List α) (goal : α)

/-- The search, in at most `n` rounds. -/
def search : ℕ → List α → List α → Bool
  | 0, _, _ => false
  | _ + 1, [], _ => false
  | n + 1, x :: stack, seen =>
    if x = goal then true
    else if x ∈ seen then search n stack seen
    else search n (succ x ++ stack) (x :: seen)

variable {succ goal}

/-- One step of the graph. -/
def Edge (succ : α → List α) (x y : α) : Prop := y ∈ succ x

theorem reaches_of_search {n : ℕ} {stack seen : List α} (h : search succ goal n stack seen = true) :
    ∃ x ∈ stack, ReflTransGen (Edge succ) x goal := by
  fun_induction search succ goal n stack seen with
  | case1 => cases h
  | case2 => cases h
  | case3 => exact ⟨_, List.mem_cons_self, .refl⟩
  | case4 n x stack seen hx hseen ih =>
    obtain ⟨y, hy, hreach⟩ := ih h
    exact ⟨y, List.mem_cons_of_mem x hy, hreach⟩
  | case5 n x stack seen hx hseen ih =>
    obtain ⟨y, hy, hreach⟩ := ih h
    rcases List.mem_append.mp hy with hy | hy
    · exact ⟨x, List.mem_cons_self, .head hy hreach⟩
    · exact ⟨y, List.mem_cons_of_mem x hy, hreach⟩

/-- What was seen is not the goal, and its successors were seen or wait on the stack. -/
structure Closed (succ : α → List α) (goal : α) (stack seen : List α) : Prop where
  goal : goal ∉ seen
  succ : ∀ x ∈ seen, ∀ y ∈ succ x, y ∈ seen ∨ y ∈ stack

/-- A path to the goal leaves the nodes that were seen over the stack. -/
theorem Closed.exists_exit {stack seen : List α} (h : Closed succ goal stack seen) {x : α}
    (hx : x ∈ seen ∨ x ∈ stack) (hreach : ReflTransGen (Edge succ) x goal) :
    ∃ y ∈ stack, y ∉ seen ∧ ReflTransGen (Edge succ) y goal := by
  induction hreach using ReflTransGen.head_induction_on with
  | refl => exact ⟨goal, hx.resolve_left h.goal, h.goal, .refl⟩
  | @head x y hxy hrest ih =>
    by_cases hseen : x ∈ seen
    · exact ih (h.succ x hseen y hxy)
    · exact ⟨x, hx.resolve_left hseen, hseen, .head hxy hrest⟩

/-- The rounds that are left: one for each node of the stack, and one for each successor of a node
that was not seen. -/
def rounds (succ : α → List α) (nodes stack seen : List α) : ℕ :=
  stack.length + ((nodes.filter (· ∉ seen)).map fun x => (succ x).length).sum

theorem sum_filter_cons {nodes seen : List α} {x : α} {f : α → ℕ} (hnodup : nodes.Nodup)
    (hx : x ∈ nodes) (hseen : x ∉ seen) :
    ((nodes.filter (· ∉ seen)).map f).sum =
      f x + ((nodes.filter (· ∉ x :: seen)).map f).sum := by
  induction nodes with
  | nil => cases hx
  | cons y nodes ih =>
    obtain ⟨hy, hnodup⟩ := List.nodup_cons.mp hnodup
    by_cases hxy : x = y
    · subst hxy
      have hsame : nodes.filter (· ∉ x :: seen) = nodes.filter (· ∉ seen) :=
        List.filter_congr fun z hz => by
          have hne : z ≠ x := ne_of_mem_of_not_mem hz hy
          simp [hne]
      rw [List.filter_cons_of_pos (by simpa using hseen),
        List.filter_cons_of_neg (by simp), hsame, List.map_cons, List.sum_cons]
    · have ih := ih hnodup ((List.mem_cons.mp hx).resolve_left hxy)
      by_cases hys : y ∈ seen
      · rw [List.filter_cons_of_neg (by simpa using hys),
          List.filter_cons_of_neg (by simp [hys]), ih]
      · have hyx : y ≠ x := Ne.symm hxy
        rw [List.filter_cons_of_pos (by simpa using hys),
          List.filter_cons_of_pos (by simp [hys, hyx]), List.map_cons, List.map_cons,
          List.sum_cons, List.sum_cons, ih]
        omega

theorem search_of_reaches {nodes : List α} (hnodup : nodes.Nodup)
    (hnodes : ∀ x, x ∉ nodes → succ x = []) {n : ℕ} {stack seen : List α}
    (hclosed : Closed succ goal stack seen) (hn : rounds succ nodes stack seen ≤ n)
    (h : ∃ x ∈ stack, x ∉ seen ∧ ReflTransGen (Edge succ) x goal) :
    search succ goal n stack seen = true := by
  fun_induction search succ goal n stack seen with
  | case1 stack seen =>
    obtain ⟨x, hx, -⟩ := h
    have := List.length_pos_of_mem hx
    rw [rounds] at hn
    omega
  | case2 =>
    obtain ⟨x, hx, -⟩ := h
    cases hx
  | case3 => rfl
  | case4 n x stack seen hx hseen ih =>
    obtain ⟨y, hy, hys, hreach⟩ := h
    have hyx : y ≠ x := fun h => hys (h ▸ hseen)
    refine ih ⟨hclosed.goal, fun z hz w hw => ?_⟩ ?_
      ⟨y, (List.mem_cons.mp hy).resolve_left hyx, hys, hreach⟩
    · rcases hclosed.succ z hz w hw with hw | hw
      · exact .inl hw
      · rcases List.mem_cons.mp hw with rfl | hw
        · exact .inl hseen
        · exact .inr hw
    · rw [rounds, List.length_cons] at hn
      rw [rounds]
      omega
  | case5 n x stack seen hx hseen ih =>
    -- a node searched hands its successors to the stack
    have hclosed' : Closed succ goal (succ x ++ stack) (x :: seen) := by
      refine ⟨fun hm => ?_, fun z hz w hw => ?_⟩
      · rcases List.mem_cons.mp hm with h | h
        · exact hx h.symm
        · exact hclosed.goal h
      · rcases List.mem_cons.mp hz with rfl | hz
        · exact .inr (List.mem_append_left stack hw)
        · rcases hclosed.succ z hz w hw with hw | hw
          · exact .inl (List.mem_cons_of_mem x hw)
          · rcases List.mem_cons.mp hw with rfl | hw
            · exact .inl List.mem_cons_self
            · exact .inr (List.mem_append_right (succ x) hw)
    refine ih hclosed' ?_ ?_
    · rw [rounds, List.length_cons] at hn
      rw [rounds, List.length_append]
      -- a node off the list has no successor and takes one round
      by_cases hmem : x ∈ nodes
      · rw [sum_filter_cons hnodup hmem hseen] at hn
        omega
      · have hsame : nodes.filter (· ∉ x :: seen) = nodes.filter (· ∉ seen) :=
          List.filter_congr fun z hz => by
            have hne : z ≠ x := ne_of_mem_of_not_mem hz hmem
            simp [hne]
        rw [hsame, hnodes x hmem, List.length_nil]
        omega
    · obtain ⟨y, hy, -, hreach⟩ := h
      refine hclosed'.exists_exit ?_ hreach
      rcases List.mem_cons.mp hy with rfl | hy
      · exact .inl List.mem_cons_self
      · exact .inr (List.mem_append_right (succ x) hy)

/-- **The search is exact** from one node, given a round for it and for each edge. -/
theorem search_eq_true_iff {nodes : List α} (hnodup : nodes.Nodup)
    (hnodes : ∀ x, x ∉ nodes → succ x = []) {start : α} {n : ℕ}
    (hn : 1 + (nodes.map fun x => (succ x).length).sum ≤ n) :
    search succ goal n [start] [] = true ↔ ReflTransGen (Edge succ) start goal := by
  constructor
  · intro h
    obtain ⟨x, hx, hreach⟩ := reaches_of_search h
    rwa [List.mem_singleton.mp hx] at hreach
  · refine fun h => search_of_reaches hnodup hnodes ⟨List.not_mem_nil, by simp⟩ ?_
      ⟨start, List.mem_cons_self, List.not_mem_nil, h⟩
    simpa [rounds] using hn

end Loop

/-! ### Cycles -/

/-- No node can be reached from itself over one edge or more. -/
def Acyclic (r : α → α → Prop) : Prop := ∀ x, ¬ TransGen r x x

theorem Acyclic.mono {r r' : α → α → Prop} (h : Acyclic r) (hr : ∀ x y, r' x y → r x y) :
    Acyclic r' := fun x hx => h x (TransGen.mono hr x x hx)

/-- One more edge keeps the graph free of cycles, when its source cannot be reached from its
target. -/
theorem acyclic_insert {r r' : α → α → Prop} {a b : α} (h : Acyclic r)
    (hr : ∀ x y, r' x y → r x y ∨ x = a ∧ y = b) (hreach : ¬ ReflTransGen r b a) :
    Acyclic r' := by
  -- a path uses old edges alone, or it ends in old edges behind the new one
  have hpath : ∀ {x y}, TransGen r' x y →
      TransGen r x y ∨ ReflTransGen r x a ∧ ReflTransGen r b y := by
    intro x y hxy
    induction hxy with
    | single hedge =>
      rcases hr _ _ hedge with hold | ⟨rfl, rfl⟩
      · exact .inl (.single hold)
      · exact .inr ⟨.refl, .refl⟩
    | tail _ hedge ih =>
      rcases hr _ _ hedge with hold | ⟨rfl, rfl⟩
      · rcases ih with ih | ⟨hxa, hby⟩
        · exact .inl (ih.tail hold)
        · exact .inr ⟨hxa, hby.tail hold⟩
      · rcases ih with ih | ⟨-, hby⟩
        · exact .inr ⟨ih.to_reflTransGen, .refl⟩
        · exact absurd hby hreach
  intro x hx
  rcases hpath hx with hold | ⟨hxa, hbx⟩
  · exact h x hold
  · exact hreach (hbx.trans hxa)

end Search
