import CoordinatorCore.Machine.SuccGraph
import Mathlib.Data.List.Chain
import Mathlib.Data.List.Nodup

/-!
# Search for a cycle

A recursive search with three colours: the nodes on the current path are gray, those left behind
are black. An edge back to the path is reported with the cycle it closes.

A search that ends leaves the nodes in an order in which every edge points to an earlier node, so
it ends exactly on the acyclic graphs (`findCycle_eq_ok_iff`); what it reports is a cycle
(`findCycle_eq_error`).
-/

open Relation

namespace SuccGraph

variable {α : Type*}

/-- A closed walk: the first node is the last. -/
def IsCycle (G : SuccGraph α) (members : List α) : Prop :=
  ∃ x l, members = x :: (l ++ [x]) ∧ members.IsChain G.Edge

theorem IsCycle.transGen {G : SuccGraph α} {members : List α} (h : G.IsCycle members) :
    ∃ x, TransGen G.Edge x x := by
  obtain ⟨x, l, rfl, hchain⟩ := h
  refine ⟨x, ?_⟩
  cases l with
  | nil => exact .single (List.isChain_pair.mp hchain)
  | cons y l =>
    rw [List.cons_append, List.isChain_cons_cons] at hchain
    refine .head' hchain.1 (List.relationReflTransGen_of_exists_isChain_cons (l ++ [x]) hchain.2 ?_)
    rw [List.getLast_cons (by simp), List.getLast_append_singleton]

/-! ### The search -/

section

variable [DecidableEq α]

/-- The members of the cycle an edge to `pred` closes. The top of the path comes first. -/
def closeCycle (path : List α) (pred : α) : List α :=
  ((path.takeWhile (· ≠ pred)) ++ [pred]).reverse ++ [pred]

/-- Visit a white node. The recursion is never deeper than there are nodes; a limit on it that the
host language sets is not modelled. -/
def visit (G : SuccGraph α) : Nat → List α → List α → α → Except (List α) (List α)
  | 0, _, _, _ => .error []
  | n + 1, path, black, node => do
    let black ← (G.succ node).foldlM (fun black pred =>
      if pred = node then .error [node, node]
      else if pred ∈ path then .error (closeCycle (node :: path) pred)
      else if pred ∈ black then .ok black
      else visit G n (node :: path) black pred) black
    return node :: black

/-- Visit every node that is still white. -/
def findCycle (G : SuccGraph α) : Except (List α) (List α) :=
  G.nodes.foldlM (fun black node =>
    if node ∈ black then .ok black else visit G G.nodes.length [] black node) []

end

/-! ### What it leaves behind -/

/-- Every edge points to an earlier node. The last node comes first. -/
def Ordered (G : SuccGraph α) : List α → Prop
  | [] => True
  | x :: l => (∀ y, G.Edge x y → y ∈ l) ∧ x ∉ l ∧ Ordered G l

theorem Ordered.closed {G : SuccGraph α} {l : List α} (h : G.Ordered l) {x y : α} (hx : x ∈ l)
    (hxy : G.Edge x y) : y ∈ l := by
  induction l with
  | nil => cases hx
  | cons z l ih =>
    rcases List.mem_cons.mp hx with rfl | hx
    · exact List.mem_cons_of_mem _ (h.1 y hxy)
    · exact List.mem_cons_of_mem _ (ih h.2.2 hx)

/-- An ordered list has no cycle. -/
theorem Ordered.acyclic {G : SuccGraph α} {l : List α} (h : G.Ordered l) {x : α} (hx : x ∈ l) :
    ¬ TransGen G.Edge x x := by
  induction l with
  | nil => cases hx
  | cons z l ih =>
    rcases List.mem_cons.mp hx with rfl | hx
    · intro hcyc
      -- the first edge leaves the head, and no path comes back
      obtain ⟨y, hxy, hyx⟩ := TransGen.head'_iff.mp hcyc
      have hstay : ∀ w, ReflTransGen G.Edge y w → w ∈ l := by
        intro w hw
        induction hw with
        | refl => exact h.1 y hxy
        | tail _ hvw ihw => exact h.2.2.closed ihw hvw
      exact h.2.1 (hstay x hyx)
    · exact ih h.2.2 hx

/-! ### Correctness -/

section

variable [DecidableEq α] {G : SuccGraph α}

/-- What is found of the graph when the path is `path`: the black nodes are ordered and off it. -/
structure Searched (G : SuccGraph α) (path black : List α) : Prop where
  ordered : G.Ordered black
  nodes : ∀ x ∈ black, x ∈ G.nodes
  off : ∀ x ∈ path, x ∉ black

/-- The path is one of the graph, its end first. -/
structure IsPath (G : SuccGraph α) (path : List α) : Prop where
  chain : path.IsChain fun x y => G.Edge y x
  nodup : path.Nodup
  nodes : ∀ x ∈ path, x ∈ G.nodes

omit [DecidableEq α] in
theorem IsPath.cons {path : List α} (h : G.IsPath path) {x : α} (hx : x ∈ G.nodes)
    (hoff : x ∉ path) (hedge : ∀ y ∈ path.head?, G.Edge y x) : G.IsPath (x :: path) where
  chain := List.isChain_cons.mpr ⟨hedge, h.chain⟩
  nodup := List.nodup_cons.mpr ⟨hoff, h.nodup⟩
  nodes y hy := (List.mem_cons.mp hy).elim (fun h => h ▸ hx) (h.nodes y)

omit [DecidableEq α] in
/-- A path is no longer than there are nodes. -/
theorem IsPath.length_le {path : List α} (h : G.IsPath path) : path.length ≤ G.nodes.length :=
  (List.subperm_of_subset h.nodup h.nodes).length_le

/-- An edge from the end of a path back onto it closes a cycle. -/
theorem IsPath.isCycle {path : List α} {node pred : α} (h : G.IsPath (node :: path))
    (hpred : pred ∈ node :: path) (hedge : G.Edge node pred) :
    G.IsCycle (closeCycle (node :: path) pred) := by
  obtain ⟨a, b, hsplit, hnot⟩ := List.eq_append_cons_of_mem hpred
  have htake : (node :: path).takeWhile (· ≠ pred) = a := by
    rw [hsplit, List.takeWhile_append_of_pos (by
      intro x hx
      have : x ≠ pred := fun heq => hnot (heq ▸ hx)
      simpa using this)]
    simp
  rw [closeCycle, htake]
  refine ⟨pred, a.reverse, by simp, ?_⟩
  have hchain : (a ++ [pred]).IsChain fun x y => G.Edge y x := by
    have := h.chain
    rw [hsplit, List.isChain_split] at this
    exact this.1
  refine List.isChain_append.mpr ⟨List.isChain_reverse.mpr hchain, .singleton _, ?_⟩
  -- the segment ends in the end of the path
  intro x hx y hy
  obtain rfl : pred = y := by simpa using hy
  have hlast : (a ++ [pred]).head? = some node := by
    cases a with
    | nil => simpa using (List.cons.inj hsplit).1.symm
    | cons c a => simpa using (List.cons.inj hsplit).1.symm
  rw [List.getLast?_reverse, hlast] at hx
  obtain rfl := Option.some.inj hx
  exact hedge

/-- What searching from `nodes` leaves: more black nodes, these among them, or a cycle. -/
def Finished (G : SuccGraph α) (path black nodes : List α) : Except (List α) (List α) → Prop
  | .ok black' => G.Searched path black' ∧ (∀ x ∈ nodes, x ∈ black') ∧ ∀ x ∈ black, x ∈ black'
  | .error members => G.IsCycle members

omit [DecidableEq α] in
/-- A loop over nodes finishes them, if every round does. -/
theorem finished_foldlM {f : List α → α → Except (List α) (List α)} {path nodes : List α}
    (hf : ∀ x ∈ nodes, ∀ black, G.Searched path black → G.Finished path black [x] (f black x))
    {black : List α} (hblack : G.Searched path black) :
    G.Finished path black nodes (nodes.foldlM f black) := by
  induction nodes generalizing black with
  | nil => exact ⟨hblack, fun x hx => absurd hx List.not_mem_nil, fun x hx => hx⟩
  | cons y ys ih =>
    have hy := hf y (List.mem_cons_self ..) black hblack
    rw [List.foldlM_cons]
    cases hfy : f black y with
    | error members =>
      rw [hfy] at hy
      exact hy
    | ok black' =>
      rw [hfy] at hy
      obtain ⟨hs, hmem, hsub⟩ := hy
      have hys := ih (fun x hx => hf x (List.mem_cons_of_mem _ hx)) hs
      simp only [bind, Except.bind]
      cases hrest : ys.foldlM f black' with
      | error members =>
        rw [hrest] at hys
        exact hys
      | ok black'' =>
        rw [hrest] at hys
        obtain ⟨hs', hmem', hsub'⟩ := hys
        refine ⟨hs', fun x hx => ?_, fun x hx => hsub' x (hsub x hx)⟩
        rcases List.mem_cons.mp hx with rfl | hx
        · exact hsub' x (hmem x (List.mem_cons_self ..))
        · exact hmem' x hx

/-- Visiting a white node that extends the path finishes it. -/
theorem finished_visit {n : Nat} {path black : List α} {node : α}
    (hn : G.nodes.length < path.length + 1 + n) (hpath : G.IsPath (node :: path))
    (hblack : G.Searched path black) (hwhite : node ∉ black) :
    G.Finished path black [node] (visit G n path black node) := by
  induction n generalizing path black node with
  | zero =>
    -- the path would be longer than there are nodes
    have := hpath.length_le
    simp only [List.length_cons] at this
    omega
  | succ n ih =>
    have hround : ∀ pred ∈ G.succ node, ∀ black, G.Searched (node :: path) black →
        G.Finished (node :: path) black [pred]
          (if pred = node then .error [node, node]
          else if pred ∈ path then .error (closeCycle (node :: path) pred)
          else if pred ∈ black then .ok black
          else visit G n (node :: path) black pred) := by
      intro pred hedge black hblack
      split_ifs with h₁ h₂ h₃
      · subst h₁
        exact ⟨pred, [], rfl, List.isChain_pair.mpr hedge⟩
      · exact hpath.isCycle (List.mem_cons_of_mem _ h₂) hedge
      · exact ⟨hblack, fun x hx => List.mem_singleton.mp hx ▸ h₃, fun x hx => hx⟩
      · have hoff : pred ∉ node :: path := by simp [h₁, h₂]
        refine ih (by simp only [List.length_cons]; omega)
          (hpath.cons (G.target hedge) hoff fun y hy => ?_) hblack h₃
        obtain rfl : node = y := by simpa using hy
        exact hedge
    have hnode : node ∉ path := (List.nodup_cons.mp hpath.nodup).1
    have hloop := finished_foldlM hround
      ⟨hblack.ordered, hblack.nodes, fun x hx => (List.mem_cons.mp hx).elim
        (fun h => h ▸ hwhite) (hblack.off x)⟩
    rw [visit]
    simp only [bind, Except.bind, pure, Except.pure]
    split
    · next heq =>
      rw [heq] at hloop
      exact hloop
    · next black' heq =>
      rw [heq] at hloop
      obtain ⟨hs, hmem, hsub⟩ := hloop
      refine ⟨⟨⟨hmem, hs.off node (List.mem_cons_self ..), hs.ordered⟩, fun x hx => ?_,
        fun x hx => ?_⟩, fun x hx => ?_, fun x hx => List.mem_cons_of_mem _ (hsub x hx)⟩
      · rcases List.mem_cons.mp hx with rfl | hx
        · exact hpath.nodes x (List.mem_cons_self ..)
        · exact hs.nodes x hx
      · rw [List.mem_cons, not_or]
        exact ⟨fun h => hnode (h ▸ hx), hs.off x (List.mem_cons_of_mem _ hx)⟩
      · exact List.mem_singleton.mp hx ▸ List.mem_cons_self ..

theorem finished_findCycle (G : SuccGraph α) : G.Finished [] [] G.nodes (findCycle G) := by
  refine finished_foldlM (fun node hnode black hblack => ?_)
    ⟨trivial, fun x hx => absurd hx List.not_mem_nil, fun x hx => absurd hx List.not_mem_nil⟩
  split_ifs with h
  · exact ⟨hblack, fun x hx => List.mem_singleton.mp hx ▸ h, fun x hx => hx⟩
  · refine finished_visit (by simp) ⟨.singleton _, by simp, fun x hx => ?_⟩ hblack h
    exact List.mem_singleton.mp hx ▸ hnode

/-- A search that ends has put all nodes in order. -/
theorem findCycle_eq_ok {order : List α} (h : findCycle G = .ok order) :
    G.Ordered order ∧ (∀ x ∈ G.nodes, x ∈ order) ∧ G.Acyclic := by
  have hf := finished_findCycle G
  rw [h] at hf
  obtain ⟨hs, hmem, -⟩ := hf
  refine ⟨hs.ordered, hmem, fun x hx => ?_⟩
  obtain ⟨y, hxy, -⟩ := TransGen.head'_iff.mp hx
  exact hs.ordered.acyclic (hmem x (G.source hxy)) hx

/-- What is reported is a cycle. -/
theorem findCycle_eq_error {members : List α} (h : findCycle G = .error members) :
    G.IsCycle members := by
  have hf := finished_findCycle G
  rwa [h] at hf

/-- The search ends exactly on the acyclic graphs. -/
theorem findCycle_eq_ok_iff (G : SuccGraph α) : (∃ order, findCycle G = .ok order) ↔ G.Acyclic := by
  constructor
  · rintro ⟨order, h⟩
    exact (findCycle_eq_ok h).2.2
  · intro hacyc
    cases h : findCycle G with
    | ok order => exact ⟨order, rfl⟩
    | error members =>
      obtain ⟨x, hx⟩ := (findCycle_eq_error h).transGen
      exact absurd hx (hacyc x)

end

end SuccGraph
