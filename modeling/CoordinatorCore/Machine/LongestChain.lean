import CoordinatorCore.Machine.Kahn
import Mathlib.Data.List.Chain

/-!
# Longest chains

The longest chain of edges through the nodes of an ordered list, by relaxing the edges of one node
after the other and walking back from a node with the greatest length. Among several such nodes the
greatest is taken, so the result depends on the graph only (`Same.longestChain_eq`).

`longestChain_spec`: the result is a chain, and none is longer.
-/

namespace SuccGraph

variable {α : Type*}

/-- For every node the length of the longest chain found that ends there, and the node before it in
that chain. -/
structure Chains (α : Type*) where
  dist : α → ℕ
  predecessor : α → Option α

namespace Chains

/-- At the start every node is a chain of its own. -/
def start : Chains α := ⟨fun _ => 1, fun _ => none⟩

variable [DecidableEq α]

/-- One edge from `node`, relaxed when it ends in the list. -/
def relax (order : List α) (node : α) (st : Chains α) (child : α) : Chains α :=
  if child ∈ order ∧ st.dist child < st.dist node + 1 then
    ⟨Function.update st.dist child (st.dist node + 1),
      Function.update st.predecessor child (some node)⟩
  else st

/-- The edges of one node. -/
def relaxNode (G : SuccGraph α) (order : List α) (st : Chains α) (node : α) : Chains α :=
  (G.succ node).foldl (relax order node) st

end Chains

/-- The chains found when the edges of every node are relaxed. -/
def longestChains [DecidableEq α] (G : SuccGraph α) (order : List α) : Chains α :=
  order.foldl (Chains.relaxNode G order) Chains.start

/-- The node with the longer chain, the greater node when the chains are as long. -/
def laterEnd [LE α] [DecidableLE α] (dist : α → ℕ) (best x : α) : α :=
  if dist best < dist x ∨ dist best = dist x ∧ ¬ x ≤ best then x else best

/-- A node at the end of a longest chain. -/
def endNode [LE α] [DecidableLE α] (dist : α → ℕ) : List α → Option α
  | [] => none
  | x :: l => some (l.foldl (laterEnd dist) x)

/-- The way back from a node, for as many nodes as the chain has. -/
def walkBack (predecessor : α → Option α) : ℕ → Option α → List α
  | n + 1, some x => x :: walkBack predecessor n (predecessor x)
  | _, _ => []

/-- A longest chain through the nodes of the list. -/
def longestChain [DecidableEq α] [LE α] [DecidableLE α] (G : SuccGraph α) (order : List α) :
    List α :=
  let st := longestChains G order
  match endNode st.dist order with
  | none => []
  | some x => (walkBack st.predecessor (st.dist x) (some x)).reverse

/-! ### The edges of one node -/

section

variable [DecidableEq α] {G : SuccGraph α} {order : List α} {node : α}

/-- What relaxing the edges of a node changes. -/
theorem Chains.foldl_relax (order l : List α) (hself : node ∉ l) (st : Chains α) :
    (l.foldl (relax order node) st).dist = (fun c =>
        if c ∈ l ∧ c ∈ order ∧ st.dist c < st.dist node + 1 then st.dist node + 1
        else st.dist c) ∧
      (l.foldl (relax order node) st).predecessor = fun c =>
        if c ∈ l ∧ c ∈ order ∧ st.dist c < st.dist node + 1 then some node
        else st.predecessor c := by
  induction l generalizing st with
  | nil => simp
  | cons child l ih =>
    rw [List.mem_cons, not_or] at hself
    obtain ⟨hchild, hself⟩ := hself
    obtain ⟨hdist, hpred⟩ := ih hself (relax order node st child)
    rw [List.foldl_cons, hdist, hpred, relax]
    split_ifs with hrelax
    · -- the child has the length of the new chain, and keeps it
      simp only [Function.update_of_ne hchild]
      constructor
      all_goals
        funext c
        by_cases hc : c = child
        · subst hc
          simp [hrelax]
        · simp [hc]
    · constructor
      all_goals
        funext c
        by_cases hc : c = child
        · subst hc
          rw [if_neg fun h => hrelax h.2, if_neg fun h => hrelax h.2]
        · simp [hc]

/-! ### The invariant -/

/-- What relaxing the edges of the nodes `done` has found. -/
structure Chains.Inv (G : SuccGraph α) (order done : List α) (st : Chains α) : Prop where
  first : ∀ c, st.predecessor c = none → st.dist c = 1
  back : ∀ c p, st.predecessor c = some p → p ∈ done ∧ G.Edge p c ∧ st.dist c = st.dist p + 1
  bound : ∀ x ∈ done, ∀ c ∈ order, G.Edge x c → st.dist x + 1 ≤ st.dist c

theorem Chains.Inv.relaxNode (hord : Kahn.Ordered G order) (hnodup : order.Nodup)
    {done rest : List α} (hsplit : order = done ++ node :: rest) {st : Chains α}
    (h : Inv G order done st) : Inv G order (done ++ [node]) (Chains.relaxNode G order st node) := by
  have hnew : node ∉ done := by
    intro hmem
    rw [hsplit] at hnodup
    exact (List.nodup_append.mp hnodup).2.2 node hmem node (List.mem_cons_self ..) rfl
  -- no edge leads from the node to one that is done
  have hback : ∀ c ∈ done ++ [node], ¬ G.Edge node c := by
    intro c hc hedge
    rcases List.mem_append.mp hc with hc | hc
    · obtain ⟨a, b, rfl⟩ := List.append_of_mem hc
      rw [List.append_assoc, List.cons_append] at hsplit
      exact hnew (List.mem_append_left _ (hord a c _ hsplit node hedge))
    · rw [List.mem_singleton.mp hc] at hedge
      exact hnew (hord done node rest hsplit node hedge)
  obtain ⟨hdist, hpred⟩ := foldl_relax order (G.succ node)
    (hback node (by simp)) st
  have hkeep : ∀ c ∈ done ++ [node], (Chains.relaxNode G order st node).dist c = st.dist c := by
    intro c hc
    rw [Chains.relaxNode, hdist]
    exact if_neg fun h => hback c hc h.1
  have hmono : ∀ c, st.dist c ≤ (Chains.relaxNode G order st node).dist c := by
    intro c
    rw [Chains.relaxNode, hdist]
    dsimp only
    split_ifs with hrelax
    · exact hrelax.2.2.le
    · exact le_rfl
  refine ⟨fun c hc => ?_, fun c p hc => ?_, fun x hx c hc hedge => ?_⟩
  · rw [Chains.relaxNode] at hc ⊢
    rw [hpred] at hc
    rw [hdist]
    dsimp only at hc ⊢
    split_ifs at hc ⊢
    exact h.first c hc
  · have hdone : p ∈ done ++ [node] ∧ G.Edge p c ∧
        (Chains.relaxNode G order st node).dist c = st.dist p + 1 := by
      rw [Chains.relaxNode] at hc ⊢
      rw [hpred] at hc
      rw [hdist]
      dsimp only at hc ⊢
      split_ifs at hc ⊢ with hrelax
      · obtain rfl := Option.some.inj hc
        exact ⟨by simp, hrelax.1, rfl⟩
      · obtain ⟨hp, hedge, hlen⟩ := h.back c p hc
        exact ⟨List.mem_append_left _ hp, hedge, hlen⟩
    exact ⟨hdone.1, hdone.2.1, by rw [hdone.2.2, hkeep p hdone.1]⟩
  · rw [hkeep x hx]
    rcases List.mem_append.mp hx with hx | hx
    · exact (h.bound x hx c hc hedge).trans (hmono c)
    · obtain rfl := List.mem_singleton.mp hx
      rw [Chains.relaxNode, hdist]
      dsimp only
      split_ifs with hrelax
      · exact le_rfl
      · have : ¬ st.dist c < st.dist x + 1 := fun hlt => hrelax ⟨hedge, hc, hlt⟩
        omega

theorem inv_longestChains (hord : Kahn.Ordered G order) (hnodup : order.Nodup) :
    Chains.Inv G order order (longestChains G order) := by
  have hfold : ∀ rest done : List α, ∀ st, order = done ++ rest → Chains.Inv G order done st →
      Chains.Inv G order order (rest.foldl (Chains.relaxNode G order) st) := by
    intro rest
    induction rest with
    | nil =>
      intro done st hsplit h
      rw [List.append_nil] at hsplit
      exact hsplit ▸ h
    | cons node rest ih =>
      intro done st hsplit h
      refine ih (done ++ [node]) _ ?_ (h.relaxNode hord hnodup hsplit)
      rw [hsplit, List.append_assoc, List.singleton_append]
  refine hfold order [] _ rfl ⟨fun _ _ => rfl, fun c p hc => ?_, fun x hx => ?_⟩
  · cases hc
  · exact absurd hx List.not_mem_nil

/-! ### The chain found -/

/-- A chain of edges. -/
abbrev IsEdgeChain (G : SuccGraph α) (q : List α) : Prop := q.IsChain G.Edge

theorem one_le_dist (hord : Kahn.Ordered G order) (hnodup : order.Nodup) (c : α) :
    1 ≤ (longestChains G order).dist c := by
  have hinv := inv_longestChains hord hnodup
  cases hpred : (longestChains G order).predecessor c with
  | none => exact (hinv.first c hpred).ge
  | some p =>
    rw [(hinv.back c p hpred).2.2]
    exact Nat.le_add_left ..

/-- No chain that ends at a node is longer than the one found, read from its end. -/
theorem length_le_dist (hord : Kahn.Ordered G order) (hnodup : order.Nodup) {c : α} {l : List α}
    (hchain : (c :: l).IsChain fun y x => G.Edge x y) (hmem : ∀ x ∈ c :: l, x ∈ order) :
    (c :: l).length ≤ (longestChains G order).dist c := by
  induction l generalizing c with
  | nil => exact one_le_dist hord hnodup c
  | cons p l ih =>
    obtain ⟨hedge, hrest⟩ := List.isChain_cons_cons.mp hchain
    have hle := ih hrest fun x hx => hmem x (List.mem_cons_of_mem _ hx)
    have hbound := (inv_longestChains hord hnodup).bound p (hmem p (by simp)) c
      (hmem c (by simp)) hedge
    rw [List.length_cons]
    omega

/-- The walk back from a node is a chain of the length found, and ends at a node without a
predecessor. -/
theorem walkBack_spec (hord : Kahn.Ordered G order) (hnodup : order.Nodup) {n : ℕ} {x : α}
    (hx : x ∈ order) (hn : (longestChains G order).dist x = n + 1) :
    ∃ l, walkBack (longestChains G order).predecessor (n + 1) (some x) = x :: l ∧
      l.length = n ∧ ((x :: l).IsChain fun y x => G.Edge x y) ∧ (∀ y ∈ x :: l, y ∈ order) ∧
        ∀ y ∈ (x :: l).getLast?, (longestChains G order).predecessor y = none := by
  have hinv := inv_longestChains hord hnodup
  induction n generalizing x with
  | zero =>
    have hnone : (longestChains G order).predecessor x = none := by
      rw [Option.eq_none_iff_forall_ne_some]
      intro p hp
      have hback := (hinv.back x p hp).2.2
      have hpos := one_le_dist hord hnodup p
      omega
    refine ⟨[], by rw [walkBack, hnone]; rfl, rfl, List.isChain_singleton x, ?_, ?_⟩
    · simpa using hx
    · simpa using hnone
  | succ n ih =>
    cases hpred : (longestChains G order).predecessor x with
    | none =>
      have := hinv.first x hpred
      omega
    | some p =>
      obtain ⟨hp, hedge, hlen⟩ := hinv.back x p hpred
      obtain ⟨l, hwalk, hl, hchain, hmem, hlast⟩ := ih hp (by omega)
      refine ⟨p :: l, by rw [walkBack, hpred, hwalk], by rw [List.length_cons, hl],
        List.isChain_cons_cons.mpr ⟨hedge, hchain⟩, ?_, ?_⟩
      · exact List.forall_mem_cons.mpr ⟨hx, hmem⟩
      · rwa [List.getLast?_cons_cons]

variable [LE α] [DecidableLE α]

omit [DecidableEq α] in
theorem endNode_spec {dist : α → ℕ} {l : List α} {x : α} (h : endNode dist l = some x) :
    x ∈ l ∧ ∀ y ∈ l, dist y ≤ dist x := by
  have hfold : ∀ (l : List α) (best : α), l.foldl (laterEnd dist) best ∈ best :: l ∧
      ∀ y ∈ best :: l, dist y ≤ dist (l.foldl (laterEnd dist) best) := by
    intro l
    induction l with
    | nil => simp
    | cons z l ih =>
      intro best
      obtain ⟨hmem, hmax⟩ := ih (laterEnd dist best z)
      have hlater : (laterEnd dist best z = best ∨ laterEnd dist best z = z) ∧
          dist best ≤ dist (laterEnd dist best z) ∧ dist z ≤ dist (laterEnd dist best z) := by
        rw [laterEnd]
        split_ifs with hif
        · refine ⟨Or.inr rfl, ?_, le_rfl⟩
          omega
        · refine ⟨Or.inl rfl, le_rfl, ?_⟩
          omega
      have hbest := hmax _ (List.mem_cons_self ..)
      rw [List.foldl_cons]
      refine ⟨?_, fun y hy => ?_⟩
      · rcases List.mem_cons.mp hmem with hmem | hmem
        · rw [hmem]
          rcases hlater.1 with heq | heq
          · simp [heq]
          · simp [heq]
        · exact List.mem_cons_of_mem _ (List.mem_cons_of_mem _ hmem)
      · rcases List.mem_cons.mp hy with rfl | hy
        · omega
        · rcases List.mem_cons.mp hy with rfl | hy
          · omega
          · exact hmax y (List.mem_cons_of_mem _ hy)
  cases l with
  | nil => cases h
  | cons z l =>
    obtain rfl := Option.some.inj h
    exact hfold l z

/-- The result is a chain through the nodes of the list, and no such chain is longer. -/
theorem longestChain_spec (hord : Kahn.Ordered G order) (hnodup : order.Nodup) :
    (G.IsEdgeChain (G.longestChain order) ∧ ∀ x ∈ G.longestChain order, x ∈ order) ∧
      ∀ q, G.IsEdgeChain q → (∀ x ∈ q, x ∈ order) → q.length ≤ (G.longestChain order).length := by
  rw [longestChain]
  cases hend : endNode (longestChains G order).dist order with
  | none =>
    have hnil : order = [] := by
      cases horder : order with
      | nil => rfl
      | cons x l => rw [horder] at hend; cases hend
    refine ⟨⟨List.isChain_nil, fun x hx => absurd hx List.not_mem_nil⟩, fun q _ hq => ?_⟩
    cases q with
    | nil => exact le_rfl
    | cons x q => exact absurd (hnil ▸ hq x (List.mem_cons_self ..)) List.not_mem_nil
  | some x =>
    obtain ⟨hx, hmax⟩ := endNode_spec hend
    obtain ⟨n, hn⟩ := Nat.exists_eq_add_of_le' (one_le_dist hord hnodup x)
    obtain ⟨l, hwalk, hl, hchain, hmem, -⟩ := walkBack_spec hord hnodup hx hn
    dsimp only
    rw [hn, hwalk]
    refine ⟨⟨List.isChain_reverse.mpr hchain, fun y hy => hmem y (List.mem_reverse.mp hy)⟩,
      fun q hq hmemq => ?_⟩
    rw [List.length_reverse, List.length_cons, hl, ← hn]
    -- a chain read from its end
    have hback : q.reverse.IsChain fun y x => G.Edge x y := List.isChain_reverse.mpr hq
    rw [← List.length_reverse]
    cases hrev : q.reverse with
    | nil => exact Nat.zero_le _
    | cons c l' =>
      have hmemq' : ∀ y ∈ c :: l', y ∈ order := fun y hy =>
        hmemq y (List.mem_reverse.mp (hrev ▸ hy))
      rw [hrev] at hback
      exact (length_le_dist hord hnodup hback hmemq').trans
        (hmax c (hmemq' c (List.mem_cons_self ..)))

/-- The result does not depend on the order in which edges are listed. -/
theorem Same.longestChain_eq {G' : SuccGraph α} (h : Same G G') (hord : Kahn.Ordered G order)
    (hnodup : order.Nodup) : G.longestChain order = G'.longestChain order := by
  have hchains : longestChains G order = longestChains G' order := by
    refine List.foldl_ext _ _ _ fun st node hnode => ?_
    have hself : node ∉ G.succ node := by
      intro hedge
      obtain ⟨a, b, hsplit⟩ := List.append_of_mem hnode
      rw [hsplit] at hnodup
      exact (List.nodup_append.mp hnodup).2.2 node (hord a node b hsplit node hedge) node
        (List.mem_cons_self ..) rfl
    obtain ⟨hdist, hpred⟩ := Chains.foldl_relax order (G.succ node) hself st
    obtain ⟨hdist', hpred'⟩ := Chains.foldl_relax order (G'.succ node)
      (fun hedge => hself ((h.succ node).mem_iff.mpr hedge)) st
    simp only [← (h.succ node).mem_iff] at hdist' hpred'
    rw [Chains.relaxNode, Chains.relaxNode]
    calc (G.succ node).foldl (Chains.relax order node) st
        = ⟨((G.succ node).foldl (Chains.relax order node) st).dist,
            ((G.succ node).foldl (Chains.relax order node) st).predecessor⟩ := rfl
      _ = (G'.succ node).foldl (Chains.relax order node) st := by
          rw [hdist, hpred, ← hdist', ← hpred']
  rw [longestChain, longestChain, hchains]

end

end SuccGraph
