import CoordinatorCore.Machine.SuccGraph
import Mathlib.Algebra.BigOperators.Group.List.Basic
import Mathlib.Order.Std

/-!
# Kahn's order

A breadth-first topological sort by counting: a node comes once every edge into it starts at a node
taken before. Nodes that become ready together are taken in their own order, so the result does not
depend on the order in which the graph lists its nodes and edges (`kahn_congr`). Edges may be listed
more than once.

The order holds the nodes that are not behind a cycle (`mem_kahn_iff`), each behind its
predecessors (`Ordered`). Nodes on a cycle are missing, and so is everything they lead to.
-/

open Relation

namespace SuccGraph

/-- The nodes taken, those that are ready, and for every node how many edges into it start at a
node not taken. -/
structure Kahn (α : Type*) where
  remaining : α → ℤ
  queue : List α
  order : List α

variable {α : Type*}

namespace Kahn

section

variable [LE α] [DecidableLE α]

/-- A list in the order of its elements. -/
def sorted (l : List α) : List α := l.mergeSort fun a b => decide (a ≤ b)

@[simp] theorem mem_sorted {l : List α} {x : α} : x ∈ sorted l ↔ x ∈ l := List.mem_mergeSort

/-- Sorting repeats nothing. -/
theorem nodup_sorted {l : List α} : (sorted l).Nodup ↔ l.Nodup :=
  (List.mergeSort_perm ..).nodup_iff

/-- Sorting forgets the order. -/
theorem sorted_eq_of_perm [Std.IsLinearOrder α] {l l' : List α} (h : l.Perm l') :
    sorted l = sorted l' := by
  have hsorted : ∀ l : List α, (sorted l).Pairwise fun a b => a ≤ b := by
    intro l
    have hpair : (sorted l).Pairwise fun a b => decide (a ≤ b) = true :=
      List.pairwise_mergeSort (fun a b c hab hbc => by
        simp only [decide_eq_true_eq] at hab hbc ⊢
        exact Std.le_trans hab hbc) (fun a b => by
        simpa using (Std.le_total : a ≤ b ∨ b ≤ a)) l
    exact hpair.imp fun hab => of_decide_eq_true hab
  refine List.Perm.eq_of_pairwise (fun a b _ _ hab hba => Std.le_antisymm hab hba) (hsorted l)
    (hsorted l') ?_
  exact ((List.mergeSort_perm l _).trans h).trans (List.mergeSort_perm l' _).symm

end

end Kahn

variable [DecidableEq α]

/-- The number of edges into a node. -/
def inDegree (G : SuccGraph α) (c : α) : ℤ := (G.nodes.flatMap G.succ).count c

/-- The in-degree counts the edges to a node. -/
theorem inDegree_eq_countP (G : SuccGraph α) (c : α) :
    G.inDegree c = (G.nodes.flatMap G.succ).countP fun x => x = c := rfl

namespace Kahn

/-- One edge of the node taken. -/
def decrement (acc : (α → ℤ) × List α) (child : α) : (α → ℤ) × List α :=
  let r := acc.1 child - 1
  (Function.update acc.1 child r, if r = 0 then acc.2 ++ [child] else acc.2)

variable [LE α] [DecidableLE α]

/-- The first ready node is taken. -/
def step (G : SuccGraph α) (st : Kahn α) : Option (Kahn α) :=
  match st.queue with
  | [] => none
  | node :: queue =>
    let r := (G.succ node).foldl decrement (st.remaining, [])
    some ⟨r.1, queue ++ sorted r.2, st.order ++ [node]⟩

/-- At the start the nodes without a predecessor are ready. -/
def start (G : SuccGraph α) : Kahn α :=
  ⟨G.inDegree, sorted (G.nodes.filter fun x => G.inDegree x = 0), []⟩

/-- Some rounds, fewer when no node is ready. -/
def rounds (G : SuccGraph α) : ℕ → Kahn α → Kahn α
  | 0, st => st
  | n + 1, st =>
    match step G st with
    | none => st
    | some st' => rounds G n st'

end Kahn

variable [LE α] [DecidableLE α]

/-- The order in which the nodes are taken. No node is taken twice. -/
def kahn (G : SuccGraph α) : List α := (Kahn.rounds G G.nodes.length (Kahn.start G)).order

/-! ### One round -/

namespace Kahn

omit [LE α] [DecidableLE α] in
/-- What the edges of one node change: each counts, and a child is new when its last edge goes. -/
theorem foldl_decrement (l : List α) (rem : α → ℤ) (acc : List α) :
    ∃ new, l.foldl decrement (rem, acc) = (fun c => rem c - l.count c, acc ++ new) ∧ new.Nodup ∧
      ∀ c, c ∈ new ↔ 0 < rem c ∧ rem c ≤ l.count c := by
  induction l generalizing rem acc with
  | nil =>
    refine ⟨[], by simp, List.nodup_nil, fun c => ?_⟩
    simp only [List.not_mem_nil, List.count_nil, Int.natCast_zero, false_iff, not_and]
    omega
  | cons child l ih =>
    have hrem : ∀ c, Function.update rem child (rem child - 1) c =
        rem c - if child = c then 1 else 0 := by
      intro c
      rw [Function.update_apply]
      split_ifs with h₁ h₂ h₂
      · rw [h₁]
      · exact absurd h₁.symm h₂
      · exact absurd h₂.symm h₁
      · rw [sub_zero]
    have hcount : ∀ c, ((child :: l).count c : ℤ) = l.count c + if child = c then 1 else 0 := by
      intro c
      rw [List.count_cons]
      by_cases h : child = c <;> simp [h]
    obtain ⟨new, hnew, hnodup, hmem⟩ := ih (Function.update rem child (rem child - 1))
      (if rem child - 1 = 0 then acc ++ [child] else acc)
    have hfun : (fun c => Function.update rem child (rem child - 1) c - (l.count c : ℤ)) =
        fun c => rem c - ((child :: l).count c : ℤ) := by
      funext c
      rw [hrem, hcount]
      omega
    rw [List.foldl_cons, decrement, hnew, hfun]
    have hiff : ∀ c, c ∈ new ↔ 0 < rem c - (if child = c then 1 else 0) ∧
        rem c - (if child = c then 1 else 0) ≤ l.count c := fun c => by rw [hmem, hrem]
    by_cases hlast : rem child - 1 = 0
    · -- the child's last edge
      refine ⟨child :: new, by rw [if_pos hlast, List.append_assoc, List.singleton_append], ?_,
        fun c => ?_⟩
      · refine List.nodup_cons.mpr ⟨fun h => ?_, hnodup⟩
        have := ((hiff child).mp h).1
        rw [if_pos rfl] at this
        omega
      · rw [List.mem_cons, hiff, hcount]
        by_cases hc : child = c
        · subst hc
          simp only [if_true, true_or, true_iff]
          omega
        · simp only [hc, if_false, Ne.symm hc, false_or, sub_zero, add_zero]
    · refine ⟨new, by rw [if_neg hlast], hnodup, fun c => ?_⟩
      rw [hiff, hcount]
      by_cases hc : child = c
      · subst hc
        simp only [if_true]
        omega
      · simp only [hc, if_false, sub_zero, add_zero]

/-! ### The invariant -/

/-- Every node of the list comes behind its predecessors. -/
def Ordered (G : SuccGraph α) (l : List α) : Prop :=
  ∀ a c b, l = a ++ c :: b → ∀ x, G.Edge x c → x ∈ a

omit [DecidableEq α] [LE α] [DecidableLE α] in
/-- A node behind its predecessors keeps the order. -/
theorem Ordered.concat {G : SuccGraph α} {l : List α} (h : Ordered G l) {node : α}
    (hnode : ∀ x, G.Edge x node → x ∈ l) : Ordered G (l ++ [node]) := by
  intro a c b hsplit x hx
  rcases List.eq_nil_or_concat b with rfl | ⟨b', last, rfl⟩
  · obtain ⟨rfl, hlast⟩ := List.append_inj' hsplit rfl
    obtain rfl := (List.cons.inj hlast).1
    exact hnode x hx
  · rw [List.concat_eq_append, ← List.cons_append, ← List.append_assoc] at hsplit
    exact h a c b' (List.append_inj' hsplit rfl).1 x hx

/-- What the rounds keep. -/
structure Inv (G : SuccGraph α) (st : Kahn α) : Prop where
  nodup : (st.order ++ st.queue).Nodup
  nodes : ∀ x ∈ st.order ++ st.queue, x ∈ G.nodes
  count : ∀ c, st.remaining c = ((G.nodes.filter fun x => x ∉ st.order).flatMap G.succ).count c
  ready : ∀ c ∈ G.nodes, c ∈ st.order ++ st.queue ↔ st.remaining c = 0
  ordered : Ordered G st.order

variable {G : SuccGraph α} {st : Kahn α}

/-- The invariant holds at the start. -/
theorem inv_start (hnodes : G.nodes.Nodup) : Inv G (start G) where
  nodup := nodup_sorted.mpr (hnodes.filter _)
  nodes x hx := List.mem_of_mem_filter (mem_sorted.mp hx)
  count c := by simp [start, inDegree]
  ready c hc := by simp [start, hc]
  ordered a c b hsplit := absurd hsplit (by simp [start])

omit [LE α] [DecidableLE α] in
/-- A node is ready when all its predecessors are taken. -/
theorem remaining_eq_zero_iff {order : List α} {c : α} :
    (((G.nodes.filter fun x => x ∉ order).flatMap G.succ).count c : ℤ) = 0 ↔
      ∀ x, G.Edge x c → x ∈ order := by
  rw [Int.natCast_eq_zero, List.count_eq_zero, List.mem_flatMap]
  simp only [List.mem_filter, decide_eq_true_eq, not_exists, not_and, and_imp]
  constructor
  · intro h x hx
    by_contra hnot
    exact h x (G.source hx) hnot hx
  · exact fun h x _ hnot hx => hnot (h x hx)

omit [LE α] [DecidableLE α] in
/-- Taking a node takes its edges off the count. -/
theorem count_take {node : α} {order : List α} (hnodes : G.nodes.Nodup) (hmem : node ∈ G.nodes)
    (hnew : node ∉ order) (c : α) :
    ((G.nodes.filter fun x => x ∉ order).flatMap G.succ).count c =
      (G.succ node).count c +
        ((G.nodes.filter fun x => x ∉ order ++ [node]).flatMap G.succ).count c := by
  have hperm : (G.nodes.filter fun x => x ∉ order).Perm
      (node :: G.nodes.filter fun x => x ∉ order ++ [node]) := by
    refine (List.perm_ext_iff_of_nodup (hnodes.filter _) (List.nodup_cons.mpr ⟨?_,
      hnodes.filter _⟩)).mpr fun x => ?_
    · simp
    · simp only [List.mem_filter, List.mem_cons, decide_eq_true_eq, List.mem_append,
        List.not_mem_nil, or_false, not_or]
      constructor
      · rintro ⟨hx, hnot⟩
        by_cases heq : x = node
        · exact Or.inl heq
        · exact Or.inr ⟨hx, hnot, heq⟩
      · rintro (rfl | ⟨hx, hnot, -⟩)
        · exact ⟨hmem, hnew⟩
        · exact ⟨hx, hnot⟩
  rw [(hperm.flatMap_right _).count_eq, List.flatMap_cons, List.count_append]

/-- Taking a node from the queue keeps the invariant. -/
theorem Inv.step (h : Inv G st) (hnodes : G.nodes.Nodup) {st' : Kahn α}
    (hstep : Kahn.step G st = some st') : Inv G st' := by
  rw [Kahn.step] at hstep
  split at hstep
  · cases hstep
  next node queue hqueue =>
  obtain rfl := Option.some.inj hstep
  obtain ⟨new, hnew, hnodup, hmem⟩ := foldl_decrement (G.succ node) st.remaining []
  have hall := h.nodup
  rw [hqueue] at hall
  have hin : node ∈ st.order ++ st.queue := by rw [hqueue]; simp
  have hnode : node ∉ st.order := by
    intro hmem
    exact (List.nodup_append.mp hall).2.2 node hmem node (List.mem_cons_self ..) rfl
  have hcount : ∀ c, st.remaining c - ((G.succ node).count c : ℤ) =
      ((G.nodes.filter fun x => x ∉ st.order ++ [node]).flatMap G.succ).count c := by
    intro c
    have := count_take hnodes (h.nodes node hin) hnode c
    have hc := h.count c
    omega
  -- a child becomes ready with the last edge into it
  have hfresh : ∀ c, c ∈ new ↔ 0 < st.remaining c ∧
      st.remaining c - ((G.succ node).count c : ℤ) = 0 := by
    intro c
    have := hcount c
    rw [hmem]
    omega
  have hnodes' : ∀ c ∈ new, c ∈ G.nodes := by
    intro c hc
    have hpos := (hfresh c).mp hc
    refine G.target (x := node) (List.count_pos_iff.mp ?_)
    omega
  have hdisjoint : ∀ c ∈ new, c ∉ st.order ++ node :: queue := by
    intro c hc hold
    rw [← hqueue] at hold
    have := (h.ready c (hnodes' c hc)).mp hold
    have := ((hfresh c).mp hc).1
    omega
  rw [hnew, List.nil_append]
  exact {
    nodup := by
      rw [List.append_assoc, List.singleton_append, ← List.cons_append, ← List.append_assoc]
      refine List.nodup_append.mpr ⟨hall, nodup_sorted.mpr hnodup, fun a ha b hb => ?_⟩
      rintro rfl
      exact hdisjoint a (mem_sorted.mp hb) ha
    nodes := by
      intro x hx
      simp only [List.mem_append, mem_sorted, List.mem_singleton] at hx
      rcases hx with (hx | rfl) | hx | hx
      · exact h.nodes x (List.mem_append_left _ hx)
      · exact h.nodes x hin
      · exact h.nodes x (List.mem_append_right _ (hqueue ▸ List.mem_cons_of_mem _ hx))
      · exact hnodes' x hx
    count := hcount
    ready := by
      intro c hc
      have hsplit : c ∈ (st.order ++ [node]) ++ (queue ++ sorted new) ↔
          c ∈ st.order ++ st.queue ∨ c ∈ new := by
        rw [hqueue]
        simp only [List.mem_append, List.mem_cons, mem_sorted, List.not_mem_nil, or_false]
        tauto
      have hrem := h.count c
      have hrem' := hcount c
      rw [hsplit, h.ready c hc, hfresh]
      dsimp only
      omega
    ordered := by
      refine h.ordered.concat fun x hx => ?_
      have hzero := (h.ready node (h.nodes node hin)).mp hin
      rw [h.count] at hzero
      exact remaining_eq_zero_iff.mp hzero x hx }

/-! ### The last round -/

omit [LE α] [DecidableLE α] in
/-- What is ordered or queued are nodes, each once. -/
theorem Inv.length_le (h : Inv G st) : (st.order ++ st.queue).length ≤ G.nodes.length :=
  (List.subperm_of_subset h.nodup h.nodes).length_le

/-- With a round for every node not taken yet, no node is ready at the end. -/
theorem Inv.rounds (h : Inv G st) (hnodes : G.nodes.Nodup) {n : ℕ}
    (hn : G.nodes.length ≤ n + st.order.length) :
    Inv G (Kahn.rounds G n st) ∧ (Kahn.rounds G n st).queue = [] := by
  induction n generalizing st with
  | zero =>
    refine ⟨h, List.length_eq_zero_iff.mp ?_⟩
    have hle := h.length_le
    rw [List.length_append] at hle
    show st.queue.length = 0
    omega
  | succ n ih =>
    rw [Kahn.rounds]
    split
    · next hnone =>
      refine ⟨h, ?_⟩
      rw [Kahn.step] at hnone
      split at hnone
      · assumption
      · cases hnone
    · next st' hstep =>
      refine ih (h.step hnodes hstep) ?_
      rw [Kahn.step] at hstep
      split at hstep
      · cases hstep
      · obtain rfl := Option.some.inj hstep
        rw [List.length_append, List.length_singleton]
        omega

end Kahn

variable {G : SuccGraph α}

/-- The loop ends with an empty queue and the invariant. -/
theorem kahn_spec (hnodes : G.nodes.Nodup) : ∃ st, Kahn.Inv G st ∧ st.queue = [] ∧
    st.order = G.kahn := by
  obtain ⟨hinv, hqueue⟩ := (Kahn.inv_start hnodes).rounds hnodes (n := G.nodes.length)
    (Nat.le_add_right _ _)
  exact ⟨_, hinv, hqueue, rfl⟩

/-- No node is ordered twice. -/
theorem nodup_kahn (hnodes : G.nodes.Nodup) : G.kahn.Nodup := by
  obtain ⟨st, hinv, -, horder⟩ := kahn_spec hnodes
  exact horder ▸ (List.nodup_append.mp hinv.nodup).1

/-- Every node comes behind its predecessors. -/
theorem ordered_kahn (hnodes : G.nodes.Nodup) : Kahn.Ordered G G.kahn := by
  obtain ⟨st, hinv, -, horder⟩ := kahn_spec hnodes
  exact horder ▸ hinv.ordered

/-- A node is taken when its predecessors are. -/
theorem mem_kahn_iff_forall (hnodes : G.nodes.Nodup) {c : α} :
    c ∈ G.kahn ↔ c ∈ G.nodes ∧ ∀ x, G.Edge x c → x ∈ G.kahn := by
  obtain ⟨st, hinv, hqueue, horder⟩ := kahn_spec hnodes
  have hready := hinv.ready c
  have hsub := hinv.nodes c
  rw [hqueue, List.append_nil, hinv.count, Kahn.remaining_eq_zero_iff, horder] at hready
  rw [hqueue, List.append_nil, horder] at hsub
  exact ⟨fun hc => ⟨hsub hc, (hready (hsub hc)).mp hc⟩, fun h => (hready h.1).mpr h.2⟩

/-! ### Behind a cycle -/

omit [DecidableEq α] [LE α] [DecidableLE α]

/-- The node is on a cycle, or a cycle leads to it. -/
def BehindCycle (G : SuccGraph α) (c : α) : Prop := ∃ x, TransGen G.Edge x x ∧ G.Reaches x c

/-- In an ordered list what leads to a node stands in front of it. -/
theorem Kahn.Ordered.mem_of_transGen {l : List α} (h : Kahn.Ordered G l) {a b : List α} {c : α}
    (hsplit : l = a ++ c :: b) {x : α} (hx : TransGen G.Edge x c) : x ∈ a := by
  induction hx using TransGen.head_induction_on with
  | single hedge => exact h a c b hsplit _ hedge
  | head hedge _ ih =>
    obtain ⟨a₁, a₂, rfl⟩ := List.append_of_mem ih
    rw [List.append_assoc, List.cons_append] at hsplit
    exact List.mem_append_left _ (h a₁ _ _ hsplit _ hedge)

/-- No node of an ordered list is behind a cycle. -/
theorem Kahn.Ordered.not_behindCycle {l : List α} (h : Kahn.Ordered G l) (hnodup : l.Nodup)
    {c : α} (hc : c ∈ l) : ¬ G.BehindCycle c := by
  rintro ⟨x, hx, hreach⟩
  have hmem : x ∈ l := by
    rcases reflTransGen_iff_eq_or_transGen.mp hreach with rfl | htrans
    · exact hc
    · obtain ⟨a, b, hsplit⟩ := List.append_of_mem hc
      exact hsplit ▸ List.mem_append_left _ (h.mem_of_transGen hsplit htrans)
  obtain ⟨a, b, hsplit⟩ := List.append_of_mem hmem
  rw [hsplit] at hnodup
  exact (List.nodup_append.mp hnodup).2.2 x (h.mem_of_transGen hsplit hx) x
    (List.mem_cons_self ..) rfl

variable [DecidableEq α] [LE α] [DecidableLE α]

/-- The nodes taken are those that are not behind a cycle. -/
theorem mem_kahn_iff (hnodes : G.nodes.Nodup) {c : α} :
    c ∈ G.kahn ↔ c ∈ G.nodes ∧ ¬ G.BehindCycle c := by
  refine ⟨fun hc => ⟨((mem_kahn_iff_forall hnodes).mp hc).1,
    (ordered_kahn hnodes).not_behindCycle (nodup_kahn hnodes) hc⟩, ?_⟩
  rintro ⟨hc, hbehind⟩
  -- what leads to the node is well-founded, and is taken from its beginnings on
  let E : α → α → Prop := fun x y => G.Edge y x ∧ G.Reaches x c
  have hback : ∀ {x y}, TransGen E x y → TransGen G.Edge y x ∧ G.Reaches x c := by
    intro x y hxy
    induction hxy with
    | single h => exact ⟨.single h.1, h.2⟩
    | tail _ h ih => exact ⟨.head h.1 ih.1, ih.2⟩
  have hwf : WellFounded fun y x => E x y := by
    refine wellFounded_of_acyclic G.nodes
      (fun x y hxy => ⟨G.target hxy.1, G.source hxy.1⟩) fun x hx => ?_
    exact hbehind ⟨x, (hback hx).1, (hback hx).2⟩
  have hall : ∀ x, G.Reaches x c → x ∈ G.nodes → x ∈ G.kahn := by
    intro x
    induction x using hwf.induction with
    | _ x ih =>
      intro hreach hx
      exact (mem_kahn_iff_forall hnodes).mpr ⟨hx, fun y hy =>
        ih y ⟨hy, hreach⟩ (.head hy hreach) (G.source hy)⟩
  exact hall c .refl hc

/-! ### The order of the listing -/

omit [DecidableEq α] [LE α] [DecidableLE α]

/-- Two graphs list the same nodes and edges. -/
structure Same (G G' : SuccGraph α) : Prop where
  nodes : G.nodes.Perm G'.nodes
  succ : ∀ x, (G.succ x).Perm (G'.succ x)

variable [DecidableEq α] [LE α] [DecidableLE α] [Std.IsLinearOrder α] {G' : SuccGraph α}

/-- Graphs with the same edges step in the same way. -/
theorem Same.step_eq (h : Same G G') (st : Kahn α) : Kahn.step G st = Kahn.step G' st := by
  rw [Kahn.step, Kahn.step]
  cases st.queue with
  | nil => rfl
  | cons node queue =>
    obtain ⟨new, hnew, hnodup, hmem⟩ := Kahn.foldl_decrement (G.succ node) st.remaining []
    obtain ⟨new', hnew', hnodup', hmem'⟩ := Kahn.foldl_decrement (G'.succ node) st.remaining []
    have hcount : ∀ c, (G.succ node).count c = (G'.succ node).count c := (h.succ node).count_eq
    have hperm : new.Perm new' := by
      refine (List.perm_ext_iff_of_nodup hnodup hnodup').mpr fun c => ?_
      rw [hmem, hmem', hcount]
    dsimp only
    rw [hnew, hnew', List.nil_append, List.nil_append, Kahn.sorted_eq_of_perm hperm]
    simp only [hcount]

/-- The order of the nodes does not depend on the order in which nodes and edges are listed. -/
theorem Same.kahn_eq (h : Same G G') : G.kahn = G'.kahn := by
  have hdegree : G.inDegree = G'.inDegree := by
    funext c
    have hflat : (G.nodes.flatMap G.succ).Perm (G'.nodes.flatMap G'.succ) :=
      h.nodes.flatMap fun x _ => h.succ x
    rw [inDegree, inDegree, hflat.count_eq]
  have hstart : Kahn.start G = Kahn.start G' := by
    rw [Kahn.start, Kahn.start, hdegree, Kahn.sorted_eq_of_perm (h.nodes.filter _)]
  have hrounds : ∀ n st, Kahn.rounds G n st = Kahn.rounds G' n st := by
    intro n
    induction n with
    | zero => exact fun _ => rfl
    | succ n ih =>
      intro st
      rw [Kahn.rounds, Kahn.rounds, h.step_eq]
      cases Kahn.step G' st with
      | none => rfl
      | some st' => exact ih st'
  rw [kahn, kahn, hstart, hrounds, h.nodes.length_eq]

end SuccGraph
