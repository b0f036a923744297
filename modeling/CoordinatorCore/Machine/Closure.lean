import CoordinatorCore.Machine.CycleSearch

/-!
# Transitive closure with a memo

The nodes reachable from each node in one step or more, by a recursion that remembers what it has
computed and does not enter a node it is in the middle of. On an acyclic graph the memo holds the
transitive closure (`mem_closure_iff`).
-/

open Relation

namespace SuccGraph

variable {α : Type*} [DecidableEq α]

/-- The nodes behind a node, for the nodes done. The last one done stands first. -/
abbrev Memo (α : Type*) := List (α × List α)

/-- Expand a node. The recursion is never deeper than there are nodes; a limit on it that the host
language sets is not modelled. -/
def expand (G : SuccGraph α) : Nat → List α → Memo α → α → List α × Memo α
  | 0, _, memo, _ => ([], memo)
  | n + 1, inProgress, memo, node =>
    match memo.lookup node with
    | some result => (result, memo)
    | none =>
      if node ∈ inProgress then ([], memo)
      else
        let r := (G.succ node).foldl (fun (acc : List α × Memo α) pred =>
          let e := expand G n (node :: inProgress) acc.2 pred
          (acc.1 ++ pred :: e.1, e.2)) ([], memo)
        (r.1, (node, r.1) :: r.2)

/-- The memo behind the expansion of every node. -/
def closureMemo (G : SuccGraph α) : Memo α :=
  G.nodes.foldl (fun memo node => (expand G (G.nodes.length + 1) [] memo node).2) []

/-- The nodes behind a node. -/
def closure (G : SuccGraph α) (x : α) : List α := (G.closureMemo.lookup x).getD []

/-! ### Correctness -/

/-- What the memo holds is right. -/
def MemoSound (G : SuccGraph α) (memo : Memo α) : Prop :=
  ∀ x s, memo.lookup x = some s → ∀ y, y ∈ s ↔ TransGen G.Edge x y

/-- What expanding `node` returns from `memo`. -/
structure Expanded (G : SuccGraph α) (memo : Memo α) (node : α) (r : List α × Memo α) : Prop where
  sound : G.MemoSound r.2
  result : ∀ y, y ∈ r.1 ↔ TransGen G.Edge node y
  done : r.2.lookup node ≠ none
  keeps : ∀ x, memo.lookup x ≠ none → r.2.lookup x ≠ none

variable {G : SuccGraph α}

/-- The loop over the successors, once expanding them is right. -/
private theorem foldl_expand {f : Memo α → α → List α × Memo α} {preds : List α}
    (hf : ∀ p ∈ preds, ∀ memo, G.MemoSound memo → G.Expanded memo p (f memo p)) (acc : List α)
    {memo : Memo α} (hm : G.MemoSound memo) :
    let r := preds.foldl (fun (acc : List α × Memo α) pred =>
      (acc.1 ++ pred :: (f acc.2 pred).1, (f acc.2 pred).2)) (acc, memo)
    G.MemoSound r.2 ∧ (∀ y, y ∈ r.1 ↔ y ∈ acc ∨ ∃ p ∈ preds, ReflTransGen G.Edge p y) ∧
      ∀ x, memo.lookup x ≠ none → r.2.lookup x ≠ none := by
  induction preds generalizing acc memo with
  | nil => exact ⟨hm, fun y => by simp, fun x hx => hx⟩
  | cons p ps ih =>
    have hp := hf p (List.mem_cons_self ..) memo hm
    obtain ⟨hs, hr, hk⟩ := ih (fun q hq => hf q (List.mem_cons_of_mem _ hq))
      (acc ++ p :: (f memo p).1) hp.sound
    refine ⟨hs, fun y => ?_, fun x hx => hk x (hp.keeps x hx)⟩
    rw [List.foldl_cons, hr, List.mem_append, List.mem_cons, hp.result, List.exists_mem_cons_iff,
      ReflTransGen.cases_head_iff]
    have hhead : TransGen G.Edge p y ↔ ∃ c, G.Edge p c ∧ ReflTransGen G.Edge c y :=
      TransGen.head'_iff
    rw [hhead, eq_comm, or_assoc]

/-- On an acyclic graph expanding is right. -/
theorem expanded_expand (hac : G.Acyclic) {n : Nat} {path : List α} {memo : Memo α} {node : α}
    (hn : G.nodes.length < path.length + n) (hpath : G.IsPath (node :: path))
    (hm : G.MemoSound memo) : G.Expanded memo node (expand G n path memo node) := by
  induction n generalizing path memo node with
  | zero =>
    have := hpath.length_le
    simp only [List.length_cons] at this
    omega
  | succ n ih =>
    rw [expand]
    cases hl : memo.lookup node with
    | some result =>
      exact ⟨hm, hm node result hl, by rw [hl]; simp, fun x hx => hx⟩
    | none =>
      have hnode : node ∉ path := (List.nodup_cons.mp hpath.nodup).1
      simp only [if_neg hnode]
      have hround : ∀ pred ∈ G.succ node, ∀ memo, G.MemoSound memo →
          G.Expanded memo pred (expand G n (node :: path) memo pred) := by
        intro pred hedge memo hm
        refine ih (by simp only [List.length_cons]; omega)
          (hpath.cons (G.target hedge) (fun hmem => ?_) fun y hy => ?_) hm
        · -- an edge back to the path would close a cycle
          obtain ⟨x, hx⟩ := (hpath.isCycle hmem hedge).transGen
          exact hac x hx
        · obtain rfl : node = y := by simpa using hy
          exact hedge
      obtain ⟨hs, hr, hk⟩ := foldl_expand hround [] hm
      have hresult : ∀ y, y ∈ ((G.succ node).foldl (fun (acc : List α × Memo α) pred =>
          (acc.1 ++ pred :: (expand G n (node :: path) acc.2 pred).1,
            (expand G n (node :: path) acc.2 pred).2)) ([], memo)).1 ↔
          TransGen G.Edge node y := by
        intro y
        rw [hr y, or_iff_right List.not_mem_nil, TransGen.head'_iff]
        rfl
      refine ⟨fun x s hx => ?_, hresult, by simp, fun x hx => ?_⟩
      · rw [List.lookup_cons] at hx
        split at hx
        · next heq =>
          obtain rfl := Option.some.inj hx
          rw [beq_iff_eq] at heq
          rw [heq]
          exact hresult
        · exact hs x s hx
      · rw [List.lookup_cons]
        split
        · simp
        · exact hk x hx

/-- On an acyclic graph the closure is transitive. -/
theorem mem_closure_iff (hac : G.Acyclic) {x : α} (hx : x ∈ G.nodes) {y : α} :
    y ∈ G.closure x ↔ TransGen G.Edge x y := by
  have hloop : ∀ (nodes : List α) (memo : Memo α), (∀ z ∈ nodes, z ∈ G.nodes) →
      G.MemoSound memo →
      let r := nodes.foldl
        (fun memo node => (expand G (G.nodes.length + 1) [] memo node).2) memo
      G.MemoSound r ∧ (∀ z ∈ nodes, r.lookup z ≠ none) ∧
        ∀ z, memo.lookup z ≠ none → r.lookup z ≠ none := by
    intro nodes
    induction nodes with
    | nil => exact fun memo _ hm => ⟨hm, fun z hz => absurd hz List.not_mem_nil, fun z hz => hz⟩
    | cons z zs ih =>
      intro memo hnodes hm
      have hz : G.IsPath [z] := ⟨.singleton _, by simp, fun w hw =>
        List.mem_singleton.mp hw ▸ hnodes z (List.mem_cons_self ..)⟩
      have he := expanded_expand hac (n := G.nodes.length + 1) (by simp) hz hm
      obtain ⟨hs, hd, hk⟩ := ih _ (fun w hw => hnodes w (List.mem_cons_of_mem _ hw)) he.sound
      refine ⟨hs, fun w hw => ?_, fun w hw => hk w (he.keeps w hw)⟩
      rcases List.mem_cons.mp hw with rfl | hw
      · exact hk w he.done
      · exact hd w hw
  obtain ⟨hs, hd, -⟩ := hloop G.nodes [] (fun _ h => h) (fun _ _ h => nomatch h)
  obtain ⟨s, hl⟩ := Option.ne_none_iff_exists'.mp (hd x hx)
  rw [closure, show G.closureMemo.lookup x = some s from hl]
  exact hs x s hl y

end SuccGraph
