import CoordinatorCore.Machine.LongestChain
import CoordinatorCore.Text.Basic
import Mathlib.Data.List.Perm.Lattice
import Mathlib.Data.Char
import Mathlib.Data.List.Lex

/-!
# The critical path of a roadmap

The stubs of a roadmap block each other. The critical path is a longest chain of `blocks` edges, by
the number of stubs; stubs on a cycle are to be left out.

What `_compute_critical_path` leaves out is what Kahn's order does not reach: the stubs on a cycle
and, with them, every stub a cycle leads to. Among the others its path is a longest one
(`criticalPath_spec`), and it depends on the graph only. So it is a longest path that avoids the
cycles exactly when one of those paths stays clear of what is behind them
(`criticalPath_longest_iff`).
-/

namespace CoordinatorCore

open Text Relation

namespace Roadmap

/-- A node of the graph, as far as the path reads it. -/
structure StubNode where
  stubId : Text
  deriving DecidableEq

/-- An edge. Edges between sprints have a type of their own. -/
structure StubEdge where
  frm : Text
  to_ : Text
  type : Option Text

/-- The set of the ids. -/
def stubIds (nodes : List StubNode) : List Text := (nodes.map (·.stubId)).dedup

/-- The edges that are followed: those of type `blocks` between present stubs. -/
def blocksEdges (nodes : List StubNode) (edges : List StubEdge) : List StubEdge :=
  edges.filter fun edge => edge.type = some "blocks".toList ∧ edge.frm ∈ stubIds nodes ∧
    edge.to_ ∈ stubIds nodes

/-- `children`. -/
def children (nodes : List StubNode) (edges : List StubEdge) (id : Text) : List Text :=
  ((blocksEdges nodes edges).filter fun edge => edge.frm = id).map (·.to_)

/-- `in_degree`. -/
def inDegree (nodes : List StubNode) (edges : List StubEdge) (id : Text) : ℕ :=
  (blocksEdges nodes edges).countP fun edge => edge.to_ = id

theorem mem_children_iff {nodes : List StubNode} {edges : List StubEdge} {x y : Text} :
    y ∈ children nodes edges x ↔ ∃ edge ∈ edges, edge.type = some "blocks".toList ∧
      edge.frm = x ∧ edge.to_ = y ∧ x ∈ stubIds nodes ∧ y ∈ stubIds nodes := by
  simp only [children, blocksEdges, List.mem_map, List.mem_filter, decide_eq_true_eq]
  constructor
  · rintro ⟨edge, ⟨⟨hedge, htype, hfrm, hto⟩, rfl⟩, rfl⟩
    exact ⟨edge, hedge, htype, rfl, rfl, hfrm, hto⟩
  · rintro ⟨edge, hedge, htype, rfl, rfl, hfrm, hto⟩
    exact ⟨edge, ⟨⟨hedge, htype, hfrm, hto⟩, rfl⟩, rfl⟩

/-- The graph of the `blocks` edges. -/
def blocksGraph (nodes : List StubNode) (edges : List StubEdge) : SuccGraph Text where
  nodes := stubIds nodes
  succ := children nodes edges
  source h := by
    obtain ⟨-, -, -, -, -, hx, -⟩ := mem_children_iff.mp h
    exact hx
  target h := by
    obtain ⟨-, -, -, -, -, -, hy⟩ := mem_children_iff.mp h
    exact hy

/-- `_compute_critical_path`. -/
def computeCriticalPath (nodes : List StubNode) (edges : List StubEdge) : List Text :=
  if nodes = [] then []
  else
    let topoOrder := (blocksGraph nodes edges).kahn
    if topoOrder = [] then []
    else (blocksGraph nodes edges).longestChain topoOrder

/-! ### Counting edges -/

/-- The edges, gathered by the stubs they start at. -/
private theorem flatMap_filter_perm {ids : List Text} (hids : ids.Nodup) (edges : List StubEdge) :
    (ids.flatMap fun id => edges.filter fun edge => edge.frm = id).Perm
      (edges.filter fun edge => edge.frm ∈ ids) := by
  induction ids with
  | nil => simp
  | cons id ids ih =>
    obtain ⟨hnew, hids⟩ := List.nodup_cons.mp hids
    rw [List.flatMap_cons]
    refine ((ih hids).append_left _).trans ?_
    have hfirst : edges.filter (fun edge => edge.frm = id) =
        (edges.filter fun edge => edge.frm ∈ id :: ids).filter fun edge => edge.frm = id := by
      rw [List.filter_filter]
      refine List.filter_congr fun edge _ => ?_
      by_cases h : edge.frm = id <;> simp [h]
    have hrest : edges.filter (fun edge => edge.frm ∈ ids) =
        (edges.filter fun edge => edge.frm ∈ id :: ids).filter fun edge => !(edge.frm = id) := by
      rw [List.filter_filter]
      refine List.filter_congr fun edge _ => ?_
      by_cases h : edge.frm = id
      · simp [h, hnew]
      · simp [h]
    rw [hfirst, hrest]
    exact List.filter_append_perm _ _

/-- Counting the edges gives the degrees of the graph. -/
theorem inDegree_blocksGraph (nodes : List StubNode) (edges : List StubEdge) (id : Text) :
    (blocksGraph nodes edges).inDegree id = inDegree nodes edges id := by
  have hall : (blocksEdges nodes edges).filter (fun edge => edge.frm ∈ stubIds nodes) =
      blocksEdges nodes edges := by
    refine List.filter_eq_self.mpr fun edge hedge => ?_
    have hfollowed := (List.mem_filter.mp hedge).2
    rw [decide_eq_true_eq] at hfollowed ⊢
    exact hfollowed.2.1
  have hids : (stubIds nodes).Nodup := List.nodup_dedup _
  have hperm := flatMap_filter_perm hids (blocksEdges nodes edges)
  rw [hall] at hperm
  have hflat : (blocksGraph nodes edges).nodes.flatMap (blocksGraph nodes edges).succ =
      ((stubIds nodes).flatMap fun id => (blocksEdges nodes edges).filter fun edge =>
        edge.frm = id).map (·.to_) := by
    rw [List.map_flatMap]
    rfl
  rw [SuccGraph.inDegree_eq_countP, inDegree, hflat, (hperm.map _).countP_eq, List.countP_map]
  rfl

/-! ### The path -/

section

variable {nodes : List StubNode} {edges : List StubEdge}

theorem computeCriticalPath_eq : computeCriticalPath nodes edges =
    (blocksGraph nodes edges).longestChain (blocksGraph nodes edges).kahn := by
  have hnil : (blocksGraph nodes edges).longestChain [] = [] := rfl
  rw [computeCriticalPath]
  dsimp only
  split_ifs with hnodes horder
  · have horder : (blocksGraph nodes edges).kahn = [] := by
      rw [hnodes]
      rfl
    rw [horder, hnil]
  · rw [horder, hnil]
  · rfl

/-- The stub is on a cycle of `blocks` edges. -/
def OnBlocksCycle (nodes : List StubNode) (edges : List StubEdge) (id : Text) : Prop :=
  TransGen (blocksGraph nodes edges).Edge id id

/-- A directed path of `blocks` edges through present stubs, none of them on a cycle. -/
structure SoundPath (nodes : List StubNode) (edges : List StubEdge) (q : List Text) : Prop where
  chain : (blocksGraph nodes edges).IsEdgeChain q
  present : ∀ id ∈ q, id ∈ stubIds nodes
  sound : ∀ id ∈ q, ¬ OnBlocksCycle nodes edges id

/-- No stub of the path is behind a cycle. -/
def ClearPath (nodes : List StubNode) (edges : List StubEdge) (q : List Text) : Prop :=
  SoundPath nodes edges q ∧ ∀ id ∈ q, ¬ (blocksGraph nodes edges).BehindCycle id

variable (nodes edges) in
private theorem nodup_stubIds : (blocksGraph nodes edges).nodes.Nodup := List.nodup_dedup _

/-- The path found is clear of what is behind a cycle, and no clear path is longer. -/
theorem criticalPath_spec (nodes : List StubNode) (edges : List StubEdge) :
    ClearPath nodes edges (computeCriticalPath nodes edges) ∧
      ∀ q, ClearPath nodes edges q → q.length ≤ (computeCriticalPath nodes edges).length := by
  have hnodup := nodup_stubIds nodes edges
  obtain ⟨⟨hchain, hmem⟩, hmax⟩ := SuccGraph.longestChain_spec
    (SuccGraph.ordered_kahn hnodup) (SuccGraph.nodup_kahn hnodup)
  rw [← computeCriticalPath_eq] at hchain hmem hmax
  have hkahn := fun id hid => (SuccGraph.mem_kahn_iff hnodup).mp (hmem id hid)
  refine ⟨⟨⟨hchain, fun id hid => (hkahn id hid).1, fun id hid hcycle => ?_⟩,
    fun id hid => (hkahn id hid).2⟩, fun q hq => ?_⟩
  · exact (hkahn id hid).2 ⟨id, hcycle, .refl⟩
  · exact hmax q hq.1.chain fun id hid =>
      (SuccGraph.mem_kahn_iff hnodup).mpr ⟨hq.1.present id hid, hq.2 id hid⟩

/-- The graph does not depend on the order of the lists. -/
theorem same_blocksGraph {nodes' : List StubNode} {edges' : List StubEdge}
    (hnodes : nodes'.Perm nodes) (hedges : edges'.Perm edges) :
    SuccGraph.Same (blocksGraph nodes' edges') (blocksGraph nodes edges) := by
  have hids : (stubIds nodes').Perm (stubIds nodes) := (hnodes.map _).dedup
  refine ⟨hids, fun id => ?_⟩
  have hfollowed : (blocksEdges nodes' edges').Perm (blocksEdges nodes edges) := by
    simp only [blocksEdges, hids.mem_iff]
    exact hedges.filter _
  exact (hfollowed.filter _).map _

theorem computeCriticalPath_perm {nodes' : List StubNode} {edges' : List StubEdge}
    (hnodes : nodes'.Perm nodes) (hedges : edges'.Perm edges) :
    computeCriticalPath nodes' edges' = computeCriticalPath nodes edges := by
  have hsame := same_blocksGraph hnodes hedges
  have hnodup := nodup_stubIds nodes' edges'
  rw [computeCriticalPath_eq, computeCriticalPath_eq, ← hsame.kahn_eq]
  exact hsame.longestChain_eq (SuccGraph.ordered_kahn hnodup) (SuccGraph.nodup_kahn hnodup)

end

/-- What the critical path is for: a sound path, the same in whatever order nodes and edges are
listed, and no sound path has more stubs. -/
def CriticalPathLaw (nodes : List StubNode) (edges : List StubEdge) : Prop :=
  SoundPath nodes edges (computeCriticalPath nodes edges) ∧
    (∀ q, SoundPath nodes edges q → q.length ≤ (computeCriticalPath nodes edges).length) ∧
      ∀ nodes' edges', nodes'.Perm nodes → edges'.Perm edges →
        computeCriticalPath nodes' edges' = computeCriticalPath nodes edges

/-- The law holds exactly when one of the longest sound paths is clear of what is behind a
cycle. -/
theorem criticalPath_longest_iff (nodes : List StubNode) (edges : List StubEdge) :
    CriticalPathLaw nodes edges ↔ ∃ q, ClearPath nodes edges q ∧
      ∀ q', SoundPath nodes edges q' → q'.length ≤ q.length := by
  obtain ⟨hclear, hmax⟩ := criticalPath_spec nodes edges
  constructor
  · rintro ⟨-, hlongest, -⟩
    exact ⟨_, hclear, hlongest⟩
  · rintro ⟨q, hq, hlongest⟩
    exact ⟨hclear.1, fun q' hq' => (hlongest q' hq').trans (hmax q hq),
      fun _ _ hnodes hedges => computeCriticalPath_perm hnodes hedges⟩

/-! ### A stub behind a cycle -/

/-- An edge of type `blocks`. -/
def blocksEdge (frm to_ : String) : StubEdge := ⟨frm.toList, to_.toList, some "blocks".toList⟩

/-- Two stubs that block each other, and a third one that the second blocks. -/
abbrev behindNodes : List StubNode := [⟨"a".toList⟩, ⟨"b".toList⟩, ⟨"c".toList⟩]

/-- Their edges. -/
abbrev behindEdges : List StubEdge :=
  [blocksEdge "a" "b", blocksEdge "b" "a", blocksEdge "b" "c"]

/-- The third stub is on no cycle, and the critical path misses it. -/
theorem criticalPath_not_longest :
    ¬ ∀ nodes edges, (nodes.map StubNode.stubId).Nodup → CriticalPathLaw nodes edges := by
  intro h
  obtain ⟨-, hlongest, -⟩ := h behindNodes behindEdges (by decide)
  have hab : (blocksGraph behindNodes behindEdges).Edge "a".toList "b".toList :=
    mem_children_iff.mpr ⟨_, List.mem_cons_self .., rfl, rfl, rfl, by decide, by decide⟩
  have hba : (blocksGraph behindNodes behindEdges).Edge "b".toList "a".toList :=
    mem_children_iff.mpr ⟨blocksEdge "b" "a", by simp, rfl, rfl, rfl, by decide, by decide⟩
  have hbc : (blocksGraph behindNodes behindEdges).Edge "b".toList "c".toList :=
    mem_children_iff.mpr ⟨blocksEdge "b" "c", by simp, rfl, rfl, rfl, by decide, by decide⟩
  have hcycle : TransGen (blocksGraph behindNodes behindEdges).Edge "b".toList "b".toList :=
    .tail (.single hba) hab
  -- every stub is behind the cycle
  have hbehind : ∀ id ∈ stubIds behindNodes, (blocksGraph behindNodes behindEdges).BehindCycle id := by
    intro id hid
    have hid' : id ∈ ["a".toList, "b".toList, "c".toList] := hid
    simp only [List.mem_cons, List.not_mem_nil, or_false] at hid'
    rcases hid' with rfl | rfl | rfl
    · exact ⟨_, hcycle, .single hba⟩
    · exact ⟨_, hcycle, .refl⟩
    · exact ⟨_, hcycle, .single hbc⟩
  have hnil : computeCriticalPath behindNodes behindEdges = [] := by
    obtain ⟨⟨hsound, hclear⟩, -⟩ := criticalPath_spec behindNodes behindEdges
    rw [List.eq_nil_iff_forall_not_mem]
    exact fun id hid => hclear id hid (hbehind id (hsound.present id hid))
  have hthird : SoundPath behindNodes behindEdges ["c".toList] := by
    refine ⟨List.isChain_singleton _, fun id hid => ?_, fun id hid hon => ?_⟩
    · rw [List.mem_singleton.mp hid]
      decide
    · rw [List.mem_singleton.mp hid] at hon
      obtain ⟨id', hfirst, -⟩ := TransGen.head'_iff.mp hon
      have hnone : (blocksGraph behindNodes behindEdges).succ "c".toList = [] := by decide
      rw [SuccGraph.Edge, hnone] at hfirst
      exact List.not_mem_nil hfirst
  have hlen := hlongest _ hthird
  rw [hnil] at hlen
  exact absurd hlen (by decide)

end Roadmap

end CoordinatorCore
