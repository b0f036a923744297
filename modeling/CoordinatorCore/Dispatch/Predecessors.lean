import CoordinatorCore.Dispatch.Rows
import CoordinatorCore.Machine.Closure
import CoordinatorCore.Machine.Components
import Mathlib.Data.Char
import Mathlib.Data.List.Lex

/-!
# Predecessors

Which rows must run before which. A row runs after the rows its `depends_on` names (declared), and
after the rows that write what it reads (derived). An author's order outranks an inferred one: a
derived edge is dropped when the declared graph puts the writer after the reader, and so is every
derived edge on a cycle of what is left.

`edge_predecessors_iff` says which edges survive, in terms of the graph alone; the closure with a
memo and the component search are gone from it. From there on the order of the rows does not matter
(`edge_predecessors_perm`), and no derived edge ever makes a cycle (`acyclic_predecessors`).
-/

namespace CoordinatorCore

open Text Relation

namespace Dispatch

/-- `sorted` of a set of ids. -/
def sortedSet (ids : List Text) : List Text := ids.dedup.mergeSort fun a b => decide (a ≤ b)

@[simp] theorem mem_sortedSet {ids : List Text} {x : Text} : x ∈ sortedSet ids ↔ x ∈ ids := by
  rw [sortedSet, List.mem_mergeSort, List.mem_dedup]

/-! ### Declared edges -/

/-- The targets of a row's edges that are rows of this pass. -/
def gateChunks (ids : List Text) (row : WaveRow) : List Text :=
  row.dependsOn.filterMap fun edge =>
    edge.bind fun g => if g.chunk ∈ ids then some g.chunk else none

/-- `declared[id]`. -/
def declaredPreds (rows : List WaveRow) (id : Text) : List Text :=
  (rows.filter fun row => row.id = id).flatMap (gateChunks (rowIds rows))

/-- `r` declares that it depends on `w`. -/
def Declared (rows : List WaveRow) (r w : Text) : Prop :=
  ∃ row ∈ rows, row.id = r ∧ w ∈ rowIds rows ∧ ∃ g, some g ∈ row.dependsOn ∧ g.chunk = w

/-- The declared predecessors of a row. -/
theorem mem_declaredPreds {rows : List WaveRow} {r w : Text} :
    w ∈ declaredPreds rows r ↔ Declared rows r w := by
  simp only [declaredPreds, gateChunks, Declared, List.mem_flatMap, List.mem_filter,
    List.mem_filterMap, decide_eq_true_eq, Option.bind_eq_some_iff]
  constructor
  · rintro ⟨row, ⟨hrow, hid⟩, edge, hedge, g, rfl, hg⟩
    split_ifs at hg with hmem
    obtain rfl := Option.some.inj hg
    exact ⟨row, hrow, hid, hmem, g, hedge, rfl⟩
  · rintro ⟨row, hrow, hid, hw, g, hg, rfl⟩
    exact ⟨row, ⟨hrow, hid⟩, some g, hg, g, rfl, by rw [if_pos hw]⟩

/-- The graph of the declared edges. -/
def declaredGraph (rows : List WaveRow) : SuccGraph Text where
  nodes := rowIds rows
  succ := declaredPreds rows
  source h := by
    obtain ⟨row, hrow, rfl, -⟩ := mem_declaredPreds.mp h
    exact List.mem_map_of_mem hrow
  target h := by
    obtain ⟨-, -, -, hw, -⟩ := mem_declaredPreds.mp h
    exact hw

@[simp] theorem edge_declaredGraph {rows : List WaveRow} {r w : Text} :
    (declaredGraph rows).Edge r w ↔ Declared rows r w := mem_declaredPreds

private theorem edge_declaredGraph_eq (rows : List WaveRow) :
    (declaredGraph rows).Edge = Declared rows := by
  funext r w
  exact propext edge_declaredGraph

/-! ### Derived edges -/

section

variable (lower : Text → Text)

/-- The normal forms of the paths a row writes whole, if it declares writes. -/
def writtenPaths (row : WaveRow) : List Text := (row.writes.getD []).map (normalizePath lower)

/-- The normal forms of the prefixes a row writes under, if it declares writes. -/
def writtenPrefixes (row : WaveRow) : List Text :=
  if row.writes.isSome then row.writesUnder.map (normalizePath lower) else []

/-- The path is one the row lists under `appends`. -/
def appendsPath (row : WaveRow) (p : Text) : Bool :=
  (row.appends.map (normalizePath lower)).contains p

/-- `_append_only_paths`: the paths that some row appends to and no row writes otherwise. -/
def appendOnlyPaths (rows : List WaveRow) : List Text :=
  let appended := rows.flatMap fun row => (writtenPaths lower row).filter (appendsPath lower row)
  let inPlace := rows.flatMap fun row =>
    (writtenPaths lower row).filter fun p => !appendsPath lower row p
  let prefixes := rows.flatMap (writtenPrefixes lower)
  appended.filter fun p =>
    !inPlace.contains p && !prefixes.any fun pre => p == pre || isAncestor pre p

/-- A read collides with what the writer writes. -/
def collides (appendOnly : List Text) (writer reader : WaveRow) : Bool :=
  reader.reads.any fun read =>
    let p := normalizePath lower read
    !appendOnly.contains p && ((writtenPaths lower writer).contains p ||
      (writtenPrefixes lower writer).any fun pre =>
        pre == p || isAncestor pre p || isAncestor p pre)

/-- The rows another row reads from, before the declared graph is asked. -/
def collisionPreds (rows : List WaveRow) (id : Text) : List Text :=
  (rows.filter fun row => row.id = id).flatMap fun reader =>
    (rows.filter fun writer => writer.writes.isSome && reader.id != writer.id &&
      collides lower (appendOnlyPaths lower rows) writer reader).map (·.id)

/-- `r` reads what `w` writes. -/
def Collides (rows : List WaveRow) (r w : Text) : Prop :=
  ∃ reader ∈ rows, ∃ writer ∈ rows, reader.id = r ∧ writer.id = w ∧ r ≠ w ∧
    writer.writes.isSome = true ∧
      collides lower (appendOnlyPaths lower rows) writer reader = true

/-- The predecessors by collision. -/
theorem mem_collisionPreds {rows : List WaveRow} {r w : Text} :
    w ∈ collisionPreds lower rows r ↔ Collides lower rows r w := by
  simp only [collisionPreds, Collides, List.mem_flatMap, List.mem_filter, List.mem_map,
    decide_eq_true_eq, Bool.and_eq_true, bne_iff_ne, ne_eq]
  constructor
  · rintro ⟨reader, ⟨hr, rfl⟩, writer, ⟨hw, ⟨hsome, hne⟩, hc⟩, rfl⟩
    exact ⟨reader, hr, writer, hw, rfl, rfl, hne, hsome, hc⟩
  · rintro ⟨reader, hr, writer, hw, rfl, rfl, hne, hsome, hc⟩
    exact ⟨reader, ⟨hr, rfl⟩, writer, ⟨hw, ⟨hsome, hne⟩, hc⟩, rfl⟩

/-- The derived edges the declared graph does not turn round: the loop over the writers. -/
def derivedPreds (rows : List WaveRow) (id : Text) : List Text :=
  (collisionPreds lower rows id).filter fun w => !((declaredGraph rows).closure w).contains id

/-- `preds` when both loops are through. -/
def candidateGraph (rows : List WaveRow) : SuccGraph Text where
  nodes := rowIds rows
  succ id := sortedSet (declaredPreds rows id ++ derivedPreds lower rows id)
  source h := by
    rcases List.mem_append.mp (mem_sortedSet.mp h) with h | h
    · exact (declaredGraph rows).source h
    · obtain ⟨reader, hr, -, -, rfl, -⟩ := (mem_collisionPreds lower).mp (List.mem_of_mem_filter h)
      exact List.mem_map_of_mem hr
  target h := by
    rcases List.mem_append.mp (mem_sortedSet.mp h) with h | h
    · exact (declaredGraph rows).target h
    · obtain ⟨-, -, writer, hw, -, rfl, -⟩ :=
        (mem_collisionPreds lower).mp (List.mem_of_mem_filter h)
      exact List.mem_map_of_mem hw

/-- `derived_edges`: those that are not declared as well. -/
def derivedEdges (rows : List WaveRow) : List (Text × Text) :=
  (rowIds rows).flatMap fun r => ((derivedPreds lower rows r).filter fun w =>
    !(declaredPreds rows r).contains w).map fun w => (r, w)

/-- `_cyclic_derived_edges`. -/
def cyclicDerivedEdges (preds : SuccGraph Text) (derived : List (Text × Text)) :
    List (Text × Text) :=
  let st := SuccGraph.Search.search preds
  derived.filter fun e => e.1 == e.2 || st.comp e.1 == st.comp e.2

/-- `_predecessors`. -/
def predecessors (rows : List WaveRow) : SuccGraph Text where
  nodes := rowIds rows
  succ id :=
    let cyclic := cyclicDerivedEdges (candidateGraph lower rows) (derivedEdges lower rows)
    ((candidateGraph lower rows).succ id).filter fun w => !cyclic.contains (id, w)
  source h := (candidateGraph lower rows).source (List.mem_of_mem_filter h)
  target h := (candidateGraph lower rows).target (List.mem_of_mem_filter h)

/-! ### Which edges survive -/

/-- A derived edge that the declared graph does not turn round. -/
def Candidate (rows : List WaveRow) (r w : Text) : Prop :=
  Collides lower rows r w ∧ ¬ TransGen (Declared rows) w r

/-- The edge closes a cycle of declared edges and candidates. -/
def OnCycle (rows : List WaveRow) (r w : Text) : Prop :=
  ReflTransGen (fun a b => Declared rows a b ∨ Candidate lower rows a b) w r

variable {rows : List WaveRow}

private theorem mem_derivedPreds (hac : ∀ x, ¬ TransGen (Declared rows) x x) {r w : Text} :
    w ∈ derivedPreds lower rows r ↔ Candidate lower rows r w := by
  rw [derivedPreds, List.mem_filter, mem_collisionPreds, Candidate]
  refine and_congr_right fun hc => ?_
  obtain ⟨-, -, writer, hw, -, rfl, -⟩ := hc
  have hac' : (declaredGraph rows).Acyclic := by
    intro x
    rw [edge_declaredGraph_eq]
    exact hac x
  have hclosure := SuccGraph.mem_closure_iff hac' (x := writer.id) (y := r)
    (List.mem_map_of_mem hw)
  rw [edge_declaredGraph_eq] at hclosure
  simp [hclosure]

private theorem edge_candidateGraph (hac : ∀ x, ¬ TransGen (Declared rows) x x) {r w : Text} :
    (candidateGraph lower rows).Edge r w ↔ Declared rows r w ∨ Candidate lower rows r w := by
  rw [SuccGraph.Edge, candidateGraph, mem_sortedSet, List.mem_append, mem_declaredPreds,
    mem_derivedPreds lower hac]

/-- A candidate goes when it closes a cycle and is not declared. -/
private theorem mem_cyclicDerivedEdges (hac : ∀ x, ¬ TransGen (Declared rows) x x) {r w : Text} :
    (r, w) ∈ cyclicDerivedEdges (candidateGraph lower rows) (derivedEdges lower rows) ↔
      Candidate lower rows r w ∧ ¬ Declared rows r w ∧ OnCycle lower rows r w := by
  have hedges : (candidateGraph lower rows).Edge =
      fun a b => Declared rows a b ∨ Candidate lower rows a b := by
    funext a b
    exact propext (edge_candidateGraph lower hac)
  have hderived : (r, w) ∈ derivedEdges lower rows ↔
      Candidate lower rows r w ∧ ¬ Declared rows r w := by
    simp only [derivedEdges, List.mem_flatMap, List.mem_map, List.mem_filter, Prod.mk.injEq,
      mem_derivedPreds lower hac, Bool.not_eq_true', List.contains_eq_mem,
      decide_eq_false_iff_not, mem_declaredPreds]
    constructor
    · rintro ⟨r', -, w', hw', rfl, rfl⟩
      exact hw'
    · rintro ⟨hc, hd⟩
      obtain ⟨reader, hr, -, -, rfl, -⟩ := hc.1
      exact ⟨_, List.mem_map_of_mem hr, w, ⟨hc, hd⟩, rfl, rfl⟩
  rw [cyclicDerivedEdges, List.mem_filter, hderived, and_assoc]
  refine and_congr_right fun hc => and_congr_right fun _ => ?_
  have hedge : (candidateGraph lower rows).Edge r w := (edge_candidateGraph lower hac).mpr (.inr hc)
  obtain ⟨-, -, -, -, -, -, hne, -⟩ := hc.1
  have hcomp := SuccGraph.component_eq_iff (candidateGraph lower rows)
    ((candidateGraph lower rows).source hedge) ((candidateGraph lower rows).target hedge)
  simp only [SuccGraph.component, SuccGraph.Reaches, hedges] at hcomp
  rw [Bool.or_eq_true, beq_iff_eq, beq_iff_eq, or_iff_right hne, hcomp, OnCycle]
  exact and_iff_right (.single (.inr hc))

/-- Every declared edge survives, and of the others the candidates on no cycle. -/
theorem edge_predecessors_iff (hac : ∀ x, ¬ TransGen (Declared rows) x x) {r w : Text} :
    (predecessors lower rows).Edge r w ↔
      Declared rows r w ∨ Candidate lower rows r w ∧ ¬ OnCycle lower rows r w := by
  have hfilter : (predecessors lower rows).Edge r w ↔ (candidateGraph lower rows).Edge r w ∧
      (r, w) ∉ cyclicDerivedEdges (candidateGraph lower rows) (derivedEdges lower rows) := by
    rw [SuccGraph.Edge, SuccGraph.Edge, predecessors, List.mem_filter]
    simp
  rw [hfilter, edge_candidateGraph lower hac, mem_cyclicDerivedEdges lower hac]
  tauto

/-- No derived edge makes a cycle. -/
theorem acyclic_predecessors (hac : ∀ x, ¬ TransGen (Declared rows) x x) :
    (predecessors lower rows).Acyclic := by
  have hkept : (predecessors lower rows).Edge =
      SuccGraph.Kept (Declared rows) (Candidate lower rows) := by
    funext r w
    exact propext (edge_predecessors_iff lower hac)
  intro x
  rw [hkept]
  exact SuccGraph.acyclic_kept hac x

/-- A cycle of declared edges is never broken up. -/
theorem acyclic_predecessors_iff :
    (predecessors lower rows).Acyclic ↔ ∀ x, ¬ TransGen (Declared rows) x x := by
  refine ⟨fun h x hx => h x (TransGen.mono ?_ _ _ hx), acyclic_predecessors lower⟩
  intro r w hd
  rw [SuccGraph.Edge, predecessors, List.mem_filter]
  refine ⟨mem_sortedSet.mpr (List.mem_append_left _ (mem_declaredPreds.mpr hd)), ?_⟩
  -- declared edges are not among the derived ones
  simp only [cyclicDerivedEdges, derivedEdges, Bool.not_eq_true', List.contains_eq_mem,
    decide_eq_false_iff_not, List.mem_filter, List.mem_flatMap, List.mem_map, not_and]
  rintro ⟨r', -, w', ⟨-, hw'⟩, heq⟩
  obtain ⟨rfl, rfl⟩ := Prod.mk.inj heq
  exact absurd (mem_declaredPreds.mpr hd) hw'

/-! ### The order of the rows -/

private theorem perm_flatMap {β : Type*} {rows rows' : List WaveRow} (h : rows'.Perm rows)
    (f : WaveRow → List β) {b : β} : b ∈ rows'.flatMap f ↔ b ∈ rows.flatMap f := by
  simp only [List.mem_flatMap, h.mem_iff]

/-- What is append-only does not depend on the order of the rows. -/
theorem mem_appendOnlyPaths_perm {rows' : List WaveRow} (h : rows'.Perm rows) (p : Text) :
    p ∈ appendOnlyPaths lower rows' ↔ p ∈ appendOnlyPaths lower rows := by
  simp only [appendOnlyPaths, List.mem_filter, perm_flatMap h, Bool.and_eq_true,
    Bool.not_eq_true', List.contains_eq_mem, decide_eq_false_iff_not, List.any_eq_false]

omit lower in
/-- What is declared does not depend on the order of the rows. -/
theorem declared_perm {rows' : List WaveRow} (h : rows'.Perm rows) :
    Declared rows' = Declared rows := by
  funext r w
  simp only [Declared, rowIds, h.mem_iff, (h.map _).mem_iff]

/-- The collisions do not depend on the order of the rows. -/
theorem collides_perm {rows' : List WaveRow} (h : rows'.Perm rows) :
    Collides lower rows' = Collides lower rows := by
  have hcollides : ∀ writer reader,
      collides lower (appendOnlyPaths lower rows') writer reader =
        collides lower (appendOnlyPaths lower rows) writer reader := by
    intro writer reader
    simp only [collides, List.contains_eq_mem, mem_appendOnlyPaths_perm lower h]
  funext r w
  simp only [Collides, h.mem_iff, hcollides]

/-- The surviving edges do not depend on the order of the rows. -/
theorem edge_predecessors_perm {rows' : List WaveRow} (h : rows'.Perm rows)
    (hac : ∀ x, ¬ TransGen (Declared rows) x x) {r w : Text} :
    (predecessors lower rows').Edge r w ↔ (predecessors lower rows).Edge r w := by
  have hcandidate : Candidate lower rows' = Candidate lower rows := by
    funext r w
    rw [Candidate, Candidate, collides_perm lower h, declared_perm h]
  rw [edge_predecessors_iff lower hac, edge_predecessors_iff lower (by rwa [declared_perm h]),
    OnCycle, OnCycle, hcandidate, declared_perm h]

end

end Dispatch

end CoordinatorCore
