import CoordinatorCore.Dispatch.Waves
import Mathlib.Order.Bounds.Basic

/-!
# The rows held out

A row is withheld for what it says itself: it waits for a verdict before it can declare what it
writes, or for the outcome of a row that is not in this pass. `_compute_held_out` holds the
withheld rows and, pass by pass over the rows, every row with a predecessor among those held.

What it returns is the least set that does this (`isLeast_computeHeldOut`): the rows from which the
predecessors lead to a withheld one (`mem_computeHeldOut_iff`). No row that is scheduled depends on
a held one. The order of the rows plays no part as long as no declared edges form a cycle; with a
cycle, which `build_waves` refuses before it looks at what is held, it does.
-/

namespace CoordinatorCore

open Text Relation Machine

namespace Dispatch

/-! ### Withheld rows -/

/-- The row waits for a verdict and does not declare what it writes, or it waits at run time for a
row that is not in this pass. -/
def Withheld (rows : List WaveRow) (row : WaveRow) : Prop :=
  (∃ g, some g ∈ row.dependsOn ∧ g.gateKind = some epistemicPremise) ∧ row.writes = none ∨
    ∃ g, some g ∈ row.dependsOn ∧ (∃ kind ∈ runtimeOrderGateKinds, g.gateKind = some kind) ∧
      g.chunk ∉ rowIds rows

/-- The ids of the withheld rows. -/
def withheldIds (rows : List WaveRow) : Set Text :=
  {id | ∃ row ∈ rows, row.id = id ∧ Withheld rows row}

/-- A row has an epistemic premise when one of its gates is of that kind. -/
theorem epistemicPremisePredecessors_ne_nil_iff {row : WaveRow} :
    epistemicPremisePredecessors row ≠ [] ↔
      ∃ g, some g ∈ row.dependsOn ∧ g.gateKind = some epistemicPremise := by
  rw [ne_eq, List.eq_nil_iff_forall_not_mem, not_forall_not]
  simp only [epistemicPremisePredecessors, List.mem_filterMap, Option.bind_eq_some_iff,
    Option.ite_none_right_eq_some]
  constructor
  · rintro ⟨-, -, hedge, g, rfl, hkind, -⟩
    exact ⟨g, hedge, hkind⟩
  · rintro ⟨g, hg, hkind⟩
    exact ⟨g.chunk, some g, hg, g, rfl, hkind, rfl⟩

/-- A row is blocked by a runtime gate on a chunk that is not there. -/
theorem blockedPredecessorGates_ne_nil_iff {row : WaveRow} {ids : List Text} :
    blockedPredecessorGates row ids ≠ [] ↔
      ∃ g, some g ∈ row.dependsOn ∧ (∃ kind ∈ runtimeOrderGateKinds, g.gateKind = some kind) ∧
        g.chunk ∉ ids := by
  rw [ne_eq, List.eq_nil_iff_forall_not_mem, not_forall_not]
  simp only [blockedPredecessorGates, List.mem_filterMap, Option.bind_eq_some_iff,
    Option.ite_none_right_eq_some]
  constructor
  · rintro ⟨-, -, hedge, g, rfl, kind, hkind, ⟨hmem, habsent⟩, -⟩
    exact ⟨g, hedge, ⟨kind, hmem, hkind⟩, habsent⟩
  · rintro ⟨g, hg, ⟨kind, hmem, hkind⟩, habsent⟩
    exact ⟨_, some g, hg, g, rfl, kind, hkind, ⟨hmem, habsent⟩, rfl⟩

/-- The two loops before the passes hold the withheld rows. -/
theorem mem_directlyHeld_iff {rows : List WaveRow} {id : Text} :
    id ∈ (directlyHeld rows).ids ↔ id ∈ withheldIds rows := by
  simp only [directlyHeld, Held.ids, List.map_append, List.mem_append, List.mem_map,
    List.mem_filterMap, Option.ite_none_right_eq_some, Prod.exists, exists_eq_right,
    exists_and_right, epistemicPremisePredecessors_ne_nil_iff, blockedPredecessorGates_ne_nil_iff,
    Option.some.injEq, Prod.mk.injEq, withheldIds, Set.mem_ofPred_eq, Withheld]
  constructor
  · rintro (⟨reason, row, hrow, hheld, hid, -⟩ | ⟨reason, row, hrow, ⟨-, hheld⟩, hid, -⟩)
    · exact ⟨row, hrow, hid, Or.inl hheld⟩
    · exact ⟨row, hrow, hid, Or.inr hheld⟩
  · rintro ⟨row, hrow, rfl, hheld | hheld⟩
    · exact Or.inl ⟨_, row, hrow, hheld, rfl, rfl⟩
    · -- the second loop passes over ids that the first has held
      rw [or_iff_not_imp_left]
      exact fun hnot => ⟨_, row, hrow, ⟨hnot, hheld⟩, rfl, rfl⟩

/-! ### The passes -/

section

variable {preds : SuccGraph Text} {rows : List WaveRow}

/-- A row is held behind a held predecessor. -/
theorem mem_holdRow_iff {held : Held} {row : WaveRow} {x : Text} :
    x ∈ (holdRow preds held row).ids ↔
      x ∈ held.ids ∨ x = row.id ∧ ∃ p, preds.Edge row.id p ∧ p ∈ held.ids := by
  have hblockers : sortedSet ((preds.succ row.id).filter fun p => p ∈ held.ids) = [] ↔
      ¬ ∃ p, preds.Edge row.id p ∧ p ∈ held.ids := by
    simp only [List.eq_nil_iff_forall_not_mem, mem_sortedSet, List.mem_filter, decide_eq_true_eq,
      SuccGraph.Edge, not_exists]
  rw [holdRow]
  dsimp only
  split_ifs with hmem hnil
  · exact ⟨Or.inl, fun h => h.elim id fun h => h.1 ▸ hmem⟩
  · exact ⟨Or.inl, fun h => h.elim id fun h => absurd h.2 (hblockers.mp hnil)⟩
  · have hsome : ∃ p, preds.Edge row.id p ∧ p ∈ held.ids := by
      by_contra hnone
      exact hnil (hblockers.mpr hnone)
    simp only [Held.ids, List.map_append, List.map_singleton, List.mem_append,
      List.mem_singleton] at hsome ⊢
    rw [and_iff_left hsome]

/-- From every held row the predecessors lead to a withheld one. -/
def Behind (preds : SuccGraph Text) (rows : List WaveRow) (held : Held) : Prop :=
  ∀ x ∈ held.ids, ∃ s ∈ withheldIds rows, preds.Reaches x s

/-- Only rows behind withheld ones are held. -/
theorem Behind.holdRow {held : Held} (h : Behind preds rows held) (row : WaveRow) :
    Behind preds rows (holdRow preds held row) := by
  intro x hx
  rcases mem_holdRow_iff.mp hx with hx | ⟨rfl, p, hedge, hp⟩
  · exact h x hx
  · obtain ⟨s, hs, hreach⟩ := h p hp
    exact ⟨s, hs, .head hedge hreach⟩

/-- A pass holds only rows behind withheld ones. -/
theorem Behind.foldl_holdRow {held : Held} (h : Behind preds rows held) (pass : List WaveRow) :
    Behind preds rows (pass.foldl (Dispatch.holdRow preds) held) := by
  induction pass generalizing held with
  | nil => exact h
  | cons row pass ih => exact ih (h.holdRow row)

/-- What is held when a pass changes nothing is closed: no row of the pass has a predecessor held
and is not held itself. -/
theorem mem_of_holdPass_eq_none {held : Held} (h : holdPass preds rows held = none)
    {row : WaveRow} (hrow : row ∈ rows) {p : Text} (hedge : preds.Edge row.id p)
    (hp : p ∈ held.ids) : row.id ∈ held.ids := by
  rw [holdPass] at h
  split_ifs at h with hlen
  -- the row is held behind its turn, and nothing is new behind the pass
  obtain ⟨front, back, rfl⟩ := List.append_of_mem hrow
  rw [List.foldl_append, List.foldl_cons] at hlen
  obtain ⟨new₁, hnew₁, -⟩ := exists_append_foldl_holdRow preds front held
  have hmem : row.id ∈ (holdRow preds (front.foldl (holdRow preds) held) row).ids := by
    refine mem_holdRow_iff.mpr (Or.inr ⟨rfl, p, hedge, ?_⟩)
    rw [hnew₁, Held.ids, List.map_append]
    exact List.mem_append_left _ hp
  obtain ⟨new₂, hnew₂, -⟩ := exists_append_foldl_holdRow preds [row]
    (front.foldl (holdRow preds) held)
  obtain ⟨new₃, hnew₃, -⟩ := exists_append_foldl_holdRow preds back
    (holdRow preds (front.foldl (holdRow preds) held) row)
  rw [List.foldl_cons, List.foldl_nil] at hnew₂
  rw [hnew₃, hnew₂, hnew₁] at hlen
  simp only [List.length_append] at hlen
  have hnil₁ : new₁ = [] := List.length_eq_zero_iff.mp (by omega)
  have hnil₂ : new₂ = [] := List.length_eq_zero_iff.mp (by omega)
  rwa [hnew₂, hnew₁, hnil₁, hnil₂, List.append_nil, List.append_nil] at hmem

/-- The rows held are those from which the predecessors lead to a withheld row. -/
theorem mem_computeHeldOut_iff (hnodes : preds.nodes = rowIds rows) {x : Text} :
    x ∈ (computeHeldOut preds rows).ids ↔ ∃ s ∈ withheldIds rows, preds.Reaches x s := by
  obtain ⟨hsteps, hhalt⟩ := steps_drain (fun _ _ => unheld_lt preds rows)
    (directlyHeld rows)
  have hbehind : Behind preds rows (computeHeldOut preds rows) := by
    refine hsteps.invariant (fun held held' hheld hpass => ?_) fun x hx =>
      ⟨x, mem_directlyHeld_iff.mp hx, .refl⟩
    rw [holdPass] at hpass
    split_ifs at hpass
    exact Option.some.inj hpass ▸ hheld.foldl_holdRow rows
  have hdirect : ∀ s ∈ withheldIds rows, s ∈ (computeHeldOut preds rows).ids := by
    intro s hs
    refine hsteps.invariant (P := fun held => s ∈ held.ids) (fun held held' hheld hpass => ?_)
      (mem_directlyHeld_iff.mpr hs)
    rw [holdPass] at hpass
    split_ifs at hpass
    obtain ⟨new, hnew, -⟩ := exists_append_foldl_holdRow preds rows held
    rw [← Option.some.inj hpass, hnew, Held.ids, List.map_append]
    exact List.mem_append_left _ hheld
  refine ⟨hbehind x, ?_⟩
  rintro ⟨s, hs, hreach⟩
  -- backwards from the withheld row
  induction hreach using ReflTransGen.head_induction_on with
  | refl => exact hdirect s hs
  | head hedge _ ih =>
    obtain ⟨row, hrow, rfl⟩ := List.mem_map.mp (hnodes ▸ preds.source hedge)
    exact mem_of_holdPass_eq_none hhalt hrow hedge ih

/-- The sets that hold the withheld rows and every row with a predecessor held. -/
def HoldsClosed (preds : SuccGraph Text) (rows : List WaveRow) : Set (Set Text) :=
  {S | withheldIds rows ⊆ S ∧ ∀ r w, preds.Edge r w → w ∈ S → r ∈ S}

/-- What is held out is the least set closed under holding. -/
theorem isLeast_computeHeldOut (hnodes : preds.nodes = rowIds rows) :
    IsLeast (HoldsClosed preds rows) {x | x ∈ (computeHeldOut preds rows).ids} := by
  refine ⟨⟨fun s hs => ?_, fun r w hedge hw => ?_⟩, fun S hS x hx => ?_⟩
  · exact (mem_computeHeldOut_iff hnodes).mpr ⟨s, hs, .refl⟩
  · obtain ⟨s, hs, hreach⟩ := (mem_computeHeldOut_iff hnodes).mp hw
    exact (mem_computeHeldOut_iff hnodes).mpr ⟨s, hs, .head hedge hreach⟩
  · obtain ⟨s, hs, hreach⟩ := (mem_computeHeldOut_iff hnodes).mp hx
    induction hreach using ReflTransGen.head_induction_on with
    | refl => exact hS.1 hs
    | head hedge _ ih => exact hS.2 _ _ hedge (ih ((mem_computeHeldOut_iff hnodes).mpr
        ⟨s, hs, ‹_›⟩))

end

/-- What `_predecessors` keeps of the edges both loops have found, declared cycles or not: all but
the derived ones on a cycle. -/
theorem edge_predecessors_iff_candidateGraph (lower : Text → Text) {rows : List WaveRow}
    {r w : Text} : (predecessors lower rows).Edge r w ↔ (candidateGraph lower rows).Edge r w ∧
      ((r, w) ∈ derivedEdges lower rows → ¬ (candidateGraph lower rows).Reaches w r) := by
  rw [SuccGraph.Edge, predecessors, List.mem_filter, SuccGraph.Edge]
  refine and_congr_right fun hedge => ?_
  have hcomp := SuccGraph.component_eq_iff (candidateGraph lower rows)
    ((candidateGraph lower rows).source hedge) ((candidateGraph lower rows).target hedge)
  rw [and_iff_right (.single hedge)] at hcomp
  have hrefl : r = w → (candidateGraph lower rows).Reaches w r := fun h => h ▸ .refl
  simp only [SuccGraph.component] at hcomp
  simp only [Bool.not_eq_true', List.contains_eq_mem, decide_eq_false_iff_not,
    cyclicDerivedEdges, List.mem_filter, Bool.or_eq_true, beq_iff_eq, hcomp, not_and,
    or_iff_right_of_imp hrefl]

/-- The candidate edges are the declared and the derived ones. -/
theorem mem_succ_candidateGraph {lower : Text → Text} {rows : List WaveRow} {r w : Text} :
    (candidateGraph lower rows).Edge r w ↔
      w ∈ declaredPreds rows r ++ derivedPreds lower rows r := mem_sortedSet

section

variable (lower : Text → Text)

/-! ### The order of the rows -/

/-- What is withheld does not depend on the order of the rows. -/
theorem withheldIds_perm {rows rows' : List WaveRow} (h : rows'.Perm rows) :
    withheldIds rows' = withheldIds rows := by
  ext id
  simp only [withheldIds, Set.mem_ofPred_eq, Withheld, rowIds, h.mem_iff, (h.map _).mem_iff]

/-- `held_out_row_ids`. -/
def heldOutRowIds (rows : List WaveRow) : Set Text :=
  {x | x ∈ (computeHeldOut (predecessors lower rows) rows).ids}

/-- A row is held out when it reaches a withheld row. -/
theorem mem_heldOutRowIds_iff {rows : List WaveRow} {x : Text} :
    x ∈ heldOutRowIds lower rows ↔
      ∃ s ∈ withheldIds rows, (predecessors lower rows).Reaches x s :=
  mem_computeHeldOut_iff rfl

/-- What is held out does not depend on the order of the rows. -/
theorem heldOutRowIds_perm {rows rows' : List WaveRow} (h : rows'.Perm rows)
    (hac : ∀ x, ¬ TransGen (Declared rows) x x) :
    heldOutRowIds lower rows' = heldOutRowIds lower rows := by
  have hedges : (predecessors lower rows').Edge = (predecessors lower rows).Edge := by
    funext r w
    exact propext (edge_predecessors_perm lower h hac)
  ext x
  simp only [mem_heldOutRowIds_iff, withheldIds_perm h, SuccGraph.Reaches, hedges]

/-! ### What is scheduled -/

/-- No scheduled row depends on a held one. -/
theorem not_mem_heldOutRowIds {rows : List EmitterRow} {waves : List (List WaveRow)}
    (h : buildWaves lower rows = .ok waves) {row : WaveRow} (hrow : row ∈ waves.flatten)
    {g : Gate} (hg : some g ∈ row.dependsOn) : g.chunk ∉ heldOutRowIds lower (waveRows rows) := by
  have hac : ∀ x, ¬ TransGen (Declared (waveRows rows)) x x := by
    intro x hx
    obtain ⟨e, he⟩ := (buildWaves_eq_error_iff lower).mpr ⟨x, hx⟩
    rw [h] at he
    cases he
  obtain ⟨waves', hok, hperm, -⟩ := buildWaves_eq_ok lower hac
  obtain rfl := Except.ok.inj (h.symm.trans hok)
  obtain ⟨erow, herow, rfl⟩ := List.mem_map.mp (hperm.mem_iff.mp hrow)
  obtain ⟨hmem, hnot⟩ := List.mem_filter.mp herow
  intro hheld
  obtain ⟨s, hs, hreach⟩ := (mem_heldOutRowIds_iff lower).mp hheld
  have hchunk : g.chunk ∈ rowIds (waveRows rows) := by
    rcases ReflTransGen.cases_head hreach with rfl | ⟨p, hedge, -⟩
    · obtain ⟨r, hr, hid, -⟩ := hs
      exact hid ▸ List.mem_map_of_mem hr
    · exact (predecessors lower (waveRows rows)).source hedge
  have hedge : (predecessors lower (waveRows rows)).Edge erow.id g.chunk :=
    (edge_predecessors_iff lower hac).mpr
      (Or.inl ⟨erow.toWaveRow, List.mem_map_of_mem hmem, rfl, hchunk, g, hg, rfl⟩)
  refine of_decide_eq_true hnot ?_
  exact (mem_heldOutRowIds_iff lower).mpr ⟨s, hs, .head hedge hreach⟩

/-- When no row is withheld, every row is scheduled. -/
theorem scheduledRows_eq_self {rows : List EmitterRow} (h : directlyHeld (waveRows rows) = []) :
    scheduledRows lower rows = rows := by
  refine List.filter_eq_self.mpr fun row _ => decide_eq_true fun hheld => ?_
  obtain ⟨s, hs, -⟩ := (mem_heldOutRowIds_iff lower).mp hheld
  have hmem := mem_directlyHeld_iff.mpr hs
  rw [h] at hmem
  exact List.not_mem_nil hmem

/-- The rows held out are the least set that holds the withheld rows and every row with a
predecessor held, and no scheduled row depends on one of them. Without a cycle of declared edges
they are the same in whatever order the rows come. -/
theorem held_out_least (rows : List EmitterRow) :
    IsLeast (HoldsClosed (predecessors lower (waveRows rows)) (waveRows rows))
      (heldOutRowIds lower (waveRows rows)) ∧
    ((∀ x, ¬ TransGen (Declared (waveRows rows)) x x) → ∀ rows', rows'.Perm rows →
      heldOutRowIds lower (waveRows rows') = heldOutRowIds lower (waveRows rows)) ∧
    ∀ waves, buildWaves lower rows = .ok waves → ∀ row ∈ waves.flatten, ∀ g,
      some g ∈ row.dependsOn → g.chunk ∉ heldOutRowIds lower (waveRows rows) :=
  ⟨isLeast_computeHeldOut rfl, fun hac _ hperm => heldOutRowIds_perm lower (hperm.map _) hac,
    fun _ hok _ hrow _ hg => not_mem_heldOutRowIds lower hok hrow hg⟩

end

/-- A row that waits for the verdict of the spike before it says what it writes. -/
def openRow : EmitterRow :=
  { WaveRow.bare "undeclared".toList with
    dependsOn := [some ⟨spikeRow.id, some epistemicPremise⟩]
    blockedOn := false }

/-- A row that consumes at run time what a row of another pass puts out. -/
def orphanRow : EmitterRow :=
  { WaveRow.bare "orphan".toList with
    writes := some ["orphan.py".toList]
    dependsOn := [some ⟨"gone".toList, some "output-consumption-runtime".toList⟩]
    blockedOn := false }

/-- A row behind the undeclared one. -/
def behindRow : EmitterRow :=
  { WaveRow.bare "behind-undeclared".toList with
    writes := some ["behind.py".toList]
    dependsOn := [some ⟨openRow.id, none⟩]
    blockedOn := false }

/-- A spike with a row that waits for its verdict, a row behind that one and an orphan. -/
abbrev partlyHeld : List EmitterRow := [behindRow, openRow, spikeRow, orphanRow]

/-- Each of these rows depends on ids shorter than its own. -/
theorem acyclic_partlyHeld (x : Text) : ¬ TransGen (Declared (waveRows partlyHeld)) x x := by
  have hshorter : ∀ row ∈ waveRows partlyHeld, ∀ g, some g ∈ row.dependsOn →
      g.chunk.length < row.id.length := by
    intro row hrow g hg
    simp only [List.map_cons, List.map_nil, List.mem_cons, List.not_mem_nil, or_false] at hrow
    rcases hrow with rfl | rfl | rfl | rfl
    · obtain rfl := Option.some.inj (List.mem_singleton.mp hg)
      decide
    · obtain rfl := Option.some.inj (List.mem_singleton.mp hg)
      decide
    · exact absurd hg List.not_mem_nil
    · obtain rfl := Option.some.inj (List.mem_singleton.mp hg)
      decide
  have hlength : ∀ {r w}, TransGen (Declared (waveRows partlyHeld)) r w → w.length < r.length := by
    intro r w h
    induction h with
    | single h =>
      obtain ⟨row, hrow, rfl, -, g, hg, rfl⟩ := h
      exact hshorter row hrow g hg
    | tail _ h ih =>
      obtain ⟨row, hrow, rfl, -, g, hg, rfl⟩ := h
      exact (hshorter row hrow g hg).trans ih
  intro hx
  exact absurd (hlength hx) (Nat.lt_irrefl _)

/-- The row that waits for the verdict, the orphan and the row behind are held in either order, the
spike is not, and what is scheduled depends on none of the held rows. -/
theorem held_out_least_spike :
    (∀ row ∈ [openRow, orphanRow, behindRow],
      row.id ∈ heldOutRowIds asciiLower (waveRows partlyHeld)) ∧
    spikeRow.id ∉ heldOutRowIds asciiLower (waveRows partlyHeld) ∧
    heldOutRowIds asciiLower (waveRows partlyHeld.reverse) =
      heldOutRowIds asciiLower (waveRows partlyHeld) ∧
    ∃ waves, buildWaves asciiLower partlyHeld = .ok waves ∧ ∀ row ∈ waves.flatten, ∀ g,
      some g ∈ row.dependsOn → g.chunk ∉ heldOutRowIds asciiLower (waveRows partlyHeld) := by
  obtain ⟨⟨⟨hdirect, hclosed⟩, hleast⟩, hperm, hscheduled⟩ := held_out_least asciiLower partlyHeld
  have hids : (directlyHeld (waveRows partlyHeld)).ids = [openRow.id, orphanRow.id] := by
    decide
  have hwithheld : ∀ {id}, id ∈ [openRow.id, orphanRow.id] →
      id ∈ heldOutRowIds asciiLower (waveRows partlyHeld) :=
    fun hid => hdirect (mem_directlyHeld_iff.mp (hids ▸ hid))
  have hopen := hwithheld (List.mem_cons_self ..)
  refine ⟨fun row hrow => ?_, fun hspike => ?_, hperm acyclic_partlyHeld _
    (List.reverse_perm _), ?_⟩
  · simp only [List.mem_cons, List.not_mem_nil, or_false] at hrow
    rcases hrow with rfl | rfl | rfl
    · exact hopen
    · exact hwithheld (List.mem_cons_of_mem _ (List.mem_singleton_self _))
    · refine hclosed _ _ ((edge_predecessors_iff_candidateGraph _).mpr
        ⟨mem_succ_candidateGraph.mpr (by decide), fun h => absurd h ?_⟩) hopen
      decide
  · -- all ids but the one of the spike are such a set
    refine hleast (a := {id | id ≠ spikeRow.id}) ⟨fun id hid => ?_, fun r w hedge _ => ?_⟩ hspike rfl
    · have hmem := mem_directlyHeld_iff.mpr hid
      rw [hids] at hmem
      exact fun h => absurd (h ▸ hmem) (by decide)
    · rintro rfl
      have hcandidate := ((edge_predecessors_iff_candidateGraph _).mp hedge).1
      have hnone : declaredPreds (waveRows partlyHeld) spikeRow.id ++
          derivedPreds asciiLower (waveRows partlyHeld) spikeRow.id = [] := by decide
      have hmem := mem_succ_candidateGraph.mp hcandidate
      rw [hnone] at hmem
      exact List.not_mem_nil hmem
  · obtain ⟨waves, hwaves, -⟩ := buildWaves_eq_ok asciiLower acyclic_partlyHeld
    exact ⟨waves, hwaves, hscheduled waves hwaves⟩

/-! ### A cycle of declared edges -/

/-- The first of two rows that depend on each other. It depends on a reader of the second too. -/
def firstRow : EmitterRow :=
  { WaveRow.bare "first".toList with
    writes := some []
    dependsOn := [some ⟨"second".toList, none⟩, some ⟨"reader".toList, none⟩]
    blockedOn := false }

/-- The second row, with a file of its own. It reads what the row below writes. -/
def secondRow : EmitterRow :=
  { WaveRow.bare "second".toList with
    writes := some ["second.py".toList]
    reads := ["held.py".toList]
    dependsOn := [some ⟨"first".toList, none⟩]
    blockedOn := false }

/-- A row that reads the file of the second. -/
def readerRow : EmitterRow :=
  { WaveRow.bare "reader".toList with
    writes := some []
    reads := ["second.py".toList]
    blockedOn := false }

/-- A row behind the reader that waits for a row of another pass. -/
def heldRow : EmitterRow :=
  { WaveRow.bare "held".toList with
    writes := some ["held.py".toList]
    dependsOn := [some ⟨"reader".toList, none⟩,
      some ⟨"gone".toList, some "output-consumption-runtime".toList⟩]
    blockedOn := false }

/-- The rows with the second in front: its closure has the reader, whose read makes no edge. -/
abbrev secondFirst : List EmitterRow := [secondRow, firstRow, readerRow, heldRow]

/-- The rows with the first in front: the closure of the second misses the reader. -/
abbrev firstFirst : List EmitterRow := [firstRow, secondRow, readerRow, heldRow]

/-- With the first row in front the edge from the second to the held row is taken to lie on a
cycle. -/
theorem second_not_held : secondRow.id ∉ heldOutRowIds asciiLower (waveRows firstFirst) := by
  intro hmem
  have hclosed : ({heldRow.id} : Set Text) ∈
      HoldsClosed (predecessors asciiLower (waveRows firstFirst)) (waveRows firstFirst) := by
    refine ⟨fun id hid => ?_, fun r w hedge hw => ?_⟩
    · have hdirect : (directlyHeld (waveRows firstFirst)).ids = [heldRow.id] := by decide
      have hmem := mem_directlyHeld_iff.mpr hid
      rw [hdirect] at hmem
      exact List.mem_singleton.mp hmem
    obtain rfl : w = heldRow.id := hw
    obtain ⟨hcandidate, hkept⟩ := (edge_predecessors_iff_candidateGraph _).mp hedge
    have hrows : ∀ r ∈ rowIds (waveRows firstFirst), heldRow.id ∈
        declaredPreds (waveRows firstFirst) r ++ derivedPreds asciiLower (waveRows firstFirst) r →
          r = secondRow.id := by decide
    obtain rfl := hrows r ((candidateGraph _ _).source hcandidate)
      (mem_succ_candidateGraph.mp hcandidate)
    refine absurd ?_ (hkept (by decide))
    exact .head (b := readerRow.id) (mem_succ_candidateGraph.mpr (by decide))
      (.single (mem_succ_candidateGraph.mpr (by decide)))
  have hid : secondRow.id = heldRow.id := (isLeast_computeHeldOut rfl).2 hclosed hmem
  exact absurd hid (by decide)

/-- With the second in front the edge stays. -/
theorem second_held : secondRow.id ∈ heldOutRowIds asciiLower (waveRows secondFirst) := by
  have hwithheld : heldRow.id ∈ withheldIds (waveRows secondFirst) :=
    mem_directlyHeld_iff.mp (by decide)
  refine (mem_heldOutRowIds_iff _).mpr ⟨heldRow.id, hwithheld, .single ?_⟩
  refine (edge_predecessors_iff_candidateGraph _).mpr
    ⟨mem_succ_candidateGraph.mpr (by decide), fun _ hreach => ?_⟩
  have hbehind : ∀ x, (candidateGraph asciiLower (waveRows secondFirst)).Reaches heldRow.id x →
      x ∈ [heldRow.id, readerRow.id] := by
    intro x hx
    induction hx with
    | refl => exact List.mem_cons_self ..
    | tail _ hedge ih =>
      have hsucc : ∀ a ∈ [heldRow.id, readerRow.id], ∀ b ∈ declaredPreds (waveRows secondFirst) a ++
          derivedPreds asciiLower (waveRows secondFirst) a, b ∈ [heldRow.id, readerRow.id] := by
        decide
      exact hsucc _ ih _ (mem_succ_candidateGraph.mp hedge)
  exact absurd (hbehind _ hreach) (by decide)

/-- When the declared edges form a cycle, what is held depends on the order of the rows. -/
theorem heldOutRowIds_order : ¬ ∀ rows rows' : List EmitterRow, (rows.map (·.id)).Nodup →
    rows'.Perm rows →
      heldOutRowIds asciiLower (waveRows rows') = heldOutRowIds asciiLower (waveRows rows) := by
  intro h
  have heq := h firstFirst secondFirst (by decide) (.swap ..)
  exact second_not_held (heq ▸ second_held)

end Dispatch

end CoordinatorCore
