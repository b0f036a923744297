import CoordinatorCore.Dispatch.Predecessors
import Mathlib.Order.WellFounded

/-!
# Waves

`build_waves` orders the rows of a pass into waves, groups that may run in parallel. Rows that
cannot run yet are held out, with everything behind them; of the rest, each goes into the first
wave behind its predecessors in which nothing overlaps it.

It refuses exactly the rows whose declared graph has a cycle (`buildWaves_eq_error_iff`). The
refusal inside the topological sort is never reached.
-/

namespace CoordinatorCore

open Text Relation Machine

namespace Dispatch

/-- The refusals. `stuck` is the one in the topological sort, `selfConsuming` the one behind the
waves. -/
inductive WaveCycleError
  | cycle (members : List Text)
  | stuck (pending : List Text)
  | selfConsuming (chunk laterChunk : Text) (paths : List Text)

/-! ### Rows held out -/

/-- `", ".join`. -/
def joinComma (parts : List Text) : Text := (", ".toList).intercalate parts

/-- `_EPISTEMIC_PREMISE`. -/
def epistemicPremise : Text := "epistemic-premise".toList

/-- `_RUNTIME_ORDER_GATE_KINDS`. -/
def runtimeOrderGateKinds : List Text := ["output-consumption-runtime".toList, epistemicPremise]

/-- `_epistemic_premise_predecessors`. -/
def epistemicPremisePredecessors (row : WaveRow) : List Text :=
  row.dependsOn.filterMap fun edge =>
    edge.bind fun g => if g.gateKind = some epistemicPremise then some g.chunk else none

/-- `_blocked_predecessor_gates`. -/
def blockedPredecessorGates (row : WaveRow) (ids : List Text) : List (Text × Text) :=
  row.dependsOn.filterMap fun edge => edge.bind fun g => g.gateKind.bind fun kind =>
    if kind ∈ runtimeOrderGateKinds ∧ g.chunk ∉ ids then some (g.chunk, kind) else none

/-- Why rows are held: ids with a reason each. -/
abbrev Held := List (Text × Text)

/-- The ids held. -/
def Held.ids (held : Held) : List Text := held.map Prod.fst

/-- The rows held for what they are themselves. -/
def directlyHeld (rows : List WaveRow) : Held :=
  let undeclared := rows.filterMap fun row =>
    let gates := epistemicPremisePredecessors row
    if gates ≠ [] ∧ row.writes = none then
      some (row.id, "epistemic-premise gate on ".toList ++ joinComma gates ++
        ", surface not yet declared".toList)
    else none
  let blocked := rows.filterMap fun row =>
    let gates := blockedPredecessorGates row (rowIds rows)
    if row.id ∉ undeclared.map Prod.fst ∧ gates ≠ [] then
      some (row.id, "depends_on predecessor BLOCKED (not present in this pass): ".toList ++
        joinComma (gates.map fun g => g.1 ++ " (gate_kind=".toList ++ g.2 ++ ")".toList))
    else none
  undeclared ++ blocked

section

variable (preds : SuccGraph Text)

/-- Why a row behind held rows is held. -/
def blockersReason (blockers : List Text) : Text :=
  "depends on held row(s) ".toList ++ joinComma blockers

/-- One row of a pass over the rows. -/
def holdRow (held : Held) (row : WaveRow) : Held :=
  if row.id ∈ held.ids then held
  else
    let blockers := sortedSet ((preds.succ row.id).filter fun p => p ∈ held.ids)
    if blockers = [] then held
    else held ++ [(row.id, blockersReason blockers)]

/-- A pass over the rows, `none` when it changes nothing. -/
def holdPass (rows : List WaveRow) (held : Held) : Option Held :=
  let held' := rows.foldl (holdRow preds) held
  if held'.length = held.length then none else some held'

/-- The rows not held yet. -/
def unheld (rows : List WaveRow) (held : Held) : Nat :=
  ((rowIds rows).filter fun id => id ∉ held.ids).length

private theorem length_filter_lt {β : Type*} {l : List β} {p q : β → Bool} {x : β} (hx : x ∈ l)
    (hle : ∀ y, q y = true → p y = true) (hp : p x = true) (hq : q x = false) :
    (l.filter q).length < (l.filter p).length := by
  obtain ⟨a, b, rfl⟩ := List.append_of_mem hx
  have hmono : ∀ l : List β, (l.filter q).length ≤ (l.filter p).length :=
    fun l => (List.monotone_filter_right l hle).length_le
  have ha := hmono a
  have hb := hmono b
  simp only [List.filter_append, List.filter_cons, hp, hq, List.length_append, if_true,
    Bool.false_eq_true, if_false, List.length_cons]
  omega

/-- A pass adds rows of the pass that were not held. -/
theorem exists_append_foldl_holdRow (rows : List WaveRow) (held : Held) :
    ∃ new, rows.foldl (holdRow preds) held = held ++ new ∧
      ∀ e ∈ new, e.1 ∈ rowIds rows ∧ e.1 ∉ held.ids := by
  induction rows generalizing held with
  | nil => exact ⟨[], by simp, fun e he => absurd he List.not_mem_nil⟩
  | cons row rows ih =>
    rw [List.foldl_cons]
    obtain ⟨new, hnew, hids⟩ := ih (holdRow preds held row)
    have hrow : ∃ new₀, holdRow preds held row = held ++ new₀ ∧
        ∀ e ∈ new₀, e.1 = row.id ∧ e.1 ∉ held.ids := by
      have hnone : held = held ++ [] := (List.append_nil held).symm
      unfold holdRow
      by_cases h₁ : row.id ∈ held.ids
      · rw [if_pos h₁]
        exact ⟨[], hnone, fun e he => absurd he List.not_mem_nil⟩
      · rw [if_neg h₁]
        dsimp only
        split
        · exact ⟨[], hnone, fun e he => absurd he List.not_mem_nil⟩
        · refine ⟨_, rfl, fun e he => ?_⟩
          obtain rfl := List.mem_singleton.mp he
          exact ⟨rfl, h₁⟩
    obtain ⟨new₀, hnew₀, hids₀⟩ := hrow
    refine ⟨new₀ ++ new, by rw [hnew, hnew₀, List.append_assoc], fun e he => ?_⟩
    rcases List.mem_append.mp he with he | he
    · obtain ⟨hid, hheld⟩ := hids₀ e he
      exact ⟨hid ▸ List.mem_cons_self .., hheld⟩
    · obtain ⟨hid, hheld⟩ := hids e he
      refine ⟨List.mem_cons_of_mem _ hid, fun h => hheld ?_⟩
      rw [hnew₀, Held.ids, List.map_append]
      exact List.mem_append_left _ h

/-- A pass that holds something leaves fewer rows unheld. -/
theorem unheld_lt (rows : List WaveRow) {held held' : Held}
    (h : holdPass preds rows held = some held') :
    unheld rows held' < unheld rows held := by
  rw [holdPass] at h
  split_ifs at h with hlen
  obtain rfl := Option.some.inj h
  obtain ⟨new, hnew, hids⟩ := exists_append_foldl_holdRow preds rows held
  rw [hnew] at hlen ⊢
  obtain ⟨e, new, rfl⟩ : ∃ e t, new = e :: t :=
    List.exists_cons_of_ne_nil fun hnil => hlen (by simp [hnil])
  obtain ⟨hid, hheld⟩ := hids e (List.mem_cons_self ..)
  refine length_filter_lt hid (fun y hy => ?_) (by simpa using hheld) ?_
  · rw [decide_eq_true_eq, Held.ids, List.map_append, List.mem_append, not_or] at hy
    exact decide_eq_true hy.1
  · simp [Held.ids]

/-- `_compute_held_out`. -/
def computeHeldOut (rows : List WaveRow) : Held :=
  drain (holdPass preds rows) (unheld rows) (fun _ _ => unheld_lt preds rows) (directlyHeld rows)

/-! ### The order -/

/-- The rounds of `_topological_order`: the first row whose predecessors are all placed is next. -/
def placeReady : Nat → List EmitterRow → List EmitterRow →
    Except WaveCycleError (List EmitterRow)
  | 0, _, ordered => .ok ordered
  | n + 1, pending, ordered =>
    let ready (row : EmitterRow) : Bool :=
      (preds.succ row.id).all fun p => (ordered.map (·.id)).contains p
    match pending.find? ready with
    | some row => placeReady n (pending.eraseP ready) (ordered ++ [row])
    | none => .error (.stuck (pending.map (·.id)))

/-- `_topological_order`. -/
def topologicalOrder (rows : List EmitterRow) : Except WaveCycleError (List EmitterRow) :=
  placeReady preds rows.length rows []

/-- The stack and the set of `_blocked_rows_last`. -/
structure Worklist where
  stack : List Text
  needed : List Text

/-- A predecessor is needed. -/
def Worklist.need (w : Worklist) (pred : Text) : Worklist :=
  if pred ∈ w.needed then w else ⟨pred :: w.stack, pred :: w.needed⟩

/-- One row is taken off the stack. -/
def needStep (w : Worklist) : Option Worklist :=
  match w.stack with
  | [] => none
  | id :: stack => some ((preds.succ id).foldl Worklist.need { w with stack := stack })

/-- The rows on the stack and, twice, those not needed yet. -/
def needMeasure (w : Worklist) : Nat :=
  w.stack.length + 2 * (preds.nodes.filter fun id => id ∉ w.needed).length

private theorem needMeasure_foldl (ps : List Text) (hps : ∀ p ∈ ps, p ∈ preds.nodes)
    (w : Worklist) : needMeasure preds (ps.foldl Worklist.need w) ≤ needMeasure preds w := by
  induction ps generalizing w with
  | nil => exact le_rfl
  | cons p ps ih =>
    refine (ih (fun q hq => hps q (List.mem_cons_of_mem _ hq)) _).trans ?_
    rw [Worklist.need]
    split_ifs with hp
    · exact le_rfl
    · have hlt := length_filter_lt (q := fun id => decide (id ∉ p :: w.needed))
        (hps p (List.mem_cons_self ..)) (p := fun id => decide (id ∉ w.needed))
        (fun y hy => by
          simp only [List.mem_cons, not_or, decide_eq_true_eq] at hy ⊢
          exact hy.2) (by simpa using hp) (by simp)
      simp only [needMeasure, List.length_cons]
      omega

/-- Every step of the worklist leaves less to do. -/
theorem needMeasure_lt {w w' : Worklist} (h : needStep preds w = some w') :
    needMeasure preds w' < needMeasure preds w := by
  rw [needStep] at h
  split at h
  · cases h
  · next id stack hw =>
    obtain rfl := Option.some.inj h
    have := needMeasure_foldl preds (preds.succ id) (fun p hp => preds.target hp)
      { w with stack := stack }
    simp only [needMeasure, hw, List.length_cons] at this ⊢
    omega

/-- The rows some row that is not blocked needs. -/
def neededIds (rows : List EmitterRow) : List Text :=
  (drain (needStep preds) (needMeasure preds) (fun _ _ => needMeasure_lt preds)
    ⟨(rows.filter fun row => !row.blockedOn).map (·.id), []⟩).needed

/-- `_blocked_rows_last`. -/
def blockedRowsLast (rows : List EmitterRow) : List EmitterRow :=
  let needed := neededIds preds rows
  let deferred (row : EmitterRow) : Bool := row.blockedOn && !needed.contains row.id
  rows.filter (fun row => !deferred row) ++ rows.filter deferred

/-- Moving blocked rows to the end loses none. -/
theorem blockedRowsLast_perm (rows : List EmitterRow) : (blockedRowsLast preds rows).Perm rows :=
  List.perm_append_comm.trans (List.filter_append_perm _ rows)

end

/-! ### Placing rows -/

section

variable (lower : Text → Text)

/-- The first wave from a candidate on in which nothing overlaps the row, a new one behind the
last. The result is the waves and the index of that wave. -/
def placeFrom (row : EmitterRow) : Nat → List (List EmitterRow) → List (List EmitterRow) × Nat
  | _, [] => ([[row]], 0)
  | 0, wave :: waves =>
    if wave.all fun placed => !writesOverlap lower row.toWaveRow placed.toWaveRow then
      ((wave ++ [row]) :: waves, 0)
    else
      let r := placeFrom row 0 waves
      (wave :: r.1, r.2 + 1)
  | candidate + 1, wave :: waves =>
    let r := placeFrom row candidate waves
    (wave :: r.1, r.2 + 1)

/-- The waves so far and the index of every row placed. -/
structure Placing where
  waves : List (List EmitterRow)
  waveOf : List (Text × Nat)

/-- One row of the loop of `build_waves`. -/
def placeRow (preds : SuccGraph Text) (p : Placing) (row : EmitterRow) : Placing :=
  let minWave := (preds.succ row.id).foldl
    (fun m pred => max m (((p.waveOf.lookup pred).map (· + 1)).getD 0)) 0
  let r := placeFrom lower row minWave p.waves
  ⟨r.1, (row.id, r.2) :: p.waveOf⟩

/-- `_detect_cycle`. -/
def detectCycle (preds : SuccGraph Text) : Except WaveCycleError Unit :=
  match preds.findCycle with
  | .ok _ => .ok ()
  | .error members => .error (.cycle members)

/-- The rows of a pass that are not held out. -/
def scheduledRows (rows : List EmitterRow) : List EmitterRow :=
  let waveRows := rows.map (·.toWaveRow)
  let held := computeHeldOut (predecessors lower waveRows) waveRows
  rows.filter fun row => row.id ∉ held.ids

/-- `build_waves`. -/
def buildWaves (rows : List EmitterRow) : Except WaveCycleError (List (List WaveRow)) := do
  detectCycle (predecessors lower (rows.map (·.toWaveRow)))
  let rows := scheduledRows lower rows
  let preds := predecessors lower (rows.map (·.toWaveRow))
  let order ← topologicalOrder preds (blockedRowsLast preds rows)
  let placing := order.foldl (placeRow lower preds) ⟨[], []⟩
  return (placing.waves.filter fun wave => !wave.isEmpty).map fun wave => wave.map (·.toWaveRow)

end

/-! ### The order is complete -/

section

variable {preds : SuccGraph Text}

/-- Every row comes behind its predecessors, of which `seen` are there at the start. -/
def Topological (preds : SuccGraph Text) : List Text → List EmitterRow → Prop
  | _, [] => True
  | seen, row :: rows =>
    (∀ p ∈ preds.succ row.id, p ∈ seen) ∧ Topological preds (seen ++ [row.id]) rows

/-- A row behind its predecessors keeps the order topological. -/
theorem Topological.concat {seen : List Text} {rows : List EmitterRow}
    (h : Topological preds seen rows) {row : EmitterRow}
    (hrow : ∀ p ∈ preds.succ row.id, p ∈ seen ++ rows.map (·.id)) :
    Topological preds seen (rows ++ [row]) := by
  induction rows generalizing seen with
  | nil => exact ⟨by simpa using hrow, trivial⟩
  | cons r rows ih =>
    refine ⟨h.1, ih h.2 ?_⟩
    simpa [List.append_assoc] using hrow

/-- In an acyclic graph some row is ready as long as one is pending. -/
private theorem exists_ready (hac : preds.Acyclic) {pending ordered : List EmitterRow}
    (hnodes : ∀ id ∈ preds.nodes, id ∈ pending.map (·.id) ∨ id ∈ ordered.map (·.id))
    (hne : pending ≠ []) :
    ∃ row ∈ pending, ∀ p ∈ preds.succ row.id, p ∈ ordered.map (·.id) := by
  obtain ⟨row₀, rest, rfl⟩ := List.exists_cons_of_ne_nil hne
  obtain ⟨m, hm, hmin⟩ := hac.wellFounded.has_min
    {x | x ∈ (row₀ :: rest).map (·.id)} ⟨row₀.id, by simp⟩
  obtain ⟨row, hrow, rfl⟩ := List.mem_map.mp hm
  exact ⟨row, hrow, fun p hp => (hnodes p (preds.target hp)).resolve_left fun h => hmin p h hp⟩

/-- Without cycles every row is placed, in topological order. -/
theorem placeReady_eq_ok (hac : preds.Acyclic) {n : Nat} {pending ordered : List EmitterRow}
    (hn : n = pending.length)
    (hnodes : ∀ id ∈ preds.nodes, id ∈ pending.map (·.id) ∨ id ∈ ordered.map (·.id))
    (htop : Topological preds [] ordered) :
    ∃ order, placeReady preds n pending ordered = .ok order ∧
      order.Perm (ordered ++ pending) ∧ Topological preds [] order := by
  induction n generalizing pending ordered with
  | zero =>
    obtain rfl : pending = [] := List.length_eq_zero_iff.mp hn.symm
    exact ⟨ordered, rfl, by simp, htop⟩
  | succ n ih =>
    have hne : pending ≠ [] := by
      rintro rfl
      cases hn
    -- without a cycle some row waits for nothing that is still pending
    obtain ⟨row₀, hrow₀, hready₀⟩ := exists_ready hac hnodes hne
    set ready : EmitterRow → Bool := fun row =>
      (preds.succ row.id).all fun p => (ordered.map (·.id)).contains p with hready
    have hiff : ∀ row, ready row = true ↔
        ∀ p ∈ preds.succ row.id, p ∈ ordered.map (·.id) := by
      intro row
      simp [hready]
    obtain ⟨row, a, b, hbefore, hrow, hsplit, herase⟩ :=
      List.exists_of_eraseP hrow₀ ((hiff row₀).mpr hready₀)
    have hfind : pending.find? ready = some row := by
      rw [List.find?_eq_some_iff_append]
      exact ⟨hrow, a, b, hsplit, fun x hx => by simpa using hbefore x hx⟩
    have hlen : n = (pending.eraseP ready).length := by
      rw [herase]
      rw [hsplit] at hn
      simp only [List.length_append, List.length_cons] at hn ⊢
      omega
    -- the row taken moves from the pending ones to the ordered ones
    have hmem : ∀ id ∈ preds.nodes, id ∈ (pending.eraseP ready).map (·.id) ∨
        id ∈ (ordered ++ [row]).map (·.id) := by
      intro id hid
      have := hnodes id hid
      rw [hsplit] at this
      rw [herase]
      simp only [List.map_append, List.map_cons, List.map_nil, List.mem_append, List.mem_cons,
        List.not_mem_nil, or_false] at this ⊢
      tauto
    obtain ⟨order, hok, hperm, horder⟩ := ih hlen hmem
      (htop.concat (by simpa using (hiff row).mp hrow))
    refine ⟨order, ?_, hperm.trans ?_, horder⟩
    · rw [placeReady]
      simp only [← hready, hfind]
      exact hok
    · rw [herase, hsplit, List.append_assoc, List.singleton_append]
      exact (List.perm_middle.symm).append_left ordered

/-- The topological sort of an acyclic graph places every row. -/
theorem topologicalOrder_eq_ok (hac : preds.Acyclic) {rows : List EmitterRow}
    (hnodes : ∀ id ∈ preds.nodes, id ∈ rows.map (·.id)) :
    ∃ order, topologicalOrder preds rows = .ok order ∧ order.Perm rows ∧
      Topological preds [] order :=
  placeReady_eq_ok hac rfl (fun id hid => Or.inl (hnodes id hid)) trivial

end

/-! ### The waves are in layers -/

section

variable (lower : Text → Text) {β : Type*} (wr : β → WaveRow)

/-- Every row comes in a wave behind all its predecessors, of which `seen` are there at the start,
and no two rows of a wave overlap. -/
def Layered (preds : SuccGraph Text) : List Text → List (List β) → Prop
  | _, [] => True
  | seen, wave :: waves =>
    (∀ row ∈ wave, ∀ p ∈ preds.succ (wr row).id, p ∈ seen) ∧
      (wave.Pairwise fun a b => writesOverlap lower (wr a) (wr b) = false) ∧
        Layered preds (seen ++ wave.map fun row => (wr row).id) waves

variable {lower wr} {preds : SuccGraph Text}

/-- Waves stay layered behind more rows. -/
theorem Layered.mono {seen seen' : List Text} {waves : List (List β)}
    (h : Layered lower wr preds seen waves) (hsub : ∀ p ∈ seen, p ∈ seen') :
    Layered lower wr preds seen' waves := by
  induction waves generalizing seen seen' with
  | nil => trivial
  | cons wave waves ih =>
    obtain ⟨hpreds, hpair, hrest⟩ := h
    refine ⟨fun row hrow p hp => hsub p (hpreds row hrow p hp), hpair, ih hrest fun p hp => ?_⟩
    rcases List.mem_append.mp hp with hp | hp
    · exact List.mem_append_left _ (hsub p hp)
    · exact List.mem_append_right _ hp

/-- Empty waves make no layer. -/
theorem Layered.filter {seen : List Text} {waves : List (List β)}
    (h : Layered lower wr preds seen waves) :
    Layered lower wr preds seen (waves.filter fun wave => !wave.isEmpty) := by
  induction waves generalizing seen with
  | nil => trivial
  | cons wave waves ih =>
    obtain ⟨hpreds, hpair, hrest⟩ := h
    cases wave with
    | nil => simpa using ih hrest
    | cons row wave => exact ⟨hpreds, hpair, ih hrest⟩

/-- Waves of rows are layered as the waves of their wave rows. -/
theorem Layered.map {seen : List Text} {waves : List (List β)}
    (h : Layered lower wr preds seen waves) :
    Layered lower id preds seen (waves.map fun wave => wave.map wr) := by
  induction waves generalizing seen with
  | nil => trivial
  | cons wave waves ih =>
    obtain ⟨hpreds, hpair, hrest⟩ := h
    refine ⟨fun row hrow => ?_, List.pairwise_map.mpr hpair, ?_⟩
    · obtain ⟨r, hr, rfl⟩ := List.mem_map.mp hrow
      exact hpreds r hr
    · simpa [Function.comp_def] using ih hrest

/-- Layers depend on the edges only. -/
theorem Layered.congr {preds' : SuccGraph Text} {seen : List Text} {waves : List (List β)}
    (h : Layered lower wr preds seen waves) (hedge : ∀ r w, preds'.Edge r w → preds.Edge r w) :
    Layered lower wr preds' seen waves := by
  induction waves generalizing seen with
  | nil => trivial
  | cons wave waves ih =>
    exact ⟨fun row hrow p hp => h.1 row hrow p (hedge _ _ hp), h.2.1, ih h.2.2⟩

end

/-! ### Placing keeps the layers -/

section

variable (lower : Text → Text) {preds : SuccGraph Text}

/-- The ids in the first waves. -/
def placedIds (n : Nat) (waves : List (List EmitterRow)) : List Text :=
  (waves.take n).flatten.map (·.id)

/-- A row placed behind its predecessors keeps the waves layered. -/
theorem layered_placeFrom {row : EmitterRow} {n : Nat} {waves : List (List EmitterRow)}
    {seen : List Text} (h : Layered lower EmitterRow.toWaveRow preds seen waves)
    (hrow : ∀ p ∈ preds.succ row.id, p ∈ seen ++ placedIds n waves) :
    Layered lower EmitterRow.toWaveRow preds seen (placeFrom lower row n waves).1 := by
  induction waves generalizing n seen with
  | nil =>
    refine ⟨fun r hr p hp => ?_, List.pairwise_singleton .., trivial⟩
    obtain rfl := List.mem_singleton.mp hr
    simpa [placedIds] using hrow p hp
  | cons wave waves ih =>
    obtain ⟨hpreds, hpair, hrest⟩ := h
    cases n with
    | zero =>
      have hseen : ∀ p ∈ preds.succ row.id, p ∈ seen := by
        intro p hp
        simpa [placedIds] using hrow p hp
      rw [placeFrom]
      split_ifs with hfree
      · -- the row joins a wave that nothing in it overlaps
        rw [List.all_eq_true] at hfree
        refine ⟨fun r hr => ?_, ?_, ?_⟩
        · rcases List.mem_append.mp hr with hr | hr
          · exact hpreds r hr
          · obtain rfl := List.mem_singleton.mp hr
            exact hseen
        · refine List.pairwise_append.mpr ⟨hpair, List.pairwise_singleton .., fun a ha b hb => ?_⟩
          obtain rfl := List.mem_singleton.mp hb
          rw [writesOverlap_comm]
          simpa using hfree a ha
        · refine hrest.mono fun p hp => ?_
          rw [List.map_append]
          simp only [List.mem_append] at hp ⊢
          tauto
      · exact ⟨hpreds, hpair, ih hrest fun p hp =>
          List.mem_append_left _ (List.mem_append_left _ (hseen p hp))⟩
    | succ n =>
      rw [placeFrom]
      refine ⟨hpreds, hpair, ih hrest fun p hp => ?_⟩
      simpa [placedIds, List.append_assoc] using hrow p hp

/-- Placing a row adds that row and no other. -/
theorem placeFrom_perm (row : EmitterRow) (n : Nat) (waves : List (List EmitterRow)) :
    (placeFrom lower row n waves).1.flatten.Perm (row :: waves.flatten) := by
  induction waves generalizing n with
  | nil =>
    unfold placeFrom
    simp
  | cons wave waves ih =>
    cases n with
    | zero =>
      rw [placeFrom]
      split_ifs
      · simp only [List.flatten_cons, List.append_assoc]
        exact List.perm_middle
      · rw [List.flatten_cons, List.flatten_cons]
        exact ((ih 0).append_left wave).trans List.perm_middle
    | succ n =>
      rw [placeFrom, List.flatten_cons, List.flatten_cons]
      exact ((ih n).append_left wave).trans List.perm_middle

/-- The row is in the wave whose index is returned. -/
theorem mem_placedIds_placeFrom (row : EmitterRow) (n : Nat) (waves : List (List EmitterRow)) :
    row.id ∈ placedIds ((placeFrom lower row n waves).2 + 1) (placeFrom lower row n waves).1 := by
  induction waves generalizing n with
  | nil =>
    unfold placeFrom
    simp [placedIds]
  | cons wave waves ih =>
    have hcons : ∀ m, row.id ∈ placedIds ((placeFrom lower row m waves).2 + 1 + 1)
        (wave :: (placeFrom lower row m waves).1) := by
      intro m
      rw [placedIds, List.take_succ_cons, List.flatten_cons, List.map_append]
      exact List.mem_append_right _ (ih m)
    cases n with
    | zero =>
      rw [placeFrom]
      split_ifs
      · simp [placedIds]
      · exact hcons 0
    | succ n =>
      rw [placeFrom]
      exact hcons n

/-- What the first waves hold they keep. -/
theorem placedIds_placeFrom (row : EmitterRow) (n k : Nat) (waves : List (List EmitterRow)) :
    ∀ p ∈ placedIds k waves, p ∈ placedIds k (placeFrom lower row n waves).1 := by
  induction waves generalizing n k with
  | nil => simp [placedIds]
  | cons wave waves ih =>
    intro p hp
    cases k with
    | zero => simp [placedIds] at hp
    | succ k =>
      rw [placedIds, List.take_succ_cons, List.flatten_cons, List.map_append,
        List.mem_append] at hp
      have hcons : ∀ m, p ∈ placedIds (k + 1) (wave :: (placeFrom lower row m waves).1) := by
        intro m
        rw [placedIds, List.take_succ_cons, List.flatten_cons, List.map_append, List.mem_append]
        exact hp.imp_right (ih m k p)
      cases n with
      | zero =>
        rw [placeFrom]
        split_ifs
        · rw [placedIds, List.take_succ_cons, List.flatten_cons, List.map_append, List.mem_append,
            List.map_append, List.mem_append]
          exact hp.imp_left Or.inl
        · exact hcons 0
      | succ n =>
        rw [placeFrom]
        exact hcons n

/-- Later waves have more rows in front of them. -/
theorem placedIds_mono {k k' : Nat} (h : k ≤ k') (waves : List (List EmitterRow)) :
    ∀ p ∈ placedIds k waves, p ∈ placedIds k' waves := by
  intro p hp
  rw [placedIds, List.mem_map] at hp ⊢
  obtain ⟨row, hrow, rfl⟩ := hp
  obtain ⟨wave, hwave, hrow⟩ := List.mem_flatten.mp hrow
  exact ⟨row, List.mem_flatten.mpr ⟨wave, (List.take_sublist_take_left h).subset hwave, hrow⟩, rfl⟩

/-- What the loop of `build_waves` keeps when it has placed the rows `done`. -/
structure Placed (preds : SuccGraph Text) (done : List EmitterRow) (p : Placing) : Prop where
  layered : Layered lower EmitterRow.toWaveRow preds [] p.waves
  perm : p.waves.flatten.Perm done
  index : ∀ id i, p.waveOf.lookup id = some i → id ∈ placedIds (i + 1) p.waves
  known : ∀ row ∈ done, p.waveOf.lookup row.id ≠ none

private theorem le_foldl_max {l : List Text} {f : Text → Nat} {m : Nat} {x : Text} (hx : x ∈ l) :
    f x ≤ l.foldl (fun m y => max m (f y)) m := by
  have hle : ∀ (l : List Text) (m : Nat), m ≤ l.foldl (fun m y => max m (f y)) m := by
    intro l
    induction l with
    | nil => exact fun m => le_rfl
    | cons y l ih => exact fun m => (le_max_left m (f y)).trans (ih _)
  induction l generalizing m with
  | nil => cases hx
  | cons y l ih =>
    rcases List.mem_cons.mp hx with rfl | hx
    · exact (le_max_right m (f x)).trans (hle l _)
    · exact ih hx

/-- A row whose predecessors are placed is placed behind them. -/
theorem Placed.placeRow {done : List EmitterRow} {p : Placing} (h : Placed lower preds done p)
    {row : EmitterRow} (hrow : ∀ q ∈ preds.succ row.id, q ∈ done.map (·.id)) :
    Placed lower preds (done ++ [row]) (placeRow lower preds p row) := by
  set minWave := (preds.succ row.id).foldl
    (fun m pred => max m (((p.waveOf.lookup pred).map (· + 1)).getD 0)) 0 with hmin
  have hbehind : ∀ q ∈ preds.succ row.id, q ∈ [] ++ placedIds minWave p.waves := by
    intro q hq
    obtain ⟨r, hr, hid⟩ := List.mem_map.mp (hrow q hq)
    obtain ⟨i, hi⟩ := Option.ne_none_iff_exists'.mp (h.known r hr)
    rw [hid] at hi
    have hle := le_foldl_max (f := fun pred => ((p.waveOf.lookup pred).map (· + 1)).getD 0)
      (m := 0) hq
    rw [hi] at hle
    exact placedIds_mono hle p.waves q (h.index q i hi)
  have hperm := placeFrom_perm lower row minWave p.waves
  exact {
    layered := layered_placeFrom lower h.layered hbehind
    perm := hperm.trans (((h.perm).cons row).trans (List.perm_append_singleton row done).symm)
    index := by
      intro id i hi
      rw [Dispatch.placeRow, List.lookup_cons] at hi
      split at hi
      · next heq =>
        obtain rfl := Option.some.inj hi
        rw [beq_iff_eq] at heq
        rw [heq]
        exact mem_placedIds_placeFrom lower row minWave p.waves
      · exact placedIds_placeFrom lower row minWave (i + 1) p.waves id (h.index id i hi)
    known := by
      intro r hr
      rw [Dispatch.placeRow, List.lookup_cons]
      split
      · simp
      · next hne =>
        rcases List.mem_append.mp hr with hr | hr
        · exact h.known r hr
        · obtain rfl := List.mem_singleton.mp hr
          simp at hne }

/-- The loop places row after row; by induction on the order. -/
theorem placed_foldl {order done : List EmitterRow} {p : Placing} (h : Placed lower preds done p)
    (htop : Topological preds (done.map (·.id)) order) :
    Placed lower preds (done ++ order) (order.foldl (placeRow lower preds) p) := by
  induction order generalizing done p with
  | nil => simpa using h
  | cons row order ih =>
    have hnext := ih (h.placeRow lower htop.1) (by simpa using htop.2)
    simpa [List.append_assoc] using hnext

/-! ### What is refused -/

/-- The wave rows of some emitter rows. -/
abbrev waveRows (rows : List EmitterRow) : List WaveRow := rows.map (·.toWaveRow)

omit lower in
/-- Declared edges among fewer rows are declared edges. -/
theorem Declared.mono {rows rows' : List WaveRow} (h : ∀ row ∈ rows', row ∈ rows) {r w : Text}
    (hd : Declared rows' r w) : Declared rows r w := by
  obtain ⟨row, hrow, hid, hw, g⟩ := hd
  refine ⟨row, h row hrow, hid, ?_, g⟩
  obtain ⟨row', hrow', rfl⟩ := List.mem_map.mp hw
  exact List.mem_map_of_mem (h row' hrow')

/-- The declared graph of the rows that are not held out has no cycle of its own. -/
theorem acyclic_scheduledRows {rows : List EmitterRow}
    (hac : ∀ x, ¬ TransGen (Declared (waveRows rows)) x x) (x : Text) :
    ¬ TransGen (Declared (waveRows (scheduledRows lower rows))) x x := by
  refine fun hx => hac x (TransGen.mono (fun r w => Declared.mono fun row hrow => ?_) _ _ hx)
  exact List.map_subset _ (List.filter_subset_self _) hrow

/-- Without a declared cycle the waves hold the scheduled rows, in layers. -/
theorem buildWaves_eq_ok {rows : List EmitterRow}
    (hac : ∀ x, ¬ TransGen (Declared (waveRows rows)) x x) :
    ∃ waves, buildWaves lower rows = .ok waves ∧
      waves.flatten.Perm (waveRows (scheduledRows lower rows)) ∧
        Layered lower id (predecessors lower (waveRows (scheduledRows lower rows))) [] waves := by
  obtain ⟨found, hfound⟩ :=
    (SuccGraph.findCycle_eq_ok_iff _).mpr (acyclic_predecessors lower hac)
  set scheduled := scheduledRows lower rows
  set preds := predecessors lower (waveRows scheduled) with hpreds
  have hac' : preds.Acyclic := acyclic_predecessors lower (acyclic_scheduledRows lower hac)
  have hlast := blockedRowsLast_perm preds scheduled
  have hnodes : ∀ id ∈ preds.nodes, id ∈ (blockedRowsLast preds scheduled).map (·.id) := by
    intro id hid
    rw [(hlast.map _).mem_iff]
    simpa [hpreds, predecessors, rowIds] using hid
  obtain ⟨order, horder, hperm, htop⟩ := topologicalOrder_eq_ok hac' hnodes
  have hstart : Placed lower preds [] ⟨[], []⟩ :=
    ⟨trivial, .nil, fun _ _ h => (by cases h), fun _ h => absurd h List.not_mem_nil⟩
  have hplaced := placed_foldl lower hstart htop
  refine ⟨_, ?_, ?_, hplaced.layered.filter.map⟩
  · rw [buildWaves, detectCycle, hfound]
    simp only [bind, Except.bind, pure, Except.pure]
    rw [horder]
  · rw [← List.map_flatten, List.flatten_filter_not_isEmpty]
    exact ((hplaced.perm.trans (by simpa using hperm)).trans hlast).map _

/-- A declared cycle is reported. -/
theorem buildWaves_eq_error {rows : List EmitterRow} {x : Text}
    (hx : TransGen (Declared (waveRows rows)) x x) :
    ∃ members, buildWaves lower rows = .error (.cycle members) ∧
      (predecessors lower (waveRows rows)).IsCycle members := by
  cases hfound : (predecessors lower (waveRows rows)).findCycle with
  | ok order =>
    have hac := (acyclic_predecessors_iff lower).mp (SuccGraph.findCycle_eq_ok hfound).2.2
    exact absurd hx (hac x)
  | error members =>
    refine ⟨members, ?_, SuccGraph.findCycle_eq_error hfound⟩
    rw [buildWaves, detectCycle, hfound]
    rfl

/-- Rows are refused exactly for a cycle of declared edges, and only by the cycle search. -/
theorem buildWaves_eq_error_iff {rows : List EmitterRow} :
    (∃ e, buildWaves lower rows = .error e) ↔
      ∃ x, TransGen (Declared (waveRows rows)) x x := by
  constructor
  · rintro ⟨e, he⟩
    by_contra hac
    obtain ⟨waves, hok, -⟩ := buildWaves_eq_ok lower (not_exists.mp hac)
    rw [hok] at he
    cases he
  · rintro ⟨x, hx⟩
    obtain ⟨members, h, -⟩ := buildWaves_eq_error lower hx
    exact ⟨_, h⟩

/-- Declared beats derived: rows are refused exactly for a cycle of declared edges. Without one,
the predecessors are the declared ones and the derived ones that the declared graph does not turn
round and that close no cycle with what is left, in whatever order the rows come. -/
theorem declared_beats_derived (rows : List EmitterRow) :
    ((∃ e, buildWaves lower rows = .error e) ↔
      ∃ x, TransGen (Declared (waveRows rows)) x x) ∧
    ((∀ x, ¬ TransGen (Declared (waveRows rows)) x x) →
      (∀ r w, (predecessors lower (waveRows rows)).Edge r w ↔
        Declared (waveRows rows) r w ∨
          (Collides lower (waveRows rows) r w ∧ ¬ TransGen (Declared (waveRows rows)) w r) ∧
            ¬ OnCycle lower (waveRows rows) r w) ∧
      ∀ rows', rows'.Perm rows → ∀ r w,
        (predecessors lower (waveRows rows')).Edge r w ↔
          (predecessors lower (waveRows rows)).Edge r w) :=
  ⟨buildWaves_eq_error_iff lower, fun hac => ⟨fun _ _ => edge_predecessors_iff lower hac,
    fun _ hperm _ _ => edge_predecessors_perm lower (hperm.map _) hac⟩⟩

end

/-! ### A spike and its implementation -/

/-- `str.lower` on ASCII letters. -/
def asciiLower (t : Text) : Text := t.map Char.toLower

/-- A row that reads a file. -/
def spikeRow : EmitterRow :=
  { WaveRow.bare "spike".toList with
    writes := some []
    reads := ["f.py".toList]
    blockedOn := false }

/-- A row that writes the file and depends on the one that reads it. -/
def implRow : EmitterRow :=
  { WaveRow.bare "impl".toList with
    writes := some ["f.py".toList]
    dependsOn := [some ⟨"spike".toList, none⟩]
    blockedOn := false }

/-- The one declared edge. -/
theorem declared_spike_impl {r w : Text} (h : Declared (waveRows [spikeRow, implRow]) r w) :
    r = implRow.id ∧ w = spikeRow.id := by
  obtain ⟨row, hrow, rfl, -, g, hg, rfl⟩ := h
  simp only [List.map_cons, List.map_nil, List.mem_cons, List.not_mem_nil, or_false] at hrow
  rcases hrow with rfl | rfl
  · exact absurd hg (List.not_mem_nil)
  · obtain rfl := Option.some.inj (List.mem_singleton.mp hg)
    exact ⟨rfl, rfl⟩

theorem acyclic_spike_impl (x : Text) :
    ¬ TransGen (Declared (waveRows [spikeRow, implRow])) x x := by
  intro hx
  obtain ⟨_, hfirst, -⟩ := TransGen.head'_iff.mp hx
  obtain ⟨_, -, hlast⟩ := TransGen.tail'_iff.mp hx
  have h : implRow.id = spikeRow.id :=
    (declared_spike_impl hfirst).1.symm.trans (declared_spike_impl hlast).2
  exact absurd h (by decide)

/-- The implementation waits for the spike, and the edge from what the spike reads is dropped. -/
theorem declared_beats_derived_spike :
    (¬ ∃ e, buildWaves asciiLower [spikeRow, implRow] = .error e) ∧
      ¬ (predecessors asciiLower (waveRows [spikeRow, implRow])).Edge spikeRow.id implRow.id := by
  have h := declared_beats_derived asciiLower [spikeRow, implRow]
  refine ⟨fun he => ?_, fun hedge => ?_⟩
  · obtain ⟨x, hx⟩ := h.1.mp he
    exact acyclic_spike_impl x hx
  · rcases ((h.2 acyclic_spike_impl).1 _ _).mp hedge with hd | ⟨⟨-, hnot⟩, -⟩
    · exact absurd (declared_spike_impl hd).1 (by decide)
    · refine hnot (TransGen.single ⟨implRow.toWaveRow, by simp, rfl, by simp [rowIds], ?_⟩)
      exact ⟨⟨"spike".toList, none⟩, List.mem_singleton_self _, rfl⟩

end Dispatch

end CoordinatorCore
