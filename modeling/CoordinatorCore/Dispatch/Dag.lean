import CoordinatorCore.Dispatch.Waves

/-!
# The schedule

`dag_from_waves` turns waves into the graph the emitter schedules from: the rows in wave order, and
for each the rows it must await. `cap_waves` splits wide waves first.

Waves in layers give a schedule: nothing is refused, every row awaits earlier ones only, and rows
that overlap await each other in one direction (`exists_schedule`). The waves `build_waves` returns
are in layers, and splitting them keeps that (`Layered.capWaves`).
-/

namespace CoordinatorCore

open Text Relation

namespace Dispatch

/-! ### From waves to a plan -/

/-- `DagNode`. -/
structure DagNode where
  row : WaveRow
  after : List Text

/-- `DagPlan`. -/
structure DagPlan where
  nodes : List DagNode
  waves : List (List WaveRow)
  maxConcurrentRows : Nat
  criticalPathRows : Nat

/-- The slices of a wave, one row longer than `n`. -/
def subWaves {β : Type*} (n : Nat) : List β → List (List β)
  | [] => []
  | row :: rows => (row :: rows.take n) :: subWaves n (rows.drop n)
termination_by rows => rows.length
decreasing_by
  simp only [List.length_drop, List.length_cons]
  omega

/-- `cap_waves`. -/
def capWaves (waves : List (List WaveRow)) (cap : Int) : List (List WaveRow) :=
  waves.flatMap (subWaves ((max 1 cap).toNat - 1))

/-- `wave_of[id]`, for an id of the waves. -/
def waveOf (waves : List (List WaveRow)) (id : Text) : Nat :=
  waves.findIdx fun wave => wave.any fun row => row.id == id

/-- `order_index[id]`, for an id of the rows. -/
def orderIndex (flat : List WaveRow) (id : Text) : Nat := flat.findIdx fun row => row.id == id

section

variable (lower : Text → Text)

/-- `_forward_edge_paths`. -/
def forwardEdgePaths (reader writer : WaveRow) : List Text :=
  match writer.writes with
  | none => []
  | some writes => reader.reads.filter fun p =>
      (writes.map (normalizePath lower)).contains (normalizePath lower p)

/-- `after`: the predecessors, and the overlapping rows of earlier waves, in the order of the
rows. -/
def afterRow (preds : SuccGraph Text) (waves : List (List WaveRow)) (row : WaveRow) : List Text :=
  let earlier := (waves.take (waveOf waves row.id)).flatten
  let ids := preds.succ row.id ++
    (earlier.filter fun other => writesOverlap lower row other).map (·.id)
  ids.dedup.mergeSort fun a b =>
    decide (orderIndex waves.flatten a ≤ orderIndex waves.flatten b)

/-- The nodes so far and the depth of each. -/
structure DagState where
  nodes : List DagNode
  depth : List (Text × Nat)

/-- One row of the loop of `dag_from_waves`. -/
def addNode (preds : SuccGraph Text) (waves : List (List WaveRow)) (st : DagState) (row : WaveRow) :
    Except WaveCycleError DagState :=
  let after := afterRow lower preds waves row
  match after.find? fun a => (st.depth.lookup a).isNone with
  | some a =>
    let later := (waves.flatten[orderIndex waves.flatten a]?).getD (.bare a)
    .error (.selfConsuming row.id a (forwardEdgePaths lower row later))
  | none =>
    let rowDepth := (after.map fun a => ((st.depth.lookup a).getD 0) + 1).foldl max 0
    .ok ⟨st.nodes ++ [⟨row, after⟩], (row.id, rowDepth) :: st.depth⟩

/-- `dag_from_waves`. -/
def dagFromWaves (waves : List (List WaveRow)) : Except WaveCycleError DagPlan := do
  let flat := waves.flatten
  let preds := predecessors lower flat
  let st ← flat.foldlM (addNode lower preds waves) ⟨[], []⟩
  let depths := st.depth.map Prod.snd
  return {
    nodes := st.nodes
    waves := waves
    maxConcurrentRows := (depths.map fun n => depths.count n).foldl max 0
    criticalPathRows := if depths = [] then 0 else depths.foldl max 0 + 1 }

/-- `build_dag`. -/
def buildDag (rows : List EmitterRow) : Except WaveCycleError DagPlan := do
  let waves ← buildWaves lower rows
  dagFromWaves lower waves

end

/-! ### Splitting waves -/

@[simp] theorem flatten_subWaves {β : Type*} (n : Nat) (wave : List β) :
    (subWaves n wave).flatten = wave := by
  induction wave using subWaves.induct n with
  | case1 =>
    rw [subWaves]
    rfl
  | case2 row rows ih => rw [subWaves, List.flatten_cons, ih, List.cons_append,
      List.take_append_drop]

theorem flatten_capWaves (waves : List (List WaveRow)) (cap : Int) :
    (capWaves waves cap).flatten = waves.flatten := by
  rw [capWaves]
  induction waves with
  | nil => rfl
  | cons wave waves ih =>
    rw [List.flatMap_cons, List.flatten_append, flatten_subWaves, ih, List.flatten_cons]

section

variable {lower : Text → Text} {preds : SuccGraph Text} {seen : List Text}

/-- Splitting keeps the layers: the rows of a slice need nothing from the slices in front. -/
private theorem layered_subWaves (n : Nat) {wave : List WaveRow} {waves : List (List WaveRow)}
    (hpreds : ∀ row ∈ wave, ∀ p ∈ preds.succ row.id, p ∈ seen)
    (hpair : wave.Pairwise fun a b => writesOverlap lower a b = false)
    (hrest : Layered lower id preds (seen ++ wave.map (·.id)) waves) :
    Layered lower id preds seen (subWaves n wave ++ waves) := by
  induction wave using subWaves.induct n generalizing seen with
  | case1 =>
    rw [subWaves]
    simpa using hrest
  | case2 row rows ih =>
    have hsplit : row :: rows = (row :: rows.take n) ++ rows.drop n := by
      rw [List.cons_append, List.take_append_drop]
    rw [subWaves, List.cons_append]
    rw [hsplit] at hpreds hpair hrest
    obtain ⟨hfront, hback, -⟩ := List.pairwise_append.mp hpair
    refine ⟨fun r hr => hpreds r (List.mem_append_left _ hr), hfront, ih (fun r hr p hp => ?_)
      hback ?_⟩
    · exact List.mem_append_left _ (hpreds r (List.mem_append_right _ hr) p hp)
    · simpa [List.append_assoc] using hrest

theorem Layered.capWaves {waves : List (List WaveRow)} (h : Layered lower id preds seen waves)
    (cap : Int) : Layered lower id preds seen (capWaves waves cap) := by
  rw [Dispatch.capWaves]
  induction waves generalizing seen with
  | nil => trivial
  | cons wave waves ih =>
    rw [List.flatMap_cons]
    exact layered_subWaves _ h.1 h.2.1 (ih h.2.2)

/-- What layers say about one wave. -/
theorem Layered.split {front back : List (List WaveRow)} {wave : List WaveRow}
    (h : Layered lower id preds seen (front ++ wave :: back)) :
    (∀ row ∈ wave, ∀ p ∈ preds.succ row.id, p ∈ seen ++ front.flatten.map (·.id)) ∧
      wave.Pairwise fun a b => writesOverlap lower a b = false := by
  induction front generalizing seen with
  | nil => exact ⟨by simpa using h.1, h.2.1⟩
  | cons w front ih =>
    obtain ⟨hpreds, hpair⟩ := ih h.2.2
    exact ⟨by simpa [List.append_assoc] using hpreds, hpair⟩

end

/-! ### Where a row stands -/

section

variable {waves : List (List WaveRow)}

/-- A row splits the waves at its own. -/
theorem exists_wave (hids : (waves.flatten.map (·.id)).Nodup) {pre post : List WaveRow}
    {row : WaveRow} (hsplit : waves.flatten = pre ++ row :: post) :
    ∃ front back a b, waves = front ++ (a ++ row :: b) :: back ∧ pre = front.flatten ++ a ∧
      waveOf waves row.id = front.length := by
  obtain ⟨front, back, a, b, rfl, rfl⟩ : ∃ front back a b,
      waves = front ++ (a ++ row :: b) :: back ∧ pre = front.flatten ++ a := by
    rcases List.flatten_eq_append_iff.mp hsplit with ⟨as, bs, rfl, rfl, hbs⟩ |
      ⟨as, bs, c, cs, ds, rfl, rfl, hcs⟩
    · obtain ⟨es, b, back, rfl, hes, -⟩ := List.flatten_eq_cons_iff.mp hbs.symm
      refine ⟨as ++ es, back, [], b, by simp, ?_⟩
      rw [List.flatten_append, List.flatten_eq_nil_iff.mpr hes]
      simp
    · obtain ⟨rfl, -⟩ := List.cons.inj hcs
      exact ⟨as, ds, bs, cs, rfl, rfl⟩
  refine ⟨front, back, a, b, rfl, rfl, ?_⟩
  -- no wave in front holds the id
  have hnot : ∀ wave ∈ front, ¬ (wave.any fun r => r.id == row.id) = true := by
    intro wave hwave hany
    obtain ⟨r, hr, hid⟩ := List.any_eq_true.mp hany
    rw [hsplit, List.append_assoc, List.map_append] at hids
    refine (List.nodup_append.mp hids).2.2 r.id
      (List.mem_map_of_mem (List.mem_flatten_of_mem hwave hr)) row.id (by simp) ?_
    exact beq_iff_eq.mp hid
  rw [waveOf, List.findIdx_append, if_neg, List.findIdx_cons]
  · simp
  · rw [List.findIdx_lt_length]
    exact fun ⟨wave, hwave, hany⟩ => hnot wave hwave hany

/-- What stands in the waves in front has an earlier index. -/
theorem waveOf_lt {front back : List (List WaveRow)} {p : Text}
    (hp : p ∈ front.flatten.map (·.id)) : waveOf (front ++ back) p < front.length := by
  obtain ⟨r, hr, rfl⟩ := List.mem_map.mp hp
  obtain ⟨wave, hwave, hr⟩ := List.mem_flatten.mp hr
  have hlt : front.findIdx (fun wave => wave.any fun row => row.id == r.id) < front.length :=
    List.findIdx_lt_length.mpr ⟨wave, hwave, List.any_eq_true.mpr ⟨r, hr, by simp⟩⟩
  rwa [waveOf, List.findIdx_append, if_pos hlt]

end

/-! ### The plan -/

section

variable {lower : Text → Text} {preds : SuccGraph Text} {waves : List (List WaveRow)}

/-- What a row awaits: its predecessors and the overlapping rows of earlier waves. -/
theorem mem_afterRow {row : WaveRow} {p : Text} :
    p ∈ afterRow lower preds waves row ↔ preds.Edge row.id p ∨
      ∃ other ∈ (waves.take (waveOf waves row.id)).flatten,
        writesOverlap lower row other = true ∧ other.id = p := by
  rw [afterRow]
  simp only [List.mem_mergeSort, List.mem_dedup, List.mem_append, List.mem_map, List.mem_filter,
    and_assoc]
  rfl

/-- In layers a row awaits rows of earlier waves only. -/
private theorem afterRow_subset (h : Layered lower id preds [] waves)
    (hids : (waves.flatten.map (·.id)).Nodup) {pre post : List WaveRow} {row : WaveRow}
    (hsplit : waves.flatten = pre ++ row :: post) {p : Text}
    (hp : p ∈ afterRow lower preds waves row) :
    p ∈ pre.map (·.id) ∧ waveOf waves p < waveOf waves row.id := by
  obtain ⟨front, back, a, b, rfl, rfl, hwave⟩ := exists_wave hids hsplit
  have hfront : p ∈ front.flatten.map (·.id) := by
    rcases mem_afterRow.mp hp with hedge | ⟨other, hother, -, rfl⟩
    · simpa using h.split.1 row (by simp) p hedge
    · rw [hwave, List.take_left] at hother
      exact List.mem_map_of_mem hother
  refine ⟨?_, hwave ▸ waveOf_lt hfront⟩
  rw [List.map_append]
  exact List.mem_append_left _ hfront

/-- The loop never meets a row it has not placed. -/
private theorem foldlM_addNode (h : Layered lower id preds [] waves)
    (hids : (waves.flatten.map (·.id)).Nodup) {pre post : List WaveRow}
    (hsplit : waves.flatten = pre ++ post) {st : DagState}
    (hnodes : st.nodes = pre.map fun row => ⟨row, afterRow lower preds waves row⟩)
    (hdepth : ∀ p ∈ pre.map (·.id), st.depth.lookup p ≠ none) :
    ∃ st', post.foldlM (addNode lower preds waves) st = .ok st' ∧
      st'.nodes = waves.flatten.map fun row => ⟨row, afterRow lower preds waves row⟩ := by
  induction post generalizing pre st with
  | nil => exact ⟨st, rfl, by rw [hsplit, List.append_nil, hnodes]⟩
  | cons row post ih =>
    have hfind : (afterRow lower preds waves row).find?
        (fun a => (st.depth.lookup a).isNone) = none := by
      rw [List.find?_eq_none]
      intro p hp
      have := hdepth p (afterRow_subset h hids hsplit hp).1
      simpa [Option.isNone_iff_eq_none] using this
    rw [List.foldlM_cons, addNode]
    simp only [hfind, bind, Except.bind]
    have hnext : waves.flatten = (pre ++ [row]) ++ post := by
      rw [hsplit, List.append_assoc, List.singleton_append]
    refine ih hnext (by rw [hnodes, List.map_append]; rfl) fun p hp => ?_
    rw [List.lookup_cons]
    split
    · simp
    · next hne =>
      rw [List.map_append, List.mem_append] at hp
      refine hdepth p (hp.resolve_right fun hp => ?_)
      rw [List.map_singleton, List.mem_singleton] at hp
      simp [hp] at hne

/-- What the loop adds to the nodes when it refuses no row. -/
theorem nodes_of_foldlM_addNode {rows : List WaveRow} {st st' : DagState}
    (h : rows.foldlM (addNode lower preds waves) st = .ok st') :
    st'.nodes = st.nodes ++ rows.map fun row => ⟨row, afterRow lower preds waves row⟩ := by
  induction rows generalizing st with
  | nil =>
    obtain rfl := Except.ok.inj h
    exact (List.append_nil _).symm
  | cons row rows ih =>
    rw [List.foldlM_cons, addNode] at h
    dsimp only at h
    split at h
    · cases h
    · rw [ih h, List.append_assoc]
      rfl

/-- The nodes of a plan are the rows in wave order, each with what it awaits. -/
theorem nodes_of_dagFromWaves {plan : DagPlan} (h : dagFromWaves lower waves = .ok plan) :
    plan.nodes = waves.flatten.map fun row =>
      ⟨row, afterRow lower (predecessors lower waves.flatten) waves row⟩ := by
  rw [dagFromWaves] at h
  cases hst : waves.flatten.foldlM (addNode lower (predecessors lower waves.flatten) waves)
      ⟨[], []⟩ with
  | error e =>
    simp only [hst, bind, Except.bind] at h
    cases h
  | ok st =>
    simp only [hst, bind, Except.bind] at h
    obtain rfl := Except.ok.inj h
    exact nodes_of_foldlM_addNode hst

/-- A schedule of some rows: every row once, behind all that it awaits; it awaits its
predecessors, which stand in earlier waves, and of two rows that overlap one awaits the other. -/
structure Schedule (lower : Text → Text) (rows : List WaveRow) (plan : DagPlan) : Prop where
  perm : (plan.nodes.map (·.row)).Perm rows
  flatten : plan.waves.flatten = plan.nodes.map (·.row)
  topological : ∀ a n b, plan.nodes = a ++ n :: b → ∀ p ∈ n.after, p ∈ a.map (·.row.id)
  preds : ∀ n ∈ plan.nodes, ∀ p, (predecessors lower rows).Edge n.row.id p →
    p ∈ n.after ∧ waveOf plan.waves p < waveOf plan.waves n.row.id
  overlap : ∀ n ∈ plan.nodes, ∀ m ∈ plan.nodes, n.row.id ≠ m.row.id →
    writesOverlap lower n.row m.row = true →
      waveOf plan.waves n.row.id ≠ waveOf plan.waves m.row.id ∧
        Xor (m.row.id ∈ n.after) (n.row.id ∈ m.after)

/-- Of two overlapping rows the later awaits the earlier. -/
private theorem mem_afterRow_of_overlap {a b : WaveRow} (ha : a ∈ waves.flatten)
    (hids : (waves.flatten.map (·.id)).Nodup)
    (hover : writesOverlap lower a b = true) (hlt : waveOf waves a.id < waveOf waves b.id) :
    a.id ∈ afterRow lower preds waves b := by
  refine mem_afterRow.mpr (Or.inr ⟨a, ?_, by rwa [writesOverlap_comm], rfl⟩)
  obtain ⟨pre, post, hsplit⟩ := List.append_of_mem ha
  obtain ⟨front, back, c, d, hwaves, -, hwave⟩ := exists_wave hids hsplit
  have hget : waves[waveOf waves a.id]? = some (c ++ a :: d) := by
    rw [hwave, hwaves]
    simp
  exact List.mem_flatten.mpr ⟨c ++ a :: d, List.mem_take_iff_getElem.mpr
    ⟨waveOf waves a.id, by
      have := (List.getElem?_eq_some_iff.mp hget).1
      omega, (List.getElem?_eq_some_iff.mp hget).2⟩, by simp⟩

/-- Two rows of one wave do not overlap. -/
private theorem not_overlap_of_waveOf (h : Layered lower id preds [] waves)
    (hids : (waves.flatten.map (·.id)).Nodup) {a b : WaveRow} (ha : a ∈ waves.flatten)
    (hb : b ∈ waves.flatten) (hne : a.id ≠ b.id) (heq : waveOf waves a.id = waveOf waves b.id) :
    writesOverlap lower a b = false := by
  obtain ⟨pre, post, hsplit⟩ := List.append_of_mem ha
  obtain ⟨pre', post', hsplit'⟩ := List.append_of_mem hb
  obtain ⟨front, back, c, d, hwaves, -, hwave⟩ := exists_wave hids hsplit
  obtain ⟨front', back', c', d', hwaves', -, hwave'⟩ := exists_wave hids hsplit'
  have hsame : c' ++ b :: d' = c ++ a :: d := by
    have h₁ : waves[front.length]? = some (c ++ a :: d) := by rw [hwaves]; simp
    have h₂ : waves[front'.length]? = some (c' ++ b :: d') := by rw [hwaves']; simp
    rw [← hwave', ← heq, hwave, h₁] at h₂
    exact (Option.some.inj h₂).symm
  have hpair := (hwaves ▸ h).split.2
  have hmem : b ∈ c ++ a :: d := hsame ▸ by simp
  have hsymm : ∀ x y : WaveRow, writesOverlap lower x y = false →
      writesOverlap lower y x = false := fun x y hxy => by rwa [writesOverlap_comm]
  have hfwd : (c ++ a :: d).Pairwise fun x y => x.id ≠ y.id → writesOverlap lower x y = false :=
    hpair.imp fun {x y} hxy (_ : x.id ≠ y.id) => hxy
  have hback : (c ++ a :: d).Pairwise
      (flip fun x y => x.id ≠ y.id → writesOverlap lower x y = false) :=
    hpair.imp fun {x y} hxy (_ : y.id ≠ x.id) => hsymm x y hxy
  exact hfwd.forall_of_forall_of_flip (fun x _ hx => absurd rfl hx) hback
    (by simp) hmem hne

/-- Two overlapping rows stand in different waves, and the later awaits the earlier, not the other
way round. -/
private theorem xor_mem_afterRow (h : Layered lower id preds [] waves)
    (hids : (waves.flatten.map (·.id)).Nodup) {a b : WaveRow} (ha : a ∈ waves.flatten)
    (hb : b ∈ waves.flatten) (hne : a.id ≠ b.id) (hover : writesOverlap lower a b = true) :
    waveOf waves a.id ≠ waveOf waves b.id ∧
      Xor (b.id ∈ afterRow lower preds waves a) (a.id ∈ afterRow lower preds waves b) := by
  have hearlier : ∀ {x y : WaveRow}, y ∈ waves.flatten → x.id ∈ afterRow lower preds waves y →
      waveOf waves x.id < waveOf waves y.id := by
    intro x y hy hx
    obtain ⟨pre, post, hsplit⟩ := List.append_of_mem hy
    exact (afterRow_subset h hids hsplit hx).2
  have hwave : waveOf waves a.id ≠ waveOf waves b.id := by
    intro heq
    have := not_overlap_of_waveOf h hids ha hb hne heq
    rw [hover] at this
    cases this
  refine ⟨hwave, ?_⟩
  rcases Nat.lt_or_gt_of_ne hwave with hlt | hlt
  · refine Or.inr ⟨mem_afterRow_of_overlap ha hids hover hlt, fun hmem => ?_⟩
    have := hearlier ha hmem
    omega
  · rw [writesOverlap_comm] at hover
    refine Or.inl ⟨mem_afterRow_of_overlap hb hids hover hlt, fun hmem => ?_⟩
    have := hearlier hb hmem
    omega

/-- Waves in layers give a schedule of their rows. -/
theorem exists_schedule (h : Layered lower id (predecessors lower waves.flatten) [] waves)
    (hids : (waves.flatten.map (·.id)).Nodup) :
    ∃ plan, dagFromWaves lower waves = .ok plan ∧ plan.waves = waves ∧
      Schedule lower waves.flatten plan := by
  have hstart : waves.flatten = [] ++ waves.flatten := rfl
  obtain ⟨st, hst, hnodes⟩ := @foldlM_addNode _ _ _ h hids _ _ hstart ⟨[], []⟩ rfl
    fun p hp => absurd hp List.not_mem_nil
  set node : WaveRow → DagNode := fun row =>
    ⟨row, afterRow lower (predecessors lower waves.flatten) waves row⟩ with hnode
  have hrows : st.nodes.map (·.row) = waves.flatten := by
    rw [hnodes, List.map_map]
    exact List.map_id _
  refine ⟨_, by rw [dagFromWaves]; simp only [hst, bind, Except.bind]; rfl, rfl, ?_⟩
  refine ⟨hrows ▸ .refl _, hrows.symm, ?_, ?_, ?_⟩
  · intro a n b hsplit p hp
    rw [hnodes] at hsplit
    obtain ⟨pre, rest, hflat, rfl, hrest⟩ := List.map_eq_append_iff.mp hsplit
    obtain ⟨row, post, rfl, rfl, rfl⟩ := List.map_eq_cons_iff.mp hrest
    have := (afterRow_subset h hids hflat hp).1
    rwa [List.map_map]
  · intro n hn p hedge
    rw [hnodes] at hn
    obtain ⟨row, hrow, rfl⟩ := List.mem_map.mp hn
    have hmem : p ∈ (node row).after := mem_afterRow.mpr (Or.inl hedge)
    obtain ⟨pre, post, hsplit⟩ := List.append_of_mem hrow
    exact ⟨hmem, (afterRow_subset h hids hsplit hmem).2⟩
  · intro n hn m hm hne hover
    rw [hnodes] at hn hm
    obtain ⟨a, ha, rfl⟩ := List.mem_map.mp hn
    obtain ⟨b, hb, rfl⟩ := List.mem_map.mp hm
    exact xor_mem_afterRow h hids ha hb hne hover

/-- A schedule of some rows is one of them in another order. -/
theorem Schedule.perm_rows {rows rows' : List WaveRow} {plan : DagPlan}
    (h : Schedule lower rows plan) (hperm : rows.Perm rows')
    (hac : ∀ x, ¬ TransGen (Declared rows') x x) : Schedule lower rows' plan where
  perm := h.perm.trans hperm
  flatten := h.flatten
  topological := h.topological
  preds n hn p hedge := h.preds n hn p ((edge_predecessors_perm lower hperm hac).mpr hedge)
  overlap := h.overlap

end

/-! ### Scheduler safety -/

section

variable (lower : Text → Text)

/-- Layers of some rows give a schedule of them: the predecessors are the same in the order of the
waves. -/
theorem exists_schedule_of_perm {rows : List WaveRow} {waves : List (List WaveRow)}
    (hac : ∀ x, ¬ TransGen (Declared rows) x x) (hids : (rows.map (·.id)).Nodup)
    (hperm : waves.flatten.Perm rows) (h : Layered lower id (predecessors lower rows) [] waves) :
    ∃ plan, dagFromWaves lower waves = .ok plan ∧ plan.waves = waves ∧
      Schedule lower rows plan := by
  have hflat : Layered lower id (predecessors lower waves.flatten) [] waves :=
    h.congr fun _ _ hedge => (edge_predecessors_perm lower hperm hac).mp hedge
  obtain ⟨plan, hok, hwaves, hsched⟩ :=
    exists_schedule hflat ((hperm.map _).nodup_iff.mpr hids)
  exact ⟨plan, hok, hwaves, hsched.perm_rows hperm hac⟩

/-- Rows with different ids are refused for a declared cycle only. If they are not, the plan is a
schedule of the rows that are not held out, with the waves `build_waves` returns, and it still is
one when those waves are split. -/
theorem scheduler_safe (rows : List EmitterRow) (hids : (rows.map (·.id)).Nodup) :
    (∀ e, buildWaves lower rows = .error e → ∃ members, e = .cycle members) ∧
    ∀ waves, buildWaves lower rows = .ok waves →
      (∃ plan, buildDag lower rows = .ok plan ∧ plan.waves = waves ∧
        Schedule lower (waveRows (scheduledRows lower rows)) plan) ∧
      ∀ k, ∃ plan, dagFromWaves lower (capWaves waves k) = .ok plan ∧
        plan.waves = capWaves waves k ∧
          Schedule lower (waveRows (scheduledRows lower rows)) plan := by
  refine ⟨fun e he => ?_, fun waves hwaves => ?_⟩
  · obtain ⟨x, hx⟩ := (buildWaves_eq_error_iff lower).mp ⟨e, he⟩
    obtain ⟨members, h, -⟩ := buildWaves_eq_error lower hx
    rw [h] at he
    exact ⟨members, (Except.error.inj he).symm⟩
  · have hac : ∀ x, ¬ TransGen (Declared (waveRows rows)) x x := by
      intro x hx
      obtain ⟨e, he⟩ := (buildWaves_eq_error_iff lower).mpr ⟨x, hx⟩
      rw [hwaves] at he
      cases he
    obtain ⟨waves', hok, hperm, hlayered⟩ := buildWaves_eq_ok lower hac
    obtain rfl := Except.ok.inj (hwaves.symm.trans hok)
    have hac' := acyclic_scheduledRows lower hac
    have hids' : ((waveRows (scheduledRows lower rows)).map (·.id)).Nodup := by
      rw [List.map_map]
      exact hids.sublist (List.filter_sublist.map _)
    refine ⟨?_, fun k => exists_schedule_of_perm lower hac' hids'
      (by rwa [flatten_capWaves]) (hlayered.capWaves k)⟩
    obtain ⟨plan, hplan, hrest⟩ := exists_schedule_of_perm lower hac' hids' hperm hlayered
    refine ⟨plan, ?_, hrest⟩
    rw [buildDag, hwaves]
    exact hplan

end

/-- The spike and its implementation are scheduled. -/
theorem scheduler_safe_spike :
    ∃ waves plan, buildWaves asciiLower [spikeRow, implRow] = .ok waves ∧
      buildDag asciiLower [spikeRow, implRow] = .ok plan ∧ plan.waves = waves ∧
        Schedule asciiLower (waveRows (scheduledRows asciiLower [spikeRow, implRow])) plan := by
  obtain ⟨waves, hwaves, -⟩ := buildWaves_eq_ok asciiLower acyclic_spike_impl
  obtain ⟨⟨plan, hplan, hrest⟩, -⟩ :=
    (scheduler_safe asciiLower [spikeRow, implRow] (by decide)).2 waves hwaves
  exact ⟨waves, plan, hwaves, hplan, hrest⟩

end Dispatch

end CoordinatorCore
