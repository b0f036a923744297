import CoordinatorCore.Dispatch.Dag
import CoordinatorCore.Dispatch.HeldOut

/-!
# Readers and writers

Does a plan order every row behind the rows whose files it reads? The derived edges compare a read
with the files of a writer by equality of normal forms, with its prefixes in both directions, while
two writers are compared in both directions throughout. A row that reads a directory and a row that
writes a file in it may therefore run at the same time.

`Visible` says when the plan's tests see the pair. The plan orders a visible pair, or the derived
edge lay on a cycle (`ordered_or_dropped_of_visible`). A pair that no test sees is ordered by other
rows only: when no third row touches the reader, it is not ordered (`visible_of_ordered`).
-/

namespace CoordinatorCore

open Text Relation

namespace Dispatch

/-- A row awaits another in the plan. -/
def Awaits (plan : DagPlan) (a b : Text) : Prop := ∃ n ∈ plan.nodes, n.row.id = a ∧ b ∈ n.after

/-- One of the two rows reaches the other through `after` edges. -/
def Ordered (plan : DagPlan) (a b : Text) : Prop :=
  TransGen (Awaits plan) a b ∨ TransGen (Awaits plan) b a

section

variable (lower : Text → Text)

/-- Every row that writes the path lists it under `appends`, and no row writes under a prefix of
it. -/
def OnlyAppended (rows : List WaveRow) (path : Text) : Prop :=
  ∀ w ∈ rows,
    (∀ p ∈ w.writes.getD [], normalizePath lower p = normalizePath lower path →
      appendsPath lower w (normalizePath lower path) = true) ∧
    ∀ pre ∈ w.writesUnder, normalizePath lower path ≠ normalizePath lower pre ∧
      isAncestor (normalizePath lower pre) (normalizePath lower path) = false

/-- A read overlaps a path that the other row declares and that is not only appended to. -/
def ReadsWritten (rows : List WaveRow) (r w : WaveRow) : Prop :=
  ∃ read ∈ r.reads, ∃ path ∈ w.writes.getD [] ++ w.writesUnder,
    pathsOverlap lower read path = true ∧ ¬ OnlyAppended lower rows path

/-- The derived edge lies on a cycle, and nothing but the read asks for it. -/
def Dropped (rows : List WaveRow) (r w : Text) : Prop :=
  Candidate lower rows r w ∧ ¬ Declared rows r w ∧ OnCycle lower rows r w

/-- A test of the plan sees the reader and the writer: the read collides, the writes overlap, the
declared edges order the rows, or the writer reads what the reader writes and that edge stays. -/
def Visible (rows : List WaveRow) (r w : WaveRow) : Prop :=
  Collides lower rows r.id w.id ∨ writesOverlap lower r w = true ∨
    TransGen (Declared rows) r.id w.id ∨ TransGen (Declared rows) w.id r.id ∨
      Candidate lower rows w.id r.id ∧ ¬ OnCycle lower rows w.id r.id

/-- Something of the one row is compared with something of the other. -/
def Touches (rows : List WaveRow) (a b : WaveRow) : Prop :=
  Declared rows a.id b.id ∨ Declared rows b.id a.id ∨ Collides lower rows a.id b.id ∨
    Collides lower rows b.id a.id ∨ writesOverlap lower a b = true

variable {lower}

/-- Touching is symmetric. -/
theorem Touches.symm {rows : List WaveRow} {a b : WaveRow} (h : Touches lower rows a b) :
    Touches lower rows b a := by
  rw [Touches, writesOverlap_comm]
  rw [Touches] at h
  tauto

/-! ### What the tests see -/

/-! ### What a plan orders -/

section

variable {rows : List WaveRow} {plan : DagPlan}

/-- Every scheduled row has its node. -/
theorem Schedule.exists_node (h : Schedule lower rows plan) {id : Text} (hid : id ∈ rowIds rows) :
    ∃ n ∈ plan.nodes, n.row.id = id := by
  obtain ⟨row, hrow, rfl⟩ := List.mem_map.mp hid
  obtain ⟨n, hn, rfl⟩ := List.mem_map.mp (h.perm.mem_iff.mpr hrow)
  exact ⟨n, hn, rfl⟩

/-- A node waits for its predecessors. -/
theorem Schedule.awaits_of_edge (h : Schedule lower rows plan) {a b : Text}
    (hedge : (predecessors lower rows).Edge a b) : Awaits plan a b := by
  obtain ⟨n, hn, rfl⟩ := h.exists_node ((predecessors lower rows).source hedge)
  exact ⟨n, hn, rfl, (h.preds n hn b hedge).1⟩

/-- A declared order is kept by the plan. -/
theorem Schedule.transGen_of_declared (h : Schedule lower rows plan)
    (hac : ∀ x, ¬ TransGen (Declared rows) x x) {a b : Text}
    (hd : TransGen (Declared rows) a b) : TransGen (Awaits plan) a b := by
  refine TransGen.mono (fun x y hxy => ?_) _ _ hd
  exact h.awaits_of_edge ((edge_predecessors_iff lower hac).mpr (Or.inl hxy))

/-- The plan orders a visible pair, or the derived edge lay on a cycle. -/
theorem Schedule.ordered_or_dropped_of_visible (h : Schedule lower rows plan)
    (hac : ∀ x, ¬ TransGen (Declared rows) x x) {n m : DagNode} (hn : n ∈ plan.nodes)
    (hm : m ∈ plan.nodes) (hne : n.row.id ≠ m.row.id) (hv : Visible lower rows n.row m.row) :
    Ordered plan n.row.id m.row.id ∨ Dropped lower rows n.row.id m.row.id := by
  have hedge : ∀ {a b : Text}, (predecessors lower rows).Edge a b → TransGen (Awaits plan) a b :=
    fun he => .single (h.awaits_of_edge he)
  rcases hv with hcollides | hover | hd | hd | ⟨hcandidate, hkept⟩
  · by_cases hback : TransGen (Declared rows) m.row.id n.row.id
    · exact Or.inl (Or.inr (h.transGen_of_declared hac hback))
    have hcandidate : Candidate lower rows n.row.id m.row.id := ⟨hcollides, hback⟩
    by_cases hd : Declared rows n.row.id m.row.id
    · exact Or.inl (Or.inl (h.transGen_of_declared hac (.single hd)))
    by_cases hcycle : OnCycle lower rows n.row.id m.row.id
    · exact Or.inr ⟨hcandidate, hd, hcycle⟩
    · refine Or.inl (Or.inl (hedge ?_))
      exact (edge_predecessors_iff lower hac).mpr (Or.inr ⟨hcandidate, hcycle⟩)
  · refine Or.inl ?_
    rcases (h.overlap n hn m hm hne hover).2 with ⟨hmem, -⟩ | ⟨hmem, -⟩
    · exact Or.inl (.single ⟨n, hn, rfl, hmem⟩)
    · exact Or.inr (.single ⟨m, hm, rfl, hmem⟩)
  · exact Or.inl (Or.inl (h.transGen_of_declared hac hd))
  · exact Or.inl (Or.inr (h.transGen_of_declared hac hd))
  · refine Or.inl (Or.inr (hedge ?_))
    exact (edge_predecessors_iff lower hac).mpr (Or.inr ⟨hcandidate, hkept⟩)

/-! ### Why a plan orders -/

/-- What a row awaits is a predecessor, or its writes overlap. -/
theorem Schedule.edge_or_overlap (h : Schedule lower rows plan)
    (hac : ∀ x, ¬ TransGen (Declared rows) x x) (hdag : dagFromWaves lower plan.waves = .ok plan)
    {n : DagNode} (hn : n ∈ plan.nodes) {p : Text} (hp : p ∈ n.after) :
    (predecessors lower rows).Edge n.row.id p ∨
      ∃ m ∈ plan.nodes, m.row.id = p ∧ writesOverlap lower n.row m.row = true := by
  have hnodes := nodes_of_dagFromWaves hdag
  have hperm : plan.waves.flatten.Perm rows := h.flatten ▸ h.perm
  obtain ⟨row, -, rfl⟩ := List.mem_map.mp (hnodes ▸ hn)
  rcases mem_afterRow.mp hp with hedge | ⟨other, hother, hover, rfl⟩
  · exact Or.inl ((edge_predecessors_perm lower hperm hac).mp hedge)
  · obtain ⟨wave, hwave, hmem⟩ := List.mem_flatten.mp hother
    have hflat : other ∈ plan.nodes.map (·.row) :=
      h.flatten ▸ List.mem_flatten_of_mem (List.mem_of_mem_take hwave) hmem
    obtain ⟨m, hm, rfl⟩ := List.mem_map.mp hflat
    exact Or.inr ⟨m, hm, rfl, hover⟩

/-- Nodes with one id have one row. -/
theorem Schedule.row_inj (h : Schedule lower rows plan) (hids : (rowIds rows).Nodup)
    {n m : DagNode} (hn : n ∈ plan.nodes) (hm : m ∈ plan.nodes) (heq : n.row.id = m.row.id) :
    n.row = m.row := by
  have hnodup : ((plan.nodes.map (·.row)).map (·.id)).Nodup := (h.perm.map _).nodup_iff.mpr hids
  exact List.inj_on_of_nodup_map hnodup (List.mem_map_of_mem hn) (List.mem_map_of_mem hm) heq

variable {n m : DagNode}

/-- What a row awaits, the plan's tests see. -/
theorem Schedule.visible_of_mem_after (h : Schedule lower rows plan)
    (hac : ∀ x, ¬ TransGen (Declared rows) x x) (hids : (rowIds rows).Nodup)
    (hdag : dagFromWaves lower plan.waves = .ok plan) (hn : n ∈ plan.nodes) (hm : m ∈ plan.nodes)
    (hmem : m.row.id ∈ n.after) :
    Visible lower rows n.row m.row ∧ Visible lower rows m.row n.row ∧
      Touches lower rows n.row m.row := by
  rcases h.edge_or_overlap hac hdag hn hmem with hedge | ⟨m', hm', hid, hover⟩
  · rcases (edge_predecessors_iff lower hac).mp hedge with hd | ⟨hcandidate, hkept⟩
    · exact ⟨Or.inr (Or.inr (Or.inl (.single hd))),
        Or.inr (Or.inr (Or.inr (Or.inl (.single hd)))), Or.inl hd⟩
    · exact ⟨Or.inl hcandidate.1, Or.inr (Or.inr (Or.inr (Or.inr ⟨hcandidate, hkept⟩))),
        Or.inr (Or.inr (Or.inl hcandidate.1))⟩
  · rw [h.row_inj hids hm' hm hid] at hover
    exact ⟨Or.inr (Or.inl hover), Or.inr (Or.inl (by rwa [writesOverlap_comm])),
      Or.inr (Or.inr (Or.inr (Or.inr hover)))⟩

/-- No row waits for itself. -/
theorem Schedule.awaits_ne (h : Schedule lower rows plan) (hids : (rowIds rows).Nodup)
    {a b : Text} (hab : Awaits plan a b) : a ≠ b := by
  obtain ⟨n, hn, rfl, hb⟩ := hab
  obtain ⟨front, back, hsplit⟩ := List.append_of_mem hn
  have hfront := h.topological front n back hsplit b hb
  have hnodup : (plan.nodes.map (·.row.id)).Nodup := by
    have hrows : ((plan.nodes.map (·.row)).map (·.id)).Nodup :=
      (h.perm.map _).nodup_iff.mpr hids
    rwa [List.map_map] at hrows
  rw [hsplit, List.map_append, List.map_cons] at hnodup
  exact fun heq => (List.nodup_append.mp hnodup).2.2 b hfront n.row.id (List.mem_cons_self ..)
    heq.symm

/-- A row that is waited for has its node. -/
theorem Schedule.exists_of_awaits (h : Schedule lower rows plan) {a b : Text}
    (hab : Awaits plan a b) : ∃ m ∈ plan.nodes, m.row.id = b := by
  obtain ⟨n, hn, rfl, hb⟩ := hab
  obtain ⟨front, back, hsplit⟩ := List.append_of_mem hn
  obtain ⟨m, hm, hid⟩ := List.mem_map.mp (h.topological front n back hsplit b hb)
  exact ⟨m, hsplit ▸ List.mem_append_left _ hm, hid⟩

variable (lower rows) in
/-- No third row touches the reader. -/
def Isolated (r w : WaveRow) : Prop :=
  ∀ x ∈ rows, x.id ≠ r.id → x.id ≠ w.id → ¬ Touches lower rows r x

/-- When no third row touches the reader, a pair that the plan orders is visible. -/
theorem Schedule.visible_of_ordered (h : Schedule lower rows plan)
    (hac : ∀ x, ¬ TransGen (Declared rows) x x) (hids : (rowIds rows).Nodup)
    (hdag : dagFromWaves lower plan.waves = .ok plan) (hn : n ∈ plan.nodes) (hm : m ∈ plan.nodes)
    (hiso : Isolated lower rows n.row m.row) (hord : Ordered plan n.row.id m.row.id) :
    Visible lower rows n.row m.row := by
  -- what stands next to the reader on the way is the writer
  have hnext : ∀ m' ∈ plan.nodes, m'.row.id ≠ n.row.id → Touches lower rows n.row m'.row →
      m'.row.id = m.row.id := by
    intro m' hm' hne htouch
    by_contra hother
    exact hiso m'.row (h.perm.mem_iff.mp (List.mem_map_of_mem hm')) hne hother htouch
  rcases hord with hreach | hreach
  · obtain ⟨c, hc, -⟩ := TransGen.head'_iff.mp hreach
    obtain ⟨m', hm', rfl⟩ := h.exists_of_awaits hc
    have hne := (h.awaits_ne hids hc).symm
    obtain ⟨n', hn', hid, hmem⟩ := hc
    obtain ⟨hv, -, htouch⟩ := h.visible_of_mem_after hac hids hdag hn' hm' hmem
    rw [h.row_inj hids hn' hn hid] at hv htouch
    rwa [h.row_inj hids hm' hm (hnext m' hm' hne htouch)] at hv
  · obtain ⟨c, -, hc⟩ := TransGen.tail'_iff.mp hreach
    have hne := h.awaits_ne hids hc
    obtain ⟨m', hm', rfl, hmem⟩ := hc
    obtain ⟨-, hv, htouch⟩ := h.visible_of_mem_after hac hids hdag hm' hn hmem
    rwa [h.row_inj hids hm' hm (hnext m' hm' hne htouch.symm)] at hv

end

/-! ### Readers and writers in a plan -/

variable (lower)

/-- Scheduled rows have different ids. -/
theorem nodup_rowIds_scheduledRows {rows : List EmitterRow} (hids : (rows.map (·.id)).Nodup) :
    (rowIds (waveRows (scheduledRows lower rows))).Nodup := by
  rw [rowIds, List.map_map]
  exact hids.sublist (List.filter_sublist.map _)

/-- Without a declared cycle there is a plan, a schedule of the scheduled rows. -/
theorem exists_plan (rows : List EmitterRow) (hids : (rows.map (·.id)).Nodup)
    (hac : ∀ x, ¬ TransGen (Declared (waveRows rows)) x x) :
    ∃ plan, buildDag lower rows = .ok plan ∧ dagFromWaves lower plan.waves = .ok plan ∧
      Schedule lower (waveRows (scheduledRows lower rows)) plan := by
  obtain ⟨waves, hok, hperm, hlayered⟩ := buildWaves_eq_ok lower hac
  obtain ⟨plan, hplan, rfl, hsched⟩ := exists_schedule_of_perm lower
    (acyclic_scheduledRows lower hac) (nodup_rowIds_scheduledRows lower hids) hperm hlayered
  refine ⟨plan, ?_, hplan, hsched⟩
  rw [buildDag, hok]
  exact hplan

/-- Of two scheduled rows, one of which reads what the other writes, the plan orders a visible
pair, or the derived edge lay on a cycle. When no third row touches the reader, it orders no
other. -/
theorem reader_ordered_iff_visible (rows : List EmitterRow) (hids : (rows.map (·.id)).Nodup)
    (hac : ∀ x, ¬ TransGen (Declared (waveRows rows)) x x) :
    ∃ plan, buildDag lower rows = .ok plan ∧ ∀ n ∈ plan.nodes, ∀ m ∈ plan.nodes,
      n.row.id ≠ m.row.id → ReadsWritten lower (waveRows rows) n.row m.row →
        (Visible lower (waveRows (scheduledRows lower rows)) n.row m.row →
          Ordered plan n.row.id m.row.id ∨
            Dropped lower (waveRows (scheduledRows lower rows)) n.row.id m.row.id) ∧
        (Isolated lower (waveRows (scheduledRows lower rows)) n.row m.row →
          (Ordered plan n.row.id m.row.id ∨
            Dropped lower (waveRows (scheduledRows lower rows)) n.row.id m.row.id ↔
              Visible lower (waveRows (scheduledRows lower rows)) n.row m.row)) := by
  obtain ⟨plan, hok, hdag, hsched⟩ := exists_plan lower rows hids hac
  have hac' := acyclic_scheduledRows lower hac
  refine ⟨plan, hok, fun n hn m hm hne _ => ⟨?_, fun hiso => ⟨?_, ?_⟩⟩⟩
  · exact hsched.ordered_or_dropped_of_visible hac' hn hm hne
  · rintro (hord | hdrop)
    · exact hsched.visible_of_ordered hac' (nodup_rowIds_scheduledRows lower hids) hdag hn hm
        hiso hord
    · exact Or.inl hdrop.1.1
  · exact hsched.ordered_or_dropped_of_visible hac' hn hm hne

end

/-! ### A directory and a file in it -/

/-- A row that reads a directory. -/
def directoryReader : EmitterRow :=
  { WaveRow.bare "reader".toList with
    writes := some []
    reads := ["src".toList]
    blockedOn := false }

/-- A row that writes a file in the directory. -/
def fileWriter : EmitterRow :=
  { WaveRow.bare "writer".toList with
    writes := some ["src/a.py".toList]
    blockedOn := false }

theorem not_declared_directory {r w : Text} :
    ¬ Declared (waveRows [directoryReader, fileWriter]) r w := by
  intro h
  have hnil : ∀ r ∈ rowIds (waveRows [directoryReader, fileWriter]),
      declaredPreds (waveRows [directoryReader, fileWriter]) r = [] := by decide
  have hmem := mem_declaredPreds.mpr h
  rw [hnil r ((declaredGraph _).source hmem)] at hmem
  exact List.not_mem_nil hmem

theorem acyclic_directory (x : Text) :
    ¬ TransGen (Declared (waveRows [directoryReader, fileWriter])) x x := by
  intro hx
  obtain ⟨_, hd, -⟩ := TransGen.head'_iff.mp hx
  exact not_declared_directory hd

theorem scheduledRows_directory :
    scheduledRows asciiLower [directoryReader, fileWriter] = [directoryReader, fileWriter] :=
  scheduledRows_eq_self _ (by decide)

/-- The reader reads what the writer writes. -/
theorem readsWritten_directory : ReadsWritten asciiLower (waveRows [directoryReader, fileWriter])
    directoryReader.toWaveRow fileWriter.toWaveRow := by
  refine ⟨"src".toList, List.mem_singleton_self _, "src/a.py".toList, List.mem_singleton_self _,
    by decide, fun h => ?_⟩
  have happend := (h fileWriter.toWaveRow (by simp)).1 _ (List.mem_singleton_self _) rfl
  exact absurd happend (by decide)

/-- No test sees the pair. -/
theorem not_visible_directory : ¬ Visible asciiLower (waveRows [directoryReader, fileWriter])
    directoryReader.toWaveRow fileWriter.toWaveRow := by
  have hcollides : ∀ {r w : Text},
      ¬ Collides asciiLower (waveRows [directoryReader, fileWriter]) r w := by
    intro r w h
    have hmem := (mem_collisionPreds asciiLower).mpr h
    obtain ⟨reader, hreader, -, -, rfl, -⟩ := h
    have hnil : ∀ r ∈ rowIds (waveRows [directoryReader, fileWriter]),
        collisionPreds asciiLower (waveRows [directoryReader, fileWriter]) r = [] := by decide
    rw [hnil _ (List.mem_map_of_mem hreader)] at hmem
    exact List.not_mem_nil hmem
  have hdeclared : ∀ {r w : Text},
      ¬ TransGen (Declared (waveRows [directoryReader, fileWriter])) r w := by
    intro r w h
    obtain ⟨_, hd, -⟩ := TransGen.head'_iff.mp h
    exact not_declared_directory hd
  rintro (h | h | h | h | h)
  · exact hcollides h
  · exact absurd h (by decide)
  · exact hdeclared h
  · exact hdeclared h
  · exact hcollides h.1.1

/-- No third row touches the reader. -/
theorem isolated_directory : Isolated asciiLower (waveRows [directoryReader, fileWriter])
    directoryReader.toWaveRow fileWriter.toWaveRow := by
  intro x hx hne₁ hne₂
  simp only [List.map_cons, List.map_nil, List.mem_cons, List.not_mem_nil, or_false] at hx
  rcases hx with rfl | rfl
  · exact absurd rfl hne₁
  · exact absurd rfl hne₂

/-- The plan lets the two run at the same time. -/
theorem reader_ordered_iff_visible_directory :
    ∃ plan, buildDag asciiLower [directoryReader, fileWriter] = .ok plan ∧
      ∀ n ∈ plan.nodes, ∀ m ∈ plan.nodes, n.row = directoryReader.toWaveRow →
        m.row = fileWriter.toWaveRow → ¬ Ordered plan n.row.id m.row.id := by
  obtain ⟨plan, hok, hall⟩ := reader_ordered_iff_visible asciiLower
    [directoryReader, fileWriter] (by decide) acyclic_directory
  refine ⟨plan, hok, fun n hn m hm hr hw hord => ?_⟩
  have hpair := hall n hn m hm
  rw [scheduledRows_directory, hr, hw] at hpair
  rw [hr, hw] at hord
  exact not_visible_directory
    (((hpair (by decide) readsWritten_directory).2 isolated_directory).mp (Or.inl hord))

/-- A reader can race a writer. -/
theorem reader_races_writer : ¬ ∀ rows : List EmitterRow, (rows.map (·.id)).Nodup →
    (∀ x, ¬ TransGen (Declared (waveRows rows)) x x) →
      ∀ plan, buildDag asciiLower rows = .ok plan → ∀ n ∈ plan.nodes, ∀ m ∈ plan.nodes,
        n.row.id ≠ m.row.id → ReadsWritten asciiLower (waveRows rows) n.row m.row →
          Ordered plan n.row.id m.row.id ∨
            Dropped asciiLower (waveRows (scheduledRows asciiLower rows)) n.row.id m.row.id := by
  intro h
  obtain ⟨plan, hok, hdag, hsched⟩ := exists_plan asciiLower [directoryReader, fileWriter]
    (by decide) acyclic_directory
  rw [scheduledRows_directory] at hsched
  obtain ⟨n, hn, hr⟩ := List.mem_map.mp (hsched.perm.mem_iff.mpr (List.mem_cons_self ..))
  obtain ⟨m, hm, hw⟩ := List.mem_map.mp
    (hsched.perm.mem_iff.mpr (List.mem_cons_of_mem _ (List.mem_cons_self ..)))
  have hpair := h [directoryReader, fileWriter] (by decide) acyclic_directory plan hok n hn m hm
  have hback := hsched.visible_of_ordered acyclic_directory (by decide) hdag hn hm
  rw [hr, hw] at hpair hback
  rw [scheduledRows_directory] at hpair
  rcases hpair (by decide) readsWritten_directory with hord | hdrop
  · exact not_visible_directory (hback isolated_directory hord)
  · exact not_visible_directory (Or.inl hdrop.1.1)

end Dispatch

end CoordinatorCore
