import CoordinatorCore.Machine.Run
import CoordinatorCore.Spine.FlatYaml
import CoordinatorCore.Spine.State

/-!
# Order and conservation over whole runs

The six verbs rewrite the spine in three ways: a rank insertion, a stable sort of all rows, and an
edit in place. Seen through the ids and the ranks of the rows (`spineEntries`) each is one
operation on a ranked list (`Call.step_refines`), and the laws of those operations carry over to
every run whose steps leave a spine that reads back (`StepSafe`).
-/

namespace CoordinatorCore

open Text BodyBlocks Frontmatter

namespace Spine

variable {E : Engine}

/-! ### Entries -/

/-- The id and the rank of a row in this state. -/
def RowState.entry (s : RowState) : Val × ℕ := (s.id, s.rank)

/-- The id and the rank of a row. -/
def rowEntry (row : Dict) : Val × ℕ := (rowId row, rowRank row)

/-- The entries of the states are those of the rows. -/
theorem map_entry (ds : List Dict) : (ds.map rowState).map RowState.entry = ds.map rowEntry := by
  rw [List.map_map]
  rfl

/-- The entries of the spine of a plan. -/
def spineEntries (E : Engine) (text : Text) : Option (List (Val × ℕ)) :=
  (spineStates E text).map (List.map RowState.entry)

/-- On a spine with entries, the ordering check asks for the order of their ranks. -/
theorem checkPlanTasksOrdering_eq_none_iff {text : Text} {s : List (Val × ℕ)}
    (halike : ReadsAlike E text) (hs : spineEntries E text = some s) :
    checkPlanTasksOrdering E text = none ↔ Ranked.Ordered Prod.snd s := by
  obtain ⟨states, hstates, rfl⟩ := Option.map_eq_some_iff.mp hs
  obtain ⟨ds, hspine, rfl⟩ := spineRows_of_spineStates halike hstates
  rw [checkPlanTasksOrdering, hspine, Option.bind_some, orderingScan_eq_none_iff, map_entry]
  have hrank : ∀ row, Prod.snd (rowEntry row) = rowRank row := fun _ => rfl
  exact (Ranked.ordered_map hrank).symm

/-- Rows under the same ids, sorted by rank, are the old ones with new ranks, sorted. -/
theorem exists_rerank_of_rowId {ds ds' : List Dict} (hnodup : (ds.map rowId).Nodup)
    (hid : ds'.map rowId = ds.map rowId) : ∃ f : Val → ℕ → ℕ,
      (Ranked.sort rowRank ds').map rowEntry = (Ranked.Op.rerank f).step (ds.map rowEntry) := by
  have hnames : ∀ l : List Dict, (l.map rowEntry).map Prod.fst = l.map rowId := fun l => by
    rw [List.map_map]
    rfl
  obtain ⟨f, hf⟩ := Ranked.exists_rerank (s := ds.map rowEntry) (t := ds'.map rowEntry)
    (by rwa [hnames]) (by rw [hnames, hnames, hid])
  have hrank : ∀ row, Prod.snd (rowEntry row) = rowRank row := fun _ => rfl
  exact ⟨f, by rw [Ranked.Op.step, ← hf, Ranked.map_sort hrank]⟩

/-! ### The refinement -/

section Refinement

variable {old new body B : Text} {start stop : Nat} {rows newRows : List Val} {call : Call}
  {s : List (Val × ℕ)} {anchors : Text → List Text}

/-- A call that sorts writes rows under the old ids, sorted by rank. -/
theorem Writes.of_sorts (hloc : locateFencedBlock old = .located body start stop)
    (hrows : parseRows E body = .ok rows) (h : Writes E old body rows call newRows B)
    (hsorts : call.Sorts) : ∃ ds : List Dict, ds.map rowId = rows.map idOrNone ∧
      rowsStates newRows = some ((Ranked.sort rowRank ds).map rowState) := by
  have hids : ∀ ds : List Dict, (ds.map Val.map).map idOrNone = ds.map rowId := fun ds => by
    rw [List.map_map]
    rfl
  cases h with
  | addTask => exact hsorts.elim
  | stamp => exact hsorts.elim
  | dependsOn => exact hsorts.elim
  | clearGate => exact hsorts.elim
  | reopen hi hnew hB =>
    obtain ⟨ds, hds, hstates⟩ := repositionValues_eq_ok hnew
    refine ⟨ds, ?_, hstates⟩
    rw [← hids, ← hds]
    exact map_modifyRow (fun row => rowId_reopenRow _ row) rows _
  | @resolve w batch store store' p tagged evidence _ hp hrun hB =>
    obtain ⟨hloc', hrows', -, -⟩ := prepareResolve_eq_ok hp
    rw [hloc] at hloc'
    obtain ⟨rfl, rfl, rfl⟩ := LocateResult.located.inj hloc'
    obtain rfl := Except.ok.inj (hrows.symm.trans hrows')
    obtain ⟨ds, hds, hstates⟩ := rowsStates_resolve hp hrun
    refine ⟨ds, ?_, hstates⟩
    rw [← hids, ← hds]
    exact map_disposeRows (fun r row => rowId_disposeRow r row) batch p.rows

/-- What a call writes is one operation on the ranked list. -/
theorem Writes.exists_op (hloc : locateFencedBlock old = .located body start stop)
    {ds : List Dict} (hrows : parseRows E body = .ok (ds.map .map))
    (h : Writes E old body (ds.map .map) call newRows B) (hnodup : (ds.map rowId).Nodup) :
    ∃ op : Ranked.Op Val, (rowsStates newRows).map (List.map RowState.entry) =
      some (op.step (ds.map rowEntry)) ∧ op.added = call.added ∧
        ∀ id ∈ op.added, id ∉ ds.map rowId := by
  have hstates : rowsStates (ds.map .map) = some (ds.map rowState) :=
    rowsStates_eq_some.mpr ⟨ds, rfl, rfl⟩
  -- a call that sorts gives the rows of the block new places
  have hsorts : call.Sorts → call.added = [] → ∃ op : Ranked.Op Val,
      (rowsStates newRows).map (List.map RowState.entry) = some (op.step (ds.map rowEntry)) ∧
        op.added = call.added ∧ ∀ id ∈ op.added, id ∉ ds.map rowId := by
    intro hcall hadded
    obtain ⟨ds', hids, hsorted⟩ := h.of_sorts hloc hrows hcall
    rw [List.map_map] at hids
    obtain ⟨f, hf⟩ := exists_rerank_of_rowId hnodup hids
    refine ⟨.rerank f, ?_, hadded.symm, by simp [Ranked.Op.added]⟩
    rw [hsorted, Option.map_some, map_entry, hf]
  -- the others but one leave the states of the rows as they are
  have hkeep : rowsStates newRows = rowsStates (ds.map .map) → call.added = [] →
      ∃ op : Ranked.Op Val, (rowsStates newRows).map (List.map RowState.entry) =
        some (op.step (ds.map rowEntry)) ∧ op.added = call.added ∧
          ∀ id ∈ op.added, id ∉ ds.map rowId := by
    intro heq hadded
    refine ⟨.keep, ?_, hadded.symm, by simp [Ranked.Op.added]⟩
    rw [heq, hstates, Option.map_some, map_entry]
    rfl
  cases h with
  | @addTask task hfresh =>
    refine ⟨.insert (rowEntry task), ?_, rfl, ?_⟩
    · have hrank : ∀ row, Prod.snd (rowEntry row) = rowRank row := fun _ => rfl
      have hinserted : rowsStates (insertByRank task (ds.map .map)) =
          some ((Ranked.insert rowRank task ds).map rowState) :=
        rowsStates_eq_some.mpr ⟨_, insertByRank_map task ds, rfl⟩
      rw [hinserted, Option.map_some, map_entry, Ranked.map_insert hrank]
      rfl
    · intro id hid hmem
      obtain rfl := List.mem_singleton.mp hid
      obtain ⟨d, hd, heq⟩ := List.mem_map.mp hmem
      have heq : rowId d = rowId task := heq
      have hhas : hasId (rowId task) (.map d) = true := by
        simp only [hasId, Val.asDict_map, Option.any_some, heq, Val.pyEq_refl]
      exact List.any_eq_false.mp hfresh _ (List.mem_map_of_mem hd) hhas
  | stamp haccepts => exact hkeep (rowsStates_stampedRows haccepts _) rfl
  | reopen => exact hsorts trivial rfl
  | dependsOn => exact hkeep (rowsStates_modifyRow (rowState_setEdges _) _ _) rfl
  | clearGate => exact hkeep (rowsStates_modifyRow (rowState_clearRowGate _ _) _ _) rfl
  | resolve => exact hsorts trivial rfl

/-- A safe step is one operation on the entries of the spine. -/
theorem Call.step_refines (hE : YamlLaws E anchors) (hs : spineEntries E old = some s)
    (hnodup : (s.map Prod.fst).Nodup) (hsafe : StepSafe E old anchors call) (h : call.step E old = some new) :
    ∃ op : Ranked.Op Val, spineEntries E new = some (op.step s) ∧ op.added = call.added ∧
      ∀ id ∈ op.added, id ∉ s.map Prod.fst := by
  obtain ⟨states, hstates, rfl⟩ := Option.map_eq_some_iff.mp hs
  obtain ⟨body, start, stop, hloc, hbody⟩ := spineStates_eq_some.mp hstates
  obtain ⟨ds, hrows, rfl⟩ := parseRows_of_bodyStates hbody
  rw [map_entry] at hnodup ⊢
  have hids : (ds.map rowEntry).map Prod.fst = ds.map rowId := by
    rw [List.map_map]
    rfl
  rw [hids] at hnodup ⊢
  rcases Call.mutate_eq_ok hloc hrows (eq_ok_of_toOption h) with
    ⟨newRows, B, hw, hnew⟩ | ⟨hadded, -, hnew⟩
  · rw [spineEntries, spineStates_of_writes hE hloc hrows hsafe hw hnew]
    exact hw.exists_op hloc hrows hnodup
  · refine ⟨.keep, ?_, hadded.symm, by simp [Ranked.Op.added]⟩
    have hkept : spineStates E new = some (ds.map rowState) := by
      rcases hnew with rfl | hnew
      · exact hstates
      · obtain ⟨i', j', hlocNew⟩ := hsafe.frontmatter _ _ hnew _ _ _ hloc
        exact spineStates_eq_some.mpr ⟨body, i', j', hlocNew, hbody⟩
    rw [spineEntries, hkept, Option.map_some, map_entry]
    rfl

end Refinement

/-! ### Runs -/

/-- The spine has this entry. -/
def HasEntry (E : Engine) (a : Val × ℕ) (text : Text) : Prop :=
  ∃ s, spineEntries E text = some s ∧ a ∈ s

/-- The spine has entries under distinct ids, in order. -/
def InOrder (E : Engine) (text : Text) (s : List (Val × ℕ)) : Prop :=
  spineEntries E text = some s ∧ (s.map Prod.fst).Nodup ∧ Ranked.Ordered Prod.snd s

section Runs

variable {text text' : Text} {s : List (Val × ℕ)} {anchors : Text → List Text}

/-- A safe step keeps the spine in order, adds the ids of the call, and does not swap two entries
that it keeps. -/
theorem InOrder.step {call : Call} (hE : YamlLaws E anchors) (h : InOrder E text s)
    (hsafe : StepSafe E text anchors call) (hstep : call.step E text = some text') : ∃ s', InOrder E text' s' ∧
      (s'.map Prod.fst).Perm (call.added ++ s.map Prod.fst) ∧
        ∀ a b, [a, b].Sublist s → a ∈ s' → b ∈ s' → [a, b].Sublist s' := by
  obtain ⟨hs, hnodup, hord⟩ := h
  obtain ⟨op, hs', hadded, hfresh⟩ := Call.step_refines hE hs hnodup hsafe hstep
  have hperm := op.names_step (s := s)
  have hnodup' : ((op.step s).map Prod.fst).Nodup := by
    refine hperm.nodup_iff.mpr (List.nodup_append.mpr ⟨?_, hnodup, ?_⟩)
    · cases op <;> simp [Ranked.Op.added]
    · intro id hid id' hid' he
      exact hfresh id hid (he ▸ hid')
  exact ⟨_, ⟨hs', hnodup', op.ordered_step hord⟩, hadded ▸ hperm,
    fun a b => Ranked.Op.sublist_step hnodup hord⟩

/-- What a safe run preserves. -/
theorem InOrder.run {calls : List Call} (hE : YamlLaws E anchors) (h : InOrder E text s)
    (hsafe : Machine.Along (Call.step E) (fun old => StepSafe E old anchors) text calls)
    (hrun : Machine.run (Call.step E) text calls = some text') : ∃ s', InOrder E text' s' ∧
      (s'.map Prod.fst).Perm (calls.flatMap Call.added ++ s.map Prod.fst) ∧
        ∀ a b, [a, b].Sublist s →
          Machine.Always (Call.step E) (fun u => HasEntry E a u ∧ HasEntry E b u) text calls →
            [a, b].Sublist s' := by
  induction calls generalizing text s with
  | nil =>
    cases hrun
    exact ⟨s, h, List.Perm.refl _, fun a b hab _ => hab⟩
  | cons call calls ih =>
    obtain ⟨u, hu, hrun⟩ := Machine.run_cons_eq_some.mp hrun
    obtain ⟨s₁, h₁, hperm₁, hpair₁⟩ := h.step hE hsafe.1 hu
    obtain ⟨s', h', hperm', hpair'⟩ := ih h₁ (hsafe.2 u hu) hrun
    refine ⟨s', h', ?_, fun a b hab halways => ?_⟩
    · refine hperm'.trans ((List.Perm.append_left _ hperm₁).trans ?_)
      rw [List.flatMap_cons, List.append_assoc, ← List.append_assoc, ← List.append_assoc]
      exact List.Perm.append_right _ List.perm_append_comm
    · -- the entries are there behind the first step, so it does not swap them
      have hrest := halways.2 u hu
      obtain ⟨⟨sa, hsa, ha⟩, sb, hsb, hb⟩ := hrest.start
      obtain rfl := Option.some.inj (h₁.1.symm.trans hsa)
      obtain rfl := Option.some.inj (h₁.1.symm.trans hsb)
      exact hpair' a b (hpair₁ a b hab ha hb) hrest

/-- A call that sorts finds a spine. -/
theorem Call.located_of_sorts {call : Call} (hsorts : call.Sorts)
    (h : call.mutate E text = .ok text') : ∃ body start stop rows,
      locateFencedBlock text = .located body start stop ∧ parseRows E body = .ok rows := by
  cases call with
  | reopen taskId detail =>
    rw [Call.mutate, Spine.reopen] at h
    split_ifs at h
    obtain ⟨body, start, stop, rows, _, hloc, hrows, -⟩ := onSpine_eq_ok.mp h
    exact ⟨body, start, stop, rows, hloc, hrows⟩
  | resolve w batch store =>
    rw [Call.mutate, Spine.resolve] at h
    split_ifs at h
    split at h
    · cases h
    · next p hp =>
      obtain ⟨hloc, hrows, -⟩ := prepareResolve_eq_ok hp
      exact ⟨p.body, p.start, p.stop, p.rows, hloc, hrows⟩
  | _ => exact hsorts.elim

/-- In every run of safe calls from an ordered spine with distinct ids, the ordering check accepts
the spine, its ids are the initial and the added ones, and two rows that keep their ranks from
some point of the run on keep their order from there. And one `resolve` or `reopen` makes an
ordered spine of any. -/
theorem spine_order_law (hE : YamlLaws E anchors) :
    (∀ text s calls text', spineEntries E text = some s → (s.map Prod.fst).Nodup →
      ReadsAlike E text → checkPlanTasksOrdering E text = none →
      Machine.Along (Call.step E) (fun old => StepSafe E old anchors) text calls →
      Machine.run (Call.step E) text calls = some text' → ReadsAlike E text' →
        checkPlanTasksOrdering E text' = none ∧ ∃ s', spineEntries E text' = some s' ∧
          (s'.map Prod.fst).Perm (calls.flatMap Call.added ++ s.map Prod.fst) ∧
            ∀ before after u t a b, calls = before ++ after →
              Machine.run (Call.step E) text before = some u → spineEntries E u = some t →
                [a, b].Sublist t →
                  Machine.Always (Call.step E) (fun v => HasEntry E a v ∧ HasEntry E b v) u after →
                    [a, b].Sublist s') ∧
    ∀ text call text', call.Sorts → StepSafe E text anchors call →
      call.step E text = some text' → ReadsAlike E text' →
        checkPlanTasksOrdering E text' = none := by
  constructor
  · intro text s calls text' hs hnodup halike hcheck hsafe hrun halike'
    have hstart : InOrder E text s :=
      ⟨hs, hnodup, (checkPlanTasksOrdering_eq_none_iff halike hs).mp hcheck⟩
    obtain ⟨s', h', hperm, -⟩ := hstart.run hE hsafe hrun
    refine ⟨(checkPlanTasksOrdering_eq_none_iff halike' h'.1).mpr h'.2.2, s', h'.1, hperm, ?_⟩
    -- the rest of the run starts from the spine behind `before`
    rintro before after u t a b rfl hu ht hab halways
    obtain ⟨u', hu', hrest⟩ := Machine.run_append_eq_some.mp hrun
    obtain rfl := Option.some.inj (hu.symm.trans hu')
    obtain ⟨t', hinner, -, -⟩ := hstart.run hE hsafe.of_prefix hu
    obtain rfl := Option.some.inj (ht.symm.trans hinner.1)
    obtain ⟨s'', h'', -, hpair⟩ := hinner.run hE (hsafe.of_append hu) hrest
    obtain rfl := Option.some.inj (h'.1.symm.trans h''.1)
    exact hpair a b hab halways
  · intro text call text' hsorts hsafe hstep halike'
    have hok := eq_ok_of_toOption hstep
    obtain ⟨body, start, stop, rows, hloc, hrows⟩ := Call.located_of_sorts hsorts hok
    rcases Call.mutate_eq_ok hloc hrows hok with ⟨newRows, B, hw, hnew⟩ | ⟨-, hnot, -⟩
    -- a call that sorts leaves an ordered spine, whatever was there
    · obtain ⟨ds, -, hsorted⟩ := hw.of_sorts hloc hrows hsorts
      rw [← spineStates_of_writes hE hloc hrows hsafe hw hnew] at hsorted
      have hentries : spineEntries E text' = some ((Ranked.sort rowRank ds).map rowEntry) := by
        rw [spineEntries, hsorted, Option.map_some, map_entry]
      have hrank : ∀ row, Prod.snd (rowEntry row) = rowRank row := fun _ => rfl
      exact (checkPlanTasksOrdering_eq_none_iff halike' hentries).mpr
        ((Ranked.ordered_map hrank).mpr (Ranked.ordered_sort ds))
    · exact absurd hsorts hnot

end Runs

/-! ### Two steps -/

/-- The engine on the row that is there and a task with this title. -/
def taskEngine (title : Text) : Engine :=
  tableEngine (flatEngine []) [sampleRow ['A'] ['t'], sampleRow ['B'] title]

/-- A coded row. -/
def codedRow : Dict := sampleRow ['A'] ['t'] ++ [(.str "disposition".toList, .str "coded".toList)]

/-- The coded row, reopened. -/
def reopenedRow : Dict := reopenRow ['d'] codedRow

/-- The engine on the two states of the row. -/
def reopenEngine : Engine := tableEngine (flatEngine []) [codedRow, reopenedRow]

private theorem keyed_sampleRow (id title : Text) : Keyed (sampleRow id title) :=
  keyed_of_keys ["id".toList, "title".toList, "change_kind".toList, "surface".toList] rfl
    (by decide) (by decide)

private theorem dumpable_taskRows {title : Text}
    (htexts : TableTexts [sampleRow ['A'] ['t'], sampleRow ['B'] title]) :
    Dumpable (taskEngine title) [.map (sampleRow ['A'] ['t']), .map (sampleRow ['B'] title)] := by
  rw [Dumpable, List.forall_mem_cons, List.forall_mem_singleton]
  exact ⟨⟨_, rfl, htexts.readsAs_dumpRows (i := 0) (keyed_sampleRow _ _) rfl⟩,
    _, rfl, htexts.readsAs_dumpRows (i := 1) (keyed_sampleRow _ _) rfl⟩

/-- What the kernel finds on the sample for the task: the texts of the two rows; how the plan and its
body are cut; that the new body can be read; and the plan with the task. -/
private theorem addTask_runs :
    TableTexts [sampleRow ['A'] ['t'], sampleRow ['B'] ['u']] ∧
    (locateFencedBlock (samplePlan (flatDump sampleRows).dropLast) =
        .located (flatDump sampleRows).dropLast 29 (29 + (flatDump sampleRows).dropLast.length) ∧
      splitRowChunks (flatDump sampleRows).dropLast = ([], [(flatDump sampleRows).dropLast]) ∧
      ended (flatDump sampleRows).dropLast = tableDump (.map (sampleRow ['A'] ['t']))) ∧
    (SpliceSafe ((samplePlan (flatDump sampleRows).dropLast).take 29)
        (flatDump (insertByRank (sampleRow ['B'] ['u']) sampleRows))
        ((samplePlan (flatDump sampleRows).dropLast).drop
          (29 + (flatDump sampleRows).dropLast.length)) ∧
      (flatDump (insertByRank (sampleRow ['B'] ['u']) sampleRows)).getLast? = some '\n' ∧
      (lines (flatDump (insertByRank (sampleRow ['B'] ['u']) sampleRows))).all
        (fun l => l.head? != some '`' && l.head? != some '#') = true) ∧
    (Call.addTask (sampleRow ['B'] ['u'])).step (taskEngine ['u'])
        (samplePlan (flatDump sampleRows).dropLast) =
          some (samplePlan (flatDump (sampleRows ++ [.map (sampleRow ['B'] ['u'])]))) ∧
      checkPlanTasksOrdering (taskEngine ['u']) (samplePlan (flatDump sampleRows).dropLast) =
        none := by
  decide +kernel

/-- The body that is there, for the engine on the row and a task of this title. -/
private theorem parseRows_taskEngine (title : Text) :
    parseRows (taskEngine title) (flatDump sampleRows).dropLast = .ok sampleRows := by
  obtain ⟨-, ⟨-, hcut, hended⟩, -⟩ := addTask_runs
  have hload : tableLoad [sampleRow ['A'] ['t'], sampleRow ['B'] title]
      (flatDump sampleRows).dropLast = some (.seq ([sampleRow ['A'] ['t']].map .map)) := by
    refine tableLoad_of_findIdx [0] rfl (by rw [hcut]) ?_ rfl (List.cons_ne_nil _ _)
    rw [hcut, List.map_singleton, hended, List.findIdx?_cons, beq_self_eq_true]
    rfl
  have hload : (taskEngine title).loadSpineYaml (flatDump sampleRows).dropLast = _ := hload
  rw [parseRows, hload]
  rfl

private theorem stepSafe_addTask : StepSafe (taskEngine ['u'])
    (samplePlan (flatDump sampleRows).dropLast) (fun _ => []) (.addTask (sampleRow ['B'] ['u'])) := by
  obtain ⟨htexts, ⟨hlocated, -⟩, ⟨hsplice, hend, hlines⟩, -⟩ := addTask_runs
  refine ⟨?_, fun before new h => by cases h⟩
  intro body start stop rows newRows B hloc hrows hw
  rw [hlocated] at hloc
  obtain ⟨rfl, rfl, rfl⟩ := LocateResult.located.inj hloc
  obtain rfl := Except.ok.inj ((parseRows_taskEngine ['u']).symm.trans hrows)
  cases hw
  refine ⟨hsplice, (dumpShape_of_lines hend hlines).bodyLines, fun _ => ?_, fun h => h.elim,
    fun h => h.elim⟩
  exact dumpable_taskRows htexts

private theorem readsAlike_taskEngine (title text : Text) : ReadsAlike (taskEngine title) text :=
  fun _ _ _ _ => rfl

private theorem keyed_codedRow : Keyed codedRow :=
  keyed_of_keys ["id".toList, "title".toList, "change_kind".toList, "surface".toList,
    "disposition".toList] rfl (by decide) (by decide)

private theorem keyed_reopenedRow : Keyed reopenedRow :=
  keyed_of_keys ["id".toList, "title".toList, "change_kind".toList, "surface".toList,
    "disposition".toList, "disposition_detail".toList] rfl (by decide) (by decide)

/-- The same for the coded row, which is reopened. -/
private theorem reopen_runs :
    TableTexts [codedRow, reopenedRow] ∧
    (locateFencedBlock (samplePlan (flatDump [.map codedRow])) =
        .located (flatDump [.map codedRow]) 29 (29 + (flatDump [.map codedRow]).length) ∧
      splitRowChunks (flatDump [.map codedRow]) = ([], [flatDump [.map codedRow]]) ∧
      ended (flatDump [.map codedRow]) = tableDump (.map codedRow) ∧
      ∀ ln ∈ splitlinesKeep (ended (flatDump [.map codedRow])), Whole ln) ∧
    (patchBody reopenEngine (flatDump [.map codedRow]) [.map codedRow] [.map reopenedRow] =
        some (flatDump [.map reopenedRow]) ∧
      keepsChunks reopenEngine (flatDump [.map codedRow]) [.map codedRow] = true) ∧
    (SpliceSafe ((samplePlan (flatDump [.map codedRow])).take 29) (flatDump [.map reopenedRow])
        ((samplePlan (flatDump [.map codedRow])).drop (29 + (flatDump [.map codedRow]).length)) ∧
      (flatDump [.map reopenedRow]).getLast? = some '\n' ∧
      (lines (flatDump [.map reopenedRow])).all
        (fun l => l.head? != some '`' && l.head? != some '#') = true ∧
      OneDocument (flatDump [.map reopenedRow])) ∧
    (Call.reopen ['A'] ['d']).step reopenEngine (samplePlan (flatDump [.map codedRow])) =
      some (samplePlan (flatDump [.map reopenedRow])) := by
  decide +kernel

private theorem parseRows_codedRow :
    parseRows reopenEngine (flatDump [.map codedRow]) = .ok [.map codedRow] := by
  obtain ⟨-, ⟨-, hcut, hended, -⟩, -⟩ := reopen_runs
  have hload : tableLoad [codedRow, reopenedRow] (flatDump [.map codedRow]) =
      some (.seq ([codedRow].map .map)) := by
    refine tableLoad_of_findIdx [0] rfl (by rw [hcut]) ?_ rfl (List.cons_ne_nil _ _)
    rw [hcut, List.map_singleton, hended, List.findIdx?_cons, beq_self_eq_true]
    rfl
  have hload : reopenEngine.loadSpineYaml (flatDump [.map codedRow]) = _ := hload
  rw [parseRows, hload]
  rfl

private theorem stepSafe_reopen : StepSafe reopenEngine (samplePlan (flatDump [.map codedRow]))
    (fun _ => []) (.reopen ['A'] ['d']) := by
  obtain ⟨htexts, ⟨hlocated, hcut, hended, hwhole⟩, ⟨hpatch, hkeeps⟩,
    ⟨hsplice, hend, hlines, hdocument⟩, -⟩ := reopen_runs
  refine ⟨?_, fun before new h => by cases h⟩
  intro body start stop rows newRows B hloc hrows hw
  rw [hlocated] at hloc
  obtain ⟨rfl, rfl, rfl⟩ := LocateResult.located.inj hloc
  obtain rfl := Except.ok.inj (parseRows_codedRow.symm.trans hrows)
  cases hw with
  | reopen hi hnew hB =>
    obtain rfl := Option.some.inj hi
    obtain rfl := Except.ok.inj hnew
    obtain rfl := Option.some.inj (hpatch.symm.trans hB)
    have hwritten : Writable reopenEngine reopenedRow :=
      ⟨keyed_reopenedRow, exact_str _, exact_str _,
        htexts.readsAs_dumpRows (i := 1) keyed_reopenedRow rfl⟩
    refine ⟨hsplice, (dumpShape_of_lines hend hlines).bodyLines,
      fun h => absurd ⟨trivial, hkeeps⟩ h, fun _ _ => ?_, fun _ _ => ⟨hdocument, by simp⟩⟩
    constructor
    · rw [hcut]
      exact ⟨.inl rfl, by simp⟩
    · rw [hcut]
      rfl
    · rw [hcut]
      change ∀ e ∈ [(Val.map codedRow, flatDump [.map codedRow])], _
      rw [List.forall_mem_singleton]
      exact ⟨⟨_, rfl, hended ▸ htexts.readsAs (i := 0) keyed_codedRow rfl⟩, hwhole⟩
    · change ∀ v ∈ [Val.map reopenedRow], _
      rw [List.forall_mem_singleton]
      exact ⟨_, rfl, rfl, rfl, .inr hwritten⟩

/-- A task is added behind the row that is there, and a coded row is reopened. -/
theorem spine_order_law_addTask_reopen :
    (checkPlanTasksOrdering (taskEngine ['u'])
      (samplePlan (flatDump (sampleRows ++ [.map (sampleRow ['B'] ['u'])]))) = none ∧
      ∃ s', spineEntries (taskEngine ['u'])
        (samplePlan (flatDump (sampleRows ++ [.map (sampleRow ['B'] ['u'])]))) = some s' ∧
          (s'.map Prod.fst).Perm [.str ['B'], .str ['A']]) ∧
    checkPlanTasksOrdering reopenEngine
      (samplePlan (flatDump [.map reopenedRow])) = none := by
  constructor
  · obtain ⟨htexts, ⟨hlocated, -⟩, -, hstep, hordered⟩ := addTask_runs
    have hbody : bodyStates (taskEngine ['u']) (flatDump sampleRows).dropLast =
        some [rowState (sampleRow ['A'] ['t'])] :=
      (bodyStates_of_parseRows (parseRows_taskEngine ['u'])).trans rfl
    have hentries : spineEntries (taskEngine ['u']) (samplePlan (flatDump sampleRows).dropLast) =
        some [(.str ['A'], 0)] :=
      Option.map_eq_some_iff.mpr ⟨_, spineStates_eq_some.mpr ⟨_, _, _, hlocated, hbody⟩, rfl⟩
    have hknown : ∀ row ∈ [sampleRow ['A'] ['t'], sampleRow ['B'] ['u']], TableRow row := by
      rw [List.forall_mem_cons, List.forall_mem_singleton]
      exact ⟨htexts.tableRow (i := 0) (keyed_sampleRow _ _) rfl,
        htexts.tableRow (i := 1) (keyed_sampleRow _ _) rfl⟩
    obtain ⟨hcheck, s', hs', hperm, -⟩ := (spine_order_law (yamlLaws_tableEngine hknown)).1 _ _
      [.addTask (sampleRow ['B'] ['u'])] _ hentries (by simp) (readsAlike_taskEngine _ _)
      hordered ⟨stepSafe_addTask, fun _ _ => trivial⟩
      (Machine.run_cons_eq_some.mpr ⟨_, hstep, rfl⟩) (readsAlike_taskEngine _ _)
    exact ⟨hcheck, s', hs', hperm⟩
  · obtain ⟨htexts, -, -, -, hstep⟩ := reopen_runs
    have hknown : ∀ row ∈ [codedRow, reopenedRow], TableRow row := by
      rw [List.forall_mem_cons, List.forall_mem_singleton]
      exact ⟨htexts.tableRow (i := 0) keyed_codedRow rfl,
        htexts.tableRow (i := 1) keyed_reopenedRow rfl⟩
    exact (spine_order_law (yamlLaws_tableEngine hknown)).2 _ (.reopen ['A'] ['d']) _ trivial
      stepSafe_reopen hstep fun _ _ _ _ => rfl

/-- A task whose title opens a comment takes the ids of the spine with it. -/
theorem addTask_loses_ids :
    ∃ (E : Engine) (task : Dict) (old new : Text) (s : List (Val × ℕ)),
      YamlLaws E (fun _ => []) ∧ ReadsAlike E old ∧ ReadsAlike E new ∧
        Dumpable E (insertByRank task sampleRows) ∧
          spineEntries E old = some s ∧ (s.map Prod.fst).Nodup ∧
            checkPlanTasksOrdering E old = none ∧
              Machine.run (Call.step E) old [.addTask task] = some new ∧
                spineEntries E new = none := by
  have hruns : TableTexts [sampleRow ['A'] ['t'], sampleRow ['B'] "<!--".toList] ∧
      (Call.addTask (sampleRow ['B'] "<!--".toList)).step (taskEngine "<!--".toList)
        (samplePlan (flatDump sampleRows).dropLast) =
          some (samplePlan (flatDump (sampleRows ++ [.map (sampleRow ['B'] "<!--".toList)]))) ∧
      checkPlanTasksOrdering (taskEngine "<!--".toList)
        (samplePlan (flatDump sampleRows).dropLast) = none ∧
      locateFencedBlock (samplePlan (flatDump (sampleRows ++
        [.map (sampleRow ['B'] "<!--".toList)]))) = .absent := by
    decide +kernel
  obtain ⟨htexts, hstep, hordered, hlost⟩ := hruns
  obtain ⟨-, ⟨hlocated, -⟩, -⟩ := addTask_runs
  have hknown : ∀ row ∈ [sampleRow ['A'] ['t'], sampleRow ['B'] "<!--".toList], TableRow row := by
    rw [List.forall_mem_cons, List.forall_mem_singleton]
    exact ⟨htexts.tableRow (i := 0) (keyed_sampleRow _ _) rfl,
      htexts.tableRow (i := 1) (keyed_sampleRow _ _) rfl⟩
  have hbody : bodyStates (taskEngine "<!--".toList) (flatDump sampleRows).dropLast =
      some [rowState (sampleRow ['A'] ['t'])] :=
    (bodyStates_of_parseRows (parseRows_taskEngine _)).trans rfl
  refine ⟨taskEngine "<!--".toList, sampleRow ['B'] "<!--".toList,
    samplePlan (flatDump sampleRows).dropLast, _, [(.str ['A'], 0)], yamlLaws_tableEngine hknown,
    readsAlike_taskEngine _ _, readsAlike_taskEngine _ _, ?_,
    Option.map_eq_some_iff.mpr ⟨_, spineStates_eq_some.mpr ⟨_, _, _, hlocated, hbody⟩, rfl⟩,
    by simp, hordered, Machine.run_cons_eq_some.mpr ⟨_, hstep, rfl⟩, ?_⟩
  · exact dumpable_taskRows htexts
  · rw [spineEntries, spineStates, hlost]
    rfl

end Spine

end CoordinatorCore
