import CoordinatorCore.Spine.Reassembly
import CoordinatorCore.Spine.Resolve
import CoordinatorCore.Spine.WriteRead

/-!
# The state of a spine

The states of the rows, followed through every verb: what a successful call writes into the fence
(`Writes`), what it does to the frontmatter (`Rewrites`), and what the next reader finds there
when the step is safe (`spineStates_of_writes`).
-/

namespace CoordinatorCore

open Text BodyBlocks Frontmatter

namespace Spine

variable {E : Engine}

/-! ### What edits do to a state -/

/-- Setting another key keeps the state. -/
theorem rowState_set {k : Text} (hid : k ≠ "id".toList) (hdisposition : k ≠ "disposition".toList)
    (row : Dict) (v : Val) : rowState (row.set k v) = rowState row :=
  rowState_congr (Dict.mem_set_of_ne hid row v) (Dict.get_set_of_ne hid row v)
    (Dict.get_set_of_ne hdisposition row v)

/-- Removing another key keeps the state. -/
theorem rowState_pop {k : Text} (hid : k ≠ "id".toList) (hdisposition : k ≠ "disposition".toList)
    (row : Dict) : rowState (row.pop k) = rowState row :=
  rowState_congr (Dict.mem_pop_of_ne hid row) (Dict.get_pop_of_ne hid row)
    (Dict.get_pop_of_ne hdisposition row)

/-- An accepted update keeps the state: `disposition` is a refused field. -/
theorem rowState_applyUpdate {updates : List Params} (h : stampAccepts updates = true)
    {u : Params} (hu : u ∈ updates) (row : Dict) : rowState (applyUpdate u row) = rowState row := by
  have hfields : ∀ e ∈ u, e.1 ≠ "disposition".toList := by
    intro e he hk
    rw [stampAccepts, Bool.and_eq_true, List.all_eq_true] at h
    have hall := h.2 u hu
    rw [Bool.and_eq_true, List.all_eq_true] at hall
    have hfield := hall.2 e he
    rw [Bool.and_eq_true, hk] at hfield
    exact absurd hfield.1 (by decide)
  clear hu
  induction u generalizing row with
  | nil => rfl
  | cons e u ih =>
    obtain ⟨he, hrest⟩ := List.forall_mem_cons.mp hfields
    rw [applyUpdate, List.foldl_cons]
    refine (ih _ hrest).trans ?_
    rw [applyField]
    split_ifs with hid
    · rfl
    · split
      · exact rowState_pop hid he row
      · exact rowState_set hid he row _

/-- Edges are no part of a row's state. -/
theorem rowState_setEdges (edges : List Val) (row : Dict) :
    rowState (setEdges edges row) = rowState row := by
  rw [setEdges]
  split_ifs
  · exact rowState_pop (by decide) (by decide) row
  · exact rowState_set (by decide) (by decide) row _

/-- A gate is no part of a row's state. -/
theorem rowState_clearRowGate (ownerRepo evidence : Text) (row : Dict) :
    rowState (clearRowGate E ownerRepo evidence row) = rowState row :=
  rowState_set (by decide) (by decide) row _

/-- Reopening a row leaves its id. -/
theorem rowId_reopenRow (detail : Text) (row : Dict) :
    rowId (reopenRow detail row) = rowId row := by
  rw [rowId, reopenRow, Dict.get_set_of_ne (by decide), Dict.get_pop_of_ne (by decide),
    Dict.get_set_of_ne (by decide)]
  rfl

/-- Closing a row keeps its state: the disposition was written before. -/
theorem rowState_closeRow {w : World} (f : List Text) (c : List (Val × Text)) (r : Params)
    (ref : Val) (row : Dict) : rowState (closeRow E w f c r ref row).1 = rowState row :=
  keeps_closeRow (fun _ hk => rowState_set (fun hid => absurd (hid ▸ hk) (by decide))
    fun hdisposition => absurd (hdisposition ▸ hk) (by decide)) f c r ref row

/-- An edit in place that keeps the state of each row keeps the states. -/
theorem rowsStates_modifyRow {f : Dict → Dict} (hf : ∀ row, rowState (f row) = rowState row)
    (rows : List Val) (i : Nat) : rowsStates (modifyRow rows i f) = rowsStates rows :=
  rowsStates_congr (map_modifyRow (fun row => by simp only [Val.asDict_map, Option.map_some, hf])
    rows i)

/-- Accepted stamps leave the states of the rows. -/
theorem rowsStates_stampedRows {updates : List Params} (h : stampAccepts updates = true)
    (rows : List Val) : rowsStates (stampedRows updates rows) = rowsStates rows := by
  refine rowsStates_congr (List.ext_getElem? fun j => ?_)
  rw [stampedRows, List.getElem?_map, List.getElem?_map, List.getElem?_mapIdx, Option.map_map]
  cases rows[j]? with
  | none => rfl
  | some v =>
    rw [Option.map_some, Option.map_some, Function.comp_apply]
    split
    · next u hu =>
      cases v with
      | map row =>
        have := rowState_applyUpdate h (List.mem_of_find?_eq_some hu) row
        simpa [editRow] using this
      | _ => rfl
    · rfl

/-! ### Sorted rows -/

/-- The repositioned values are the rows, sorted. -/
theorem repositionValues_eq_ok {rows newRows : List Val}
    (h : repositionValues rows = .ok newRows) : ∃ ds : List Dict, rows = ds.map .map ∧
      rowsStates newRows = some ((Ranked.sort rowRank ds).map rowState) := by
  rw [repositionValues] at h
  split at h
  · cases h
  · next ds hds =>
    cases h
    exact ⟨ds, mapM_asDict_eq_some.mp hds, rowsStates_eq_some.mpr ⟨_, rfl, rfl⟩⟩

/-- The repositioned row objects carry their positions as tags. -/
private theorem states_of_repositionTagged {rows : List Val} {tagged : List Tagged}
    (h : repositionTagged rows = .ok tagged) : ∃ ds : List Dict, rows = ds.map .map ∧
      (tagged.map Prod.fst).Nodup ∧
        tagged.map (fun t => rowState t.2) = (Ranked.sort rowRank ds).map rowState := by
  obtain ⟨ds, hds, rfl⟩ := repositionTagged_eq_ok h
  refine ⟨ds, hds, ?_, ?_⟩
  · refine ((Ranked.sort_perm _ _).map Prod.fst).nodup_iff.mpr ?_
    have hidx : (ds.zipIdx.map fun d => (d.2, d.1)).map Prod.fst = List.range' 0 ds.length := by
      rw [List.map_map]
      exact List.zipIdx_map_snd 0 ds
    rw [hidx]
    exact List.nodup_range'
  · have hrank : ∀ t : Tagged, rowRank (Prod.snd t) = rowRank t.2 := fun _ => rfl
    have hrows : (ds.zipIdx.map fun d => (d.2, d.1)).map Prod.snd = ds := by
      rw [List.map_map]
      exact List.zipIdx_map_fst 0 ds
    have hsort := Ranked.map_sort hrank (ds.zipIdx.map fun d => (d.2, d.1))
    rw [hrows] at hsort
    rw [← hsort, List.map_map]
    rfl

section Routing

variable {w : World} {old : Text} {rows₀ : List Val} {fmOpenRows : List Text}
  {receipts : List (Val × Text)}

/-- The state of a tagged row. -/
private def taggedState (t : Tagged) : Nat × RowState := (t.1, rowState t.2)

private theorem map_editTagged {rows : List Tagged} (hnodup : (rows.map Prod.fst).Nodup) (i : Nat)
    {row : Dict} (hrow : rowState row = rowState (taggedRow i rows)) :
    (editTagged i (fun _ => row) rows).map taggedState = rows.map taggedState := by
  rw [editTagged, List.map_map]
  refine List.map_congr_left fun t ht => ?_
  rw [Function.comp_apply]
  split_ifs with hi
  · -- the tags are distinct, so the row of the tag is this one
    obtain ⟨u, hu⟩ := Option.isSome_iff_exists.mp
      (List.find?_isSome (p := fun t : Tagged => t.1 = i).mpr ⟨t, ht, decide_eq_true hi⟩)
    have htag : u.1 = i := by simpa using List.find?_some hu
    obtain rfl : u = t := List.inj_on_of_nodup_map hnodup (List.mem_of_find?_eq_some hu) ht
      (htag.trans hi.symm)
    have htagged : taggedRow i rows = u.2 := by
      rw [taggedRow, hu]
      rfl
    rw [htagged] at hrow
    exact Prod.ext rfl hrow
  · rfl

/-- Routing closes rows in place. -/
private theorem map_dispatchRows {batch : Batch} {rows tagged : List Tagged}
    {evidence evidence' : List (Val × Text)} {store store' : Store}
    (hnodup : (rows.map Prod.fst).Nodup)
    (h : dispatchRows E w old rows₀ fmOpenRows receipts batch rows evidence store =
      (.ok (tagged, evidence'), store')) :
    tagged.map taggedState = rows.map taggedState := by
  induction batch generalizing rows evidence store with
  | nil =>
    rw [dispatchRows] at h
    obtain ⟨h, -⟩ := Prod.mk.inj h
    cases h
    rfl
  | cons r rest ih =>
    rw [dispatchRows] at h
    split at h
    · cases (Prod.mk.inj h).1
    · next i hi =>
      split at h
      · cases (Prod.mk.inj h).1
      · next ref s href =>
        have hedit := map_editTagged hnodup i
          (rowState_closeRow (E := E) (w := w) fmOpenRows receipts r ref (taggedRow i rows))
        have htags : ∀ l : List Tagged, (l.map taggedState).map Prod.fst = l.map Prod.fst :=
          fun l => by rw [List.map_map]; rfl
        refine (ih ?_ h).trans hedit
        rw [← htags, hedit, htags]
        exact hnodup

/-- What `resolve` writes: the rows with their dispositions, sorted. -/
theorem rowsStates_resolve {batch : Batch} {p : Prepared} {tagged : List Tagged}
    {evidence : List (Val × Text)} {store store' : Store}
    (hp : prepareResolve E w batch old = .ok p)
    (h : dispatchRows E w old p.rows fmOpenRows receipts batch p.tagged [] store =
      (.ok (tagged, evidence), store')) : ∃ ds : List Dict,
      disposeRows batch p.rows = ds.map .map ∧
        rowsStates (untag tagged) = some ((Ranked.sort rowRank ds).map rowState) := by
  obtain ⟨-, -, -, htagged⟩ := prepareResolve_eq_ok hp
  obtain ⟨ds, hds, htags, hsorted⟩ := states_of_repositionTagged htagged
  refine ⟨ds, hds, rowsStates_eq_some.mpr ⟨tagged.map Prod.snd, ?_, ?_⟩⟩
  · rw [untag, List.map_map]
    rfl
  · have hclosed := congrArg (List.map Prod.snd) (map_dispatchRows htags h)
    rw [List.map_map, List.map_map] at hclosed
    rw [← hsorted, List.map_map]
    exact hclosed.symm

end Routing

/-! ### Calls -/

/-- A call of a verb; the world and the store of `resolve` are those that the call meets. -/
inductive Call
  | addTask (task : Dict)
  | stamp (updates : List Params)
  | reopen (taskId detail : Text)
  | dependsOn (taskId chunk : Text) (action : EdgeAction)
  | clearGate (taskId ownerRepo evidence : Text)
  | resolve (w : World) (batch : Batch) (store : Store)

namespace Call

/-- The `mutate` of the call. -/
def mutate (E : Engine) : Call → Text → Except Refusal Text
  | .addTask task, old => Spine.addTask E task old
  | .stamp updates, old => Spine.stamp E updates old
  | .reopen taskId detail, old => Spine.reopen E taskId detail old
  | .dependsOn taskId chunk action, old => Spine.dependsOn E taskId chunk action old
  | .clearGate taskId ownerRepo evidence, old => Spine.clearGate E taskId ownerRepo evidence old
  | .resolve w batch store, old => (Spine.resolve E w batch old store).1

/-- A successful call is a step from plan text to plan text. -/
def step (E : Engine) (old : Text) (call : Call) : Option Text := (call.mutate E old).toOption

/-- The id of the task that the call adds. -/
def added : Call → List Val
  | .addTask task => [rowId task]
  | _ => []

/-- The call patches the body; the other calls dump the whole spine. -/
def Patches : Call → Prop
  | .addTask _ => False
  | .stamp _ => False
  | _ => True

/-- The call sorts the whole spine. -/
def Sorts : Call → Prop
  | .reopen _ _ => True
  | .resolve _ _ _ => True
  | _ => False

end Call

section Calls

variable (E) (old : Text)

/-- The rows that a successful call writes into the fence, and their text. -/
inductive Writes (body : Text) (rows : List Val) : Call → List Val → Text → Prop
  | addTask {task : Dict} (hfresh : rows.any (hasId (rowId task)) = false) :
      Writes body rows (.addTask task) (insertByRank task rows)
        (E.dumpRows (insertByRank task rows))
  | stamp {updates : List Params} (haccepts : stampAccepts updates = true) :
      Writes body rows (.stamp updates) (stampedRows updates rows)
        (E.dumpRows (stampedRows updates rows))
  | reopen {taskId detail : Text} {i : Nat} {newRows : List Val} {B : Text}
      (hi : firstWithId (.str taskId) rows = some i)
      (hrows : repositionValues (modifyRow rows i (reopenRow detail)) = .ok newRows)
      (hB : patchBody E body rows newRows = some B) :
      Writes body rows (.reopen taskId detail) newRows B
  | dependsOn {taskId chunk : Text} {action : EdgeAction} {i : Nat} {edges : List Val} {B : Text}
      (hi : firstWithId (.str taskId) rows = some i)
      (hedges : editEdges action taskId chunk rows
        (asItems ((((rows[i]?).bind Val.asDict).getD []).get "depends_on".toList)) = .ok edges)
      (hB : patchBody E body rows (modifyRow rows i (setEdges edges)) = some B) :
      Writes body rows (.dependsOn taskId chunk action) (modifyRow rows i (setEdges edges)) B
  | clearGate {taskId ownerRepo evidence : Text} {i : Nat} {entry : Val} {B : Text}
      (hi : firstWithId (.str taskId) rows = some i)
      (hentry : (asItems ((((rows[i]?).bind Val.asDict).getD []).get "external_gate".toList)).filter
        (gateMatches E ownerRepo) = [entry])
      (hopen : (entry.asDict.any fun d => isTrue (d.get "cleared".toList)) = false)
      (hB : patchBody E body rows (modifyRow rows i (clearRowGate E ownerRepo evidence)) = some B) :
      Writes body rows (.clearGate taskId ownerRepo evidence)
        (modifyRow rows i (clearRowGate E ownerRepo evidence)) B
  | resolve {w : World} {batch : Batch} {store store' : Store} {p : Prepared}
      {tagged : List Tagged} {evidence : List (Val × Text)} {B : Text}
      (hp : prepareResolve E w batch old = .ok p)
      (hrun : dispatchRows E w old p.rows (openGateRows E old) p.receipts batch p.tagged [] store =
        (.ok (tagged, evidence), store'))
      (hB : patchBody E body rows (untag tagged) = some B) :
      Writes body rows (.resolve w batch store) (untag tagged) B

/-- The text in front of and behind a successful rewriting of the frontmatter gates. -/
inductive Rewrites : Call → Text → Text → Prop
  | clearGate {taskId ownerRepo evidence : Text} {hit : GateHit}
      (hhit : (frontmatterGates E (frontmatterLines old)).filter (fun h =>
        gateMatches E ownerRepo (.map h.item) &&
          (h.item.get "row".toList).pyEq (.str taskId)) = [hit])
      (hopen : isTrue (hit.item.get "cleared".toList) = false) :
      Rewrites (.clearGate taskId ownerRepo evidence) old
        (rebuildLines old (replaceGate E (frontmatterLines old) hit (clearEntry evidence hit.item)))
  | resolve {w : World} {batch : Batch} {store store' : Store} {p : Prepared}
      {tagged : List Tagged} {evidence : List (Val × Text)} {B : Text}
      (hp : prepareResolve E w batch old = .ok p)
      (hrun : dispatchRows E w old p.rows (openGateRows E old) p.receipts batch p.tagged [] store =
        (.ok (tagged, evidence), store'))
      (hB : patchBody E p.body p.rows (untag tagged) = some B) :
      Rewrites (.resolve w batch store) (spliceBody old p.start p.stop B)
        (clearFrontmatterGates E (spliceBody old p.start p.stop B) evidence)

/-- The new body fits into the old surroundings, and its rows can be read: each one where all are
dumped, the chunks and the rows that are no old ones where the body is patched. -/
structure BodySafe (anchors : Text → List Text) (call : Call) (body : Text) (start stop : Nat)
    (rows newRows : List Val) (B : Text) : Prop where
  splice : SpliceSafe (old.take start) B (old.drop stop)
  lines : BodyLines (blankComments B)
  dumped : ¬ (call.Patches ∧ keepsChunks E body rows = true) → Dumpable E newRows
  patched : call.Patches → keepsChunks E body rows = true → Patchable E body rows newRows
  document : call.Patches → keepsChunks E body rows = true → OneDocument B ∧ (anchors B).Nodup

/-- What a call writes leaves a spine that reads back: a new body is safe, and rewritten gates in
the frontmatter do not hide the fence or change its body. -/
structure StepSafe (anchors : Text → List Text) (call : Call) : Prop where
  body : ∀ body start stop rows newRows B, locateFencedBlock old = .located body start stop →
    parseRows E body = .ok rows → Writes E old body rows call newRows B →
      BodySafe E old anchors call body start stop rows newRows B
  frontmatter : ∀ before new, Rewrites E old call before new → ∀ body i j,
    locateFencedBlock before = .located body i j →
      ∃ i' j', locateFencedBlock new = .located body i' j'

end Calls

section Inversion

variable {old new body : Text} {start stop : Nat} {rows : List Val}

/-- A patch goes through when the body can be patched. -/
theorem patched_eq_ok {newRows : List Val} {B : Text} :
    patched E body rows newRows = .ok B ↔ patchBody E body rows newRows = some B := by
  rw [patched]
  cases patchBody E body rows newRows <;> simp

/-- What a successful call on a located spine did. -/
theorem Call.mutate_eq_ok {call : Call} (hloc : locateFencedBlock old = .located body start stop)
    (hrows : parseRows E body = .ok rows) (h : call.mutate E old = .ok new) :
    (∃ newRows B, Writes E old body rows call newRows B ∧
      (new = spliceBody old start stop B ∨
        Rewrites E old call (spliceBody old start stop B) new)) ∨
    call.added = [] ∧ ¬ call.Sorts ∧ (new = old ∨ Rewrites E old call old new) := by
  -- a verb that goes through `onSpine` splices a body into the located block
  have hspine : ∀ {f : Text → List Val → Except Refusal Text}, onSpine E old f = .ok new →
      ∃ B, f body rows = .ok B ∧ new = spliceBody old start stop B := by
    intro f hf
    obtain ⟨body', start', stop', rows', B, hloc', hrows', hB, rfl⟩ := onSpine_eq_ok.mp hf
    rw [hloc] at hloc'
    obtain ⟨rfl, rfl, rfl⟩ := LocateResult.located.inj hloc'
    obtain rfl := Except.ok.inj (hrows.symm.trans hrows')
    exact ⟨B, hB, rfl⟩
  cases call with
  | addTask task =>
    obtain ⟨rows', hrows', hfresh, -, rfl⟩ := addTask_eq_ok hloc h
    obtain rfl := Except.ok.inj (hrows.symm.trans hrows')
    exact .inl ⟨_, _, .addTask hfresh, .inl rfl⟩
  | stamp updates =>
    obtain ⟨body', start', stop', rows', hloc', hrows', -, haccepts, -, rfl⟩ := stamp_eq_ok h
    rw [hloc] at hloc'
    obtain ⟨rfl, rfl, rfl⟩ := LocateResult.located.inj hloc'
    obtain rfl := Except.ok.inj (hrows.symm.trans hrows')
    exact .inl ⟨_, _, .stamp haccepts, .inl rfl⟩
  | reopen taskId detail =>
    rw [Call.mutate, Spine.reopen] at h
    split_ifs at h
    obtain ⟨B, hB, rfl⟩ := hspine h
    split at hB
    · cases hB
    · next i hi =>
      dsimp only at hB
      split_ifs at hB
      obtain ⟨newRows, hnew, hB⟩ := bind_eq_ok.mp hB
      obtain ⟨_, -, hB⟩ := bind_eq_ok.mp hB
      exact .inl ⟨newRows, B, .reopen hi hnew (patched_eq_ok.mp hB), .inl rfl⟩
  | dependsOn taskId chunk action =>
    rw [Call.mutate, Spine.dependsOn] at h
    split_ifs at h
    obtain ⟨B, hB, rfl⟩ := hspine h
    split_ifs at hB
    split at hB
    · cases hB
    · next i hi =>
      obtain ⟨edges, hedges, hB⟩ := bind_eq_ok.mp hB
      obtain ⟨_, -, hB⟩ := bind_eq_ok.mp hB
      exact .inl ⟨_, B, .dependsOn hi hedges (patched_eq_ok.mp hB), .inl rfl⟩
  -- the gate stands on the row or in the frontmatter; either may be cleared already
  | clearGate taskId ownerRepo evidence =>
    rw [Call.mutate, Spine.clearGate] at h
    split_ifs at h
    rw [hloc] at h
    dsimp only at h
    rw [hrows] at h
    obtain ⟨_, hok, h⟩ := bind_eq_ok.mp h
    obtain rfl := Except.ok.inj hok
    split at h
    · cases h
    · next i hi =>
      split at h
      · cases h
      · next entry hentry hfm =>
        split_ifs at h with hcleared
        · cases h
          exact .inr ⟨rfl, id, .inl rfl⟩
        · obtain ⟨_, -, h⟩ := bind_eq_ok.mp h
          obtain ⟨B, hB, h⟩ := bind_eq_ok.mp h
          cases h
          exact .inl ⟨_, B, .clearGate hi hentry (by simpa using hcleared) (patched_eq_ok.mp hB),
            .inl rfl⟩
      · next hit hentry hfm =>
        split_ifs at h with hcleared
        · cases h
          exact .inr ⟨rfl, id, .inl rfl⟩
        · cases h
          exact .inr ⟨rfl, id, .inr (.clearGate hfm (by simpa using hcleared))⟩
      · cases h
  -- prepare, dispatch and finish, each with its own inversion
  | resolve w batch store =>
    rw [Call.mutate, Spine.resolve] at h
    split_ifs at h
    split at h
    · cases h
    · next p hp =>
      split at h
      · cases h
      · next tagged evidence store' hrun =>
        obtain ⟨hloc', hrows', -, -⟩ := prepareResolve_eq_ok hp
        rw [hloc] at hloc'
        obtain ⟨rfl, rfl, rfl⟩ := LocateResult.located.inj hloc'
        obtain rfl := Except.ok.inj (hrows.symm.trans hrows')
        rw [finishResolve] at h
        obtain ⟨_, -, h⟩ := bind_eq_ok.mp h
        obtain ⟨B, hB, h⟩ := bind_eq_ok.mp h
        cases h
        have hB := patched_eq_ok.mp hB
        exact .inl ⟨_, B, .resolve hp hrun hB, .inr (.resolve hp hrun hB)⟩

end Inversion

section Safety

variable {anchors : Text → List Text} {old new body B : Text} {start stop : Nat}
  {rows newRows : List Val} {call : Call}

/-- A call that patches the body edits the rows that are there. -/
theorem Writes.length_eq (hloc : locateFencedBlock old = .located body start stop)
    (hrows : parseRows E body = .ok rows) (h : Writes E old body rows call newRows B)
    (hpatches : call.Patches) : newRows.length = rows.length := by
  have hsorted : ∀ {ds : List Dict}, rowsStates newRows =
      some ((Ranked.sort rowRank ds).map rowState) → newRows.length = ds.length := by
    intro ds hds
    obtain ⟨ds', rfl, hstates⟩ := rowsStates_eq_some.mp hds
    have hlen := congrArg List.length hstates
    rw [List.length_map, List.length_map, (Ranked.sort_perm rowRank ds).length_eq] at hlen
    rw [List.length_map, hlen]
  cases h with
  | addTask => exact hpatches.elim
  | stamp => exact hpatches.elim
  | reopen hi hnew hB =>
    obtain ⟨ds, hds, hstates⟩ := repositionValues_eq_ok hnew
    rw [hsorted hstates, ← List.length_map (f := Val.map), ← hds, modifyRow, List.length_modify]
  | dependsOn => rw [modifyRow, List.length_modify]
  | clearGate => rw [modifyRow, List.length_modify]
  | @resolve w batch _ _ p tagged evidence _ hp hrun hB =>
    obtain ⟨hloc', hrows', -, -⟩ := prepareResolve_eq_ok hp
    rw [hloc] at hloc'
    obtain ⟨rfl, rfl, rfl⟩ := LocateResult.located.inj hloc'
    obtain rfl := Except.ok.inj (hrows.symm.trans hrows')
    obtain ⟨ds, hds, hstates⟩ := rowsStates_resolve hp hrun
    have hdisposed := congrArg List.length (map_disposeRows (g := fun v => v.asDict.isSome)
      (fun _ _ => rfl) batch p.rows)
    rw [hsorted hstates, ← List.length_map (f := Val.map), ← hds]
    simpa using hdisposed

/-- What a call writes. -/
theorem Writes.text (h : Writes E old body rows call newRows B) :
    call.Patches ∧ patchBody E body rows newRows = some B ∨
      ¬ call.Patches ∧ B = E.dumpRows newRows := by
  cases h with
  | addTask => exact .inr ⟨id, rfl⟩
  | stamp => exact .inr ⟨id, rfl⟩
  | reopen hi hnew hB => exact .inl ⟨trivial, hB⟩
  | dependsOn hi hedges hB => exact .inl ⟨trivial, hB⟩
  | clearGate hi hentry hopen hB => exact .inl ⟨trivial, hB⟩
  | resolve hp hrun hB => exact .inl ⟨trivial, hB⟩

/-- A safe body loads to the states of the rows it was made from. -/
theorem BodySafe.bodyStates_eq (hE : YamlLaws E anchors)
    (hloc : locateFencedBlock old = .located body start stop)
    (hrows : parseRows E body = .ok rows) (hw : Writes E old body rows call newRows B)
    (h : BodySafe E old anchors call body start stop rows newRows B) :
    bodyStates E B = rowsStates newRows := by
  rcases hw.text with ⟨hpatches, hB⟩ | ⟨hdumps, rfl⟩
  · exact bodyStates_patchBody hE hrows hB (hw.length_eq hloc hrows hpatches)
      (fun hkeeps => ⟨h.patched hpatches hkeeps, h.document hpatches hkeeps⟩)
      fun hkeeps => h.dumped fun hboth => by
        rw [hboth.2] at hkeeps
        cases hkeeps
  · exact bodyStates_dumpRows hE (h.dumped fun hboth => hdumps hboth.1)

/-- A safe body is located where the old one was. -/
theorem BodySafe.locate (h : BodySafe E old anchors call body start stop rows newRows B)
    (hloc : locateFencedBlock old = .located body start stop) :
    locateFencedBlock (spliceBody old start stop B) = .located B start (start + B.length) :=
  locate_spliceBody hloc ((exists_of_located hloc).1.splice h.lines h.splice)

/-- Behind a safe step the spine holds the rows that were written. -/
theorem spineStates_of_writes (hE : YamlLaws E anchors)
    (hloc : locateFencedBlock old = .located body start stop)
    (hrows : parseRows E body = .ok rows) (hsafe : StepSafe E old anchors call)
    (hw : Writes E old body rows call newRows B)
    (hnew : new = spliceBody old start stop B ∨
      Rewrites E old call (spliceBody old start stop B) new) :
    spineStates E new = rowsStates newRows := by
  have hbody := hsafe.body body start stop rows newRows B hloc hrows hw
  have hlocB := hbody.locate hloc
  obtain ⟨i', j', hlocNew⟩ : ∃ i' j', locateFencedBlock new = .located B i' j' := by
    rcases hnew with rfl | hnew
    · exact ⟨_, _, hlocB⟩
    · exact hsafe.frontmatter _ _ hnew _ _ _ hlocB
  rw [spineStates, hlocNew]
  exact hbody.bodyStates_eq hE hloc hrows hw

end Safety

end Spine

end CoordinatorCore
