import CoordinatorCore.Spine.Resolve
import CoordinatorCore.Spine.WriteRead

/-!
# Is a refused batch without effect?

`resolve` promises that the disposition write and the harvest write both land, or neither does.
The plan text keeps the promise: a refusal writes none. The harvest store need not, since the
routing loop appends to it row by row and later rows may still be refused, as may the final
validation. `resolve_atomic_iff` says exactly when it does: up to the first entry that is refused
(through the whole batch, where only the final validation refuses) the store takes nothing new. What
is refused and what the store takes is said entry by entry, on the row as loaded and the store that
the entries in front leave.
-/

namespace CoordinatorCore

open Text BodyBlocks Frontmatter

namespace Spine

variable {E : Engine} {w : World}

/-! ### What the end of the closure can refuse -/

/-- The final validation refuses touched rows only. -/
theorem validateAll_isOk_iff (ctx : PlanContext) (touched : List Val) {rows : List Dict}
    (hhash : ∀ row ∈ rows, (rowId row).hashable = true) :
    (∃ ids, validateAll E ctx touched (rows.map .map) = .ok ids) ↔
      ∀ row ∈ rows, (touched.any fun id => (rowId row).pyEq id) = true →
        validRow E ctx row = true := by
  induction rows with
  | nil => simp [validateAll]
  | cons row rows ih =>
    obtain ⟨hrow, hrest⟩ := List.forall_mem_cons.mp hhash
    rw [List.map_cons, validateAll, Val.asDict_map, List.forall_mem_cons]
    dsimp only
    by_cases hvalid : validRow E ctx row = true
    · simp only [hvalid, if_true, ih hrest]
      simp
    · rw [if_neg hvalid, hrow]
      by_cases htouched : (touched.any fun id => (rowId row).pyEq id) = true
      · simp [htouched, hvalid]
      · simp only [Bool.not_true, Bool.false_eq_true, if_false, htouched]
        rw [← ih hrest]
        cases validateAll E ctx touched (rows.map .map) <;> simp [Except.map]

/-- A body whose ids can be set members is patched. -/
theorem exists_patchBody {originalRows : List Val} (h : unhashableId originalRows = false)
    (body : Text) (rows : List Val) : ∃ newBody, patchBody E body originalRows rows =
      some newBody := by
  have hall : (originalRows.map idOrNone).all Val.hashable = true := by
    rw [List.all_map, List.all_eq_true]
    intro v hv
    have := List.any_eq_false.mp h v hv
    rw [Function.comp_apply, idOrNone]
    cases hd : v.asDict with
    | none => rfl
    | some row => simpa [hd] using this
  rw [patchBody]
  dsimp only
  rw [hall]
  simp only [Bool.not_true, Bool.false_eq_true, if_false]
  split_ifs <;> exact ⟨_, rfl⟩

/-! ### The ids of the rows -/

/-- The ids of the rows can be set members. -/
def HashableIds (rows : List Tagged) : Prop := ∀ t ∈ rows, (rowId t.2).hashable = true

private theorem hashableIds_editTagged {rows : List Tagged} (h : HashableIds rows) (i : Nat)
    {row : Dict} (hrow : rowId row = rowId (taggedRow i rows)) :
    HashableIds (editTagged i (fun _ => row) rows) := by
  intro t ht
  obtain ⟨s, hs, rfl⟩ := List.mem_map.mp ht
  split_ifs with hi
  · obtain ⟨u, hu⟩ := Option.isSome_iff_exists.mp
      (List.find?_isSome (p := fun t : Tagged => t.1 = i).mpr ⟨s, hs, decide_eq_true hi⟩)
    have hmem := List.mem_of_find?_eq_some hu
    have htagged : taggedRow i rows = u.2 := by rw [taggedRow, hu]; rfl
    dsimp only
    rw [hrow, htagged]
    exact h u hmem
  · exact h s hs

/-- What the closure holds in front of the routing has ids that can be set members. -/
theorem prepareResolve_hashable {batch : Batch} {old : Text} {p : Prepared}
    (h : prepareResolve E w batch old = .ok p) :
    unhashableId p.rows = false ∧ HashableIds p.tagged := by
  obtain ⟨-, -, hchecks, htagged⟩ := prepareResolve_eq_ok h
  have hhash := (resolveChecks_eq_ok hchecks).1
  obtain ⟨ds, hds, htagged⟩ := repositionTagged_eq_ok htagged
  refine ⟨hhash, fun t ht => ?_⟩
  have hmap := map_disposeRows (g := fun v => v.asDict.any fun row => !(rowId row).hashable)
    (fun r row => by simp only [Val.asDict_map, Option.any_some, rowId_disposeRow]) batch p.rows
  have hdisposed : unhashableId (ds.map .map) = false := by
    rw [← hds, ← hhash]
    have hany := congrArg (List.any · id) hmap
    simpa only [unhashableId, List.any_map, Function.id_comp] using hany
  rw [htagged, (Ranked.sort_perm _ _).mem_iff] at ht
  obtain ⟨d, hd, rfl⟩ := List.mem_map.mp ht
  have := List.any_eq_false.mp hdisposed (.map d.1)
    (List.mem_map_of_mem (List.fst_mem_of_mem_zipIdx hd))
  simpa using this

/-! ### One entry -/

section Entry

variable (w) (old : Text) (row : Dict) (r : Params) (store : Store)

/-- The entry that the store newly takes for a `backlogged` row: it does not hold one, the change
kind has a route, and the append succeeds. -/
def newEntry : Option HarvestEntry :=
  if r.disposes "backlogged".toList then
    (w.parsePlanId old).bind fun planId =>
      if w.alreadyHarvested store row (w.harvestKey planId r.id) then none
      else (harvestRoute w (row.get "change_kind".toList)).bind fun lesson =>
        if w.appendOk store row (w.harvestKey planId r.id) then
          some ⟨lesson, w.harvestKey planId r.id⟩
        else none
  else none

/-- Why an entry cannot be routed: no plan id, a change kind without a route, an append that fails,
an entry that is not found again, or no file to spin off to. -/
inductive RouteRefused : Prop
  | noPlanId : r.disposes "backlogged".toList = true → w.parsePlanId old = none → RouteRefused
  | unroutable {planId : Text} : r.disposes "backlogged".toList = true →
    w.parsePlanId old = some planId →
      w.alreadyHarvested store row (w.harvestKey planId r.id) = false →
        (∀ k ∈ w.lessonPromoteKinds ++ w.queueEligibleKinds,
          row.get "change_kind".toList ≠ .str k) → RouteRefused
  | notAppended {planId : Text} : r.disposes "backlogged".toList = true →
    w.parsePlanId old = some planId →
      w.alreadyHarvested store row (w.harvestKey planId r.id) = false →
        w.appendOk store row (w.harvestKey planId r.id) = false → RouteRefused
  | notLocated {planId : Text} : r.disposes "backlogged".toList = true →
    w.parsePlanId old = some planId →
      w.findEvidence (store ++ (newEntry w old row r store).toList) row
        (w.harvestKey planId r.id) = none → RouteRefused
  | noFile : r.disposes "backlogged".toList = false → r.disposes "spun_off".toList = true →
    (∀ path, r.get "disposition_ref".toList = .str path →
      strip path = [] ∨ w.resolveFile path = none) → RouteRefused

/-- The reference that is recorded for an entry: the entry found in the store, the file spun off
to, or the one it came with. -/
def recordedRef : Val :=
  if r.disposes "backlogged".toList then
    (((w.parsePlanId old).bind fun planId =>
      w.findEvidence (store ++ (newEntry w old row r store).toList) row
        (w.harvestKey planId r.id)).map Val.str).getD .null
  else if r.disposes "spun_off".toList then
    match r.get "disposition_ref".toList with
    | .str path => ((w.resolveFile path).map Val.str).getD .null
    | ref => ref
  else r.get "disposition_ref".toList

variable {w old row r store}

/-- A value has no harvest route when no route's kind is its text. -/
theorem harvestRoute_eq_none_iff {v : Val} : harvestRoute w v = none ↔
    ∀ k ∈ w.lessonPromoteKinds ++ w.queueEligibleKinds, v ≠ .str k := by
  rw [harvestRoute]
  split_ifs with hlesson hqueue
  · obtain ⟨k, hk, hv⟩ := List.any_eq_true.mp hlesson
    exact iff_of_false (fun h => by cases h) fun h =>
      h k (List.mem_append_left _ hk) (Val.pyEq_str_right.mp hv)
  · obtain ⟨k, hk, hv⟩ := List.any_eq_true.mp hqueue
    exact iff_of_false (fun h => by cases h) fun h =>
      h k (List.mem_append_right _ hk) (Val.pyEq_str_right.mp hv)
  · refine iff_of_true rfl fun k hk hv => ?_
    rcases List.mem_append.mp hk with hk | hk
    · exact hlesson (List.any_eq_true.mpr ⟨k, hk, Val.pyEq_str_right.mpr hv⟩)
    · exact hqueue (List.any_eq_true.mpr ⟨k, hk, Val.pyEq_str_right.mpr hv⟩)

/-- Handing a row to the store. -/
theorem dispatchBacklogged_spec (hb : r.disposes "backlogged".toList = true) :
    (dispatchBacklogged w row r.id old store).2 =
        store ++ (newEntry w old row r store).toList ∧
      (RouteRefused w old row r store ∧
          (∃ e, (dispatchBacklogged w row r.id old store).1 = .error e) ∨
        ¬ RouteRefused w old row r store ∧
          (dispatchBacklogged w row r.id old store).1 = .ok (recordedRef w old row r store)) := by
  have hspun : ∀ {P : Prop}, r.disposes "backlogged".toList = false → P := fun h => by
    rw [hb] at h
    cases h
  rw [dispatchBacklogged]
  cases hplan : w.parsePlanId old with
  | none =>
    have hnew : newEntry w old row r store = none := by rw [newEntry, if_pos hb, hplan]; rfl
    rw [hnew]
    exact ⟨(List.append_nil _).symm, .inl ⟨.noPlanId hb hplan, _, rfl⟩⟩
  | some planId =>
    -- what is found again decides once the store is as the entry leaves it
    have hlocate : ∀ (s : Store) (answer : Except Refusal Val),
        s = store ++ (newEntry w old row r store).toList →
        (∀ h : RouteRefused w old row r store,
          w.findEvidence s row (w.harvestKey planId r.id) = none) →
        (∀ found, w.findEvidence s row (w.harvestKey planId r.id) = some found →
          answer = .ok (.str found)) →
        (w.findEvidence s row (w.harvestKey planId r.id) = none →
          answer = .error (.entryNotLocated r.id)) →
        RouteRefused w old row r store ∧ (∃ e, answer = .error e) ∨
          ¬ RouteRefused w old row r store ∧ answer = .ok (recordedRef w old row r store) := by
      intro s answer hs hrefused hsome hnone
      cases hfound : w.findEvidence s row (w.harvestKey planId r.id) with
      | none => exact .inl ⟨.notLocated hb hplan (hs ▸ hfound), _, hnone hfound⟩
      | some found =>
        refine .inr ⟨fun h => ?_, ?_⟩
        · rw [hrefused h] at hfound
          cases hfound
        · rw [hsome found hfound, recordedRef, if_pos hb, hplan, Option.bind_some, ← hs, hfound]
          rfl
    dsimp only
    by_cases hdone : w.alreadyHarvested store row (w.harvestKey planId r.id) = true
    · have hnew : newEntry w old row r store = none := by
        rw [newEntry, if_pos hb, hplan, Option.bind_some, if_pos hdone]
      rw [if_pos hdone]
      refine ⟨by rw [hnew]; exact (List.append_nil _).symm, hlocate store _ (by simp [hnew]) ?_
        (fun found h => by rw [h]) fun h => by rw [h]⟩
      rintro (⟨-, h⟩ | ⟨-, h, h', -⟩ | ⟨-, h, h', -⟩ | ⟨-, h, h'⟩ | ⟨h, -, -⟩)
      · rw [hplan] at h
        cases h
      · cases hplan.symm.trans h
        rw [hdone] at h'
        cases h'
      · cases hplan.symm.trans h
        rw [hdone] at h'
        cases h'
      · cases hplan.symm.trans h
        simpa [hnew] using h'
      · exact hspun h
    · have hfresh := Bool.not_eq_true _ ▸ hdone
      rw [if_neg hdone]
      cases hroute : harvestRoute w (row.get "change_kind".toList) with
      | none =>
        have hnew : newEntry w old row r store = none := by
          rw [newEntry, if_pos hb, hplan, Option.bind_some, if_neg hdone, hroute]
          rfl
        rw [hnew]
        exact ⟨(List.append_nil _).symm,
          .inl ⟨.unroutable hb hplan hfresh (harvestRoute_eq_none_iff.mp hroute), _, rfl⟩⟩
      | some lesson =>
        dsimp only
        by_cases happend : w.appendOk store row (w.harvestKey planId r.id) = true
        · have hnew : newEntry w old row r store = some ⟨lesson, w.harvestKey planId r.id⟩ := by
            rw [newEntry, if_pos hb, hplan, Option.bind_some, if_neg hdone, hroute,
              Option.bind_some, if_pos happend]
          rw [if_pos happend]
          refine ⟨by rw [hnew]; rfl, hlocate (store ++ [⟨lesson, w.harvestKey planId r.id⟩]) _
            (by rw [hnew]; rfl) ?_ (fun found h => by rw [h]) fun h => by rw [h]⟩
          rintro (⟨-, h⟩ | ⟨-, -, -, h⟩ | ⟨-, h, -, h'⟩ | ⟨-, h, h'⟩ | ⟨h, -, -⟩)
          · rw [hplan] at h
            cases h
          · rw [harvestRoute_eq_none_iff.mpr h] at hroute
            cases hroute
          · cases hplan.symm.trans h
            rw [happend] at h'
            cases h'
          · cases hplan.symm.trans h
            simpa [hnew] using h'
          · exact hspun h
        · have hnew : newEntry w old row r store = none := by
            rw [newEntry, if_pos hb, hplan, Option.bind_some, if_neg hdone, hroute,
              Option.bind_some, if_neg happend]
          rw [if_neg happend, hnew]
          exact ⟨(List.append_nil _).symm,
            .inl ⟨.notAppended hb hplan hfresh (Bool.not_eq_true _ ▸ happend), _, rfl⟩⟩

/-- A row is spun off to a file that exists. -/
theorem dispatchSpunOff_spec (hb : r.disposes "backlogged".toList = false)
    (hs : r.disposes "spun_off".toList = true) :
    RouteRefused w old row r store ∧
        (∃ e, dispatchSpunOff E w r.id (r.get "disposition_ref".toList) = .error e) ∨
      ¬ RouteRefused w old row r store ∧
        dispatchSpunOff E w r.id (r.get "disposition_ref".toList) =
          .ok (recordedRef w old row r store) := by
  have hbacklogged : ∀ {P : Prop}, r.disposes "backlogged".toList = true → P := fun h => by
    rw [hb] at h
    cases h
  -- the ref recorded is the file the path resolves to, or the ref as given
  have hrecorded : recordedRef w old row r store = match r.get "disposition_ref".toList with
      | .str path => ((w.resolveFile path).map Val.str).getD .null
      | ref => ref := by
    rw [recordedRef, hb, hs]
    rfl
  unfold dispatchSpunOff
  rw [hrecorded]
  cases href : r.get "disposition_ref".toList with
  | str path =>
    have hstripped : strippedStr E (.str path) = strip path := by
      cases path with
      | nil => rfl
      | cons c path => rfl
    dsimp only
    rw [hstripped]
    by_cases hblank : strip path = []
    · rw [if_pos hblank]
      refine .inl ⟨.noFile hb hs fun p hp => .inl ?_, _, rfl⟩
      cases href.symm.trans hp
      exact hblank
    · rw [if_neg hblank]
      cases hfile : w.resolveFile path with
      | none =>
        refine .inl ⟨.noFile hb hs fun p hp => .inr ?_, _, rfl⟩
        cases href.symm.trans hp
        exact hfile
      | some found =>
        refine .inr ⟨?_, rfl⟩
        rintro (⟨h, -⟩ | ⟨h, -, -, -⟩ | ⟨h, -, -, -⟩ | ⟨h, -, -⟩ | ⟨-, -, h⟩)
        · exact hbacklogged h
        · exact hbacklogged h
        · exact hbacklogged h
        · exact hbacklogged h
        · rcases h path href with h | h
          · exact hblank h
          · rw [hfile] at h
            cases h
  -- a ref that is no text names no file
  | _ =>
    refine .inl ⟨.noFile hb hs fun p hp => ?_, ?_⟩
    · rw [href] at hp
      cases hp
    · dsimp only
      split_ifs <;> exact ⟨_, rfl⟩

variable (E w old row r store) in
/-- What routing an entry leaves and returns. -/
theorem effectiveRef_spec : (effectiveRef E w row r old store).2 =
      store ++ (newEntry w old row r store).toList ∧
    (RouteRefused w old row r store ∧ (∃ e, (effectiveRef E w row r old store).1 = .error e) ∨
      ¬ RouteRefused w old row r store ∧
        (effectiveRef E w row r old store).1 = .ok (recordedRef w old row r store)) := by
  rw [effectiveRef]
  by_cases hb : r.disposes "backlogged".toList = true
  · rw [if_pos hb]
    exact dispatchBacklogged_spec hb
  · have hnew : newEntry w old row r store = none := by rw [newEntry, if_neg hb]
    have hstore : store = store ++ (newEntry w old row r store).toList := by rw [hnew]; simp
    rw [if_neg hb]
    by_cases hs : r.disposes "spun_off".toList = true
    · rw [if_pos hs]
      exact ⟨hstore, dispatchSpunOff_spec (Bool.not_eq_true _ ▸ hb) hs⟩
    · rw [if_neg hs]
      refine ⟨hstore, .inr ⟨?_, ?_⟩⟩
      · rintro (⟨h, -⟩ | ⟨h, -, -, -⟩ | ⟨h, -, -, -⟩ | ⟨h, -, -⟩ | ⟨-, h, -⟩)
        · exact hb h
        · exact hb h
        · exact hb h
        · exact hb h
        · exact hs h
      · rw [recordedRef, if_neg hb, if_neg hs]

end Entry

/-! ### A batch, entry by entry -/

section Batch

variable (E w) (old : Text) (rows : List Val) (receipts : List (Val × Text))

/-- The row of an entry with its disposition. -/
def entryRow (r : Params) : Dict := disposeRow r (rowOf rows r)

/-- The store behind some entries. -/
def storeBehind (batch : Batch) (store : Store) : Store :=
  batch.foldl (fun s r => s ++ (newEntry w old (entryRow rows r) r s).toList) store

/-- The entries are all routed. -/
def Routed (batch : Batch) (store : Store) : Prop :=
  ∀ front r back, batch = front ++ r :: back →
    ¬ RouteRefused w old (entryRow rows r) r (storeBehind w old rows front store)

/-- The row of an entry as closed, when the store is as the entries in front leave it. -/
def rowAsClosed (r : Params) (store : Store) : Dict :=
  (closeRow E w (openGateRows E old) receipts r (recordedRef w old (entryRow rows r) r store)
    (entryRow rows r)).1

/-- Each row of the batch is valid as closed, and so is every other row under an id of the batch. -/
structure ClosedValid (batch : Batch) (store : Store) : Prop where
  closed : ∀ front r back, batch = front ++ r :: back → validRow E (planContext E old)
    (rowAsClosed E w old rows receipts r (storeBehind w old rows front store)) = true
  other : ∀ i row, rows[i]? = some (.map row) → (∀ r ∈ batch, lastWithId r.id rows ≠ some i) →
    (∃ r ∈ batch, (rowId row).pyEq r.id = true) → validRow E (planContext E old) row = true

/-- Something is refused after the store has taken an entry: an entry that cannot be routed, the
first of the batch, or a row that is not valid as closed. -/
inductive RefusedAfterAppend (batch : Batch) (store : Store) : Prop
  | entry {front back : Batch} {r : Params} : batch = front ++ r :: back →
    Routed w old rows front store →
      RouteRefused w old (entryRow rows r) r (storeBehind w old rows front store) →
        storeBehind w old rows (front ++ [r]) store ≠ store → RefusedAfterAppend batch store
  | row : Routed w old rows batch store → ¬ ClosedValid E w old rows receipts batch store →
    storeBehind w old rows batch store ≠ store → RefusedAfterAppend batch store

variable {E w old rows receipts} {batch : Batch} {store : Store}

/-- A batch is routed row after row, each from the store the rows before it leave. -/
theorem routed_cons_iff {r : Params} {rest : Batch} : Routed w old rows (r :: rest) store ↔
    ¬ RouteRefused w old (entryRow rows r) r store ∧ Routed w old rows rest
      (store ++ (newEntry w old (entryRow rows r) r store).toList) := by
  constructor
  · exact fun h => ⟨h [] r rest rfl, fun front s back hs => h (r :: front) s back (by rw [hs]; rfl)⟩
  · rintro ⟨hr, hrest⟩ front s back hs
    cases front with
    | nil =>
      obtain ⟨rfl, -⟩ := List.cons.inj hs
      exact hr
    | cons t front =>
      obtain ⟨rfl, hback⟩ := List.cons.inj hs
      exact hrest front s back hback

variable (w old rows) in
/-- Either all entries are routed, or a first one is refused. -/
theorem routed_or_refused (batch : Batch) (store : Store) :
    Routed w old rows batch store ∨ ∃ front r back, batch = front ++ r :: back ∧
      Routed w old rows front store ∧
        RouteRefused w old (entryRow rows r) r (storeBehind w old rows front store) := by
  induction batch generalizing store with
  | nil =>
    refine .inl fun front r back h => ?_
    cases front <;> cases h
  | cons r rest ih =>
    by_cases hr : RouteRefused w old (entryRow rows r) r store
    · refine .inr ⟨[], r, rest, rfl, fun front s back h => ?_, hr⟩
      cases front <;> cases h
    · rcases ih (store ++ (newEntry w old (entryRow rows r) r store).toList) with
        hrest | ⟨front, s, back, rfl, hfront, hs⟩
      · exact .inl (routed_cons_iff.mpr ⟨hr, hrest⟩)
      · exact .inr ⟨r :: front, s, back, rfl, routed_cons_iff.mpr ⟨hr, hfront⟩, hs⟩

/-! ### The routing loop -/

/-- The tags of the rows. -/
def tags (rows : List Tagged) : List Nat := rows.map (·.1)

/-- Editing a row leaves the tags. -/
theorem tags_editTagged (i : Nat) (f : Dict → Dict) (tagged : List Tagged) :
    tags (editTagged i f tagged) = tags tagged := by
  rw [tags, tags, editTagged, List.map_map]
  refine List.map_congr_left fun t _ => ?_
  rw [Function.comp_apply]
  split_ifs <;> rfl

/-- An edited row is the edit of the row. -/
theorem taggedRow_editTagged_self {i : Nat} (f : Dict → Dict) {tagged : List Tagged}
    (hi : i ∈ tags tagged) :
    taggedRow i (editTagged i f tagged) = f (taggedRow i tagged) := by
  induction tagged with
  | nil => cases hi
  | cons t tagged ih =>
    rw [taggedRow, taggedRow, editTagged, List.map_cons, List.find?_cons, List.find?_cons]
    by_cases ht : t.1 = i
    · simp [ht]
    · rw [if_neg ht]
      simp only [ht, decide_false]
      refine ih ((List.mem_cons.mp hi).resolve_left fun h => ht h.symm)

/-- Editing one row leaves the others. -/
theorem taggedRow_editTagged_of_ne {i j : Nat} (hij : i ≠ j) (f : Dict → Dict)
    (tagged : List Tagged) : taggedRow j (editTagged i f tagged) = taggedRow j tagged := by
  induction tagged with
  | nil => rfl
  | cons t tagged ih =>
    rw [taggedRow, taggedRow, editTagged, List.map_cons, List.find?_cons, List.find?_cons]
    by_cases ht : t.1 = i
    · have hne : ¬ t.1 = j := fun h => hij (ht.symm.trans h)
      simp only [ht, if_true, hij, decide_false]
      exact ih
    · by_cases htj : t.1 = j
      · simp [htj, Ne.symm hij]
      · simp only [ht, if_false, htj, decide_false]
        exact ih

/-- The entries and the loaded rows as the loop follows them: each entry has a row of its own, and
that row stands under its tag with its disposition. -/
structure Placed (rows : List Val) (batch : Batch) (tagged : List Tagged) : Prop where
  found : ∀ r ∈ batch, ∃ i ∈ tags tagged, lastWithId r.id rows = some i ∧
    taggedRow i tagged = entryRow rows r
  apart : batch.Pairwise fun a b => lastWithId a.id rows ≠ lastWithId b.id rows

/-- Behind its first request a batch still finds its rows. -/
theorem Placed.tail {r : Params} {rest : Batch} {tagged : List Tagged} {i : Nat}
    (h : Placed rows (r :: rest) tagged) (hi : lastWithId r.id rows = some i) (row : Dict) :
    Placed rows rest (editTagged i (fun _ => row) tagged) := by
  obtain ⟨hr, hrest⟩ := List.pairwise_cons.mp h.apart
  refine ⟨fun s hs => ?_, hrest⟩
  obtain ⟨j, hj, hplace, hrow⟩ := h.found s (List.mem_cons_of_mem r hs)
  have hij : i ≠ j := fun hij => hr s hs (by rw [hi, hplace, hij])
  exact ⟨j, by rwa [tags_editTagged], hplace, by rwa [taggedRow_editTagged_of_ne hij]⟩

variable (E receipts) in
/-- A batch that is routed throughout: each row is closed, with the store as the entries in front
leave it, and the other rows are as before. -/
theorem dispatchRows_of_routed {tagged : List Tagged} (hplaced : Placed rows batch tagged)
    (hrouted : Routed w old rows batch store) (evidence : List (Val × Text)) :
    ∃ tagged' evidence', dispatchRows E w old rows (openGateRows E old) receipts batch tagged
        evidence store = (.ok (tagged', evidence'), storeBehind w old rows batch store) ∧
      tags tagged' = tags tagged ∧
      (∀ front r back i, batch = front ++ r :: back → lastWithId r.id rows = some i →
        taggedRow i tagged' =
          rowAsClosed E w old rows receipts r (storeBehind w old rows front store)) ∧
      ∀ i, (∀ r ∈ batch, lastWithId r.id rows ≠ some i) →
        taggedRow i tagged' = taggedRow i tagged := by
  -- each entry closes its own row, and the later ones leave it
  induction batch generalizing tagged evidence store with
  | nil =>
    refine ⟨tagged, evidence, rfl, rfl, fun front r back i h => ?_, fun _ _ => rfl⟩
    cases front <;> cases h
  | cons r rest ih =>
    obtain ⟨i, hi, hplace, hrow⟩ := hplaced.found r (List.mem_cons_self ..)
    obtain ⟨hr, hrest⟩ := routed_cons_iff.mp hrouted
    obtain ⟨hstore, hres⟩ := effectiveRef_spec E w old (entryRow rows r) r store
    obtain ⟨-, hok⟩ := hres.resolve_left fun h => hr h.1
    rw [dispatchRows, hplace]
    dsimp only
    rw [hrow]
    rcases heff : effectiveRef E w (entryRow rows r) r old store with ⟨res, s⟩
    rw [heff] at hstore hok
    obtain rfl : s = _ := hstore
    obtain rfl : res = _ := hok
    dsimp only
    obtain ⟨tagged', evidence', hrun, htags, hclosed, hothers⟩ :=
      ih (hplaced.tail hplace _) hrest _
    refine ⟨tagged', evidence', hrun, htags.trans (tags_editTagged ..), ?_, ?_⟩
    · intro front s back j hbatch hj
      cases front with
      | nil =>
        obtain ⟨rfl, rfl⟩ := List.cons.inj hbatch
        obtain rfl := Option.some.inj (hplace.symm.trans hj)
        have hapart := (List.pairwise_cons.mp hplaced.apart).1
        rw [hothers i fun t ht h => hapart t ht (hplace.trans h.symm),
          taggedRow_editTagged_self _ hi]
        rfl
      | cons t front =>
        obtain ⟨rfl, hback⟩ := List.cons.inj hbatch
        exact hclosed front s back j hback hj
    · intro j hj
      rw [hothers j fun s hs => hj s (List.mem_cons_of_mem r hs)]
      refine taggedRow_editTagged_of_ne (fun hij => ?_) _ _
      exact hj r (List.mem_cons_self ..) (hij ▸ hplace)

variable (E receipts) in
/-- A batch whose first refused entry is this one. -/
theorem dispatchRows_of_refused {front back : Batch} {r : Params} {tagged : List Tagged}
    (hplaced : Placed rows (front ++ r :: back) tagged) (hrouted : Routed w old rows front store)
    (hr : RouteRefused w old (entryRow rows r) r (storeBehind w old rows front store))
    (evidence : List (Val × Text)) :
    ∃ e, dispatchRows E w old rows (openGateRows E old) receipts (front ++ r :: back) tagged
      evidence store = (.error e, storeBehind w old rows (front ++ [r]) store) := by
  induction front generalizing tagged evidence store with
  | nil =>
    obtain ⟨i, -, hplace, hrow⟩ := hplaced.found r (List.mem_cons_self ..)
    obtain ⟨hstore, hres⟩ := effectiveRef_spec E w old (entryRow rows r) r store
    obtain ⟨-, e, he⟩ := hres.resolve_right fun h => h.1 hr
    refine ⟨e, ?_⟩
    rw [List.nil_append, dispatchRows, hplace]
    dsimp only
    rw [hrow]
    rcases heff : effectiveRef E w (entryRow rows r) r old store with ⟨res, s⟩
    rw [heff] at hstore he
    obtain rfl : s = _ := hstore
    obtain rfl : res = _ := he
    rfl
  | cons t front ih =>
    obtain ⟨i, -, hplace, hrow⟩ := hplaced.found t (List.mem_cons_self ..)
    obtain ⟨ht, hfront⟩ := routed_cons_iff.mp hrouted
    obtain ⟨hstore, hres⟩ := effectiveRef_spec E w old (entryRow rows t) t store
    obtain ⟨-, hok⟩ := hres.resolve_left fun h => ht h.1
    rw [List.cons_append, dispatchRows, hplace]
    dsimp only
    rw [hrow]
    rcases heff : effectiveRef E w (entryRow rows t) t old store with ⟨res, s⟩
    rw [heff] at hstore hok
    obtain rfl : s = _ := hstore
    obtain rfl : res = _ := hok
    exact ih (hplaced.tail hplace _) hfront hr _

end Batch

/-! ### The rows in front of the loop -/

section Rows

variable {batch : Batch} {old : Text} {p : Prepared} {rows : List Val}

/-- The entries of an accepted batch have rows of their own. -/
theorem apart_of_accepts (haccepts : resolveAccepts E batch = true)
    (hrows : unhashableId rows = false) (hfound : ∀ r ∈ batch, (lastWithId r.id rows).isSome = true) :
    batch.Pairwise fun a b => lastWithId a.id rows ≠ lastWithId b.id rows := by
  simp only [resolveAccepts, Bool.and_eq_true, Option.isNone_iff_eq_none, List.all_eq_true]
    at haccepts
  obtain ⟨⟨-, hhash⟩, hdup⟩ := haccepts
  have hpairs := List.pairwise_map.mp (duplicateId_eq_none hdup).2
  refine hpairs.imp_of_mem fun {a b} ha hb hne heq => ?_
  obtain ⟨i, hi⟩ := Option.isSome_iff_exists.mp (hfound a ha)
  exact lastWithId_ne_of_pyEq hrows (hhash b hb) hne hi (heq ▸ hi)

/-- The first writes put each disposition onto its row and leave the other rows. -/
theorem getElem?_disposeRows
    (hapart : batch.Pairwise fun a b => lastWithId a.id rows ≠ lastWithId b.id rows) (j : Nat) :
    (∀ r ∈ batch, lastWithId r.id rows = some j →
      (disposeRows batch rows)[j]? = (rows[j]?).map (editRow (disposeRow r))) ∧
    ((∀ r ∈ batch, lastWithId r.id rows ≠ some j) → (disposeRows batch rows)[j]? = rows[j]?) := by
  -- the rows are looked up in the loaded list while another one is edited
  have hfold : ∀ (f : List Val → Params → List Val),
      (∀ acc r i, lastWithId r.id rows = some i → f acc r = modifyRow acc i (disposeRow r)) →
      (∀ acc r, lastWithId r.id rows = none → f acc r = acc) →
      ∀ (l : Batch) (acc : List Val),
      (l.Pairwise fun a b => lastWithId a.id rows ≠ lastWithId b.id rows) →
      (∀ r ∈ l, lastWithId r.id rows = some j →
        (l.foldl f acc)[j]? = (acc[j]?).map (editRow (disposeRow r))) ∧
      ((∀ r ∈ l, lastWithId r.id rows ≠ some j) → (l.foldl f acc)[j]? = acc[j]?) := by
    intro f hsome hnone l
    induction l with
    | nil => exact fun acc _ => ⟨fun r hr => (by cases hr), fun _ => rfl⟩
    | cons r l ih =>
      intro acc hl
      obtain ⟨hr, hl⟩ := List.pairwise_cons.mp hl
      rw [List.foldl_cons]
      cases hplace : lastWithId r.id rows with
      | none =>
        rw [hnone acc r hplace]
        obtain ⟨hin, hout⟩ := ih acc hl
        refine ⟨fun s hs hj => ?_, fun hno => hout fun s hs => hno s (List.mem_cons_of_mem r hs)⟩
        rcases List.mem_cons.mp hs with rfl | hs
        · rw [hplace] at hj
          cases hj
        · exact hin s hs hj
      | some i =>
        rw [hsome acc r i hplace]
        obtain ⟨hin, hout⟩ := ih (modifyRow acc i (disposeRow r)) hl
        refine ⟨fun s hs hj => ?_, fun hno => ?_⟩
        · rcases List.mem_cons.mp hs with rfl | hs
          · cases hplace.symm.trans hj
            rw [hout fun t ht h => hr t ht (hplace.trans h.symm), getElem?_modifyRow]
            simp only [if_true]
          · have hij : ¬ i = j := fun hij => hr s hs (by rw [hplace, hj, hij])
            rw [hin s hs hj, getElem?_modifyRow]
            simp only [hij, if_false, Option.map_id']
        · have hij : ¬ i = j := fun hij => hno r (List.mem_cons_self ..) (hplace.trans (by rw [hij]))
          rw [hout fun s hs => hno s (List.mem_cons_of_mem r hs), getElem?_modifyRow]
          simp only [hij, if_false, Option.map_id']
  exact hfold _ (fun acc r i h => by rw [h]) (fun acc r h => by rw [h]) batch rows hapart

/-- A row stands under its tag. -/
theorem taggedRow_of_mem {tagged : List Tagged} (hnodup : (tags tagged).Nodup) {t : Tagged}
    (ht : t ∈ tagged) : taggedRow t.1 tagged = t.2 := by
  induction tagged with
  | nil => cases ht
  | cons s tagged ih =>
    obtain ⟨hs, hnodup⟩ := List.nodup_cons.mp hnodup
    rw [taggedRow, List.find?_cons]
    rcases List.mem_cons.mp ht with rfl | ht
    · simp
    · have hne : ¬ s.1 = t.1 := fun h => hs (List.mem_map.mpr ⟨t, ht, h.symm⟩)
      simp only [hne, decide_false]
      exact ih hnodup ht

/-- A tag stands beside its row. -/
theorem mem_of_taggedRow {tagged : List Tagged} {i : Nat} (hnodup : (tags tagged).Nodup)
    (hi : i ∈ tags tagged) : (i, taggedRow i tagged) ∈ tagged := by
  obtain ⟨t, ht, rfl⟩ := List.mem_map.mp hi
  rw [taggedRow_of_mem hnodup ht]
  exact ht

/-- The tagged rows in front of the loop. -/
structure Started (batch : Batch) (rows : List Val) (tagged : List Tagged) : Prop where
  nodup : (tags tagged).Nodup
  placed : Placed rows batch tagged
  row_of_mem : ∀ i ∈ tags tagged, ∃ row, rows[i]? = some (.map row)
  mem_of_row : ∀ i row, rows[i]? = some (.map row) → i ∈ tags tagged
  untouched : ∀ i row, rows[i]? = some (.map row) → (∀ r ∈ batch, lastWithId r.id rows ≠ some i) →
    taggedRow i tagged = row

/-- A batch that was prepared starts on the rows of the plan. -/
theorem started_of_prepareResolve (haccepts : resolveAccepts E batch = true)
    (h : prepareResolve E w batch old = .ok p) : Started batch p.rows p.tagged := by
  obtain ⟨-, -, hchecks, htagged⟩ := prepareResolve_eq_ok h
  obtain ⟨hrows, hfound, -⟩ := resolveChecks_eq_ok hchecks
  obtain ⟨ds, hds, htagged⟩ := repositionTagged_eq_ok htagged
  have hapart := apart_of_accepts haccepts hrows hfound
  have hperm : p.tagged.Perm (ds.zipIdx.map fun d => (d.2, d.1)) :=
    htagged ▸ Ranked.sort_perm _ _
  have hmem : ∀ {i : Nat} {row : Dict}, (i, row) ∈ p.tagged ↔ ds[i]? = some row := by
    intro i row
    rw [hperm.mem_iff, List.mem_map]
    constructor
    · rintro ⟨d, hd, heq⟩
      cases heq
      exact List.mem_zipIdx_iff_getElem?.mp hd
    · exact fun hi => ⟨(row, i), List.mem_zipIdx_iff_getElem?.mpr hi, rfl⟩
  have hnodup : (tags p.tagged).Nodup := by
    have htags : (ds.zipIdx.map fun d => (d.2, d.1)).map (·.1) = List.range' 0 ds.length := by
      rw [List.map_map, ← List.zipIdx_map_snd]
      rfl
    rw [tags, (hperm.map (·.1)).nodup_iff, htags]
    exact List.nodup_range'
  have hdisposed : ∀ j : Nat, (disposeRows batch p.rows)[j]? = (ds[j]?).map .map := by
    intro j
    rw [hds, List.getElem?_map]
  have htag : ∀ {i : Nat}, i ∈ tags p.tagged ↔ ∃ row, ds[i]? = some row := by
    intro i
    constructor
    · intro hi
      exact ⟨_, hmem.mp (mem_of_taggedRow hnodup hi)⟩
    · rintro ⟨row, hi⟩
      exact List.mem_map_of_mem (f := fun t : Tagged => t.1) (hmem.mpr hi)
  -- a tag stands at a row of the loaded list
  have hloaded : ∀ {i : Nat}, (∃ row, ds[i]? = some row) ↔ ∃ row, p.rows[i]? = some (.map row) := by
    intro i
    obtain ⟨hin, hout⟩ := getElem?_disposeRows hapart i
    by_cases hr : ∃ r ∈ batch, lastWithId r.id p.rows = some i
    · obtain ⟨r, hr, hplace⟩ := hr
      obtain ⟨row, hrow, -⟩ := hasId_of_lastWithId hplace
      have hi := hin r hr hplace
      rw [hdisposed, hrow, Option.map_some, Option.map_eq_some_iff] at hi
      obtain ⟨row', hrow', -⟩ := hi
      exact iff_of_true ⟨row', hrow'⟩ ⟨row, hrow⟩
    · have hi := hout fun r hr' h => hr ⟨r, hr', h⟩
      rw [hdisposed] at hi
      rw [← hi]
      cases ds[i]? with
      | none => simp
      | some row => exact iff_of_true ⟨row, rfl⟩ ⟨row, rfl⟩
  have hrow : ∀ {i : Nat} {row : Dict}, ds[i]? = some row → taggedRow i p.tagged = row :=
    fun hi => taggedRow_of_mem hnodup (hmem.mpr hi)
  refine ⟨hnodup, ⟨fun r hr => ?_, hapart⟩, fun i hi => hloaded.mp (htag.mp hi),
    fun i row hi => htag.mpr (hloaded.mpr ⟨row, hi⟩), fun i row hi hno => ?_⟩
  · obtain ⟨i, hplace⟩ := Option.isSome_iff_exists.mp (hfound r hr)
    obtain ⟨row, hi, -⟩ := hasId_of_lastWithId hplace
    have hd := (getElem?_disposeRows hapart i).1 r hr hplace
    rw [hdisposed, hi, Option.map_some, Option.map_eq_some_iff] at hd
    obtain ⟨row', hrow', heq⟩ := hd
    cases heq
    refine ⟨i, htag.mpr ⟨_, hrow'⟩, hplace, ?_⟩
    rw [hrow hrow', entryRow, rowOf, hplace, Option.bind_some, hi]
    rfl
  · have hd := (getElem?_disposeRows hapart i).2 hno
    rw [hdisposed, hi, Option.map_eq_some_iff] at hd
    obtain ⟨row', hrow', heq⟩ := hd
    cases heq
    exact hrow hrow'

end Rows

section Laws

variable {old : Text} {batch : Batch} {p : Prepared}

/-- The touched rows pass the row validator. -/
def TouchedValid (E : Engine) (old : Text) (batch : Batch) (rows : List Tagged) : Prop :=
  ∀ t ∈ rows, (batch.any fun r => (rowId t.2).pyEq r.id) = true →
    validRow E (planContext E old) t.2 = true

/-- The validation and the patch at the end succeed exactly on valid touched rows. -/
theorem finishResolve_isOk_iff {tagged : List Tagged} {evidence : List (Val × Text)}
    (hrows : unhashableId p.rows = false) (hids : HashableIds tagged) :
    (∃ new, finishResolve E batch old p tagged evidence = .ok new) ↔
      TouchedValid E old batch tagged := by
  have hmap : untag tagged = (tagged.map (·.2)).map .map := by
    rw [untag, List.map_map]
    rfl
  have hids' : ∀ row ∈ tagged.map (·.2), (rowId row).hashable = true := by
    intro row hrow
    obtain ⟨t, ht, rfl⟩ := List.mem_map.mp hrow
    exact hids t ht
  have hvalid := validateAll_isOk_iff (E := E) (planContext E old) (batch.map (·.id)) hids'
  rw [← hmap] at hvalid
  have htouched : TouchedValid E old batch tagged ↔ ∀ row ∈ tagged.map (·.2),
      ((batch.map (·.id)).any fun id => (rowId row).pyEq id) = true →
        validRow E (planContext E old) row = true := by
    simp only [TouchedValid, List.forall_mem_map, List.any_map]
    rfl
  rw [htouched, ← hvalid]
  constructor
  · rintro ⟨new, h⟩
    obtain ⟨ids, hids, -⟩ := bind_eq_ok.mp h
    exact ⟨ids, hids⟩
  · rintro ⟨ids, hids⟩
    obtain ⟨newBody, hnew⟩ := exists_patchBody (E := E) hrows p.body (untag tagged)
    refine ⟨_, bind_eq_ok.mpr ⟨ids, hids, bind_eq_ok.mpr ⟨newBody, ?_, rfl⟩⟩⟩
    rw [patched, hnew]

private theorem rowId_closeRow (f : List Text) (c : List (Val × Text)) (r : Params) (ref : Val)
    (row : Dict) : rowId (closeRow E w f c r ref row).1 = rowId row :=
  keeps_closeRow (fun _ hk => Dict.get_set_of_ne fun hid => absurd (hid ▸ hk) (by decide)) f c r ref
    row

/-- What the loop leaves of a routed batch is valid exactly when the rows are as closed. -/
theorem touchedValid_iff {store : Store} (hstarted : Started batch p.rows p.tagged)
    (hhash : unhashableId p.rows = false) {tagged : List Tagged} (htags : tags tagged = tags p.tagged)
    (hclosed : ∀ front r back i, batch = front ++ r :: back → lastWithId r.id p.rows = some i →
      taggedRow i tagged =
        rowAsClosed E w old p.rows p.receipts r (storeBehind w old p.rows front store))
    (hothers : ∀ i, (∀ r ∈ batch, lastWithId r.id p.rows ≠ some i) →
      taggedRow i tagged = taggedRow i p.tagged) :
    HashableIds tagged ∧
      (TouchedValid E old batch tagged ↔ ClosedValid E w old p.rows p.receipts batch store) := by
  have hnodup : (tags tagged).Nodup := htags ▸ hstarted.nodup
  -- the dispatch leaves the ids as they were
  have hid : ∀ {i : Nat} {row : Dict}, p.rows[i]? = some (.map row) →
      rowId (taggedRow i tagged) = rowId row := by
    intro i row hi
    by_cases hr : ∃ r ∈ batch, lastWithId r.id p.rows = some i
    · obtain ⟨r, hr, hplace⟩ := hr
      obtain ⟨front, back, hbatch⟩ := List.append_of_mem hr
      rw [hclosed front r back i hbatch hplace, rowAsClosed, rowId_closeRow, entryRow,
        rowId_disposeRow, rowOf, hplace, Option.bind_some, hi]
      rfl
    · have hno := fun r hr' h => hr ⟨r, hr', h⟩
      rw [hothers i hno, hstarted.untouched i row hi hno]
  refine ⟨fun t ht => ?_, fun h => ⟨fun front r back hbatch => ?_, fun i row hi hno htouched => ?_⟩,
    fun h t ht htouched => ?_⟩
  · obtain ⟨row, hi⟩ := hstarted.row_of_mem t.1 (htags ▸ List.mem_map_of_mem ht)
    rw [← taggedRow_of_mem hnodup ht, hid hi]
    have := List.any_eq_false.mp hhash _ (List.mem_of_getElem? hi)
    simpa using this
  · have hr : r ∈ batch := by
      rw [hbatch]
      exact List.mem_append_right _ (List.mem_cons_self ..)
    obtain ⟨i, hi, hplace, -⟩ := hstarted.placed.found r hr
    obtain ⟨row, hrow, hpy⟩ := hasId_of_lastWithId hplace
    have hmem := mem_of_taggedRow hnodup (htags ▸ hi)
    have hvalid := h _ hmem (List.any_eq_true.mpr ⟨r, hr, by rw [hid hrow]; exact hpy⟩)
    rwa [hclosed front r back i hbatch hplace] at hvalid
  · have hmem := mem_of_taggedRow hnodup (htags ▸ hstarted.mem_of_row i row hi)
    have hvalid := h _ hmem (List.any_eq_true.mpr (by rw [hid hi]; exact htouched))
    rwa [hothers i hno, hstarted.untouched i row hi hno] at hvalid
  · obtain ⟨i, row⟩ := t
    have hrow := taggedRow_of_mem hnodup ht
    dsimp only at hrow htouched ⊢
    -- a row touched is one an entry closes, or another with the same id
    by_cases hr : ∃ r ∈ batch, lastWithId r.id p.rows = some i
    · obtain ⟨r, hr, hplace⟩ := hr
      obtain ⟨front, back, hbatch⟩ := List.append_of_mem hr
      rw [← hrow, hclosed front r back i hbatch hplace]
      exact h.closed front r back hbatch
    · have hno := fun r hr' h => hr ⟨r, hr', h⟩
      obtain ⟨row', hi⟩ := hstarted.row_of_mem i (htags ▸ List.mem_map_of_mem ht)
      rw [hothers i hno, hstarted.untouched i row' hi hno] at hrow
      subst hrow
      exact h.other i row' hi hno (List.any_eq_true.mp htouched)

/-- A refused batch leaves the harvest store as it was if and only if nothing is refused after the
store has taken an entry: at the first entry that cannot be routed, that one included, or at a row
that is not valid as closed. -/
theorem resolve_atomic_iff (batch : Batch) (old : Text) (store : Store) :
    (∀ e store', resolve E w batch old store = (.error e, store') → store' = store) ↔
      ∀ p, resolveAccepts E batch = true → prepareResolve E w batch old = .ok p →
        ¬ RefusedAfterAppend E w old p.rows p.receipts batch store := by
  by_cases haccepts : resolveAccepts E batch = true
  · cases hprep : prepareResolve E w batch old with
    | error e =>
      rw [resolve, haccepts, hprep]
      simp only [Bool.not_true, Bool.false_eq_true, if_false, Prod.mk.injEq]
      constructor
      · intro _ p _ hp
        cases hp
      · rintro - e store' ⟨-, rfl⟩
        rfl
    | ok p =>
      have hstarted := started_of_prepareResolve haccepts hprep
      obtain ⟨hhash, -⟩ := prepareResolve_hashable hprep
      -- behind the preparation, `resolve` is the dispatch and the finish
      have hrunError : ∀ {e store'}, dispatchRows E w old p.rows (openGateRows E old) p.receipts
          batch p.tagged [] store = (.error e, store') →
            resolve E w batch old store = (.error e, store') := by
        intro e store' h
        rw [resolve, haccepts, hprep]
        simp only [Bool.not_true, Bool.false_eq_true, if_false, h]
      have hrunOk : ∀ {tagged evidence store'}, dispatchRows E w old p.rows (openGateRows E old)
          p.receipts batch p.tagged [] store = (.ok (tagged, evidence), store') →
            resolve E w batch old store =
              (finishResolve E batch old p tagged evidence, store') := by
        intro tagged evidence store' h
        rw [resolve, haccepts, hprep]
        simp only [Bool.not_true, Bool.false_eq_true, if_false, h]
      -- an entry whose route is refused leaves the entries in front of it appended
      have hrefused : ∀ {front r back}, batch = front ++ r :: back →
          Routed w old p.rows front store →
          RouteRefused w old (entryRow p.rows r) r (storeBehind w old p.rows front store) →
          ∃ e, resolve E w batch old store =
            (.error e, storeBehind w old p.rows (front ++ [r]) store) := by
        rintro front r back rfl hfront hr
        obtain ⟨e, he⟩ := dispatchRows_of_refused E p.receipts hstarted.placed hfront hr []
        exact ⟨e, hrunError he⟩
      -- either every entry is routed, or there is a first one that is not
      rcases routed_or_refused w old p.rows batch store with
        hrouted | ⟨front, r, back, hbatch, hfront, hr⟩
      · obtain ⟨tagged, evidence, hdispatch, htags, hclosed, hothers⟩ :=
          dispatchRows_of_routed E p.receipts hstarted.placed hrouted []
        have hrun := hrunOk hdispatch
        obtain ⟨hids, hvalid⟩ := touchedValid_iff hstarted hhash htags hclosed hothers
        -- all routed: only the rows of the written plan can still be refused
        have hfinish : (∃ new, finishResolve E batch old p tagged evidence = .ok new) ↔
            ClosedValid E w old p.rows p.receipts batch store :=
          (finishResolve_isOk_iff hhash hids).trans hvalid
        constructor
        · rintro h q - hq hbad
          cases hq
          rcases hbad with ⟨hbatch, -, hr, -⟩ | ⟨-, hinvalid, hgrown⟩
          · exact hrouted _ _ _ hbatch hr
          · cases hfin : finishResolve E batch old p tagged evidence with
            | ok new => exact hinvalid (hfinish.mp ⟨new, hfin⟩)
            | error e => exact hgrown (h e _ (by rw [hrun, hfin]))
        · intro h e store' herror
          rw [hrun, Prod.mk.injEq] at herror
          obtain ⟨hfin, rfl⟩ := herror
          by_contra hgrown
          refine h p haccepts rfl (.row hrouted (fun hv => ?_) hgrown)
          obtain ⟨new, hnew⟩ := hfinish.mpr hv
          rw [hnew] at hfin
          cases hfin
      · obtain ⟨e, he⟩ := hrefused hbatch hfront hr
        constructor
        · rintro h q - hq hbad
          cases hq
          rcases hbad with ⟨hbatch', hfront', hr', hgrown⟩ | ⟨hrouted, -, -⟩
          · obtain ⟨e', he'⟩ := hrefused hbatch' hfront' hr'
            exact hgrown (h e' _ he')
          · exact hrouted _ _ _ hbatch hr
        · intro h e' store' herror
          rw [he, Prod.mk.injEq] at herror
          obtain ⟨-, rfl⟩ := herror
          by_contra hgrown
          exact h p haccepts rfl (.entry hbatch hfront hr hgrown)
  · rw [resolve, if_pos (by simpa using haccepts)]
    constructor
    · exact fun _ p hacc => absurd hacc haccepts
    · rintro - e store' h
      exact (Prod.mk.inj h).2.symm

end Laws

/-! ### A mixed batch -/

/-- A row of a legacy plan that the PM has ratified. -/
def ratifiedRow (id : Text) : Dict :=
  sampleRow id ['t'] ++ [(.str "pm_approved".toList, .bool true)]

/-- An entry with a detail and a case against it. -/
def routedEntry (id disposition ref : Text) : Params :=
  [("id".toList, .str id), ("disposition".toList, .str disposition),
    ("disposition_ref".toList, .str ref), ("disposition_detail".toList, .str ['d']),
    ("case_against".toList, .str ['c'])]

/-- The first row goes to the harvest store, the second to a file. -/
def mixedBatch : Batch :=
  [routedEntry ['A'] "backlogged".toList [], routedEntry ['B'] "spun_off".toList ['x']]

/-- A world whose store takes every row and in which no file exists. -/
def harvestWorld : World where
  codedShaRefused _ _ := false
  memoReceipts _ _ := some []
  resolveFile _ := none
  verifyDispositionRef _ := none
  today := []
  parsePlanId _ := some ['p']
  harvestKey plan id := plan ++ flatScalar id
  alreadyHarvested store _ key := store.any fun e => e.key == key
  lessonPromoteKinds := []
  queueEligibleKinds := ["doc-edit".toList]
  appendOk _ _ _ := true
  findEvidence store _ key := (store.find? fun e => e.key == key).map (·.key)

/-- The rows of the plan. -/
def ratifiedRows : List Val := [.map (ratifiedRow ['A']), .map (ratifiedRow ['B'])]

/-- The engine on the rows, each by itself, and on the reordered rows. -/
def ratifiedEngine : Engine :=
  flatEngine ([ratifiedRows, (disposeRows mixedBatch ratifiedRows).reverse] ++
    ratifiedRows.map fun v => [v])

/-- The first row is appended to the store; then the second names a file that does not exist, and
the batch is refused. -/
theorem resolve_refused_after_append :
    ∃ (E : Engine) (w : World) (batch : Batch) (old : Text) (store store' : Store) (e : Refusal),
      resolve E w batch old store = (.error e, store') ∧ store' ≠ store := by
  have hrefused : (resolve ratifiedEngine harvestWorld mixedBatch
      (samplePlan (flatDump ratifiedRows).dropLast) []).1.toOption.isNone = true := by
    decide +kernel
  have hstore : (resolve ratifiedEngine harvestWorld mixedBatch
      (samplePlan (flatDump ratifiedRows).dropLast) []).2 ≠ [] := by
    decide +kernel
  rcases hrun : resolve ratifiedEngine harvestWorld mixedBatch
    (samplePlan (flatDump ratifiedRows).dropLast) [] with ⟨e | new, store'⟩
  · rw [hrun] at hstore
    exact ⟨_, _, _, _, _, store', e, hrun, hstore⟩
  · rw [hrun] at hrefused
    cases hrefused

end Spine

end CoordinatorCore
