import CoordinatorCore.BodyBlocks
import CoordinatorCore.Frontmatter.Document
import CoordinatorCore.Spine.Patch
import Mathlib.Algebra.GroupWithZero.Nat

/-!
# The verbs of the task spine

The `mutate` closures of `ops/plan_tasks_mutate.py` for `add-task`, `stamp`, `reopen`,
`depends-on` and `clear-gate`, each a function from the old plan text to the new one or to a
refusal. The refusals a closure raises are told apart by what they name, not by their wording;
`Refusal.crash` is an exception of the interpreter, such as an id that cannot be hashed, and
writes nothing either.

All verbs share one shell (`onSpine`): locate the fence, load the rows, edit them, put the new
body in the place of the old one.
-/

namespace CoordinatorCore

open Text BodyBlocks Frontmatter

namespace Spine

/-- Why a call writes nothing. -/
inductive Refusal
  | request
  | malformed
  | absent
  | notYaml
  | notList
  | duplicateTask (id : Val)
  | duplicateUpdate (id : Val)
  | notFound (id : Val)
  | schemaInvalid (id : Val)
  | notCoded (disposition : Text)
  | selfEdge
  | unknownTarget
  | presentEdge
  | cycle
  | absentEdge
  | noGate
  | severalGates (count : Nat)
  | codedSha
  | deferred (id : Val)
  | groupingNotApproved (grouping : Grouping)
  | digestMismatch (grouping : Grouping)
  | notRatified
  | detailRequired (id : Val)
  | caseAgainstRequired (id : Val)
  | memoReceipt
  | reasonRequired (id : Val)
  | ordering
  | planIdMissing
  | unroutable (id : Val)
  | harvestFailed (id : Val)
  | entryNotLocated (id : Val)
  | refMissing (id : Val)
  | refNotFile (id : Val)
  | crash

/-- The object of a request: its keys are strings. -/
abbrev Params := List (Text × Val)

/-- `params.get(k)`. -/
def Params.get (p : Params) (k : Text) : Val := ((p.find? fun e => e.1 == k).map (·.2)).getD .null

variable (E : Engine)

/-! ### The shell -/

/-- What the row validator reads off the frontmatter. -/
structure PlanContext where
  governed : Bool
  planCreated : Val

/-- `is_governed_plan`. -/
def isGovernedPlan (fm : Dict) : Bool := fm.mem "grouping_approvals".toList

def planContext (text : Text) : PlanContext :=
  match parseFrontmatter E.parseYaml text with
  | some fm => ⟨isGovernedPlan fm, fm.get "created".toList⟩
  | none => ⟨false, .null⟩

mutual

/-- `_non_string_key_errors` reports nothing. -/
def stringKeys : Val → Bool
  | .map entries => stringKeysEntries entries
  | .seq items => stringKeysItems items
  | _ => true
termination_by structural v => v

def stringKeysItems : List Val → Bool
  | [] => true
  | v :: vs => stringKeys v && stringKeysItems vs
termination_by structural vs => vs

def stringKeysEntries : Dict → Bool
  | [] => true
  | e :: es => stringKeysEntry e && stringKeysEntries es
termination_by structural es => es

def stringKeysEntry : Val × Val → Bool
  | (.str _, v) => stringKeys v
  | _ => false
termination_by structural e => e

end

/-- `_validate_row` reports nothing. -/
def validRow (ctx : PlanContext) (row : Dict) : Bool :=
  stringKeys (.map row) && E.rowShapeOk ctx.governed ctx.planCreated row

/-- `_validate_all`: the ids of the invalid rows that the call did not touch. -/
def validateAll (ctx : PlanContext) (touched : List Val) : List Val → Except Refusal (List Val)
  | [] => .ok []
  | v :: vs =>
    match v.asDict with
    | none => .error .crash
    | some row =>
      if validRow E ctx row then validateAll ctx touched vs
      else if !(rowId row).hashable then .error .crash
      else if touched.any fun id => (rowId row).pyEq id then .error (.schemaInvalid (rowId row))
      else (validateAll ctx touched vs).map fun ids => rowId row :: ids

/-- `_parse_rows_or_abort`. -/
def parseRows (body : Text) : Except Refusal (List Val) :=
  match E.loadSpineYaml body with
  | none => .error .notYaml
  | some v =>
    if !v.truthy then .ok []
    else match v with
      | .seq items => .ok items
      | _ => .error .notList

/-- `old_text[:start] + body + old_text[end:]`. -/
def spliceBody (old : Text) (start stop : Nat) (body : Text) : Text :=
  old.take start ++ (body ++ old.drop stop)

/-- Locate the spine, load its rows, and replace its body. -/
def onSpine (old : Text) (f : Text → List Val → Except Refusal Text) : Except Refusal Text :=
  match locateFencedBlock old with
  | .malformed => .error .malformed
  | .absent => .error .absent
  | .located body start stop => do
    let rows ← parseRows E body
    let newBody ← f body rows
    return spliceBody old start stop newBody

/-- A computation that refuses nothing went through each of its steps. -/
theorem bind_eq_ok {α β : Type} {x : Except Refusal α} {f : α → Except Refusal β} {b : β} :
    (x >>= f) = .ok b ↔ ∃ a, x = .ok a ∧ f a = .ok b := by
  cases x with
  | error e =>
    constructor
    · intro h
      cases h
    · rintro ⟨a, h, -⟩
      cases h
  | ok a =>
    constructor
    · exact fun h => ⟨a, rfl, h⟩
    · rintro ⟨a', h, h'⟩
      cases h
      exact h'

theorem eq_ok_of_toOption {α : Type} {x : Except Refusal α} {a : α} (h : x.toOption = some a) :
    x = .ok a := by
  cases x with
  | error e => cases h
  | ok b => exact congrArg Except.ok (Option.some.inj h)

variable {E} in
/-- What a successful call of the shell did. -/
theorem onSpine_eq_ok {old new : Text} {f : Text → List Val → Except Refusal Text} :
    onSpine E old f = .ok new ↔ ∃ body start stop rows newBody,
      locateFencedBlock old = .located body start stop ∧ parseRows E body = .ok rows ∧
        f body rows = .ok newBody ∧ new = spliceBody old start stop newBody := by
  constructor
  · intro h
    rw [onSpine] at h
    split at h
    · cases h
    · cases h
    · next body start stop hloc =>
      obtain ⟨rows, hrows, h⟩ := bind_eq_ok.mp h
      obtain ⟨newBody, hbody, h⟩ := bind_eq_ok.mp h
      cases h
      exact ⟨body, start, stop, rows, newBody, hloc, hrows, hbody, rfl⟩
  · rintro ⟨body, start, stop, rows, newBody, hloc, hrows, hbody, rfl⟩
    rw [onSpine, hloc]
    exact bind_eq_ok.mpr ⟨rows, hrows, bind_eq_ok.mpr ⟨newBody, hbody, rfl⟩⟩

/-- A row of the list has an id that is no set member. -/
def unhashableId (rows : List Val) : Bool :=
  rows.any fun v => v.asDict.any fun row => !(rowId row).hashable

/-- The value is a row with this id. -/
def hasId (id : Val) (v : Val) : Bool := v.asDict.any fun row => (rowId row).pyEq id

/-- The last place at which the list holds `true`. -/
def lastTrue : List Bool → Option Nat
  | [] => none
  | b :: bs =>
    match lastTrue bs with
    | some i => some (i + 1)
    | none => if b then some 0 else none

/-- `rows_by_id.get(id)`: a later row of the same id hides an earlier one. -/
def lastWithId (id : Val) (rows : List Val) : Option Nat := lastTrue (rows.map (hasId id))

/-- `next(r for r in rows if r.get("id") == id)`. -/
def firstWithId (id : Val) (rows : List Val) : Option Nat := rows.findIdx? (hasId id)

/-- Edit a value that is a row. -/
def editRow (f : Dict → Dict) (v : Val) : Val :=
  match v.asDict with
  | some row => .map (f row)
  | none => v

/-- Edit the row at a position. -/
def modifyRow (rows : List Val) (i : Nat) (f : Dict → Dict) : List Val := rows.modify i (editRow f)

/-- `_reposition_rows_for_d5` on loaded values: a value that is no row has no rank. -/
def repositionValues (rows : List Val) : Except Refusal (List Val) :=
  match rows.mapM Val.asDict with
  | none => .error .crash
  | some ds => .ok ((repositionRowsForD5 rowRank ds).map .map)

/-! ### Edits in place -/

theorem getElem?_modifyRow (rows : List Val) (i j : Nat) (f : Dict → Dict) :
    (modifyRow rows i f)[j]? = (rows[j]?).map fun v => if i = j then editRow f v else v := by
  rw [modifyRow, List.getElem?_modify]
  rfl

/-- What an edit leaves alone can be read off the rows as before. -/
theorem map_modifyRow {β : Type} {g : Val → β} {f : Dict → Dict}
    (hg : ∀ row, g (.map (f row)) = g (.map row)) (rows : List Val) (i : Nat) :
    (modifyRow rows i f).map g = rows.map g := by
  refine List.ext_getElem? fun j => ?_
  rw [List.getElem?_map, List.getElem?_map, getElem?_modifyRow, Option.map_map]
  cases rows[j]? with
  | none => rfl
  | some v =>
    rw [Option.map_some, Option.map_some, Function.comp_apply]
    split_ifs
    · cases v with
      | map row => exact congrArg some (hg row)
      | _ => rfl
    · rfl

/-- Values that are all rows are the rows. -/
theorem mapM_asDict_eq_some {rows : List Val} {ds : List Dict} :
    rows.mapM Val.asDict = some ds ↔ rows = ds.map .map := by
  induction rows generalizing ds with
  | nil => cases ds <;> simp
  | cons v rows ih =>
    rw [List.mapM_cons]
    cases ds with
    | nil => simp [Option.bind_eq_some_iff]
    | cons d ds =>
      simp only [Option.bind_eq_bind, Option.bind_eq_some_iff, Val.asDict_eq_some, List.map_cons,
        List.cons.injEq]
      constructor
      · rintro ⟨d', rfl, ds', hds, he⟩
        obtain ⟨rfl, rfl⟩ := List.cons.inj (Option.some.inj he)
        exact ⟨rfl, ih.mp hds⟩
      · rintro ⟨rfl, rfl⟩
        exact ⟨d, rfl, ds, ih.mpr rfl, rfl⟩

section KeepsId

variable {f : Dict → Dict} (hf : ∀ row, rowId (f row) = rowId row)
include hf

/-- An edit that keeps the ids keeps where an id is found. -/
theorem lastWithId_modifyRow (rows : List Val) (i : Nat) (id : Val) :
    lastWithId id (modifyRow rows i f) = lastWithId id rows := by
  refine congrArg lastTrue (map_modifyRow (fun row => ?_) rows i)
  simp only [hasId, Val.asDict_map, Option.any_some, hf]

theorem unhashableId_modifyRow (rows : List Val) (i : Nat) :
    unhashableId (modifyRow rows i f) = unhashableId rows := by
  have hmap := map_modifyRow (g := fun v => v.asDict.any fun row => !(rowId row).hashable) (f := f)
    (fun row => by simp only [Val.asDict_map, Option.any_some, hf]) rows i
  have hany := congrArg (List.any · id) hmap
  simpa only [unhashableId, List.any_map, Function.id_comp] using hany

end KeepsId

private theorem getElem?_of_lastTrue {bs : List Bool} {i : Nat} (h : lastTrue bs = some i) :
    bs[i]? = some true := by
  induction bs generalizing i with
  | nil => cases h
  | cons b bs ih =>
    rw [lastTrue] at h
    split at h
    · next k hk =>
      cases h
      exact ih hk
    · split_ifs at h with hb
      cases h
      rw [hb]
      rfl

/-- The place found holds a row of that id. -/
theorem hasId_of_lastWithId {id : Val} {rows : List Val} {i : Nat}
    (h : lastWithId id rows = some i) :
    ∃ row, rows[i]? = some (.map row) ∧ (rowId row).pyEq id = true := by
  have := getElem?_of_lastTrue h
  rw [List.getElem?_map, Option.map_eq_some_iff] at this
  obtain ⟨v, hv, hid⟩ := this
  rw [hasId, Option.any_eq_true] at hid
  obtain ⟨row, hrow, hid⟩ := hid
  rw [Val.asDict_eq_some.mp hrow] at hv
  exact ⟨row, hv, hid⟩

/-- Two ids that differ are found at different rows. -/
theorem lastWithId_ne_of_pyEq {rows : List Val} (hrows : unhashableId rows = false) {a b : Val}
    (hb : b.hashable = true) (hne : b.pyEq a = false) {i : Nat} (ha : lastWithId a rows = some i) :
    lastWithId b rows ≠ some i := by
  intro hi
  obtain ⟨row, hrow, hpy⟩ := hasId_of_lastWithId ha
  obtain ⟨row', hrow', hpy'⟩ := hasId_of_lastWithId hi
  obtain rfl : row = row' := Val.map.inj (Option.some.inj (hrow.symm.trans hrow'))
  have hh : (rowId row).hashable = true := by
    have := List.any_eq_false.mp hrows _ (List.mem_of_getElem? hrow)
    simpa using this
  rw [Val.pyEq_of_pyEq_right hb hh hpy' hpy] at hne
  cases hne

/-! ### add-task -/

/-- The end of the heading match on the text as it is: `_compile_heading_re(..).search`. -/
def tasksHeadingEnd (source : Text) : Option Nat :=
  (lineSearch headingLength true source).map fun m => m.1 + m.2

/-- `_synthesize_fence_under_heading` and `_synthesize_tasks_section`. -/
def synthesizeSpine (source bodyYaml : Text) : Text :=
  match tasksHeadingEnd source with
  | some insertAt =>
    source.take insertAt ++
      ("\n\n".toList ++ fenceOpen ++ bodyYaml ++ fenceClose ++ "\n".toList) ++
      source.drop insertAt
  | none =>
    let separator := if "\n\n".toList <:+ source then [] else "\n\n".toList
    source ++ separator ++
      ("## Tasks\n\n".toList ++ fenceOpen ++ bodyYaml ++ fenceClose ++ "\n".toList)

/-- `_add_task`. -/
def addTask (task : Dict) (old : Text) : Except Refusal Text :=
  if !(rowId task).truthy then .error .request
  else
    match locateFencedBlock old with
    | .malformed => .error .malformed
    | .absent =>
      match validateAll E (planContext E old) [rowId task] [.map task] with
      | .error e => .error e
      | .ok _ => .ok (synthesizeSpine old (E.dumpRows [.map task]))
    | .located body start stop => do
      let rows ← parseRows E body
      if unhashableId rows || !(rowId task).hashable then .error .crash
      else if rows.any (hasId (rowId task)) then .error (.duplicateTask (rowId task))
      else
        let newRows := insertByRank task rows
        let _ ← validateAll E (planContext E old) [rowId task] newRows
        return spliceBody old start stop (E.dumpRows newRows)

variable {E} in
/-- What a successful `add-task` on a located spine did. -/
theorem addTask_eq_ok {task : Dict} {old new body : Text} {start stop : Nat}
    (hloc : locateFencedBlock old = .located body start stop) (h : addTask E task old = .ok new) :
    ∃ rows, parseRows E body = .ok rows ∧ rows.any (hasId (rowId task)) = false ∧
      (∃ ids, validateAll E (planContext E old) [rowId task] (insertByRank task rows) = .ok ids) ∧
        new = spliceBody old start stop (E.dumpRows (insertByRank task rows)) := by
  rw [addTask] at h
  split_ifs at h
  rw [hloc] at h
  obtain ⟨rows, hrows, h⟩ := bind_eq_ok.mp h
  split_ifs at h with _ hdup
  obtain ⟨ids, hids, h⟩ := bind_eq_ok.mp h
  cases h
  exact ⟨rows, hrows, by simpa using hdup, ⟨ids, hids⟩, rfl⟩

/-! ### stamp -/

/-- `_STAMP_RESERVED_DISPOSITION_FIELDS` and `_STAMP_REFUSED_APPROVAL_FIELDS`. -/
def stampRefusedFields : List Text :=
  ["disposition".toList, "disposition_ref".toList, "disposition_detail".toList,
    "delivered_via".toList, "pm_approved".toList, "signoff".toList]

/-- The `authorization` an update may carry. -/
def emInferred (v : Val) : Bool :=
  v.asDict.any fun auth => (auth.get "source".toList).pyEq (.str "em-inferred".toList)

/-- The checks of `stamp` in front of the lock. -/
def stampAccepts (updates : List Params) : Bool :=
  !updates.isEmpty && updates.all fun u =>
    (u.get "id".toList).truthy && u.all fun e =>
      !stampRefusedFields.contains e.1 && (e.1 != "authorization".toList || emInferred e.2)

/-- One field of an update: `None` drops it. -/
def applyField (row : Dict) (e : Text × Val) : Dict :=
  if e.1 = "id".toList then row
  else match e.2 with
    | .null => row.pop e.1
    | v => row.set e.1 v

/-- One update of a row. -/
def applyUpdate (u : Params) (row : Dict) : Dict := u.foldl applyField row

/-- The loop over the updates. -/
def stampRows : List Params → List Val → Except Refusal (List Val)
  | [], rows => .ok rows
  | u :: us, rows =>
    match lastWithId (u.get "id".toList) rows with
    | none => .error (.notFound (u.get "id".toList))
    | some i => stampRows us (modifyRow rows i (applyUpdate u))

/-- What a batch of updates makes of the rows: each update changes the last row of its id. -/
def stampedRows (updates : List Params) (rows : List Val) : List Val :=
  rows.mapIdx fun i v =>
    match updates.find? fun u => lastWithId (u.get "id".toList) rows == some i with
    | some u => editRow (applyUpdate u) v
    | none => v

/-- The first id that the batch names twice. -/
def duplicateId (seen : List Val) : List Val → Option Val
  | [] => none
  | id :: ids => if seen.any (id.pyEq ·) then some id else duplicateId (id :: seen) ids

/-- `_stamp`. -/
def stamp (updates : List Params) (old : Text) : Except Refusal Text :=
  if !stampAccepts updates then .error .request
  else
    let ids := updates.map fun u => u.get "id".toList
    onSpine E old fun _ rows =>
      if unhashableId rows || !ids.all Val.hashable then .error .crash
      else
        match duplicateId [] ids with
        | some id => .error (.duplicateUpdate id)
        | none => do
          let newRows ← stampRows updates rows
          let _ ← validateAll E (planContext E old) ids newRows
          return E.dumpRows newRows

/-- An update keeps the id. -/
theorem rowId_applyUpdate (u : Params) (row : Dict) : rowId (applyUpdate u row) = rowId row := by
  induction u generalizing row with
  | nil => rfl
  | cons e u ih =>
    rw [applyUpdate, List.foldl_cons]
    refine (ih _).trans ?_
    rw [applyField]
    split_ifs with hid
    · rfl
    · split
      · exact Dict.get_pop_of_ne hid row
      · exact Dict.get_set_of_ne hid row _

/-- No id of the batch equals an earlier one. -/
theorem duplicateId_eq_none {seen ids : List Val} (h : duplicateId seen ids = none) :
    (∀ id ∈ ids, ∀ s ∈ seen, id.pyEq s = false) ∧ ids.Pairwise fun a b => b.pyEq a = false := by
  induction ids generalizing seen with
  | nil => simp
  | cons id ids ih =>
    rw [duplicateId] at h
    split_ifs at h with hseen
    obtain ⟨hs, hp⟩ := ih h
    have hid : ∀ s ∈ seen, id.pyEq s = false := by simpa using hseen
    refine ⟨?_, List.pairwise_cons.mpr ⟨fun b hb => hs b hb id (List.mem_cons_self ..), hp⟩⟩
    rintro a ha s hsm
    rcases List.mem_cons.mp ha with rfl | ha
    · exact hid s hsm
    · exact hs a ha s (List.mem_cons_of_mem id hsm)

/-- The loop of `stamp` changes each row by the one update that names it. -/
theorem stampRows_eq {updates : List Params} {rows newRows : List Val}
    (hhash : ∀ u ∈ updates, (u.get "id".toList).hashable = true)
    (hrows : unhashableId rows = false)
    (hdup : (updates.map (·.get "id".toList)).Pairwise fun a b => b.pyEq a = false)
    (h : stampRows updates rows = .ok newRows) : newRows = stampedRows updates rows := by
  induction updates generalizing rows with
  | nil =>
    cases h
    refine List.ext_getElem? fun j => ?_
    rw [stampedRows, List.getElem?_mapIdx]
    cases newRows[j]? <;> rfl
  | cons u us ih =>
    rw [stampRows] at h
    split at h
    · cases h
    · next i hi =>
      obtain ⟨hu, hus⟩ := List.pairwise_cons.mp hdup
      have hid := rowId_applyUpdate u
      have hrest := ih (fun v hv => hhash v (List.mem_cons_of_mem u hv))
        (by rw [unhashableId_modifyRow hid, hrows]) hus h
      rw [hrest]
      refine List.ext_getElem? fun j => ?_
      rw [stampedRows, stampedRows, List.getElem?_mapIdx, List.getElem?_mapIdx, getElem?_modifyRow]
      simp only [lastWithId_modifyRow hid, List.find?_cons, hi, Option.some_beq_some]
      cases hj : rows[j]? with
      | none => rfl
      | some v =>
        simp only [Option.map_some, Option.some_inj]
        split_ifs with hij
        · -- no later update names the row again
          subst hij
          have hnone : us.find? (fun w => lastWithId (w.get "id".toList) rows == some i) = none := by
            rw [List.find?_eq_none]
            intro w hw hwi
            exact lastWithId_ne_of_pyEq hrows (hhash w (List.mem_cons_of_mem u hw))
              (hu _ (List.mem_map_of_mem hw)) hi (eq_of_beq hwi)
          rw [hnone]
          simp only [beq_self_eq_true]
        · have hbeq : (i == j) = false := by simpa using hij
          simp only [hbeq]

variable {E} in
/-- What a successful `stamp` did. -/
theorem stamp_eq_ok {updates : List Params} {old new : Text} (h : stamp E updates old = .ok new) :
    ∃ body start stop rows, locateFencedBlock old = .located body start stop ∧
      parseRows E body = .ok rows ∧
        (updates.Pairwise fun a b => ∀ i, lastWithId (a.get "id".toList) rows = some i →
          lastWithId (b.get "id".toList) rows ≠ some i) ∧ stampAccepts updates = true ∧
        (∃ ids, validateAll E (planContext E old) (updates.map (·.get "id".toList))
          (stampedRows updates rows) = .ok ids) ∧
          new = spliceBody old start stop (E.dumpRows (stampedRows updates rows)) := by
  rw [stamp] at h
  split_ifs at h with haccepts
  obtain ⟨body, start, stop, rows, newBody, hloc, hrows, hf, rfl⟩ := onSpine_eq_ok.mp h
  split_ifs at hf with hhash
  split at hf
  · cases hf
  · next hdup =>
    obtain ⟨newRows, hnew, hf⟩ := bind_eq_ok.mp hf
    obtain ⟨ids, hids, hf⟩ := bind_eq_ok.mp hf
    cases hf
    rw [Bool.or_eq_true, not_or] at hhash
    have hhash' : ∀ u ∈ updates, (u.get "id".toList).hashable = true := by
      simpa using hhash.2
    have hids' := (duplicateId_eq_none hdup).2
    have hrows' : unhashableId rows = false := by simpa using hhash.1
    obtain rfl := stampRows_eq hhash' hrows' hids' hnew
    have hapart : updates.Pairwise fun a b => ∀ i, lastWithId (a.get "id".toList) rows = some i →
        lastWithId (b.get "id".toList) rows ≠ some i :=
      (List.pairwise_map.mp hids').imp_of_mem fun {_ b} _ hb hne _ ha =>
        lastWithId_ne_of_pyEq hrows' (hhash' b hb) hne ha
    exact ⟨body, start, stop, rows, hloc, hrows, hapart, by simpa using haccepts, ⟨ids, hids⟩, rfl⟩

/-! ### reopen -/

/-- The edit of `reopen`. -/
def reopenRow (detail : Text) (row : Dict) : Dict :=
  ((row.set "disposition".toList (.str "open".toList)).pop "disposition_ref".toList).set
    "disposition_detail".toList (.str (strip detail))

/-- The body a patching verb writes. -/
def patched (body : Text) (originalRows rows : List Val) : Except Refusal Text :=
  match patchBody E body originalRows rows with
  | some newBody => .ok newBody
  | none => .error .crash

/-- `_reopen`. -/
def reopen (taskId detail : Text) (old : Text) : Except Refusal Text :=
  if taskId = [] ∨ strip detail = [] then .error .request
  else
    onSpine E old fun body rows =>
      match firstWithId (.str taskId) rows with
      | none => .error (.notFound (.str taskId))
      | some i =>
        let row := ((rows[i]?).bind Val.asDict).getD []
        if rowDisposition row ≠ "coded".toList then .error (.notCoded (rowDisposition row))
        else do
          let newRows ← repositionValues (modifyRow rows i (reopenRow detail))
          let _ ← validateAll E (planContext E old) [.str taskId] newRows
          patched E body rows newRows

/-! ### depends-on -/

/-- `_edge_target`. -/
def edgeTarget (edge : Val) : Val :=
  match edge with
  | .map d => Dict.get d "chunk".toList
  | .str s => .str s
  | _ => .null

/-- `for e in (value or [])`; `none` is a value that is not iterable. -/
def iterItems (v : Val) : Option (List Val) :=
  if !v.truthy then some []
  else match v with
    | .seq items => some items
    | .str s => some (s.map fun c => .str [c])
    | .map d => some (d.map (·.1))
    | _ => none

/-- The edges of the rows, by id. -/
def edgesById : List Val → Option (List (Val × List Val))
  | [] => some []
  | v :: vs =>
    match v.asDict with
    | none => edgesById vs
    | some row =>
      (iterItems (row.get "depends_on".toList)).bind fun items =>
        (edgesById vs).map fun deps => (rowId row, items.map edgeTarget) :: deps

/-- The loop of `_reaches`, with the stack from its top, in at most `n` rounds; `none` is a node
that cannot be hashed. Each round but the last expands a node for the first time or drops an edge,
so the number of edges bounds the rounds. -/
def reachesLoop (deps : List (Val × List Val)) (goal : Val) :
    Nat → List Val → List Val → Option Bool
  | 0, _, _ => some false
  | _ + 1, [], _ => some false
  | n + 1, node :: stack, seen =>
    if node.pyEq goal then some true
    else if !node.hashable then none
    else if seen.any (node.pyEq ·) then reachesLoop deps goal n stack seen
    else
      let targets := ((deps.reverse.find? fun d => d.1.pyEq node).map (·.2)).getD []
      reachesLoop deps goal n ((targets.filter Val.truthy).reverse ++ stack) (node :: seen)

/-- `_reaches`. -/
def reaches (rows : List Val) (start goal : Val) : Option Bool :=
  (edgesById rows).bind fun deps =>
    reachesLoop deps goal ((deps.map fun d => d.2.length).sum + 1) [start] []

/-- The action of `depends-on`. -/
inductive EdgeAction
  | add (gateKind note : Option Text)
  | remove
deriving DecidableEq

/-- `_DEPENDS_ON_WRITABLE_KINDS`. -/
def dependsOnWritableKinds : List Text :=
  ["output-consumption-runtime".toList, "epistemic-premise".toList]

/-- `gate_kind or "output-consumption-runtime"`. -/
def effectiveKind (gateKind : Option Text) : Text :=
  match gateKind with
  | some k => if k = [] then "output-consumption-runtime".toList else k
  | none => "output-consumption-runtime".toList

/-- The edge that `add` writes. -/
def newEdge (chunk : Text) (gateKind note : Option Text) : Val :=
  .map ([(.str "chunk".toList, .str chunk),
    (.str "gate_kind".toList, .str (effectiveKind gateKind))] ++
      match note with
      | some n => if n = [] then [] else [(.str "note".toList, .str n)]
      | none => [])

/-- The new edges of the row. -/
def editEdges (action : EdgeAction) (taskId chunk : Text) (rows edges : List Val) :
    Except Refusal (List Val) :=
  let present := edges.any fun e => (edgeTarget e).pyEq (.str chunk)
  match action with
  | .add gateKind note =>
    if chunk = taskId then .error .selfEdge
    else if !rows.any (hasId (.str chunk)) then .error .unknownTarget
    else if present then .error .presentEdge
    else
      match reaches rows (.str chunk) (.str taskId) with
      | none => .error .crash
      | some true => .error .cycle
      | some false => .ok (edges ++ [newEdge chunk gateKind note])
  | .remove =>
    if !present then .error .absentEdge
    else .ok (edges.filter fun e => !(edgeTarget e).pyEq (.str chunk))

/-- `edges if isinstance(edges, list) else []`. -/
def asItems (v : Val) : List Val :=
  match v with
  | .seq items => items
  | _ => []

/-- The edit of `depends-on`. -/
def setEdges (edges : List Val) (row : Dict) : Dict :=
  if edges.isEmpty then row.pop "depends_on".toList else row.set "depends_on".toList (.seq edges)

/-- The checks of `depends-on` in front of the lock. -/
def dependsOnAccepts (taskId chunk : Text) (action : EdgeAction) : Bool :=
  taskId != [] && chunk != [] &&
    match action with
    | .add gateKind _ => dependsOnWritableKinds.contains (effectiveKind gateKind)
    | .remove => true

/-- `_depends_on`. -/
def dependsOn (taskId chunk : Text) (action : EdgeAction) (old : Text) : Except Refusal Text :=
  if !dependsOnAccepts taskId chunk action then .error .request
  else
    onSpine E old fun body rows =>
      if unhashableId rows then .error .crash
      else
        match firstWithId (.str taskId) rows with
        | none => .error (.notFound (.str taskId))
        | some i => do
          let row := ((rows[i]?).bind Val.asDict).getD []
          let edges ← editEdges action taskId chunk rows (asItems (row.get "depends_on".toList))
          let newRows := modifyRow rows i (setEdges edges)
          let _ ← validateAll E (planContext E old) [.str taskId] newRows
          patched E body rows newRows

/-! ### clear-gate -/

/-- `_gate_matches`. -/
def gateMatches (ownerRepo : Text) (entry : Val) : Bool :=
  entry.asDict.any fun d =>
    E.casefold (strippedStr E (d.get "owner_repo".toList)) == E.casefold ownerRepo

/-- `_clearance_fields`, as an update of the entry. -/
def clearEntry (evidence : Text) (entry : Dict) : Dict :=
  (entry.set "cleared".toList (.bool true)).set "closure_evidence".toList (.str evidence)

/-- The leading white space of a line. -/
def lineIndent (ln : Text) : Nat := ln.length - (lstrip ln).length

/-- `_frontmatter_gate_items`: the line ranges of the items, and their indent. -/
def frontmatterGateItems (fmLines : List Text) : Option (List (Nat × Nat) × Nat) :=
  (fmLines.findIdx? fun ln => rstrip ln == "external_gate:".toList).bind fun head =>
    let ends : Text → Bool := fun ln =>
      strip ln != [] && !(ln.head?.any fun c => c == ' ' || c == '\t' || c == '-' || c == '#')
    let stop := (((fmLines.drop (head + 1)).findIdx? ends).map (head + 1 + ·)).getD fmLines.length
    let starts := ((fmLines.zipIdx.take stop).drop (head + 1)).filter fun (ln, _) =>
      "- ".toList.isPrefixOf (lstrip ln)
    match starts with
    | [] => none
    | s :: rest =>
      let indent := rest.foldl (fun m l => min m (lineIndent l.1)) (lineIndent s.1)
      let kept := (starts.filter fun (ln, _) => lineIndent ln == indent).map (·.2)
      some (kept.zip (kept.drop 1 ++ [stop]), indent)

/-- One frontmatter gate: its line range, its indent, and the loaded item. -/
structure GateHit where
  start : Nat
  stop : Nat
  indent : Nat
  item : Dict

/-- The frontmatter gates that load to a mapping. -/
def frontmatterGates (fmLines : List Text) : List GateHit :=
  match frontmatterGateItems fmLines with
  | none => []
  | some (spans, indent) =>
    spans.filterMap fun (start, stop) =>
      let block := (((fmLines.take stop).drop start).map (List.drop indent)).flatten
      match E.safeLoad block with
      | some (.seq (.map item :: _)) => some ⟨start, stop, indent, item⟩
      | _ => none

/-- The lines of a split frontmatter. -/
def frontmatterLines (text : Text) : List Text :=
  match splitFrontmatter text with
  | some split => splitlinesKeep split.fmText
  | none => []

/-- The lines with one item replaced by its dump. -/
def replaceGate (fmLines : List Text) (hit : GateHit) (item : Dict) : List Text :=
  fmLines.take hit.start ++
    (splitlinesKeep (E.dumpGateItem item)).map (List.replicate hit.indent ' ' ++ ·) ++
      fmLines.drop hit.stop

/-- The text with new frontmatter lines. -/
def rebuildLines (text : Text) (fmLines : List Text) : Text :=
  match splitFrontmatter text with
  | some split => rebuild split fmLines.flatten
  | none => text

/-- Mark the first matching entry of the row's gates. -/
def clearFirst (ownerRepo evidence : Text) : List Val → List Val
  | [] => []
  | g :: gs =>
    if gateMatches E ownerRepo g then editRow (clearEntry evidence) g :: gs
    else g :: clearFirst ownerRepo evidence gs

/-- The edit of the row path of `clear-gate`. -/
def clearRowGate (ownerRepo evidence : Text) (row : Dict) : Dict :=
  row.set "external_gate".toList
    (.seq (clearFirst E ownerRepo evidence (asItems (row.get "external_gate".toList))))

/-- `is True`. -/
def isTrue (v : Val) : Bool :=
  match v with
  | .bool b => b
  | _ => false

/-- `_clear_gate`. -/
def clearGate (taskId ownerRepo evidence : Text) (old : Text) : Except Refusal Text :=
  if taskId = [] ∨ ownerRepo = [] ∨ evidence = [] then .error .request
  else
    match locateFencedBlock old with
    | .malformed => .error .malformed
    | .absent => .error .absent
    | .located body start stop => do
      let rows ← parseRows E body
      match firstWithId (.str taskId) rows with
      | none => .error (.notFound (.str taskId))
      | some i =>
        let row := ((rows[i]?).bind Val.asDict).getD []
        let rowHits := (asItems (row.get "external_gate".toList)).filter (gateMatches E ownerRepo)
        let fmLines := frontmatterLines old
        let fmHits := (frontmatterGates E fmLines).filter fun h =>
          gateMatches E ownerRepo (.map h.item) &&
            (h.item.get "row".toList).pyEq (.str taskId)
        match rowHits, fmHits with
        | [], [] => .error .noGate
        | [entry], [] =>
          if entry.asDict.any fun d => isTrue (d.get "cleared".toList) then .ok old
          else
            let newRows := modifyRow rows i (clearRowGate E ownerRepo evidence)
            let _ ← validateAll E (planContext E old) [.str taskId] newRows
            let newBody ← patched E body rows newRows
            return spliceBody old start stop newBody
        | [], [hit] =>
          if isTrue (hit.item.get "cleared".toList) then .ok old
          else .ok (rebuildLines old (replaceGate E fmLines hit (clearEntry evidence hit.item)))
        | _, _ => .error (.severalGates (rowHits.length + fmHits.length))

end Spine

end CoordinatorCore
