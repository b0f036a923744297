import CoordinatorCore.Spine.Approval

/-!
# The states of the rows

The ordering check and the approval predicate read two things off a row: its id and its
disposition (`RowState`). The verbs read a spine with a loader of their own, the checks with
`yaml.safe_load`; they agree where both load the same states (`ReadsAlike`).
-/

namespace CoordinatorCore

open Text BodyBlocks Frontmatter

namespace Spine

variable {E : Engine}

/-! ### States -/

/-- What the checks read off a row. -/
structure RowState where
  hasId : Bool
  id : Val
  disposition : Val

def rowState (row : Dict) : RowState :=
  ⟨row.mem "id".toList, rowId row, row.get "disposition".toList⟩

/-- A row of this state, for the functions that take a row. -/
def RowState.row (s : RowState) : Dict := [(.str "disposition".toList, s.disposition)]

/-- The rank of the rows in this state. -/
def RowState.rank (s : RowState) : ℕ := rowRank s.row

/-- The state is read off two keys. -/
theorem rowState_congr {row row' : Dict} (hmem : row'.mem "id".toList = row.mem "id".toList)
    (hid : rowId row' = rowId row)
    (hdisposition : row'.get "disposition".toList = row.get "disposition".toList) :
    rowState row' = rowState row := by
  rw [rowState, rowState, hmem, hid, hdisposition]

/-- The states of loaded rows. -/
def rowsStates (rows : List Val) : Option (List RowState) :=
  rows.mapM fun v => v.asDict.map rowState

/-- The rows of a loaded spine. -/
def docRows (v : Val) : Option (List Val) :=
  if !v.truthy then some []
  else match v with
    | .seq items => some items
    | _ => none

/-- The states of a body, as the verbs load it. -/
def bodyStates (E : Engine) (body : Text) : Option (List RowState) :=
  ((E.loadSpineYaml body).bind docRows).bind rowsStates

/-- The states of the spine of a plan. -/
def spineStates (E : Engine) (text : Text) : Option (List RowState) :=
  match locateFencedBlock text with
  | .located body _ _ => bodyStates E body
  | _ => none

/-- On the spine of this plan `yaml.safe_load` and the loader of the verbs, which differ in the
reading of keys such as `on`, load the same ids and dispositions. -/
def ReadsAlike (E : Engine) (text : Text) : Prop :=
  ∀ body i j, locateFencedBlock text = .located body i j →
    ((E.safeLoad body).bind docRows).bind rowsStates = bodyStates E body

theorem rowsStates_eq_some {rows : List Val} {s : List RowState} :
    rowsStates rows = some s ↔ ∃ ds : List Dict, rows = ds.map .map ∧ s = ds.map rowState := by
  induction rows generalizing s with
  | nil =>
    constructor
    · intro h
      exact ⟨[], rfl, (Option.some.inj h).symm⟩
    · rintro ⟨ds, hds, rfl⟩
      rw [List.map_eq_nil_iff.mp hds.symm]
      rfl
  | cons v rows ih =>
    rw [rowsStates, List.mapM_cons]
    simp only [Option.bind_eq_bind, Option.bind_eq_some_iff, Option.map_eq_some_iff,
      Val.asDict_eq_some]
    constructor
    · rintro ⟨e, ⟨d, rfl, rfl⟩, s', hs', hs⟩
      obtain ⟨ds, rfl, rfl⟩ := ih.mp hs'
      exact ⟨d :: ds, rfl, (Option.some.inj hs).symm⟩
    · rintro ⟨ds, hds, rfl⟩
      obtain ⟨d, ds, rfl⟩ := List.exists_cons_of_ne_nil (l := ds) (by rintro rfl; cases hds)
      obtain ⟨rfl, rfl⟩ := List.cons.inj hds
      exact ⟨_, ⟨d, rfl, rfl⟩, _, ih.mpr ⟨ds, rfl, rfl⟩, rfl⟩

/-- Edits that keep the state of each row keep the states. -/
theorem rowsStates_congr {rows rows' : List Val}
    (h : rows'.map (fun v => v.asDict.map rowState) = rows.map fun v => v.asDict.map rowState) :
    rowsStates rows' = rowsStates rows := by
  induction rows generalizing rows' with
  | nil => rw [List.map_eq_nil_iff.mp h]
  | cons v rows ih =>
    obtain ⟨v', rows', rfl⟩ := List.exists_cons_of_ne_nil (l := rows') (by rintro rfl; cases h)
    obtain ⟨hv, hrest⟩ := List.cons.inj h
    have hih := ih hrest
    simp only [rowsStates] at hih
    simp only [rowsStates, List.mapM_cons, hv, hih]

theorem docRows_eq_some {v : Val} {rows : List Val} :
    docRows v = some rows ↔ v.truthy = false ∧ rows = [] ∨ v.truthy = true ∧ v = .seq rows := by
  unfold docRows
  cases ht : v.truthy with
  | false => simp [eq_comm]
  | true => cases v <;> simp

/-- `_parse_rows_or_abort` loads the rows of the document. -/
theorem parseRows_eq_ok {body : Text} {rows : List Val} :
    parseRows E body = .ok rows ↔ (E.loadSpineYaml body).bind docRows = some rows := by
  unfold parseRows
  cases E.loadSpineYaml body with
  | none => simp
  | some v =>
    rw [Option.bind_some, docRows_eq_some]
    cases ht : v.truthy with
    | false =>
      simp only [ht, Bool.not_false, if_true, Except.ok.injEq, true_and, Bool.false_eq_true,
        false_and, or_false]
      exact eq_comm
    | true => cases v <;> simp [ht]

theorem bodyStates_of_parseRows {body : Text} {rows : List Val}
    (h : parseRows E body = .ok rows) : bodyStates E body = rowsStates rows := by
  rw [bodyStates, parseRows_eq_ok.mp h, Option.bind_some]

/-- What the verbs load from a body with states. -/
theorem parseRows_of_bodyStates {body : Text} {s : List RowState}
    (h : bodyStates E body = some s) :
    ∃ ds : List Dict, parseRows E body = .ok (ds.map .map) ∧ s = ds.map rowState := by
  obtain ⟨rows, hrows, hs⟩ := Option.bind_eq_some_iff.mp h
  obtain ⟨ds, rfl, rfl⟩ := rowsStates_eq_some.mp hs
  exact ⟨ds, parseRows_eq_ok.mpr hrows, rfl⟩

theorem spineStates_eq_some {text : Text} {s : List RowState} :
    spineStates E text = some s ↔ ∃ body i j,
      locateFencedBlock text = .located body i j ∧ bodyStates E body = some s := by
  rw [spineStates]
  constructor
  · intro h
    split at h
    · next body i j hloc => exact ⟨body, i, j, hloc, h⟩
    · cases h
  · rintro ⟨body, i, j, hloc, h⟩
    rw [hloc]
    exact h

/-- What the checks load from a spine with states. -/
theorem spineRows_of_spineStates {text : Text} {s : List RowState} (halike : ReadsAlike E text)
    (hs : spineStates E text = some s) :
    ∃ ds : List Dict, spineRows E text = some ds ∧ ds.map rowState = s := by
  obtain ⟨body, i, j, hloc, hbody⟩ := spineStates_eq_some.mp hs
  rw [← halike body i j hloc] at hbody
  obtain ⟨rows, hrows, hs⟩ := Option.bind_eq_some_iff.mp hbody
  obtain ⟨v, hv, hrows⟩ := Option.bind_eq_some_iff.mp hrows
  obtain ⟨ds, rfl, rfl⟩ := rowsStates_eq_some.mp hs
  refine ⟨ds, ?_, rfl⟩
  unfold spineRows
  rw [hloc]
  dsimp only
  rw [hv]
  rcases docRows_eq_some.mp hrows with ⟨ht, hds⟩ | ⟨ht, rfl⟩
  · rw [List.map_eq_nil_iff.mp hds]
    simp [ht]
  · have hmap := mapM_asDict_eq_some.mpr (rfl : ds.map Val.map = _)
    simpa [ht] using hmap

end Spine

end CoordinatorCore
