import Mathlib.Algebra.Order.BigOperators.Group.List
import Mathlib.Algebra.Order.Group.Nat
import Mathlib.Data.Set.List
import CoordinatorCore.Machine.Search
import CoordinatorCore.Spine.State
import CoordinatorCore.Spine.WriteRead

/-!
# The edges between rows

`depends-on` adds an edge from a row to a predecessor unless the predecessor depends on the row
already, over any number of edges. On a spine whose rows have distinct ids the search for that is
exact (`reaches_eq`), so no run of calls closes a cycle, and a call touches nothing but the edges of
the row it names (`edgeLaw`).
-/

namespace CoordinatorCore

open Text BodyBlocks Frontmatter Relation Search

namespace Spine

variable {E : Engine}

/-! ### The graph -/

def idKey : Text := "id".toList
def dependsOnKey : Text := "depends_on".toList

/-- The edges of a row. -/
def rowEdges (row : Dict) : List Val := asItems (row.get dependsOnKey)

/-- The row `x` names `y` as a predecessor. -/
def DependsOn (rows : List Val) (x y : Text) : Prop :=
  ∃ row, .map row ∈ rows ∧ rowId row = .str x ∧ ∃ e ∈ rowEdges row, edgeTarget e = .str y

/-- The edges of a row as they are written: none, or a list of ids and of mappings with an id. -/
def EdgeList (v : Val) : Prop :=
  v.truthy = false ∨ ∃ items, v = .seq items ∧
    ∀ e ∈ items, (edgeTarget e).truthy = true → ∃ s, edgeTarget e = .str s

/-- A spine with unique ids, over any graph. -/
structure Wired (rows : List Val) : Prop where
  named : ∀ v ∈ rows, ∃ row s, v = .map row ∧ rowId row = .str s ∧ s ≠ []
  unique : (rows.map idOrNone).Nodup
  edges : ∀ row : Dict, .map row ∈ rows → EdgeList (row.get dependsOnKey)

/-- A list of edges can be iterated. -/
theorem EdgeList.iterItems {v : Val} (h : EdgeList v) : iterItems v = some (asItems v) := by
  by_cases hv : v.truthy = true
  · obtain ⟨items, rfl, -⟩ := h.resolve_left (by simp [hv])
    cases items with
    | nil => cases hv
    | cons => rfl
  · cases v with
    | seq items =>
      have : items = [] := by simpa [Val.truthy] using hv
      rw [this]
      rfl
    | _ => simp [Spine.iterItems, hv, asItems]

/-- The rows of a spine as mappings, with their ids. -/
structure Rows (rows : List Val) (ds : List Dict) (name : Dict → Text) : Prop where
  eq : rows = ds.map .map
  id : ∀ row ∈ ds, rowId row = .str (name row)
  name_ne : ∀ row ∈ ds, name row ≠ []
  nodup : (ds.map name).Nodup
  edges : ∀ row ∈ ds, EdgeList (row.get dependsOnKey)

/-- Wired rows are maps with names that are texts. -/
theorem Wired.exists_rows {rows : List Val} (h : Wired rows) : ∃ ds name, Rows rows ds name := by
  obtain ⟨ds, rfl⟩ : ∃ ds : List Dict, rows = ds.map .map := by
    have hmap := h.named
    clear h
    induction rows with
    | nil => exact ⟨[], rfl⟩
    | cons v rows ih =>
      obtain ⟨row, -, rfl, -⟩ := hmap v List.mem_cons_self
      obtain ⟨ds, rfl⟩ := ih fun w hw => hmap w (List.mem_cons_of_mem _ hw)
      exact ⟨row :: ds, rfl⟩
  have hids : ∀ row ∈ ds, ∃ s, rowId row = .str s ∧ s ≠ [] := by
    intro row hrow
    obtain ⟨row', s, heq, hs, hne⟩ := h.named (.map row) (List.mem_map_of_mem hrow)
    cases heq
    exact ⟨s, hs, hne⟩
  choose! name hname using hids
  refine ⟨ds, name, rfl, fun row hrow => (hname row hrow).1, fun row hrow => (hname row hrow).2, ?_,
    fun row hrow => h.edges row (List.mem_map_of_mem hrow)⟩
  have hids : (ds.map Val.map).map idOrNone = (ds.map name).map Val.str := by
    rw [List.map_map, List.map_map]
    exact List.map_congr_left fun row hrow => (hname row hrow).1
  have hunique := h.unique
  rw [hids] at hunique
  exact hunique.of_map Val.str

/-! ### The search -/

section Graph

variable {rows : List Val} {ds : List Dict} {name : Dict → Text}

/-- The abstract edges are those the rows write. -/
theorem Rows.dependsOn_iff (h : Rows rows ds name) {x y : Text} :
    DependsOn rows x y ↔ ∃ row ∈ ds, name row = x ∧ ∃ e ∈ rowEdges row, edgeTarget e = .str y := by
  rw [DependsOn, h.eq]
  constructor
  · rintro ⟨row, hrow, hid, he⟩
    obtain ⟨row', hrow', heq⟩ := List.mem_map.mp hrow
    cases heq
    rw [h.id row hrow'] at hid
    exact ⟨row, hrow', Val.str.inj hid, he⟩
  · rintro ⟨row, hrow, rfl, he⟩
    exact ⟨row, List.mem_map_of_mem hrow, h.id row hrow, he⟩

/-- The edges by id, as `_reaches` collects them. -/
def depsOf (name : Dict → Text) (ds : List Dict) : List (Val × List Val) :=
  ds.map fun row => (.str (name row), (rowEdges row).map edgeTarget)

/-- The edge table of the rows is built. -/
theorem Rows.edgesById (h : Rows rows ds name) : edgesById rows = some (depsOf name ds) := by
  obtain ⟨rfl, hid, -, -, hedges⟩ := h
  induction ds with
  | nil => rfl
  | cons row ds ih =>
    have hrow : iterItems (row.get "depends_on".toList) = some (rowEdges row) :=
      (hedges row List.mem_cons_self).iterItems
    rw [List.map_cons, Spine.edgesById, Val.asDict_map]
    dsimp only
    rw [hrow, Option.bind_some, ih (fun r hr => hid r (List.mem_cons_of_mem row hr))
      fun r hr => hedges r (List.mem_cons_of_mem row hr), Option.map_some,
      hid row List.mem_cons_self, depsOf, depsOf, List.map_cons]

/-- The targets under an id. -/
def targetsOf (deps : List (Val × List Val)) (x : Text) : List Val :=
  ((deps.reverse.find? fun d => d.1.pyEq (.str x)).map (·.2)).getD []

/-- The loop on strings is the search. -/
theorem reachesLoop_eq {deps : List (Val × List Val)} {succ : Text → List Text} {goal : Text}
    (hsucc : ∀ x, ((targetsOf deps x).filter Val.truthy).reverse = (succ x).map .str) (n : ℕ)
    (stack seen : List Text) :
    reachesLoop deps (.str goal) n (stack.map .str) (seen.map .str) =
      some (search succ goal n stack seen) := by
  induction n generalizing stack seen with
  | zero => rfl
  | succ n ih =>
    cases stack with
    | nil => rfl
    | cons x stack =>
      have hseen : ((seen.map Val.str).any (Val.pyEq (.str x) ·)) = true ↔ x ∈ seen := by
        simp
      rw [List.map_cons, reachesLoop, search]
      by_cases hx : x = goal
      · subst hx
        rw [if_pos (by simp), if_pos rfl]
      · rw [if_neg fun h => hx (Val.str.inj (Val.pyEq_str_right.mp h)), if_neg hx,
          if_neg (by simp [Val.hashable])]
        by_cases hs : x ∈ seen
        · rw [if_pos (hseen.mpr hs), if_pos hs, ih]
        · have hexpand := ih (succ x ++ stack) (x :: seen)
          rw [List.map_append, ← hsucc x, List.map_cons] at hexpand
          rw [if_neg fun hm => hs (hseen.mp hm), if_neg hs, ← hexpand]
          rfl

/-- The table lists under a row's name the targets of its edges. -/
theorem Rows.targetsOf_name (h : Rows rows ds name) {row : Dict} (hrow : row ∈ ds) :
    targetsOf (depsOf name ds) (name row) = (rowEdges row).map edgeTarget := by
  have hmem : (Val.str (name row), (rowEdges row).map edgeTarget) ∈ (depsOf name ds).reverse :=
    List.mem_reverse.mpr (List.mem_map_of_mem hrow)
  rw [targetsOf]
  cases hfind : (depsOf name ds).reverse.find? fun d => d.1.pyEq (.str (name row)) with
  | none =>
    have := List.find?_eq_none.mp hfind _ hmem
    simp at this
  | some d =>
    -- the ids are unique, so the row found is this one
    have hd := List.find?_some hfind
    obtain ⟨row', hrow', rfl⟩ :=
      List.mem_map.mp (List.mem_reverse.mp (List.mem_of_find?_eq_some hfind))
    have heq : name row' = name row := Val.str.inj (Val.pyEq_str_right.mp hd)
    rw [List.inj_on_of_nodup_map h.nodup hrow' hrow heq]
    rfl

/-- The table lists nothing under a name no row has. -/
theorem targetsOf_eq_nil {x : Text} (hx : x ∉ ds.map name) : targetsOf (depsOf name ds) x = [] := by
  have hfind : ((depsOf name ds).reverse.find? fun d => d.1.pyEq (.str x)) = none := by
    refine List.find?_eq_none.mpr fun d hd heq => hx ?_
    obtain ⟨row, hrow, rfl⟩ := List.mem_map.mp (List.mem_reverse.mp hd)
    rw [← Val.str.inj (Val.pyEq_str_right.mp heq)]
    exact List.mem_map_of_mem hrow
  rw [targetsOf, hfind]
  rfl

/-- The target of an edge is a text or falsy. -/
theorem EdgeList.targets {v : Val} (h : EdgeList v) {e : Val} (he : e ∈ asItems v)
    (ht : (edgeTarget e).truthy = true) : ∃ s, edgeTarget e = .str s := by
  rcases h with h | ⟨items, rfl, hitems⟩
  · cases v with
    | seq items =>
      have : items = [] := by simpa [Val.truthy] using h
      rw [this] at he
      cases he
    | _ => cases he
  · exact hitems e he ht

/-- The stack of the search holds texts, in the order of one successor function. -/
theorem Rows.exists_succ (h : Rows rows ds name) : ∃ succ : Text → List Text,
    ∀ x, ((targetsOf (depsOf name ds) x).filter Val.truthy).reverse = (succ x).map .str := by
  have hstr : ∀ x, ∃ ts : List Text, ts.map Val.str =
      ((targetsOf (depsOf name ds) x).filter Val.truthy).reverse := by
    intro x
    refine (Set.ext_iff.mp (Set.range_list_map Val.str) _).mpr fun v hv => ?_
    obtain ⟨hv, htruthy⟩ := List.mem_filter.mp (List.mem_reverse.mp hv)
    by_cases hx : x ∈ ds.map name
    · obtain ⟨row, hrow, rfl⟩ := List.mem_map.mp hx
      rw [h.targetsOf_name hrow] at hv
      obtain ⟨e, he, rfl⟩ := List.mem_map.mp hv
      obtain ⟨s, hs⟩ := (h.edges row hrow).targets he htruthy
      exact ⟨s, hs.symm⟩
    · rw [targetsOf_eq_nil hx] at hv
      cases hv
  choose succ hsucc using hstr
  exact ⟨succ, fun x => (hsucc x).symm⟩

/-- The search follows the edges to ids. -/
theorem Rows.edge_iff (h : Rows rows ds name) {succ : Text → List Text}
    (hsucc : ∀ x, ((targetsOf (depsOf name ds) x).filter Val.truthy).reverse = (succ x).map .str)
    {x y : Text} : Edge succ x y ↔ y ≠ [] ∧ DependsOn rows x y := by
  have hmem : y ∈ succ x ↔ Val.str y ∈ (targetsOf (depsOf name ds) x).filter Val.truthy := by
    rw [← List.mem_map_of_injective fun _ _ => Val.str.inj, ← hsucc x, List.mem_reverse]
  rw [Edge, hmem, List.mem_filter, h.dependsOn_iff, and_comm]
  refine and_congr (by simp [Val.truthy]) ?_
  constructor
  · intro hy
    by_cases hx : x ∈ ds.map name
    · obtain ⟨row, hrow, rfl⟩ := List.mem_map.mp hx
      rw [h.targetsOf_name hrow] at hy
      exact ⟨row, hrow, rfl, List.mem_map.mp hy⟩
    · rw [targetsOf_eq_nil hx] at hy
      cases hy
  · rintro ⟨row, hrow, rfl, hy⟩
    rw [h.targetsOf_name hrow]
    exact List.mem_map.mpr hy

/-- The search graph and the abstract edges reach the same non-empty names. -/
theorem Rows.reaches_iff (h : Rows rows ds name) {succ : Text → List Text}
    (hsucc : ∀ x, ((targetsOf (depsOf name ds) x).filter Val.truthy).reverse = (succ x).map .str)
    {c t : Text} (ht : t ≠ []) :
    ReflTransGen (Edge succ) c t ↔ ReflTransGen (DependsOn rows) c t := by
  constructor
  · exact ReflTransGen.mono (fun x y hxy => ((h.edge_iff hsucc).mp hxy).2) _ _
  · intro hreach
    induction hreach using ReflTransGen.head_induction_on with
    | refl => exact .refl
    | @head x y hxy hrest ih =>
      refine .head ((h.edge_iff hsucc).mpr ⟨?_, hxy⟩) ih
      -- no row has the empty id, so no path goes on from it
      rintro rfl
      rcases hrest.cases_head with rfl | ⟨z, hz, -⟩
      · exact ht rfl
      · obtain ⟨row, hrow, hname, -⟩ := h.dependsOn_iff.mp hz
        exact h.name_ne row hrow hname

/-- **The search for a path is exact**, in every number of rounds from the number of edges on. -/
theorem Wired.reachesLoop (hw : Wired rows) {c t : Text} (ht : t ≠ []) :
    ∃ deps, edgesById rows = some deps ∧ ∀ n, (deps.map fun d => d.2.length).sum + 1 ≤ n →
      ∃ b, reachesLoop deps (.str t) n [.str c] [] = some b ∧
        (b = true ↔ ReflTransGen (DependsOn rows) c t) := by
  obtain ⟨ds, name, h⟩ := hw.exists_rows
  obtain ⟨succ, hsucc⟩ := h.exists_succ
  refine ⟨depsOf name ds, h.edgesById, fun n hn =>
    ⟨_, reachesLoop_eq hsucc n [c] [], ?_⟩⟩
  have hlength : ∀ x, (succ x).length ≤ (targetsOf (depsOf name ds) x).length := by
    intro x
    have := congrArg List.length (hsucc x)
    rw [List.length_reverse, List.length_map] at this
    rw [← this]
    exact List.length_filter_le _ _
  have hsum : ((ds.map name).map fun x => (succ x).length).sum ≤
      ((depsOf name ds).map fun d => d.2.length).sum := by
    rw [depsOf, List.map_map, List.map_map]
    refine List.sum_le_sum fun row hrow => ?_
    have := hlength (name row)
    rwa [h.targetsOf_name hrow] at this
  rw [search_eq_true_iff h.nodup (fun x hx => ?_) (by omega), h.reaches_iff hsucc ht]
  have := hlength x
  rw [targetsOf_eq_nil hx] at this
  exact List.eq_nil_of_length_eq_zero (Nat.le_zero.mp this)

/-- The search answers, and says whether the target is reached along the abstract edges. -/
theorem Wired.reaches_eq (hw : Wired rows) {c t : Text} (ht : t ≠ []) :
    ∃ b, reaches rows (.str c) (.str t) = some b ∧
      (b = true ↔ ReflTransGen (DependsOn rows) c t) := by
  obtain ⟨deps, hdeps, hloop⟩ := hw.reachesLoop (c := c) ht
  rw [reaches, hdeps, Option.bind_some]
  exact hloop _ le_rfl

end Graph

/-! ### One edit -/

/-- A row without edges writes no field. -/
theorem get_setEdges_self (edges : List Val) (row : Dict) :
    (setEdges edges row).get dependsOnKey = if edges.isEmpty then .null else .seq edges := by
  by_cases h : edges.isEmpty = true
  · have hpop : setEdges edges row = row.pop dependsOnKey := if_pos h
    rw [if_pos h, hpop]
    exact Dict.get_pop_self row dependsOnKey
  · have hset : setEdges edges row = row.set dependsOnKey (.seq edges) := if_neg h
    rw [if_neg h, hset]
    exact Dict.get_set_self row dependsOnKey _

/-- The edges that are set are read back. -/
theorem rowEdges_setEdges (edges : List Val) (row : Dict) :
    rowEdges (setEdges edges row) = edges := by
  rw [rowEdges, get_setEdges_self]
  cases edges <;> rfl

/-- Setting the edges leaves the other fields. -/
theorem get_setEdges {k : Text} (hk : k ≠ dependsOnKey) (edges : List Val) (row : Dict) :
    (setEdges edges row).get k = row.get k := by
  rw [setEdges]
  split_ifs
  · exact Dict.get_pop_of_ne hk.symm row
  · exact Dict.get_set_of_ne hk.symm row _

theorem mem_setEdges {k : Text} (hk : k ≠ dependsOnKey) (edges : List Val) (row : Dict) :
    (setEdges edges row).mem k = row.mem k := by
  rw [setEdges]
  split_ifs
  · exact Dict.mem_pop_of_ne hk.symm row
  · exact Dict.mem_set_of_ne hk.symm row _

/-- Setting the edges leaves the row's id. -/
theorem rowId_setEdges (edges : List Val) (row : Dict) : rowId (setEdges edges row) = rowId row :=
  get_setEdges (by decide) edges row

theorem edgeTarget_newEdge (chunk : Text) (gateKind note : Option Text) :
    edgeTarget (newEdge chunk gateKind note) = .str chunk := by
  simp [edgeTarget, newEdge, Dict.get, Dict.hasKey]

/-- The edges that an accepted edit leaves. -/
theorem editEdges_eq_ok {action : EdgeAction} {taskId chunk : Text} {rows edges edges' : List Val}
    (h : editEdges action taskId chunk rows edges = .ok edges') :
    (∃ gateKind note, reaches rows (.str chunk) (.str taskId) = some false ∧
        edges' = edges ++ [newEdge chunk gateKind note]) ∨
      edges' = edges.filter fun e => !(edgeTarget e).pyEq (.str chunk) := by
  cases action with
  | add gateKind note =>
    rw [editEdges] at h
    split_ifs at h
    split at h
    · cases h
    · cases h
    · next hreach =>
      cases h
      exact .inl ⟨gateKind, note, hreach, rfl⟩
  | remove =>
    rw [editEdges] at h
    split_ifs at h
    cases h
    exact .inr rfl

/-- An edge is refused as a cycle when its target is another row that reaches the row. -/
theorem editEdges_eq_cycle_iff {gateKind note : Option Text} {taskId chunk : Text}
    {rows edges : List Val} :
    editEdges (.add gateKind note) taskId chunk rows edges = .error .cycle ↔
      chunk ≠ taskId ∧ rows.any (hasId (.str chunk)) = true ∧
        (∀ e ∈ edges, edgeTarget e ≠ .str chunk) ∧
          reaches rows (.str chunk) (.str taskId) = some true := by
  have hpresent : (edges.any fun e => (edgeTarget e).pyEq (.str chunk)) = false ↔
      ∀ e ∈ edges, edgeTarget e ≠ .str chunk := by
    simp [List.any_eq_false]
  rw [editEdges, ← hpresent]
  by_cases hself : chunk = taskId
  · simp [hself]
  rw [if_neg hself]
  cases rows.any (hasId (.str chunk)) with
  | false => simp
  | true =>
    cases edges.any fun e => (edgeTarget e).pyEq (.str chunk) with
    | true => simp
    | false =>
      rcases hr : reaches rows (.str chunk) (.str taskId) with _ | _ | _ <;> simp [hself]

/-- The rows that one call leaves, or its refusal. -/
def dependsOnRows (taskId chunk : Text) (action : EdgeAction) (rows : List Val) :
    Except Refusal (List Val) :=
  match firstWithId (.str taskId) rows with
  | none => .error (.notFound (.str taskId))
  | some i =>
    (editEdges action taskId chunk rows (rowEdges (((rows[i]?).bind Val.asDict).getD []))).map
      fun edges => modifyRow rows i (setEdges edges)

/-- The first row with an id is a row with that id. -/
theorem exists_of_firstWithId {rows : List Val} {t : Text} {i : ℕ}
    (h : firstWithId (.str t) rows = some i) :
    ∃ row, rows[i]? = some (.map row) ∧ rowId row = .str t := by
  obtain ⟨hi, hid, -⟩ := List.findIdx?_eq_some_iff_getElem.mp h
  rw [hasId, Option.any_eq_true] at hid
  obtain ⟨row, hrow, hid⟩ := hid
  exact ⟨row, by rw [List.getElem?_eq_getElem hi, Val.asDict_eq_some.mp hrow],
    Val.pyEq_str_right.mp hid⟩

/-- An accepted call edits one row. -/
theorem dependsOnRows_eq_ok {taskId chunk : Text} {action : EdgeAction} {rows newRows : List Val}
    (h : dependsOnRows taskId chunk action rows = .ok newRows) :
    ∃ i row edges, rows[i]? = some (.map row) ∧ rowId row = .str taskId ∧
      editEdges action taskId chunk rows (rowEdges row) = .ok edges ∧
        newRows = modifyRow rows i (setEdges edges) := by
  rw [dependsOnRows] at h
  split at h
  · cases h
  · next i hi =>
    obtain ⟨row, hrow, hid⟩ := exists_of_firstWithId hi
    rw [hrow, Option.bind_some, Val.asDict_map, Option.getD_some] at h
    cases hedges : editEdges action taskId chunk rows (rowEdges row) with
    | error e =>
      rw [hedges] at h
      cases h
    | ok edges =>
      rw [hedges] at h
      cases h
      exact ⟨i, row, edges, hrow, hid, hedges, rfl⟩

/-- A modified list has its old rows and the modified one. -/
theorem mem_modifyRow {rows : List Val} {i : ℕ} {row : Dict} {f : Dict → Dict}
    (hi : rows[i]? = some (.map row)) {v : Val} (h : v ∈ modifyRow rows i f) :
    v ∈ rows ∨ v = .map (f row) := by
  obtain ⟨j, hj⟩ := List.mem_iff_getElem?.mp h
  rw [getElem?_modifyRow] at hj
  obtain ⟨w, hw, rfl⟩ := Option.map_eq_some_iff.mp hj
  split_ifs with hij
  · subst hij
    rw [hi] at hw
    cases hw
    exact .inr rfl
  · exact .inl (List.mem_of_getElem? hw)

section Edit

variable {rows newRows : List Val} {taskId chunk : Text} {action : EdgeAction}

/-- An edge verb leaves wired rows wired. -/
theorem Wired.dependsOnRows (hw : Wired rows)
    (h : dependsOnRows taskId chunk action rows = .ok newRows) : Wired newRows := by
  obtain ⟨i, row, edges, hi, hid, hedges, rfl⟩ := dependsOnRows_eq_ok h
  refine ⟨fun v hv => ?_, ?_, fun d hd => ?_⟩
  · rcases mem_modifyRow hi hv with hv | rfl
    · exact hw.named v hv
    · obtain ⟨row', s, heq, hs⟩ := hw.named _ (List.mem_of_getElem? hi)
      cases heq
      exact ⟨_, s, rfl, by rw [rowId_setEdges, hs.1], hs.2⟩
  · rw [map_modifyRow (fun row => rowId_setEdges edges row) rows i]
    exact hw.unique
  · rcases mem_modifyRow hi hd with hd | heq
    · exact hw.edges d hd
    · cases heq
      have hrow := hw.edges row (List.mem_of_getElem? hi)
      have hstr : ∀ e ∈ edges, (edgeTarget e).truthy = true → ∃ s, edgeTarget e = .str s := by
        intro e he ht
        rcases editEdges_eq_ok hedges with ⟨gateKind, note, -, rfl⟩ | rfl
        · rcases List.mem_append.mp he with he | he
          · exact hrow.targets he ht
          · rw [List.mem_singleton.mp he]
            exact ⟨chunk, edgeTarget_newEdge chunk gateKind note⟩
        · exact hrow.targets (List.mem_filter.mp he).1 ht
      rw [get_setEdges_self]
      cases edges with
      | nil => exact .inl rfl
      | cons e edges => exact .inr ⟨e :: edges, rfl, hstr⟩

/-- An accepted call keeps the graph free of cycles. -/
theorem Wired.acyclic_dependsOnRows (hw : Wired rows) (ht : taskId ≠ [])
    (h : Spine.dependsOnRows taskId chunk action rows = .ok newRows)
    (hac : Acyclic (DependsOn rows)) : Acyclic (DependsOn newRows) := by
  obtain ⟨i, row, edges, hi, hid, hedges, rfl⟩ := dependsOnRows_eq_ok h
  have hmem : Val.map row ∈ rows := List.mem_of_getElem? hi
  -- an edge of the new graph comes from another row, or from the new edges of this one
  have hcases : ∀ {x y}, DependsOn (modifyRow rows i (setEdges edges)) x y →
      DependsOn rows x y ∨ x = taskId ∧ ∃ e ∈ edges, edgeTarget e = .str y := by
    rintro x y ⟨d, hd, hx, e, he, hy⟩
    rcases mem_modifyRow hi hd with hd | heq
    · exact .inl ⟨d, hd, hx, e, he, hy⟩
    · cases heq
      rw [rowId_setEdges, hid] at hx
      rw [rowEdges_setEdges] at he
      exact .inr ⟨(Val.str.inj hx).symm, e, he, hy⟩
  rcases editEdges_eq_ok hedges with ⟨gateKind, note, hreach, rfl⟩ | rfl
  · obtain ⟨b, hb, hiff⟩ := hw.reaches_eq (c := chunk) ht
    rw [hreach] at hb
    cases hb
    refine acyclic_insert (a := taskId) (b := chunk) hac (fun x y hxy => ?_) (by simpa using hiff)
    rcases hcases hxy with hold | ⟨rfl, e, he, hy⟩
    · exact .inl hold
    · rcases List.mem_append.mp he with he | he
      · exact .inl ⟨row, hmem, hid, e, he, hy⟩
      · rw [List.mem_singleton.mp he, edgeTarget_newEdge] at hy
        exact .inr ⟨rfl, (Val.str.inj hy).symm⟩
  · refine hac.mono fun x y hxy => ?_
    rcases hcases hxy with hold | ⟨rfl, e, he, hy⟩
    · exact hold
    · exact ⟨row, hmem, hid, e, (List.mem_filter.mp he).1, hy⟩

end Edit

/-! ### The verb -/

/-- An accepted request on the loaded rows. -/
def EdgeStep (rows newRows : List Val) : Prop :=
  ∃ taskId chunk action, dependsOnAccepts taskId chunk action = true ∧
    dependsOnRows taskId chunk action rows = .ok newRows

/-- No field but the edges of the named row differs. -/
def OnlyEdges (taskId : Text) (rows newRows : List Val) : Prop :=
  newRows.length = rows.length ∧ ∀ j : ℕ, newRows[j]? = rows[j]? ∨
    ∃ row row' : Dict, rows[j]? = some (.map row) ∧ newRows[j]? = some (.map row') ∧
      rowId row = .str taskId ∧
        ∀ k ≠ dependsOnKey, row'.get k = row.get k ∧ row'.mem k = row.mem k

/-- A verb that is accepted names its row. -/
theorem dependsOnAccepts_ne_nil {taskId chunk : Text} {action : EdgeAction}
    (h : dependsOnAccepts taskId chunk action = true) : taskId ≠ [] := by
  simp only [dependsOnAccepts, Bool.and_eq_true, bne_iff_ne] at h
  exact h.1.1

/-- An edge verb changes nothing but the edges of its row. -/
theorem onlyEdges_dependsOnRows {taskId chunk : Text} {action : EdgeAction}
    {rows newRows : List Val} (h : dependsOnRows taskId chunk action rows = .ok newRows) :
    OnlyEdges taskId rows newRows := by
  obtain ⟨i, row, edges, hi, hid, -, rfl⟩ := dependsOnRows_eq_ok h
  refine ⟨by rw [modifyRow, List.length_modify], fun j => ?_⟩
  rw [getElem?_modifyRow]
  by_cases hij : i = j
  · subst hij
    refine .inr ⟨row, setEdges edges row, hi, ?_, hid, fun k hk =>
      ⟨get_setEdges hk edges row, mem_setEdges hk edges row⟩⟩
    rw [hi, Option.map_some, if_pos rfl]
    rfl
  · simp only [if_neg hij, Option.map_id_fun', id_eq, true_or]

/-- The validation never speaks of cycles. -/
theorem validateAll_ne_cycle (ctx : PlanContext) (touched rows : List Val) :
    validateAll E ctx touched rows ≠ .error .cycle := by
  fun_induction validateAll E ctx touched rows with
  | case1 => simp
  | case2 => simp
  | case3 v vs row hrow hvalid ih => exact ih
  | case4 => simp
  | case5 => simp
  | case6 v vs row hrow hvalid hhash htouched ih =>
    cases hrest : validateAll E ctx touched vs with
    | error e =>
      rw [hrest] at ih
      exact fun h => ih (by simpa [Except.map] using h)
    | ok ids => simp [Except.map]

/-- Wired rows have hashable ids. -/
theorem Wired.unhashableId {rows : List Val} (h : Wired rows) : unhashableId rows = false := by
  refine List.any_eq_false.mpr fun v hv => ?_
  obtain ⟨row, s, rfl, hs, -⟩ := h.named v hv
  simp [hs, Val.hashable]

section Verb

variable {old new body : Text} {start stop : ℕ} {rows : List Val} {taskId chunk : Text}
  {action : EdgeAction}

/-- What a successful call writes are the rows of an accepted request. -/
theorem dependsOn_eq_ok (hloc : locateFencedBlock old = .located body start stop)
    (hrows : parseRows E body = .ok rows) (h : dependsOn E taskId chunk action old = .ok new) :
    ∃ newRows B, dependsOnAccepts taskId chunk action = true ∧
      dependsOnRows taskId chunk action rows = .ok newRows ∧
        patchBody E body rows newRows = some B ∧ new = spliceBody old start stop B := by
  rw [dependsOn] at h
  split_ifs at h with haccepts
  obtain ⟨body', start', stop', rows', B, hloc', hrows', hB, rfl⟩ := onSpine_eq_ok.mp h
  rw [hloc] at hloc'
  obtain ⟨rfl, rfl, rfl⟩ := LocateResult.located.inj hloc'
  obtain rfl := Except.ok.inj (hrows.symm.trans hrows')
  split_ifs at hB
  split at hB
  · cases hB
  · next i hi =>
    obtain ⟨edges, hedges, hB⟩ := bind_eq_ok.mp hB
    obtain ⟨_, -, hB⟩ := bind_eq_ok.mp hB
    have hedges : editEdges action taskId chunk rows
      (rowEdges (((rows[i]?).bind Val.asDict).getD [])) = .ok edges := hedges
    refine ⟨_, B, by simpa using haccepts, ?_, patched_eq_ok.mp hB, rfl⟩
    rw [dependsOnRows, hi]
    dsimp only
    rw [hedges]
    rfl

/-- On a spine with unique ids the call aborts for a cycle exactly when the edit does. -/
theorem dependsOn_eq_cycle_iff (hw : Wired rows)
    (hloc : locateFencedBlock old = .located body start stop) (hrows : parseRows E body = .ok rows)
    (haccepts : dependsOnAccepts taskId chunk action = true) :
    dependsOn E taskId chunk action old = .error .cycle ↔
      dependsOnRows taskId chunk action rows = .error .cycle := by
  have hspine : ∀ f : Text → List Val → Except Refusal Text,
      onSpine E old f = .error .cycle ↔ f body rows = .error .cycle := by
    intro f
    rw [onSpine, hloc]
    dsimp only
    rw [hrows]
    change (f body rows >>= fun newBody => pure (spliceBody old start stop newBody)) = _ ↔ _
    cases f body rows with
    | error e => simp [Bind.bind, Except.bind]
    | ok b => simp [Bind.bind, Except.bind, pure, Except.pure]
  rw [dependsOn, if_neg (by simp [haccepts]), hspine, if_neg (by simp [hw.unhashableId]),
    dependsOnRows]
  cases firstWithId (.str taskId) rows with
  | none => simp
  | some i =>
    change (editEdges action taskId chunk rows (rowEdges (((rows[i]?).bind Val.asDict).getD [])) >>=
      fun edges => validateAll E (planContext E old) [.str taskId]
        (modifyRow rows i (setEdges edges)) >>= fun _ =>
          patched E body rows (modifyRow rows i (setEdges edges))) = _ ↔
      (editEdges action taskId chunk rows (rowEdges (((rows[i]?).bind Val.asDict).getD []))).map
        (fun edges => modifyRow rows i (setEdges edges)) = _
    cases editEdges action taskId chunk rows
        (rowEdges (((rows[i]?).bind Val.asDict).getD [])) with
    | error e => simp [Bind.bind, Except.bind, Except.map]
    | ok edges =>
      -- neither the validation nor the writer knows this abort
      change (validateAll E (planContext E old) [.str taskId]
        (modifyRow rows i (setEdges edges)) >>= fun _ =>
          patched E body rows (modifyRow rows i (setEdges edges))) = _ ↔ _
      have hvalid := validateAll_ne_cycle (E := E) (planContext E old) [.str taskId]
        (modifyRow rows i (setEdges edges))
      cases hv : validateAll E (planContext E old) [.str taskId]
          (modifyRow rows i (setEdges edges)) with
      | error e =>
        rw [hv] at hvalid
        simpa [Bind.bind, Except.bind, Except.map] using hvalid
      | ok ids =>
        rw [patched]
        cases patchBody E body rows (modifyRow rows i (setEdges edges)) <;>
          simp [Bind.bind, Except.bind, Except.map]

end Verb

/-- **The edges of a spine with unique ids.** -/
structure EdgeLaw (E : Engine) (rows : List Val) : Prop where
  /-- The search ends: more rounds than there are edges change nothing. -/
  rounds : ∀ {taskId chunk : Text}, taskId ≠ [] → ∃ deps, edgesById rows = some deps ∧
    ∀ n, (deps.map fun d => d.2.length).sum + 1 ≤ n →
      reachesLoop deps (.str taskId) n [.str chunk] [] = reaches rows (.str chunk) (.str taskId)
  /-- The cycle abort, of a request for a row that is there. -/
  cycle : ∀ {old body : Text} {start stop : ℕ} {taskId chunk : Text} {gateKind note : Option Text},
    locateFencedBlock old = .located body start stop → parseRows E body = .ok rows →
    dependsOnAccepts taskId chunk (.add gateKind note) = true →
    rows.any (hasId (.str taskId)) = true →
      (dependsOn E taskId chunk (.add gateKind note) old = .error .cycle ↔
        chunk ≠ taskId ∧ rows.any (hasId (.str chunk)) = true ∧ ¬ DependsOn rows taskId chunk ∧
          ReflTransGen (DependsOn rows) chunk taskId)
  /-- What a successful call writes. -/
  writes : ∀ {old new body : Text} {start stop : ℕ} {taskId chunk : Text} {action : EdgeAction},
    locateFencedBlock old = .located body start stop → parseRows E body = .ok rows →
    dependsOn E taskId chunk action old = .ok new → ∃ newRows B, EdgeStep rows newRows ∧
      OnlyEdges taskId rows newRows ∧ patchBody E body rows newRows = some B ∧
        new = spliceBody old start stop B
  /-- Every finite sequence of accepted requests. -/
  acyclic : Acyclic (DependsOn rows) → ∀ newRows, ReflTransGen EdgeStep rows newRows →
    Acyclic (DependsOn newRows)

theorem edgeLaw {rows : List Val} (hw : Wired rows) : EdgeLaw E rows where
  rounds {taskId chunk} ht := by
    obtain ⟨deps, hdeps, hloop⟩ := hw.reachesLoop (c := chunk) ht
    refine ⟨deps, hdeps, fun n hn => ?_⟩
    obtain ⟨b, hb, hiff⟩ := hloop n hn
    obtain ⟨b', hb', hiff'⟩ := hw.reaches_eq (c := chunk) ht
    rw [hb, hb', Bool.eq_iff_iff.mpr (hiff.trans hiff'.symm)]
  cycle {old body start stop taskId chunk gateKind note} hloc hrows haccepts htask := by
    rw [dependsOn_eq_cycle_iff hw hloc hrows haccepts, dependsOnRows]
    cases hi : firstWithId (.str taskId) rows with
    | none =>
      obtain ⟨v, hv, hid⟩ := List.any_eq_true.mp htask
      exact absurd hid (by simpa using List.findIdx?_eq_none_iff.mp hi v hv)
    | some i =>
      obtain ⟨row, hrow, hid⟩ := exists_of_firstWithId hi
      obtain ⟨b, hb, hiff⟩ := hw.reaches_eq (c := chunk) (dependsOnAccepts_ne_nil haccepts)
      -- the named row is the only one of its id
      have hedges : (∀ e ∈ rowEdges row, edgeTarget e ≠ .str chunk) ↔
          ¬ DependsOn rows taskId chunk := by
        obtain ⟨ds, name, h⟩ := hw.exists_rows
        have hmem : Val.map row ∈ rows := List.mem_of_getElem? hrow
        rw [h.eq] at hmem
        obtain ⟨row', hrow', heq⟩ := List.mem_map.mp hmem
        cases heq
        rw [h.id row hrow'] at hid
        rw [h.dependsOn_iff]
        constructor
        · rintro hno ⟨d, hd, hname, e, he, htarget⟩
          rw [List.inj_on_of_nodup_map h.nodup hd hrow' (hname.trans (Val.str.inj hid).symm)] at he
          exact hno e he htarget
        · exact fun hno e he htarget => hno ⟨row, hrow', Val.str.inj hid, e, he, htarget⟩
      have hmap : ∀ x : Except Refusal (List Val), x.map (fun edges => modifyRow rows i
          (setEdges edges)) = .error .cycle ↔ x = .error .cycle := by
        intro x
        cases x <;> simp [Except.map]
      dsimp only
      rw [hrow, Option.bind_some, Val.asDict_map, Option.getD_some, hmap, editEdges_eq_cycle_iff,
        hedges, hb, Option.some.injEq, hiff]
  writes hloc hrows h := by
    obtain ⟨newRows, B, haccepts, hnew, hB, rfl⟩ := dependsOn_eq_ok hloc hrows h
    exact ⟨newRows, B, ⟨_, _, _, haccepts, hnew⟩, onlyEdges_dependsOnRows hnew, hB, rfl⟩
  acyclic hac newRows hrun := by
    suffices hboth : Wired newRows ∧ Acyclic (DependsOn newRows) from hboth.2
    induction hrun with
    | refl => exact ⟨hw, hac⟩
    | tail _ hstep ih =>
      obtain ⟨taskId, chunk, action, haccepts, h⟩ := hstep
      exact ⟨ih.1.dependsOnRows h,
        ih.1.acyclic_dependsOnRows (dependsOnAccepts_ne_nil haccepts) h ih.2⟩

/-- A row with edges in their string form. -/
def linkedRow (id : Text) (targets : List Text) : Dict :=
  [(.str idKey, .str id), (.str dependsOnKey, .seq (targets.map .str))]

theorem rowId_linkedRow (id : Text) (targets : List Text) :
    rowId (linkedRow id targets) = .str id := rfl

theorem get_linkedRow (id : Text) (targets : List Text) :
    (linkedRow id targets).get dependsOnKey = .seq (targets.map .str) := by
  have hne : idKey ≠ dependsOnKey := by decide
  simp [linkedRow, Dict.get, Dict.hasKey, hne]

theorem edgeList_linkedRow (id : Text) (targets : List Text) :
    EdgeList ((linkedRow id targets).get dependsOnKey) := by
  refine .inr ⟨targets.map .str, get_linkedRow id targets, fun e he _ => ?_⟩
  obtain ⟨s, -, rfl⟩ := List.mem_map.mp he
  exact ⟨s, rfl⟩

/-- Two rows, one behind the other. -/
theorem edgeLaw_two_rows :
    EdgeLaw (flatEngine []) [.map (linkedRow ['A'] [['B']]), .map (linkedRow ['B'] [])] := by
  refine edgeLaw ⟨fun v hv => ?_, by simp [idOrNone, rowId_linkedRow],
    fun row hrow => ?_⟩
  · rcases List.mem_pair.mp hv with rfl | rfl
    · exact ⟨_, ['A'], rfl, rfl, by simp⟩
    · exact ⟨_, ['B'], rfl, rfl, by simp⟩
  · rcases List.mem_pair.mp hrow with heq | heq
    · cases heq
      exact edgeList_linkedRow ['A'] [['B']]
    · cases heq
      exact edgeList_linkedRow ['B'] []

/-- Two rows in a cycle. -/
def cyclicRows : List Val := [.map (linkedRow ['A'] [['B']]), .map (linkedRow ['B'] [['A']])]

/-- Rows where a path goes over a row without an id. -/
def namelessRows : List Val :=
  [.map (linkedRow ['T'] []), .map (linkedRow ['C'] [[]]), .map (linkedRow [] [['T']])]

/-- In a graph with a cycle, another guard refuses an edge that is there, or an edge of a row to
itself; and the search does not see a path over an empty id. -/
theorem cycle_abort_is_not_reachability :
    (ReflTransGen (DependsOn cyclicRows) ['B'] ['A'] ∧
      dependsOnRows ['A'] ['B'] (.add none none) cyclicRows = .error .presentEdge) ∧
    (TransGen (DependsOn cyclicRows) ['A'] ['A'] ∧
      dependsOnRows ['A'] ['A'] (.add none none) cyclicRows = .error .selfEdge) ∧
    (namelessRows.map idOrNone).Nodup ∧ ReflTransGen (DependsOn namelessRows) ['C'] ['T'] ∧
      ∃ newRows, dependsOnRows ['T'] ['C'] (.add none none) namelessRows = .ok newRows := by
  have hlink : ∀ {id : Text} {targets : List Text} {t : Text} {rows : List Val},
      .map (linkedRow id targets) ∈ rows → t ∈ targets → DependsOn rows id t := by
    intro id targets t rows hmem ht
    refine ⟨_, hmem, rowId_linkedRow id targets, .str t, ?_, rfl⟩
    rw [rowEdges, get_linkedRow]
    exact List.mem_map_of_mem ht
  have hab : DependsOn cyclicRows ['A'] ['B'] :=
    @hlink ['A'] [['B']] _ _ (by simp [cyclicRows]) (by simp)
  have hba : DependsOn cyclicRows ['B'] ['A'] :=
    @hlink ['B'] [['A']] _ _ (by simp [cyclicRows]) (by simp)
  refine ⟨⟨.single hba, rfl⟩, ⟨.head hab (.single hba), rfl⟩, ?_, ?_, _, rfl⟩
  · simp [namelessRows, idOrNone, rowId_linkedRow]
  · exact .head (@hlink ['C'] [[]] _ _ (by simp [namelessRows]) (by simp))
      (.single (@hlink [] [['T']] _ _ (by simp [namelessRows]) (by simp)))

end Spine

end CoordinatorCore
