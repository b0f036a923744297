import CoordinatorCore.BodyBlocks.Splice
import CoordinatorCore.Spine.Verbs

/-!
# What is written is read back

`add-task` and `stamp` dump the whole row list and put it in the place of the old fence body. The
next reader locates the fence anew, in a text whose data are now different. The rows dumped are the
intended ones (`Intends`): the old rows with the task behind the last one of its rank, or each row
with the fields of its update. The next reader finds them if and only if the splice is safe: no
comment runs across the ends of the body (`spineWrite_reads_back_iff`).
-/

namespace CoordinatorCore

open Text BodyBlocks Frontmatter

namespace Spine

variable {E : Engine}

/-! ### The text around the body -/

/-- A located text cut at its body. -/
theorem exists_of_located {old body : Text} {start stop : Nat}
    (h : locateFencedBlock old = .located body start stop) :
    FencedIn (old.take start) body (old.drop stop) ∧
      old = old.take start ++ (body ++ old.drop stop) ∧ (old.take start).length = start ∧
        start + body.length = stop := by
  obtain ⟨pre, post, rfl, rfl, rfl, hf⟩ := locateFencedBlock_eq_located.mp h
  have htake : (pre ++ (body ++ post)).take pre.length = pre := List.take_left
  have hdrop : (pre ++ (body ++ post)).drop (pre.length + body.length) = post := by
    rw [← List.drop_drop, List.drop_left, List.drop_left]
  rw [htake, hdrop]
  exact ⟨hf, rfl, rfl, rfl⟩

section Splice

variable {old body B : Text} {start stop : Nat}

/-- Nothing in front of the body changes. -/
theorem take_spliceBody (h : locateFencedBlock old = .located body start stop) :
    (spliceBody old start stop B).take start = old.take start := by
  obtain ⟨-, -, hlen, -⟩ := exists_of_located h
  rw [spliceBody, List.take_append_of_le_length hlen.ge, List.take_of_length_le hlen.le]

/-- Nothing behind the body changes. -/
theorem drop_spliceBody (h : locateFencedBlock old = .located body start stop) :
    (spliceBody old start stop B).drop (start + B.length) = old.drop stop := by
  obtain ⟨-, -, hlen, -⟩ := exists_of_located h
  nth_rewrite 1 [spliceBody, ← hlen]
  rw [← List.drop_drop, List.drop_left, List.drop_left]

/-- The spliced text is located with the new body when the three texts fit together. -/
theorem locate_spliceBody (h : locateFencedBlock old = .located body start stop)
    (hf : FencedIn (old.take start) B (old.drop stop)) :
    locateFencedBlock (spliceBody old start stop B) =
      .located B start (start + B.length) := by
  obtain ⟨-, -, hlen, -⟩ := exists_of_located h
  exact locateFencedBlock_eq_located.mpr ⟨_, _, rfl, hlen.symm, rfl, hf⟩

/-- Conversely, a located body between the old surroundings is the new body. -/
theorem fencedIn_of_located_spliceBody {body' : Text} {start' stop' : Nat}
    (hloc : locateFencedBlock (spliceBody old start stop B) = .located body' start' stop')
    (htake : (spliceBody old start stop B).take start' = old.take start)
    (hdrop : (spliceBody old start stop B).drop stop' = old.drop stop) :
    body' = B ∧ FencedIn (old.take start) B (old.drop stop) := by
  obtain ⟨hf, hnew, -, -⟩ := exists_of_located hloc
  rw [htake, hdrop] at hf hnew
  rw [spliceBody] at hnew
  have hbody : body' = B :=
    (List.append_cancel_right (List.append_cancel_left hnew)).symm
  exact ⟨hbody, hbody ▸ hf⟩

end Splice

/-! ### The two writers -/

/-- A call that dumps the whole spine. -/
inductive WholeWrite
  | addTask (task : Dict)
  | stamp (updates : List Params)

namespace WholeWrite

/-- The `mutate` of the call. -/
def mutate (E : Engine) : WholeWrite → Text → Except Refusal Text
  | .addTask task => Spine.addTask E task
  | .stamp updates => Spine.stamp E updates

end WholeWrite

/-! ### The intended rows -/

/-- The task stands behind the last old row of an equal or earlier grouping; the old rows are there,
as they were. -/
def Inserted (task : Dict) (rows newRows : List Val) : Prop :=
  ∃ front back, rows = front ++ back ∧ newRows = front ++ .map task :: back ∧
    (∀ v ∈ back, ∃ row, v = .map row ∧ rowRank task < rowRank row) ∧
      ∀ v, front.getLast? = some v → ¬ ∃ row, v = .map row ∧ rowRank task < rowRank row

/-- The last row of an id stands here. -/
def LastNamed (id : Val) (rows : List Val) (i : Nat) : Prop :=
  (∃ row, rows[i]? = some (.map row) ∧ (rowId row).pyEq id = true) ∧
    ∀ j row, i < j → rows[j]? = some (.map row) → (rowId row).pyEq id = false

/-- The row has the fields of the update, `None` for a field that is dropped, and its others as
before. The id is none of the fields. -/
structure Updated (u : Params) (row row' : Dict) : Prop where
  written : ∀ front k v back, u = front ++ (k, v) :: back → k ≠ "id".toList →
    (∀ e ∈ back, e.1 ≠ k) → row'.get k = v ∧ (row'.mem k = true ↔ v ≠ .null)
  kept : ∀ k, (k = "id".toList ∨ ∀ e ∈ u, e.1 ≠ k) →
    row'.get k = row.get k ∧ row'.mem k = row.mem k

/-- Each update changes the last row of its id; the other rows are as they were. -/
structure Stamped (updates : List Params) (rows newRows : List Val) : Prop where
  updated : ∀ u ∈ updates, ∀ i row, LastNamed (u.get "id".toList) rows i →
    rows[i]? = some (.map row) → ∃ row', newRows[i]? = some (.map row') ∧ Updated u row row'
  other : ∀ i, (∀ u ∈ updates, ¬ LastNamed (u.get "id".toList) rows i) → newRows[i]? = rows[i]?

namespace WholeWrite

/-- The rows a call is meant to leave. -/
def Intends : WholeWrite → List Val → List Val → Prop
  | .addTask task => Inserted task
  | .stamp updates => Stamped updates

end WholeWrite

theorem inserted_insertByRank (task : Dict) (rows : List Val) :
    Inserted task rows (insertByRank task rows) := by
  refine ⟨_, _, List.rdropWhile_append_rtakeWhile.symm, rfl, fun v hv => ?_, fun v hlast h => ?_⟩
  · have habove := List.mem_rtakeWhile_imp hv
    rw [Option.any_eq_true] at habove
    obtain ⟨row, hrow, hlt⟩ := habove
    exact ⟨row, Val.asDict_eq_some.mp hrow, of_decide_eq_true hlt⟩
  · obtain ⟨row, rfl, hlt⟩ := h
    obtain ⟨hne, heq⟩ := List.mem_getLast?_eq_getLast hlast
    have hnot := List.rdropWhile_last_not _ _ hne
    rw [← heq] at hnot
    exact hnot (by simpa using hlt)

private theorem lastTrue_eq_some_iff {bs : List Bool} {i : Nat} :
    lastTrue bs = some i ↔ bs[i]? = some true ∧ ∀ j, i < j → bs[j]? ≠ some true := by
  -- no last place where there is none
  have hnone : ∀ {bs : List Bool}, lastTrue bs = none ↔ ∀ j : Nat, bs[j]? ≠ some true := by
    intro bs
    induction bs with
    | nil => simp [lastTrue]
    | cons b bs ih =>
      rw [lastTrue]
      cases hbs : lastTrue bs with
      | some k =>
        refine iff_of_false (fun h => by cases h) fun h => ?_
        rw [ih.mpr fun j => h (j + 1)] at hbs
        cases hbs
      | none =>
        have hrest := ih.mp hbs
        cases b with
        | true => exact iff_of_false (fun h => by cases h) fun h => h 0 rfl
        | false =>
          refine iff_of_true rfl fun j => ?_
          cases j with
          | zero => exact fun h => by cases h
          | succ j => exact hrest j
  -- the last place of the rest, if there is one, is the last of all
  induction bs generalizing i with
  | nil => simp [lastTrue]
  | cons b bs ih =>
    rw [lastTrue]
    cases hbs : lastTrue bs with
    | some k =>
      obtain ⟨hk, hafter⟩ := ih.mp hbs
      constructor
      · intro h
        cases h
        refine ⟨hk, fun j hj => ?_⟩
        obtain ⟨j, rfl⟩ : ∃ m, j = m + 1 := ⟨j - 1, by omega⟩
        exact hafter j (by omega)
      · rintro ⟨hi, hlast⟩
        cases i with
        | zero => exact absurd hk (hlast (k + 1) (Nat.succ_pos k))
        | succ i =>
          have hsome := ih.mpr ⟨hi, fun j hj => hlast (j + 1) (Nat.succ_lt_succ hj)⟩
          rw [hbs] at hsome
          exact congrArg (Option.map (· + 1)) hsome
    | none =>
      have hrest := hnone.mp hbs
      cases i with
      | zero =>
        cases b with
        | true =>
          refine iff_of_true rfl ⟨rfl, fun j hj => ?_⟩
          obtain ⟨j, rfl⟩ : ∃ m, j = m + 1 := ⟨j - 1, by omega⟩
          exact hrest j
        | false => exact iff_of_false (fun h => by cases h) fun h => by cases h.1
      | succ i =>
        refine iff_of_false (fun h => ?_) fun h => hrest i h.1
        dsimp only at h
        split_ifs at h
        cases h

/-- A row is found by its id where the last row of that id stands. -/
theorem lastWithId_eq_some_iff {id : Val} {rows : List Val} {i : Nat} :
    lastWithId id rows = some i ↔ LastNamed id rows i := by
  have hhas : ∀ j : Nat, (rows.map (hasId id))[j]? = some true ↔
      ∃ row, rows[j]? = some (.map row) ∧ (rowId row).pyEq id = true := by
    intro j
    rw [List.getElem?_map, Option.map_eq_some_iff]
    constructor
    · rintro ⟨v, hv, hid⟩
      rw [hasId, Option.any_eq_true] at hid
      obtain ⟨row, hrow, hid⟩ := hid
      exact ⟨row, Val.asDict_eq_some.mp hrow ▸ hv, hid⟩
    · rintro ⟨row, hrow, hid⟩
      exact ⟨_, hrow, hid⟩
  rw [lastWithId, lastTrue_eq_some_iff, hhas]
  refine and_congr_right fun _ => forall_congr' fun j => ?_
  simp only [ne_eq, hhas, not_exists, not_and, Bool.not_eq_true]
  exact ⟨fun h row hj => h hj row, fun h hj row => h row hj⟩

private theorem mem_set_self (d : Dict) (k : Text) (v : Val) : (d.set k v).mem k = true := by
  rw [Dict.set]
  split_ifs with h
  · rw [Dict.mem, List.any_map]
    obtain ⟨e, he, hk⟩ := List.any_eq_true.mp h
    refine List.any_eq_true.mpr ⟨e, he, ?_⟩
    rw [Function.comp_apply, if_pos hk]
    rwa [Dict.hasKey_iff] at hk ⊢
  · rw [Dict.mem, List.any_append, Bool.or_eq_true]
    exact .inr (List.any_eq_true.mpr ⟨_, List.mem_singleton_self _, Dict.hasKey_iff.mpr rfl⟩)

private theorem mem_pop_self (d : Dict) (k : Text) : (d.pop k).mem k = false := by
  rw [Dict.mem, List.any_eq_false]
  intro e he
  simpa using (List.mem_filter.mp he).2

/-- The fields of a row after an update. -/
theorem updated_applyUpdate (u : Params) (row : Dict) : Updated u row (applyUpdate u row) := by
  induction u generalizing row with
  | nil =>
    refine ⟨fun front k v back h => ?_, fun _ _ => ⟨rfl, rfl⟩⟩
    cases front <;> cases h
  | cons e u ih =>
    obtain ⟨hwritten, hkept⟩ := ih (applyField row e)
    -- one field, and what the later ones leave of it
    have hfield : ∀ k, k = "id".toList ∨ e.1 ≠ k →
        (applyField row e).get k = row.get k ∧ (applyField row e).mem k = row.mem k := by
      intro k hk
      rw [applyField]
      split_ifs with hid
      · exact ⟨rfl, rfl⟩
      · have hne : e.1 ≠ k := hk.elim (fun h h' => hid (h'.trans h)) id
        split
        · exact ⟨Dict.get_pop_of_ne hne row, Dict.mem_pop_of_ne hne row⟩
        · exact ⟨Dict.get_set_of_ne hne row _, Dict.mem_set_of_ne hne row _⟩
    constructor
    · intro front k v back h hid hback
      cases front with
      | nil =>
        obtain ⟨rfl, rfl⟩ := List.cons.inj h
        obtain ⟨hget, hmem⟩ := hkept k (.inr hback)
        refine ⟨hget.trans ?_, ?_⟩
        · rw [applyField, if_neg hid]
          split
          next hv => rw [Dict.get_pop_self]; exact hv.symm
          next => exact Dict.get_set_self row k v
        · change ((applyUpdate u (applyField row (k, v))).mem k = true ↔ _)
          rw [hmem, applyField, if_neg hid]
          split
          next hv => exact iff_of_false (by simp [mem_pop_self]) (not_not.mpr hv)
          next hv => exact iff_of_true (mem_set_self row k v) hv
      | cons f front =>
        obtain ⟨rfl, hu⟩ := List.cons.inj h
        exact hwritten front k v back hu hid hback
    · intro k hk
      have hrest : k = "id".toList ∨ ∀ f ∈ u, f.1 ≠ k :=
        hk.imp_right fun h f hf => h f (List.mem_cons_of_mem e hf)
      have hhead : k = "id".toList ∨ e.1 ≠ k := hk.imp_right fun h => h e (List.mem_cons_self ..)
      exact ⟨(hkept k hrest).1.trans (hfield k hhead).1, (hkept k hrest).2.trans (hfield k hhead).2⟩

/-- A batch whose updates name different rows stamps them. -/
theorem stamped_stampedRows {updates : List Params} {rows : List Val}
    (hapart : updates.Pairwise fun a b => ∀ i, lastWithId (a.get "id".toList) rows = some i →
      lastWithId (b.get "id".toList) rows ≠ some i) :
    Stamped updates rows (stampedRows updates rows) := by
  have hfind : ∀ {i : Nat} {u : Params}, u ∈ updates →
      lastWithId (u.get "id".toList) rows = some i →
      updates.find? (fun u => lastWithId (u.get "id".toList) rows == some i) = some u := by
    intro i u hu hi
    induction updates with
    | nil => cases hu
    | cons w updates ih =>
      obtain ⟨hw, hrest⟩ := List.pairwise_cons.mp hapart
      rw [List.find?_cons]
      rcases List.mem_cons.mp hu with rfl | hu
      · rw [hi, beq_self_eq_true]
      · have hne : (lastWithId (w.get "id".toList) rows == some i) = false :=
          beq_eq_false_iff_ne.mpr fun h => hw u hu i h hi
        rw [hne]
        exact ih hrest hu
  constructor
  · intro u hu i row hnamed hrow
    have hi := lastWithId_eq_some_iff.mpr hnamed
    refine ⟨applyUpdate u row, ?_, updated_applyUpdate u row⟩
    rw [stampedRows, List.getElem?_mapIdx, hrow, Option.map_some, hfind hu hi]
    rfl
  · intro i hno
    have hnone : updates.find? (fun u => lastWithId (u.get "id".toList) rows == some i) = none := by
      rw [List.find?_eq_none]
      intro u hu hi
      exact hno u hu (lastWithId_eq_some_iff.mp (eq_of_beq hi))
    rw [stampedRows, List.getElem?_mapIdx, hnone]
    cases rows[i]? <;> rfl

namespace WholeWrite

/-- A successful call on a located spine splices the dump of the intended rows. -/
theorem mutate_eq_ok {call : WholeWrite} {old new body : Text} {start stop : Nat}
    (hloc : locateFencedBlock old = .located body start stop)
    (h : call.mutate E old = .ok new) : ∃ rows newRows, parseRows E body = .ok rows ∧
      call.Intends rows newRows ∧ new = spliceBody old start stop (E.dumpRows newRows) := by
  cases call with
  | addTask task =>
    obtain ⟨rows, hrows, -, -, rfl⟩ := addTask_eq_ok hloc h
    exact ⟨rows, _, hrows, inserted_insertByRank task rows, rfl⟩
  | stamp updates =>
    obtain ⟨body', start', stop', rows, hloc', hrows, hapart, -, -, rfl⟩ := stamp_eq_ok h
    rw [hloc] at hloc'
    obtain ⟨rfl, rfl, rfl⟩ := LocateResult.located.inj hloc'
    exact ⟨rows, _, hrows, stamped_stampedRows hapart, rfl⟩

end WholeWrite

/-- The YAML pair on these rows: the dump has the shape of a block dump and loads to the rows. -/
structure RoundTrips (E : Engine) (rows : List Val) : Prop where
  shape : DumpShape (E.dumpRows rows)
  load : E.loadSpineYaml (E.dumpRows rows) = some (.seq rows)

theorem RoundTrips.parseRows {rows : List Val} (h : RoundTrips E rows) :
    parseRows E (E.dumpRows rows) = .ok rows := by
  rw [Spine.parseRows, h.load]
  cases rows <;> rfl

/-- The written text reads back: it is located again, its body parses to the intended rows, and
every character outside the body is the one of the old text. -/
def ReadsBack (E : Engine) (old new : Text) (start stop : Nat) (rows : List Val) : Prop :=
  ∃ body' start' stop', locateFencedBlock new = .located body' start' stop' ∧
    parseRows E body' = .ok rows ∧ new.take start' = old.take start ∧
      new.drop stop' = old.drop stop

/-- `add-task` and `stamp` write the intended rows, and they are read back exactly when the splice is
safe. -/
theorem spineWrite_reads_back_iff {call : WholeWrite} {old new body : Text} {start stop : Nat}
    {rows : List Val} (hloc : locateFencedBlock old = .located body start stop)
    (hrows : parseRows E body = .ok rows) (hok : call.mutate E old = .ok new) :
    ∃ newRows, call.Intends rows newRows ∧
      (RoundTrips E newRows → (ReadsBack E old new start stop newRows ↔
        SpliceSafe (old.take start) (E.dumpRows newRows) (old.drop stop))) := by
  obtain ⟨rows', newRows, hrows', hintends, rfl⟩ := WholeWrite.mutate_eq_ok hloc hok
  obtain rfl : rows = rows' := Except.ok.inj (hrows.symm.trans hrows')
  refine ⟨newRows, hintends, fun hyaml => ?_⟩
  rw [← fencedIn_splice_iff (exists_of_located hloc).1 hyaml.shape]
  constructor
  · rintro ⟨body', start', stop', hloc', -, htake, hdrop⟩
    exact (fencedIn_of_located_spliceBody hloc' htake hdrop).2
  · intro hf
    exact ⟨_, _, _, locate_spliceBody hloc hf, hyaml.parseRows, take_spliceBody hloc,
      drop_spliceBody hloc⟩

/-- A plain scalar as YAML writes it. -/
def flatScalar : Val → Text
  | .str s => s
  | .bool true => "true".toList
  | .bool false => "false".toList
  | _ => []

/-- A row of plain scalars as a block sequence writes it. -/
def flatRow (row : Dict) : Text :=
  row.zipIdx.flatMap fun e => (if e.2 = 0 then "- ".toList else "  ".toList) ++
    flatScalar e.1.1 ++ ": ".toList ++ flatScalar e.1.2 ++ "\n".toList

/-- Rows of plain scalars as YAML dumps them. -/
def flatDump (rows : List Val) : Text := (rows.filterMap Val.asDict).flatMap flatRow

/-- An engine on rows of plain scalars: it loads what it dumps, for the row lists it knows. -/
def flatEngine (known : List (List Val)) : Engine :=
  let load : Text → Option Val := fun t =>
    (known.find? fun rows => flatDump rows == t || flatDump rows == t ++ ['\n']).map .seq
  { loadSpineYaml := load
    safeLoad := load
    dumpRows := flatDump
    dumpGateItem := fun item => flatDump [.map item]
    parseYaml := fun _ => none
    rowShapeOk := fun _ _ _ => true
    isAlnum := fun _ => false
    casefold := id
    strOf := fun _ => []
    sha256 := id }

/-- A row with the required fields. -/
def sampleRow (id title : Text) : Dict :=
  [(.str "id".toList, .str id), (.str "title".toList, .str title),
    (.str "change_kind".toList, .str "doc-edit".toList), (.str "surface".toList, .str ['s'])]

/-- The row that is there. -/
def sampleRows : List Val := [.map (sampleRow ['A'] ['t'])]

/-- A plan whose prose behind the fence holds an arrow. -/
def samplePlan (body : Text) : Text :=
  "## Tasks\n\n```yaml plan-tasks\n".toList ++ (body ++ "\n```\n\nflow: a --> b\n".toList)

/-- The engine on the samples, for a task with this title. -/
def sampleEngine (title : Text) : Engine :=
  flatEngine [sampleRows, sampleRows ++ [.map (sampleRow ['B'] title)]]

/-- A task with a plain title lands behind the row that is there, and the text reads back. -/
theorem spineWrite_reads_back_iff_addTask :
    ReadsBack (sampleEngine ['u']) (samplePlan (flatDump sampleRows).dropLast)
      (samplePlan (flatDump (sampleRows ++ [.map (sampleRow ['B'] ['u'])]))) 29
      (29 + (flatDump sampleRows).dropLast.length)
      (sampleRows ++ [.map (sampleRow ['B'] ['u'])]) := by
  have hloc : locateFencedBlock (samplePlan (flatDump sampleRows).dropLast) =
      .located (flatDump sampleRows).dropLast 29 (29 + (flatDump sampleRows).dropLast.length) := by
    decide
  have hok : (WholeWrite.addTask (sampleRow ['B'] ['u'])).mutate (sampleEngine ['u'])
      (samplePlan (flatDump sampleRows).dropLast) =
        .ok (samplePlan (flatDump (sampleRows ++ [.map (sampleRow ['B'] ['u'])]))) :=
    eq_ok_of_toOption (by decide +kernel)
  have hrows : parseRows (sampleEngine ['u']) (flatDump sampleRows).dropLast = .ok sampleRows := rfl
  obtain ⟨newRows, ⟨front, back, hsplit, rfl, hback, -⟩, hlaw⟩ :=
    spineWrite_reads_back_iff hloc hrows hok
  -- the row that is there is of the task's own rank
  obtain rfl : back = [] := by
    refine List.eq_nil_iff_forall_not_mem.mpr fun v hv => ?_
    have hmem : v ∈ sampleRows := hsplit ▸ List.mem_append_right front hv
    obtain ⟨row, hrow, hlt⟩ := hback v hv
    rw [List.mem_singleton.mp hmem, Val.map.injEq] at hrow
    subst hrow
    exact absurd hlt (by decide)
  rw [List.append_nil] at hsplit
  subst hsplit
  refine (hlaw ⟨dumpShape_of_lines (by decide) (by decide), rfl⟩).mpr ?_
  decide

/-- A task whose title opens a comment that the prose behind the fence closes: the closing
backticks are blanked, and the spine is gone. -/
theorem addTask_loses_fence :
    ∃ (E : Engine) (task : Dict) (old new body : Text) (start stop : Nat) (rows : List Val),
      locateFencedBlock old = .located body start stop ∧ parseRows E body = .ok rows ∧
        RoundTrips E (insertByRank task rows) ∧ addTask E task old = .ok new ∧
          locateFencedBlock new = .absent := by
  refine ⟨sampleEngine "<!--".toList, sampleRow ['B'] "<!--".toList,
    samplePlan (flatDump sampleRows).dropLast,
    samplePlan (flatDump (sampleRows ++ [.map (sampleRow ['B'] "<!--".toList)])),
    (flatDump sampleRows).dropLast, 29, 29 + (flatDump sampleRows).dropLast.length, sampleRows, ?_,
    rfl, ⟨dumpShape_of_lines ?_ ?_, rfl⟩, eq_ok_of_toOption ?_, ?_⟩
  · decide
  · decide
  · decide
  · decide +kernel
  · decide +kernel

end Spine

end CoordinatorCore
