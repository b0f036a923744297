import CoordinatorCore.Spine.Reassembly
import CoordinatorCore.Spine.WriteRead

/-!
# A YAML of flat rows

An engine that keeps the laws of the YAML reader and writer (`yamlLaws_tableEngine`): it reads
block sequences of rows out of a table, behind blank lines, and writes each row by itself. The
witnesses of the results that rest on the laws run on it.
-/

namespace CoordinatorCore

open Text BodyBlocks Frontmatter

namespace Spine

/-! ### Cutting joined rows -/

/-- Whole lines are cut cleanly. -/
theorem Whole.cleanCut {s : Text} (h : Whole s) (t : Text) : CleanCut s t := by
  rcases h with rfl | h
  · exact cleanCut_nil t
  · obtain ⟨s, rfl⟩ := List.getLast?_eq_some_iff.mp (eq_of_beq h)
    exact cleanCut_concat.mpr ⟨by decide, fun he => absurd he (by decide)⟩

/-- Rows are grouped on their own when the second text starts with one. -/
theorem groupRows_append {lines lines' : List Text}
    (h : lines'.takeWhile (fun l => !startsRow l) = []) :
    groupRows (lines ++ lines') = groupRows lines ++ groupRows lines' := by
  induction lines with
  | nil => rfl
  | cons ln lines ih =>
    have htake : (lines ++ lines').takeWhile (fun l => !startsRow l) =
        lines.takeWhile fun l => !startsRow l := by
      rw [List.takeWhile_append, h, List.append_nil]
      split_ifs with hlen
      · exact ((List.takeWhile_prefix _).eq_of_length hlen).symm
      · rfl
    rw [List.cons_append, groupRows, groupRows, ih, htake]
    split_ifs <;> rfl

/-- The text is one chunk. -/
def OneChunk (c : Text) : Prop := splitRowChunks c = ([], [c])

instance (c : Text) : Decidable (OneChunk c) := inferInstanceAs (Decidable (_ = _))

/-- Joined chunks are cut where they were joined. -/
theorem splitRowChunks_join {front : Text} {chunks : List Text} (hfront : Whole front)
    (hnone : splitRowChunks front = (front, [])) (hchunks : ∀ c ∈ chunks, OneChunk c)
    (hends : ∀ c ∈ chunks.dropLast, endsWithNewline c = true) :
    splitRowChunks (front ++ chunks.flatten) = (front, chunks) := by
  -- each chunk starts a row and ends with a line, so the cuts fall between them
  have hlines : (splitlinesKeep chunks.flatten).takeWhile (fun l => !startsRow l) = [] ∧
      (groupRows (splitlinesKeep chunks.flatten)).map List.flatten = chunks := by
    induction chunks with
    | nil => exact ⟨rfl, rfl⟩
    | cons c chunks ih =>
      obtain ⟨hc, hrest⟩ := List.forall_mem_cons.mp hchunks
      obtain ⟨hfst, hsnd⟩ := Prod.mk.inj hc
      have hne : ∀ {ls : List Text}, ls.flatten = [] → (∀ l ∈ ls, l ≠ []) → ls = [] := by
        intro ls hls hmem
        cases ls with
        | nil => rfl
        | cons l ls => exact absurd (List.append_eq_nil_iff.mp hls).1 (hmem l List.mem_cons_self)
      have htake : (splitlinesKeep c).takeWhile (fun l => !startsRow l) = [] :=
        hne hfst fun l hl => ne_nil_of_mem_splitlinesKeep (List.takeWhile_subset _ hl)
      cases chunks with
      | nil =>
        rw [List.flatten_singleton]
        exact ⟨htake, hsnd⟩
      | cons c' chunks =>
        obtain ⟨hend, hends⟩ := List.forall_mem_cons.mp hends
        obtain ⟨htake', hgroups⟩ := ih hrest hends
        have hcut := splitlinesKeep_append (Whole.cleanCut (.inr hend) (c' :: chunks).flatten)
        rw [List.flatten_cons, hcut]
        refine ⟨?_, ?_⟩
        · rw [List.takeWhile_append, htake]
          split_ifs with hlen
          · rw [htake', List.append_nil]
            exact List.eq_nil_of_length_eq_zero hlen.symm
          · rfl
        · rw [groupRows_append htake', List.map_append, hgroups, hsnd]
          rfl
  obtain ⟨htake, hgroups⟩ := hlines
  obtain ⟨hfst, hsnd⟩ := Prod.mk.inj hnone
  have hall := takeWhile_of_groupRows_eq_nil (List.map_eq_nil_iff.mp hsnd)
  rw [splitRowChunks, splitlinesKeep_append (hfront.cleanCut _)]
  simp only [List.takeWhile_append, hall, if_true, htake, List.append_nil, flatten_splitlinesKeep,
    groupRows_append htake, List.map_append, hgroups, hsnd, List.nil_append]

/-! ### The engine -/

/-- A row as the engine dumps it. -/
def tableDump : Val → Text
  | .map [] => "- {}\n".toList
  | .map (e :: row) => flatRow (e :: row)
  | _ => "- \n".toList

/-- The row of the table that the chunk dumps, with or without its final line feed. -/
def tableRow (known : List Dict) (c : Text) : Option Dict :=
  known.find? fun row => tableDump (.map row) == ended c

/-- A block sequence of rows of the table, behind blank lines. -/
def tableLoad (known : List Dict) (t : Text) : Option Val :=
  if t.head? = some '[' then some (.seq [])
  else if !(splitRowChunks t).1.all isSpace then none
  else if (splitRowChunks t).2.isEmpty then some .null
  else ((splitRowChunks t).2.mapM (tableRow known)).map fun rows => .seq (rows.map .map)

/-- An engine that reads and writes the rows of a table. -/
def tableEngine (E : Engine) (known : List Dict) : Engine :=
  { E with
    loadSpineYaml := tableLoad known
    safeLoad := tableLoad known
    dumpRows := fun rows => if rows.isEmpty then "[]\n".toList else rows.flatMap tableDump }

/-- The rows of a table have string keys, and their dumps are chunks with one final line feed. -/
structure TableRow (row : Dict) : Prop where
  keyed : Keyed row
  whole : OneChunk (tableDump (.map row))
  chunk : OneChunk (tableDump (.map row)).dropLast
  chomp : ended (tableDump (.map row)).dropLast = tableDump (.map row)

private theorem tableDump_eq (v : Val) : ∃ t, tableDump v = "- ".toList ++ t ∧
    endsWithNewline t = true := by
  have hline : ∀ e : (Val × Val) × Nat, ∃ t, ((if e.2 = 0 then "- ".toList else "  ".toList) ++
      flatScalar e.1.1 ++ ": ".toList ++ flatScalar e.1.2 ++ "\n".toList) =
        (if e.2 = 0 then "- ".toList else "  ".toList) ++ t ∧ endsWithNewline t = true := by
    intro e
    refine ⟨flatScalar e.1.1 ++ ": ".toList ++ flatScalar e.1.2 ++ "\n".toList, by simp, ?_⟩
    rw [endsWithNewline, List.getLast?_append]
    rfl
  cases v with
  | map row =>
    cases row with
    | nil => exact ⟨"{}\n".toList, rfl, rfl⟩
    | cons e row =>
      rw [tableDump, flatRow, List.zipIdx_cons, List.flatMap_cons]
      obtain ⟨t, ht, hend⟩ := hline (e, 0)
      rw [ht, if_pos rfl, List.append_assoc]
      refine ⟨_, rfl, ((Whole.append (.inr hend) (whole_flatten fun u hu => ?_)).resolve_left ?_)⟩
      · obtain ⟨f, -, rfl⟩ := List.mem_map.mp hu
        obtain ⟨t, ht, hend⟩ := hline f
        rw [ht]
        refine .inr ?_
        rw [endsWithNewline, beq_iff_eq] at hend ⊢
        rw [List.getLast?_append, hend]
        rfl
      · intro hnil
        rw [(List.append_eq_nil_iff.mp hnil).1] at hend
        cases hend
  | _ => exact ⟨"\n".toList, rfl, rfl⟩

section Table

variable {known : List Dict} {t : Text}

private theorem tableLoad_eq_null (h : tableLoad known t = some .null) :
    t.head? ≠ some '[' ∧ t.all isSpace = true ∧ splitRowChunks t = (t, []) := by
  rw [tableLoad] at h
  split_ifs at h with hhead hblank hnone
  · cases h
  · have hnil := List.isEmpty_iff.mp hnone
    have hfront := splitRowChunks_of_nil hnil
    rw [hfront] at hblank
    exact ⟨hhead, by simpa using hblank, Prod.ext hfront hnil⟩
  · obtain ⟨rows, -, hrows⟩ := Option.map_eq_some_iff.mp h
    cases hrows

/-- The front and the chunks are the text. -/
theorem flatten_splitRowChunks (t : Text) :
    (splitRowChunks t).1 ++ (splitRowChunks t).2.flatten = t := by
  have hlines : ∀ lines : List Text, (lines.takeWhile fun l => !startsRow l) ++
      (groupRows lines).flatten = lines := by
    intro lines
    induction lines with
    | nil => rfl
    | cons ln lines ih =>
      cases hln : startsRow ln with
      | true => simpa [groupRows, hln] using ih
      | false => simpa [groupRows, hln] using ih
  have hflat := congrArg List.flatten (hlines (splitlinesKeep t))
  rwa [List.flatten_append, flatten_splitlinesKeep, List.flatten_flatten] at hflat

private theorem mapM_eq_some_iff {α β : Type} {f : α → Option β} {as : List α} {bs : List β} :
    as.mapM f = some bs ↔ List.Forall₂ (fun a b => f a = some b) as bs := by
  induction as generalizing bs with
  | nil => simp [eq_comm]
  | cons a as ih =>
    simp only [List.mapM_cons, Option.bind_eq_bind, Option.bind_eq_some_iff, Option.pure_def,
      Option.some.injEq, ih, List.forall₂_cons_left_iff, eq_comm (b := bs)]
    exact ⟨fun ⟨b, hb, bs', hbs, h⟩ => ⟨b, bs', hb, hbs, h⟩,
      fun ⟨b, bs', hb, hbs, h⟩ => ⟨b, hb, bs', hbs, h⟩⟩

/-- What a chunk that loads to one row is. -/
private theorem tableLoad_eq_row {v : Val} (hdash : t.head? = some '-')
    (h : tableLoad known t = some (.seq [v])) :
    OneChunk t ∧ ∃ row, tableRow known t = some row ∧ v = .map row := by
  rw [tableLoad] at h
  split_ifs at h with hhead hblank
  · cases h
  · cases h
  · obtain ⟨rows, hrows, hv⟩ := Option.map_eq_some_iff.mp h
    have hsplit := flatten_splitRowChunks t
    have hfront : (splitRowChunks t).1 = [] := by
      cases hfst : (splitRowChunks t).1 with
      | nil => rfl
      | cons c s =>
        rw [← hsplit, hfst, List.cons_append, List.head?_cons, Option.some.injEq] at hdash
        rw [hfst, hdash] at hblank
        exact absurd rfl hblank
    have hall := mapM_eq_some_iff.mp hrows
    obtain ⟨row, rfl, rfl⟩ := List.map_eq_singleton_iff.mp (Val.seq.inj hv)
    obtain ⟨c, _, hc, hnil, hcs⟩ := List.forall₂_cons_right_iff.mp hall
    rw [List.forall₂_nil_right_iff.mp hnil] at hcs
    rw [hfront, List.nil_append, hcs, List.flatten_singleton] at hsplit
    subst hsplit
    exact ⟨Prod.ext hfront hcs, row, hc, rfl⟩

private theorem tableLoad_of_tableRow {row : Dict} (hone : OneChunk t)
    (hdash : t.head? = some '-') (h : tableRow known t = some row) :
    tableLoad known t = some (.seq [.map row]) := by
  rw [OneChunk] at hone
  rw [tableLoad, if_neg (by rw [hdash]; decide), hone]
  simp [h]

/-- Rows that load alone load together. -/
private theorem tableLoad_join {front : Text} {chunks : List Text} {values : List Val}
    (hfront : Whole front) (hnull : tableLoad known front = some .null) (hne : chunks ≠ [])
    (hdash : ∀ c ∈ chunks, c.head? = some '-')
    (hends : ∀ c ∈ chunks.dropLast, endsWithNewline c = true)
    (hvalues : List.Forall₂ (fun c v => tableLoad known c = some (.seq [v])) chunks values) :
    tableLoad known (front ++ chunks.flatten) = some (.seq values) := by
  obtain ⟨hhead, hblank, hnone⟩ := tableLoad_eq_null hnull
  obtain ⟨hone, rows, hrows, rfl⟩ : (∀ c ∈ chunks, OneChunk c) ∧ ∃ rows : List Dict,
      List.Forall₂ (fun c row => tableRow known c = some row) chunks rows ∧
        values = rows.map .map := by
    clear hne hends
    induction hvalues with
    | nil => exact ⟨by simp, [], .nil, rfl⟩
    | @cons c v chunks values hc _ ih =>
      obtain ⟨hdashc, hdash⟩ := List.forall_mem_cons.mp hdash
      obtain ⟨hones, rows, hrows, rfl⟩ := ih hdash
      obtain ⟨hone, row, hrow, rfl⟩ := tableLoad_eq_row hdashc hc
      exact ⟨List.forall_mem_cons.mpr ⟨hone, hones⟩, row :: rows, .cons hrow hrows, rfl⟩
  have hcut := splitRowChunks_join hfront hnone hone hends
  have hstart : (front ++ chunks.flatten).head? ≠ some '[' := by
    cases front with
    | cons c front => exact hhead
    | nil =>
      obtain ⟨c, chunks, rfl⟩ := List.exists_cons_of_ne_nil hne
      rw [List.nil_append, List.flatten_cons, List.head?_append, hdash c List.mem_cons_self]
      exact fun h => absurd (Option.some.inj h) (by decide)
  rw [tableLoad, if_neg hstart, hcut]
  dsimp only
  rw [hblank, mapM_eq_some_iff.mpr hrows]
  simp [hne]

end Table

/-- The engine on a table keeps the laws; its texts declare no anchors. -/
theorem yamlLaws_tableEngine {E : Engine} {known : List Dict} (hknown : ∀ row ∈ known, TableRow row) :
    YamlLaws (tableEngine E known) fun _ => [] where
  load_rows := fun hidle hnull hne hdash hends _ _ hvalues =>
    tableLoad_join hidle.whole hnull hne hdash hends hvalues
  load_chomp := by
    intro c row hdash hend hload _
    obtain ⟨-, row', hrow, heq⟩ := tableLoad_eq_row hdash hload
    obtain rfl := Val.map.inj heq
    rw [tableRow, ended_of_endsWithNewline hend] at hrow
    have hdump := List.find?_some hrow
    rw [beq_iff_eq] at hdump
    obtain ⟨-, -, hchunk, hchomp⟩ := hknown row (List.mem_of_find?_eq_some hrow)
    rw [hdump] at hchunk hchomp
    -- without its line feed the chunk still starts with the dash
    have hdash' : c.dropLast.head? = some '-' := by
      obtain ⟨t, rfl⟩ := List.head?_eq_some_iff.mp hdash
      cases t with
      | nil => cases hend
      | cons d t => rfl
    refine ⟨row, tableLoad_of_tableRow hchunk hdash' ?_, rfl, fun _ _ => rfl⟩
    rwa [tableRow, hchomp]
  load_keys := by
    intro t items row hload hmem
    change tableLoad known t = _ at hload
    rw [tableLoad] at hload
    split_ifs at hload
    · cases hload
      cases hmem
    · cases hload
    · obtain ⟨rows, hrows, heq⟩ := Option.map_eq_some_iff.mp hload
      obtain rfl := Val.seq.inj heq
      obtain ⟨row', hmem', heq⟩ := List.mem_map.mp hmem
      obtain rfl := Val.map.inj heq
      -- each row read is one of the table, whose keys differ
      have hall : ∀ {cs rows}, List.Forall₂ (fun c row => tableRow known c = some row) cs rows →
          ∀ row ∈ rows, row ∈ known := by
        intro cs rows h
        induction h with
        | nil => simp
        | cons hc _ ih => exact List.forall_mem_cons.mpr ⟨List.mem_of_find?_eq_some hc, ih⟩
      have hkeyed := (hknown row' (hall (mapM_eq_some_iff.mp hrows) row' hmem')).keyed.nodup
      rw [List.Nodup, List.pairwise_map] at hkeyed
      exact hkeyed.imp fun hne k he hf => hne (he.trans hf.symm)
  load_dump := by
    intro rows values h
    cases h with
    | nil => rfl
    | @cons row v rows values hrow hrows =>
      -- a dump of rows is the dumps of the single rows, one behind the other
      have hsingle : ∀ row : Val, (tableEngine E known).dumpRows [row] = tableDump row := fun row => by
        change [row].flatMap tableDump = _
        rw [List.flatMap_singleton]
      simp only [hsingle] at hrow hrows
      have hall : List.Forall₂ (fun c v => tableLoad known c = some (.seq [v]))
          ((row :: rows).map tableDump) (v :: values) :=
        List.forall₂_map_left_iff.mpr (.cons hrow hrows)
      change tableLoad known ([] ++ ((row :: rows).map tableDump).flatten) = _
      refine tableLoad_join (.inl rfl) rfl (by simp) (fun c hc => ?_) (fun c hc => ?_) hall
      · obtain ⟨w, -, rfl⟩ := List.mem_map.mp hc
        obtain ⟨t, ht, -⟩ := tableDump_eq w
        rw [ht]
        rfl
      · obtain ⟨w, -, rfl⟩ := List.mem_map.mp (List.dropLast_subset _ hc)
        obtain ⟨t, ht, hend⟩ := tableDump_eq w
        rw [endsWithNewline, beq_iff_eq] at hend ⊢
        rw [ht, List.getLast?_append, hend]
        rfl
  dump_row := fun row => by
    change ∃ t, [Val.map row].flatMap tableDump = _ ∧ _
    rw [List.flatMap_singleton]
    exact tableDump_eq (.map row)

/-! ### Reading the table -/

/-- A row with distinct text keys is keyed. -/
theorem keyed_of_keys {row : Dict} (keys : List Text) (h : row.map Prod.fst = keys.map .str)
    (hnodup : keys.Nodup) (hends : ∀ k ∈ keys, endsWithNewline k = false) : Keyed row where
  nodup := by
    rw [h]
    exact hnodup.map fun _ _ => Val.str.inj
  strings := fun e he => by
    obtain ⟨k, hk, heq⟩ := List.mem_map.mp (h ▸ List.mem_map_of_mem he)
    exact ⟨k, heq.symm, hends k hk⟩

section Known

variable {E : Engine} {known : List Dict}

/-- A text is read off the places of its chunks in the table. -/
theorem tableLoad_of_findIdx {t : Text} (places : List Nat) {rows : List Dict}
    (hdash : t.head? = some '-') (hfront : (splitRowChunks t).1 = [])
    (hcut : (splitRowChunks t).2.map (fun c =>
      known.findIdx? fun row => tableDump (.map row) == ended c) = places.map some)
    (hrows : places.map (fun i => known[i]?) = rows.map some) (hne : rows ≠ []) :
    tableLoad known t = some (.seq (rows.map .map)) := by
  have hfind : ∀ c, tableRow known c =
      (known.findIdx? fun row => tableDump (.map row) == ended c).bind (known[·]?) := fun c => by
    rw [tableRow, List.find?_eq_bind_findIdx?_getElem?]
  have hmap : (splitRowChunks t).2.map (tableRow known) = rows.map some := by
    have hplaces := congrArg (List.map fun o : Option Nat => o.bind fun i => known[i]?) hcut
    rw [List.map_map, List.map_map] at hplaces
    rw [funext hfind]
    exact hplaces.trans hrows
  have hall : List.Forall₂ (fun c row => tableRow known c = some row) (splitRowChunks t).2 rows := by
    rw [← List.forall₂_map_right_iff (f := some), ← List.forall₂_map_left_iff (f := tableRow known),
      hmap, List.forall₂_same]
    exact fun _ _ => rfl
  have hcs : (splitRowChunks t).2.isEmpty = false := by
    rw [List.isEmpty_eq_false_iff, ← List.length_pos_iff, hall.length_eq]
    exact List.length_pos_iff.mpr hne
  rw [tableLoad, if_neg (by rw [hdash]; decide), hfront, hcs, mapM_eq_some_iff.mpr hall]
  rfl

/-- A dump of a row of the table reads back. -/
theorem readsAs_tableDump {row : Dict} (hrow : TableRow row) {i : Nat}
    (hi : known.findIdx? (fun r => tableDump (.map r) == tableDump (.map row)) = some i)
    (hknown : known[i]? = some row) :
    ReadsAs (tableEngine E known) (tableDump (.map row)) (rowState row) := by
  obtain ⟨t, ht, hend⟩ := tableDump_eq (.map row)
  have hwhole : endsWithNewline (tableDump (.map row)) = true := by
    rw [endsWithNewline, beq_iff_eq] at hend ⊢
    rw [ht, List.getLast?_append, hend]
    rfl
  have hfind : tableRow known (tableDump (.map row)) = some row := by
    rw [tableRow, ended_of_endsWithNewline hwhole, List.find?_eq_bind_findIdx?_getElem?, hi]
    exact hknown
  refine ⟨row, tableLoad_of_tableRow hrow.whole (by rw [ht]; rfl) hfind, rfl, fun e he => ?_⟩
  obtain ⟨k, hk, hends⟩ := hrow.keyed.strings e he
  rw [hk, settled, hends]
  rfl

/-- Every row of a table has a text of one chunk, which no row in front of it has. -/
def TableTexts (known : List Dict) : Prop :=
  ∀ e ∈ known.zipIdx, OneChunk (tableDump (.map e.1)) ∧ OneChunk (tableDump (.map e.1)).dropLast ∧
    ended (tableDump (.map e.1)).dropLast = tableDump (.map e.1) ∧
      (known.findIdx? fun row => tableDump (.map row) == tableDump (.map e.1)) = some e.2

instance : Decidable (TableTexts known) :=
  inferInstanceAs (Decidable (∀ e ∈ known.zipIdx, _))

/-- A keyed row of the list is a row of the table. -/
theorem TableTexts.tableRow (h : TableTexts known) {row : Dict} (hkeyed : Keyed row) {i : Nat}
    (hi : known[i]? = some row) : TableRow row := by
  obtain ⟨hwhole, hchunk, hchomp, -⟩ := h (row, i) (List.mem_zipIdx_iff_getElem?.mpr hi)
  exact ⟨hkeyed, hwhole, hchunk, hchomp⟩

/-- The table reads its own dump. -/
theorem TableTexts.readsAs (h : TableTexts known) {row : Dict} (hkeyed : Keyed row) {i : Nat}
    (hi : known[i]? = some row) :
    ReadsAs (tableEngine E known) (tableDump (.map row)) (rowState row) :=
  readsAs_tableDump (h.tableRow hkeyed hi) (h (row, i) (List.mem_zipIdx_iff_getElem?.mpr hi)).2.2.2
    hi

theorem dumpRows_tableEngine (row : Dict) :
    (tableEngine E known).dumpRows [.map row] = tableDump (.map row) := by
  simp [tableEngine]

/-- The engine of the table reads what it dumps. -/
theorem TableTexts.readsAs_dumpRows (h : TableTexts known) {row : Dict} (hkeyed : Keyed row)
    {i : Nat} (hi : known[i]? = some row) :
    ReadsAs (tableEngine E known) ((tableEngine E known).dumpRows [.map row]) (rowState row) :=
  dumpRows_tableEngine row ▸ h.readsAs hkeyed hi

end Known

/-- The keys and texts of a row of strings. -/
def flatTexts : Val → Option (List (Text × Text))
  | .map row => row.mapM fun e => match e with
    | (.str k, .str s) => some (k, s)
    | _ => none
  | _ => none

private theorem eq_of_flatTexts {v : Val} {l : List (Text × Text)} (h : flatTexts v = some l) :
    v = .map (l.map fun e => (.str e.1, .str e.2)) := by
  cases v with
  | map row =>
    rw [flatTexts, mapM_eq_some_iff] at h
    congr 1
    induction h with
    | nil => rfl
    | @cons e f row l he _ ih =>
      rw [List.map_cons, ← ih]
      congr 1
      obtain ⟨k, v⟩ := e
      cases k <;> cases v <;> simp at he
      rw [← he]
  | _ => cases h

/-- Rows of strings are known by their keys and texts. -/
theorem eq_of_map_flatTexts {vs ws : List Val} (h : vs.map flatTexts = ws.map flatTexts)
    (hws : ∀ w ∈ ws, (flatTexts w).isSome) : vs = ws := by
  induction ws generalizing vs with
  | nil => exact List.map_eq_nil_iff.mp h
  | cons w ws ih =>
    obtain ⟨v, vs, rfl⟩ := List.exists_cons_of_ne_nil (l := vs) (by rintro rfl; cases h)
    obtain ⟨hv, hvs⟩ := List.cons.inj h
    obtain ⟨hw, hws⟩ := List.forall_mem_cons.mp hws
    obtain ⟨l, hl⟩ := Option.isSome_iff_exists.mp hw
    rw [eq_of_flatTexts (hv.trans hl), eq_of_flatTexts hl, ih hvs hws]

end Spine

end CoordinatorCore
