import CoordinatorCore.Spine.RowStates
import Mathlib.Data.List.Forall2
import Mathlib.Data.List.Perm.Subperm

/-!
# Reading a reassembled body

`_patch_body` joins the text in front of the first row and one text for each row: its old chunk,
its patched chunk, or its dump. The YAML reader and writer enter by what they promise about such
texts (`YamlLaws`): rows that load alone load together, and the line feed at the end belongs to
the last scalar at most. From this the joined text is proved to load to the ids and dispositions
of the rows it was made for (`bodyStates_patchBody`).

A patched chunk is only known to load to an equal row. Equality of mappings ignores the order of
the keys, so the state of an equal row is the same where the keys are strings
(`rowState_eq_of_pyEq`).
-/

namespace CoordinatorCore

open Text BodyBlocks Frontmatter

namespace Spine

variable {E : Engine}

/-! ### What a YAML reader promises -/

/-- A document start or end mark. -/
def documentMark (ln : Text) : Bool :=
  ("---".toList.isPrefixOf ln || "...".toList.isPrefixOf ln) && (ln.drop 3).head?.all isSpace

/-- No line of the text is a document mark. -/
def OneDocument (t : Text) : Prop := ∀ ln ∈ splitlinesKeep t, documentMark ln = false

instance (t : Text) : Decidable (OneDocument t) := List.decidableBAll _ _

/-- The text ends its last line, if it has one. -/
def Whole (t : Text) : Prop := t = [] ∨ endsWithNewline t = true

instance (t : Text) : Decidable (Whole t) := instDecidableOr

/-- Blank lines and comments, each of them ended. -/
structure Idle (t : Text) : Prop where
  whole : Whole t
  lines : ∀ ln ∈ splitlinesKeep t, ∀ c ∈ (ln.dropWhile isSpace).head?, c = '#'

/-- A scalar that no final line feed belongs to. -/
def settled : Val → Bool
  | .str s => !endsWithNewline s
  | .seq _ => false
  | .map _ => false
  | _ => true

/-- The laws of `_load_spine_yaml` and `_dump_rows`; `anchors` lists the anchors a text declares. -/
structure YamlLaws (E : Engine) (anchors : Text → List Text) : Prop where
  /-- In one document without an anchor declared twice, rows that load alone load together. -/
  load_rows : ∀ {front : Text} {chunks : List Text} {values : List Val}, Idle front →
    E.loadSpineYaml front = some .null → chunks ≠ [] → (∀ c ∈ chunks, c.head? = some '-') →
      (∀ c ∈ chunks.dropLast, endsWithNewline c = true) → OneDocument (front ++ chunks.flatten) →
        (anchors (front ++ chunks.flatten)).Nodup →
          List.Forall₂ (fun c v => E.loadSpineYaml c = some (.seq [v])) chunks values →
            E.loadSpineYaml (front ++ chunks.flatten) = some (.seq values)
  /-- Without its final line feed a row loads to the same keys, and to the same values but for the
  scalar the line feed belongs to. -/
  load_chomp : ∀ {c : Text} {row : Dict}, c.head? = some '-' → endsWithNewline c = true →
    E.loadSpineYaml c = some (.seq [.map row]) → (∀ e ∈ row, settled e.1 = true) →
      ∃ row' : Dict, E.loadSpineYaml c.dropLast = some (.seq [.map row']) ∧
        row'.map Prod.fst = row.map Prod.fst ∧
          ∀ k, settled (row.get k) = true → row'.get k = row.get k
  /-- No key of a loaded row is there twice. -/
  load_keys : ∀ {t : Text} {items : List Val} {row : Dict},
    E.loadSpineYaml t = some (.seq items) → .map row ∈ items →
      row.Pairwise fun e f => ∀ k, e.1 = .str k → f.1 ≠ .str k
  /-- Rows whose dumps load alone are dumped together. -/
  load_dump : ∀ {rows values : List Val},
    List.Forall₂ (fun row v => E.loadSpineYaml (E.dumpRows [row]) = some (.seq [v])) rows values →
      E.loadSpineYaml (E.dumpRows rows) = some (.seq values)
  /-- A dumped row stands behind its dash and ends its last line. -/
  dump_row : ∀ row : Dict, ∃ t, E.dumpRows [.map row] = "- ".toList ++ t ∧
    endsWithNewline t = true

/-! ### Equal rows -/

/-- The keys of a row are strings that end no line, each of them there once. -/
structure Keyed (row : Dict) : Prop where
  nodup : (row.map Prod.fst).Nodup
  strings : ∀ e ∈ row, ∃ k, e.1 = .str k ∧ endsWithNewline k = false

/-- Nothing else is equal to the value. -/
def Exact (v : Val) : Prop := ∀ w : Val, w.pyEq v = true → w = v

/-- A text is equal to itself only. -/
theorem exact_str (s : Text) : Exact (.str s) := fun _ h => Val.pyEq_str_right.mp h

/-- Null is equal to itself only. -/
theorem exact_null : Exact .null := fun w h => by
  cases w with
  | null => rfl
  | _ => cases h

private theorem pySubset_iff {d row : Dict} : Val.pySubset d row = true ↔
    ∀ e ∈ d, ∃ f ∈ row, e.1.pyEq f.1 = true ∧ e.2.pyEq f.2 = true := by
  induction d with
  | nil => simp [Val.pySubset]
  | cons e d ih =>
    have hentry : ∀ f, Val.pyEqEntry e f = (e.1.pyEq f.1 && e.2.pyEq f.2) := fun f => by
      obtain ⟨k, v⟩ := e
      obtain ⟨k', v'⟩ := f
      rw [Val.pyEqEntry]
    rw [Val.pySubset, Bool.and_eq_true, ih, List.forall_mem_cons, List.any_eq_true]
    simp only [hentry, Bool.and_eq_true]

/-- A key that is there once is read where it is. -/
theorem get_of_mem {d : Dict} {k : Text} {v : Val} (hd : (d.map Prod.fst).Nodup)
    (h : (.str k, v) ∈ d) : d.get k = v := by
  obtain ⟨e, he⟩ := Option.isSome_iff_exists.mp
    (List.find?_isSome (p := Dict.hasKey k).mpr ⟨_, h, Dict.hasKey_iff.mpr rfl⟩)
  have hkey := Dict.hasKey_iff.mp (List.find?_some he)
  obtain rfl : e = (.str k, v) :=
    List.inj_on_of_nodup_map hd (List.mem_of_find?_eq_some he) h hkey
  rw [Dict.get, he]
  rfl

/-- A row has the keys it lists. -/
theorem mem_iff_mem_keys {d : Dict} {k : Text} : d.mem k = true ↔ .str k ∈ d.map Prod.fst := by
  rw [Dict.mem, List.any_eq_true, List.mem_map]
  simp only [Dict.hasKey_iff]

/-- What a key that is there holds. -/
theorem exists_mem_of_mem {d : Dict} {k : Text} (h : d.mem k = true) : ∃ v, (.str k, v) ∈ d := by
  obtain ⟨e, he, hk⟩ := List.any_eq_true.mp h
  exact ⟨e.2, by rwa [← Dict.hasKey_iff.mp hk]⟩

section Equal

variable {d row : Dict} (hd : d.Pairwise fun e f => ∀ k, e.1 = .str k → f.1 ≠ .str k)
  (hrow : Keyed row) (h : (Val.map d).pyEq (.map row) = true)
include hd hrow h

/-- A mapping equal to a row with string keys has these keys. -/
theorem keys_perm_of_pyEq : (d.map Prod.fst).Perm (row.map Prod.fst) := by
  rw [Val.pyEq, Bool.and_eq_true, beq_iff_eq, pySubset_iff] at h
  have hkey : ∀ e ∈ d, ∃ k, e.1 = .str k ∧ .str k ∈ row.map Prod.fst := by
    intro e he
    obtain ⟨f, hf, hef, -⟩ := h.2 e he
    obtain ⟨k, hk, -⟩ := hrow.strings f hf
    rw [hk] at hef
    exact ⟨k, Val.pyEq_str_right.mp hef, hk ▸ List.mem_map_of_mem hf⟩
  have hnodup : (d.map Prod.fst).Nodup := by
    rw [List.Nodup, List.pairwise_map]
    refine hd.imp_of_mem fun {e f} he _ hne heq => ?_
    obtain ⟨k, hk, -⟩ := hkey e he
    exact hne k hk (heq ▸ hk)
  refine List.Subperm.perm_of_length_le (hnodup.subperm fun v hv => ?_) ?_
  · obtain ⟨e, he, rfl⟩ := List.mem_map.mp hv
    obtain ⟨k, hk, hmem⟩ := hkey e he
    exact hk ▸ hmem
  · rw [List.length_map, List.length_map, h.1]

/-- A key of equal rows holds equal values. -/
theorem get_pyEq_of_pyEq (k : Text) : (d.get k).pyEq (row.get k) = true := by
  have hperm := keys_perm_of_pyEq hd hrow h
  have hnodup := hperm.nodup_iff.mpr hrow.nodup
  rw [Val.pyEq, Bool.and_eq_true, beq_iff_eq, pySubset_iff] at h
  cases hmem : d.mem k with
  | true =>
    obtain ⟨v, hv⟩ := exists_mem_of_mem hmem
    obtain ⟨f, hf, hkey, hvalue⟩ := h.2 _ hv
    have hfk := Val.pyEq_str_left.mp hkey
    have hfmem : (.str k, f.2) ∈ row := by rwa [← hfk]
    rw [get_of_mem hnodup hv, get_of_mem hrow.nodup hfmem]
    exact hvalue
  | false =>
    have hrowmem : row.mem k = false := by
      rw [Bool.eq_false_iff, ne_eq, mem_iff_mem_keys, ← hperm.mem_iff, ← mem_iff_mem_keys, hmem]
      decide
    rw [Dict.get_eq_null_of_not_mem hmem, Dict.get_eq_null_of_not_mem hrowmem]
    exact Val.pyEq_refl _

/-- The state of a row is the one of every equal mapping. -/
theorem rowState_eq_of_pyEq (hid : Exact (rowId row))
    (hdisposition : Exact (row.get "disposition".toList)) : rowState d = rowState row := by
  refine rowState_congr ?_ (hid _ (get_pyEq_of_pyEq hd hrow h _))
    (hdisposition _ (get_pyEq_of_pyEq hd hrow h _))
  rw [Bool.eq_iff_iff, mem_iff_mem_keys, mem_iff_mem_keys,
    (keys_perm_of_pyEq hd hrow h).mem_iff]

end Equal

/-! ### Pieces -/

/-- The text loads to one row in this state, whose keys end no line. -/
def ReadsAs (E : Engine) (t : Text) (s : RowState) : Prop :=
  ∃ row, E.loadSpineYaml t = some (.seq [.map row]) ∧ rowState row = s ∧
    ∀ e ∈ row, settled e.1 = true

/-- A text that ends its last line. -/
def ended (t : Text) : Text := if endsWithNewline t then t else t ++ ['\n']

/-- An ended text ends in a line feed. -/
theorem endsWithNewline_ended (t : Text) : endsWithNewline (ended t) = true := by
  rw [ended]
  split_ifs with h
  · exact h
  · simp [endsWithNewline]

/-- A text that ends in a line feed stays. -/
theorem ended_of_endsWithNewline {t : Text} (h : endsWithNewline t = true) : ended t = t :=
  if_pos h

theorem head?_ended {t : Text} (h : t.head? = some '-') : (ended t).head? = some '-' := by
  rw [ended]
  split_ifs
  · exact h
  · rw [List.head?_append, h]
    rfl

/-- Texts that each load to a row load to rows in the same states. -/
theorem exists_values {texts : List Text} {rows : List Val}
    (h : List.Forall₂ (fun t v => ∃ d, v = .map d ∧ ReadsAs E t (rowState d)) texts rows) :
    ∃ values, List.Forall₂ (fun t v => E.loadSpineYaml t = some (.seq [v])) texts values ∧
      rowsStates values = rowsStates rows := by
  induction h with
  | nil => exact ⟨[], .nil, rfl⟩
  | @cons t v texts rows hrow _ ih =>
    obtain ⟨d, rfl, row, hload, hstate, -⟩ := hrow
    obtain ⟨values, hvalues, hstates⟩ := ih
    refine ⟨.map row :: values, .cons hload hvalues, ?_⟩
    simp only [rowsStates] at hstates
    simp only [rowsStates, List.mapM_cons, Val.asDict_map, Option.map_some, hstate, hstates]

/-- The states of a body are those of the rows it loads to. -/
theorem bodyStates_of_load {t : Text} {values : List Val}
    (h : E.loadSpineYaml t = some (.seq values)) : bodyStates E t = rowsStates values := by
  rw [bodyStates, h, Option.bind_some]
  cases values with
  | nil => rfl
  | cons v values => rfl

/-- Each value is a row whose dump loads to its state. -/
def Dumpable (E : Engine) (rows : List Val) : Prop :=
  ∀ v ∈ rows, ∃ d, v = .map d ∧ ReadsAs E (E.dumpRows [.map d]) (rowState d)

section Laws

variable {anchors : Text → List Text}

/-- A dump of rows that read back alone reads back. -/
theorem bodyStates_dumpRows (hE : YamlLaws E anchors) {rows : List Val} (h : Dumpable E rows) :
    bodyStates E (E.dumpRows rows) = rowsStates rows := by
  have hreads : List.Forall₂ (fun t v => ∃ d, v = .map d ∧ ReadsAs E t (rowState d))
      (rows.map fun v => E.dumpRows [v]) rows := by
    rw [List.forall₂_map_left_iff, List.forall₂_same]
    intro v hv
    obtain ⟨d, rfl, hd⟩ := h v hv
    exact ⟨d, rfl, hd⟩
  obtain ⟨values, hvalues, hstates⟩ := exists_values hreads
  rw [bodyStates_of_load (hE.load_dump (List.forall₂_map_left_iff.mp hvalues)), hstates]

/-- Without its final line feed a row keeps its state when its id and its disposition do. -/
theorem ReadsAs.chomp (hE : YamlLaws E anchors) {t : Text} {s : RowState} (h : ReadsAs E t s)
    (hdash : t.head? = some '-') (hend : endsWithNewline t = true) (hid : settled s.id = true)
    (hdisposition : settled s.disposition = true) : ReadsAs E t.dropLast s := by
  obtain ⟨row, hload, rfl, hkeys⟩ := h
  obtain ⟨row', hload', hnames, hget⟩ := hE.load_chomp hdash hend hload hkeys
  refine ⟨row', hload', rowState_congr ?_ (hget _ hid) (hget _ hdisposition), fun e he => ?_⟩
  · rw [Bool.eq_iff_iff, mem_iff_mem_keys, mem_iff_mem_keys, hnames]
  · obtain ⟨f, hf, hfe⟩ := List.mem_map.mp (hnames ▸ List.mem_map_of_mem he)
    exact hfe ▸ hkeys f hf

/-- What an equal row says of a text that loads to it. -/
theorem readsAs_of_pyEq (hE : YamlLaws E anchors) {t : Text} {v : Val} {row : Dict}
    (hload : E.loadSpineYaml t = some v) (heq : v.pyEq (.seq [.map row]) = true)
    (hrow : Keyed row) (hid : Exact (rowId row)) (hdisposition : Exact (row.get "disposition".toList)) :
    ReadsAs E t (rowState row) := by
  obtain ⟨d, rfl, hmap⟩ : ∃ d, v = .seq [.map d] ∧ (Val.map d).pyEq (.map row) = true := by
    cases v with
    | seq items =>
      rw [Val.pyEq] at heq
      cases items with
      | nil => cases heq
      | cons w items =>
        cases items with
        | cons => simp [Val.pyEqSeq] at heq
        | nil =>
          rw [Val.pyEqSeq, Bool.and_eq_true] at heq
          cases w with
          | map d => exact ⟨d, rfl, heq.1⟩
          | _ => cases heq.1
    | _ => cases heq
  have hkeys := hE.load_keys hload (List.mem_singleton_self _)
  refine ⟨d, hload, rowState_eq_of_pyEq hkeys hrow hmap hid hdisposition, fun e he => ?_⟩
  have hmem : e.1 ∈ row.map Prod.fst :=
    (keys_perm_of_pyEq hkeys hrow hmap).mem_iff.mp (List.mem_map_of_mem he)
  obtain ⟨f, hf, hfe⟩ := List.mem_map.mp hmem
  obtain ⟨k, hk, hend⟩ := hrow.strings f hf
  rw [← hfe, hk, settled, hend]
  rfl

end Laws

/-! ### The pieces of a patched body -/

/-- `_patch_body` keeps the chunks of the body: they are the rows, one by one, under distinct
ids. -/
def keepsChunks (E : Engine) (body : Text) (rows : List Val) : Bool :=
  let chunks := (splitRowChunks body).2
  let ids := rows.map idOrNone
  chunks.length == rows.length && !ids.any (·.pyEq .null) && distinct ids &&
    (chunks.zip rows).all fun e => chunkParsesTo E e.1 e.2

/-- The old row and the old chunk of a new row. -/
def keptOf (body : Text) (rows : List Val) (row : Val) : Option (Val × Text) :=
  (rows.zip (splitRowChunks body).2).find? fun e =>
    row.asDict.isSome && (idOrNone e.1).pyEq (idOrNone row)

/-- `_patch_body` dumps the rows, or joins a text for each row behind the old front; a body
without a final line feed gets none. -/
theorem patchBody_eq_some {body B : Text} {rows newRows : List Val}
    (h : patchBody E body rows newRows = some B) :
    (keepsChunks E body rows = false ∧ B = E.dumpRows newRows) ∨
      keepsChunks E body rows = true ∧ ∃ patched,
        patched = (splitRowChunks body).1 ++
          (newRows.map fun row => patchRow E (keptOf body rows row) row).flatten ∧
        (B = patched ∨ endsWithNewline body = false ∧ endsWithNewline patched = true ∧
          B = patched.dropLast) := by
  rw [patchBody] at h
  dsimp only at h
  split_ifs at h with h1 h2 h3
  · refine .inl ⟨?_, (Option.some.inj h).symm⟩
    rcases Bool.or_eq_true_iff.mp h1 with hlen | hnull
    · rw [bne, Bool.not_eq_true'] at hlen
      simp [keepsChunks, hlen]
    · simp [keepsChunks, hnull]
  · refine .inl ⟨?_, (Option.some.inj h).symm⟩
    rcases Bool.or_eq_true_iff.mp h3 with hdup | hparse
    · rw [Bool.not_eq_true'] at hdup
      rw [keepsChunks, hdup, Bool.and_false, Bool.false_and]
    · rw [Bool.not_eq_true'] at hparse
      rw [keepsChunks, hparse, Bool.and_false]
  all_goals
    have hkeeps : keepsChunks E body rows = true := by
      simp only [Bool.or_eq_true, not_or, Bool.not_eq_true, bne_eq_false_iff_eq,
        Bool.not_eq_false'] at h1 h3
      simp only [keepsChunks, h1.1, h1.2, h3.1, h3.2, beq_self_eq_true, Bool.not_false,
        Bool.and_self]
    refine .inr ⟨hkeeps, _, rfl, ?_⟩
  · next h4 =>
    rw [Bool.and_eq_true, Bool.not_eq_true'] at h4
    exact .inr ⟨h4.1, h4.2, (Option.some.inj h).symm⟩
  · exact .inl (Option.some.inj h).symm

section Rows

variable {body : Text} {rows : List Val}

/-- A chunk starts at its dash. -/
theorem head?_of_mem_chunks {c : Text} (h : c ∈ (splitRowChunks body).2) : c.head? = some '-' := by
  rw [splitRowChunks] at h
  dsimp only at h
  generalize splitlinesKeep body = lines at h
  have hstart : ∀ {ln : Text}, startsRow ln = true → ln.head? = some '-' := by
    intro ln hln
    rw [startsRow, Bool.or_eq_true, List.isPrefixOf_iff_prefix] at hln
    rcases hln with ⟨rest, rfl⟩ | hdash
    · rfl
    · have hprefix : ['-'] <+: ln := by
        rw [← eq_of_beq hdash]
        exact List.rdropWhile_prefix _ _
      obtain ⟨rest, rfl⟩ := hprefix
      rfl
  induction lines with
  | nil => cases h
  | cons ln lines ih =>
    rw [groupRows] at h
    split_ifs at h with hln
    · rw [List.map_cons, List.mem_cons] at h
      rcases h with rfl | h
      · rw [List.flatten_cons, List.head?_append, hstart hln]
        rfl
      · exact ih h
    · exact ih h

/-- Without rows every line is in front of the first row. -/
theorem takeWhile_of_groupRows_eq_nil {lines : List Text} (h : groupRows lines = []) :
    lines.takeWhile (fun l => !startsRow l) = lines := by
  induction lines with
  | nil => rfl
  | cons ln lines ih =>
    rw [groupRows] at h
    split_ifs at h with hln
    rw [List.takeWhile_cons, Bool.eq_false_iff.mpr hln, ih h]
    rfl

/-- A body without chunks is its front. -/
theorem splitRowChunks_of_nil {t : Text} (h : (splitRowChunks t).2 = []) :
    (splitRowChunks t).1 = t := by
  rw [splitRowChunks]
  dsimp only
  rw [takeWhile_of_groupRows_eq_nil (List.map_eq_nil_iff.mp h), flatten_splitlinesKeep]

/-- Under distinct ids an old row is found by its own id. -/
theorem keptOf_of_mem (h : keepsChunks E body rows = true) {row : Dict} (hrow : .map row ∈ rows) :
    ∃ c, (.map row, c) ∈ rows.zip (splitRowChunks body).2 ∧
      keptOf body rows (.map row) = some (.map row, c) := by
  rw [keepsChunks] at h
  simp only [Bool.and_eq_true, beq_iff_eq] at h
  obtain ⟨⟨⟨hlen, -⟩, hdistinct⟩, -⟩ := h
  rw [keptOf]
  generalize (splitRowChunks body).2 = chunks at hlen ⊢
  induction rows generalizing chunks with
  | nil => cases hrow
  | cons v rows ih =>
    obtain ⟨c, chunks, rfl⟩ := List.exists_cons_of_length_eq_add_one hlen
    rw [List.map_cons, distinct, Bool.and_eq_true, Bool.not_eq_true', List.any_eq_false] at hdistinct
    rw [List.zip_cons_cons, List.find?_cons]
    cases hid : (idOrNone v).pyEq (idOrNone (.map row)) with
    | true =>
      obtain rfl : v = .map row := by
        rcases List.mem_cons.mp hrow with heq | hmem
        · exact heq.symm
        · exact absurd hid (hdistinct.1 _ (List.mem_map_of_mem hmem))
      exact ⟨c, List.mem_cons_self, by simp⟩
    | false =>
      have hmem : .map row ∈ rows := by
        rcases List.mem_cons.mp hrow with rfl | hmem
        · rw [Val.pyEq_refl] at hid
          cases hid
        · exact hmem
      obtain ⟨c', hc', hfind⟩ := ih hmem hdistinct.2 chunks (by simpa using hlen)
      refine ⟨c', List.mem_cons_of_mem _ hc', ?_⟩
      simpa using hfind

end Rows

/-! ### A patched chunk -/

/-- Whole lines behind whole lines. -/
theorem Whole.append {s t : Text} (hs : Whole s) (ht : Whole t) : Whole (s ++ t) := by
  rcases ht with rfl | ht
  · rwa [List.append_nil]
  · refine .inr ?_
    rw [endsWithNewline, beq_iff_eq] at ht ⊢
    rw [List.getLast?_append, ht]
    rfl

/-- Whole texts one behind the other. -/
theorem whole_flatten {ts : List Text} (h : ∀ t ∈ ts, Whole t) : Whole ts.flatten := by
  induction ts with
  | nil => exact .inl rfl
  | cons t ts ih =>
    obtain ⟨ht, hts⟩ := List.forall_mem_cons.mp h
    exact ht.append (ih hts)

section Patch

variable {anchors : Text → List Text}

/-- A key is rendered in whole lines. -/
theorem YamlLaws.whole_renderKey (hE : YamlLaws E anchors) (front : Text) (e : Val × Val) :
    Whole (renderKey E front e) := by
  obtain ⟨t, ht, hend⟩ := hE.dump_row [e]
  refine .inr ?_
  rw [endsWithNewline, beq_iff_eq] at hend
  rw [renderKey, ht, show ("- ".toList ++ t).drop 2 = t from rfl, endsWithNewline,
    List.getLast?_append, hend]
  rfl

/-- Patching whole lines makes whole lines. -/
theorem YamlLaws.whole_patchKeys (hE : YamlLaws E anchors) {orig row : Dict} {force : Option Text}
    {lines : List Text} (hlines : ∀ ln ∈ lines, Whole ln) {stops : List Nat}
    (starts : List (Nat × Text × Text)) (pos : Nat) :
    Whole (patchKeys E orig row force lines stops starts pos) := by
  induction starts generalizing pos with
  | nil => exact whole_flatten fun ln hln => hlines ln (List.mem_of_mem_drop hln)
  | cons s starts ih =>
    obtain ⟨i, front, key⟩ := s
    rw [patchKeys]
    refine Whole.append (Whole.append (Whole.append ?_ ?_) ?_) (ih _)
    · exact whole_flatten fun ln hln => hlines ln (List.mem_of_mem_take (List.mem_of_mem_drop hln))
    · split_ifs
      · exact .inl rfl
      · exact whole_flatten fun ln hln =>
          hlines ln (List.mem_of_mem_take (List.mem_of_mem_drop hln))
      · exact hE.whole_renderKey _ _
    · refine whole_flatten fun t ht => ?_
      obtain ⟨e, -, rfl⟩ := List.mem_map.mp ht
      exact hE.whole_renderKey _ _

/-- A patched chunk of whole lines starts at its dash, ends its last line, and loads to a mapping
that equals the row. -/
theorem YamlLaws.patchRowChunk_eq_some (hE : YamlLaws E anchors) {chunk p : Text}
    {orig row : Dict} (hlines : ∀ ln ∈ splitlinesKeep (ended chunk), Whole ln)
    (h : patchRowChunk E chunk orig row = some p) : p.head? = some '-' ∧
      endsWithNewline p = true ∧
        ∃ v, E.loadSpineYaml p = some v ∧ v.pyEq (.seq [.map row]) = true := by
  have hended : (if endsWithNewline chunk then chunk else chunk ++ ['\n']) = ended chunk := rfl
  rw [patchRowChunk, hended] at h
  generalize (if endsWithNewline chunk then (none : Option Text) else _) = force at h
  dsimp only at h
  split_ifs at h with hkeys hdash
  split at h
  · next v hload =>
    split_ifs at h with heq
    cases h
    rw [Bool.or_eq_true, not_or, Bool.not_eq_true, Bool.not_eq_true, Bool.not_eq_false',
      List.isPrefixOf_iff_prefix] at hdash
    have hhead : ∀ {t : Text}, "- ".toList <+: t → t.head? = some '-' := by
      rintro t ⟨rest, rfl⟩
      rfl
    refine ⟨hhead hdash.2, ?_, v, hload, heq⟩
    refine (hE.whole_patchKeys hlines _ _).resolve_left fun hnil => ?_
    have hcons := hhead hdash.2
    rw [hnil] at hcons
    cases hcons
  · cases h

end Patch

/-! ### The read-back -/

/-- A row that can be written alone: its dump loads to its state, and so does whatever equals the
row. -/
structure Writable (E : Engine) (row : Dict) : Prop where
  keyed : Keyed row
  id : Exact (rowId row)
  disposition : Exact (row.get "disposition".toList)
  reads : ReadsAs E (E.dumpRows [.map row]) (rowState row)

/-- The old chunks and the new rows as a patch needs them: only blank lines and comments in front
of the first chunk, chunks of whole lines that still load to their rows when the last line is
ended, and for each new row an old one or one that can be written alone. -/
structure Patchable (E : Engine) (body : Text) (rows newRows : List Val) : Prop where
  front : Idle (splitRowChunks body).1
  empty : E.loadSpineYaml (splitRowChunks body).1 = some .null
  chunks : ∀ e ∈ rows.zip (splitRowChunks body).2,
    (∃ d, e.1 = .map d ∧ ReadsAs E (ended e.2) (rowState d)) ∧
      ∀ ln ∈ splitlinesKeep (ended e.2), Whole ln
  rows : ∀ v ∈ newRows, ∃ d : Dict, v = .map d ∧ settled (rowId d) = true ∧
    settled (d.get "disposition".toList) = true ∧ (v ∈ rows ∨ Writable E d)

section ReadBack

variable {anchors : Text → List Text} {body B : Text} {rows newRows : List Val}

/-- The text of a row in the patched body. -/
theorem Patchable.patchRow (hE : YamlLaws E anchors) (h : Patchable E body rows newRows)
    (hrows : parseRows E body = .ok rows) (hkeeps : keepsChunks E body rows = true) {v : Val}
    (hv : v ∈ newRows) : ∃ d : Dict, v = .map d ∧ settled (rowId d) = true ∧
      settled (d.get "disposition".toList) = true ∧
        (patchRow E (keptOf body rows v) v).head? = some '-' ∧
          endsWithNewline (patchRow E (keptOf body rows v) v) = true ∧
            ReadsAs E (patchRow E (keptOf body rows v) v) (rowState d) := by
  obtain ⟨d, rfl, hid, hdisposition, hrow⟩ := h.rows v hv
  refine ⟨d, rfl, hid, hdisposition, ?_⟩
  have hpatch : ∀ kept : Option (Val × Text), Spine.patchRow E kept (.map d) = ended (match kept with
      | some (orig, chunk) =>
        if orig.pyEq (.map d) then chunk
        else (orig.asDict.bind fun o => patchRowChunk E chunk o d).getD (E.dumpRows [.map d])
      | none => E.dumpRows [.map d]) := fun kept => by cases kept <;> rfl
  rw [hpatch]
  have hdump : Writable E d → (ended (E.dumpRows [.map d])).head? = some '-' ∧
      endsWithNewline (ended (E.dumpRows [.map d])) = true ∧
        ReadsAs E (ended (E.dumpRows [.map d])) (rowState d) := by
    intro hw
    obtain ⟨t, ht, hend⟩ := hE.dump_row d
    have hwhole : endsWithNewline (E.dumpRows [.map d]) = true := by
      rw [endsWithNewline, beq_iff_eq] at hend ⊢
      rw [ht, List.getLast?_append, hend]
      rfl
    rw [ended_of_endsWithNewline hwhole]
    exact ⟨by rw [ht]; rfl, hwhole, hw.reads⟩
  cases hkept : keptOf body rows (.map d) with
  | none =>
    rcases hrow with hmem | hw
    · obtain ⟨c, -, hfind⟩ := keptOf_of_mem hkeeps hmem
      rw [hkept] at hfind
      cases hfind
    · exact hdump hw
  | some kept =>
    obtain ⟨orig, chunk⟩ := kept
    have hzip : (orig, chunk) ∈ rows.zip (splitRowChunks body).2 := List.mem_of_find?_eq_some hkept
    have hmemChunk := (List.of_mem_zip hzip).2
    obtain ⟨⟨o, rfl, hreads⟩, hlines⟩ := h.chunks _ hzip
    dsimp only at hreads hlines ⊢
    split_ifs with heq
    · refine ⟨head?_ended (head?_of_mem_chunks hmemChunk), endsWithNewline_ended chunk, ?_⟩
      suffices hstate : rowState o = rowState d from hstate ▸ hreads
      rcases hrow with hmem | hw
      · obtain ⟨c, -, hfind⟩ := keptOf_of_mem hkeeps hmem
        rw [hkept] at hfind
        rw [Val.map.inj (Prod.mk.inj (Option.some.inj hfind)).1]
      · obtain ⟨doc, hload, hdoc⟩ := Option.bind_eq_some_iff.mp (parseRows_eq_ok.mp hrows)
        rcases docRows_eq_some.mp hdoc with ⟨-, rfl⟩ | ⟨-, rfl⟩
        · cases hzip
        · exact rowState_eq_of_pyEq (hE.load_keys hload (List.of_mem_zip hzip).1) hw.keyed heq hw.id
            hw.disposition
    · have hw : Writable E d := by
        refine hrow.resolve_left fun hmem => heq ?_
        obtain ⟨c, -, hfind⟩ := keptOf_of_mem hkeeps hmem
        rw [hkept] at hfind
        rw [(Prod.mk.inj (Option.some.inj hfind)).1]
        exact Val.pyEq_refl _
      rw [Val.asDict_map, Option.bind_some]
      cases hp : patchRowChunk E chunk o d with
      | none => exact hdump hw
      | some p =>
        obtain ⟨hhead, hend, v, hload, hpy⟩ := hE.patchRowChunk_eq_some hlines hp
        rw [Option.getD_some, ended_of_endsWithNewline hend]
        exact ⟨hhead, hend, readsAs_of_pyEq hE hload hpy hw.keyed hw.id hw.disposition⟩

/-- What stands behind the patched front loads together. -/
private theorem bodyStates_join (hE : YamlLaws E anchors) (h : Patchable E body rows newRows)
    {texts : List Text} (hne : texts ≠ []) (hdash : ∀ t ∈ texts, t.head? = some '-')
    (hends : ∀ t ∈ texts.dropLast, endsWithNewline t = true)
    (hreads : List.Forall₂ (fun t v => ∃ d, v = .map d ∧ ReadsAs E t (rowState d)) texts newRows)
    (hdocument : OneDocument ((splitRowChunks body).1 ++ texts.flatten))
    (hanchors : (anchors ((splitRowChunks body).1 ++ texts.flatten)).Nodup) :
    bodyStates E ((splitRowChunks body).1 ++ texts.flatten) = rowsStates newRows := by
  obtain ⟨values, hvalues, hstates⟩ := exists_values hreads
  rw [bodyStates_of_load (hE.load_rows h.front h.empty hne hdash hends hdocument hanchors hvalues),
    hstates]

/-- A patched body, one document without an anchor declared twice, loads to the states of the rows
it was made for. -/
theorem bodyStates_patchBody (hE : YamlLaws E anchors) (hrows : parseRows E body = .ok rows)
    (hB : patchBody E body rows newRows = some B) (hlen : newRows.length = rows.length)
    (hkept : keepsChunks E body rows = true →
      Patchable E body rows newRows ∧ OneDocument B ∧ (anchors B).Nodup)
    (hdumped : keepsChunks E body rows = false → Dumpable E newRows) :
    bodyStates E B = rowsStates newRows := by
  rcases patchBody_eq_some hB with ⟨hkeeps, rfl⟩ | ⟨hkeeps, patched, rfl, hB⟩
  · exact bodyStates_dumpRows hE (hdumped hkeeps)
  obtain ⟨hpatch, hdocument, hanchors⟩ := hkept hkeeps
  by_cases hne : newRows = []
  · -- a spine without rows is its front
    subst hne
    have hfront : (splitRowChunks body).1 = body := by
      rw [List.length_eq_zero_iff.mp hlen.symm, keepsChunks] at hkeeps
      simp only [Bool.and_eq_true, beq_iff_eq, List.length_nil, List.length_eq_zero_iff] at hkeeps
      exact splitRowChunks_of_nil hkeeps.1.1.1
    have hload : bodyStates E (splitRowChunks body).1 = some [] := by
      rw [bodyStates, hpatch.empty]
      rfl
    rw [List.map_nil, List.flatten_nil, List.append_nil] at hB
    rcases hB with rfl | ⟨hbody, hend, -⟩
    · exact hload
    · rw [hfront, hbody] at hend
      cases hend
  have hpieces := fun v (hv : v ∈ newRows) => hpatch.patchRow hE hrows hkeeps hv
  rcases hB with rfl | ⟨-, -, rfl⟩
  · refine bodyStates_join hE hpatch (by simpa using hne) (fun t ht => ?_) (fun t ht => ?_) ?_
      hdocument hanchors
    · obtain ⟨v, hv, rfl⟩ := List.mem_map.mp ht
      obtain ⟨-, -, -, -, hhead, -⟩ := hpieces v hv
      exact hhead
    · obtain ⟨v, hv, rfl⟩ := List.mem_map.mp (List.dropLast_subset _ ht)
      obtain ⟨-, -, -, -, -, hend, -⟩ := hpieces v hv
      exact hend
    · rw [List.forall₂_map_left_iff, List.forall₂_same]
      intro v hv
      obtain ⟨d, rfl, -, -, -, -, hreads⟩ := hpieces v hv
      exact ⟨d, rfl, hreads⟩
  · -- the last line feed goes with the text of the last row
    obtain ⟨front, v, rfl⟩ := List.eq_nil_or_concat' newRows |>.resolve_left hne
    obtain ⟨d, rfl, hid, hdisposition, hhead, hend, hreads⟩ := hpieces v (by simp)
    set last := patchRow E (keptOf body rows (.map d)) (Val.map d) with hlast
    set texts := front.map fun row => patchRow E (keptOf body rows row) row with htexts
    have hsplit : ((splitRowChunks body).1 ++ ((front ++ [Val.map d]).map fun row =>
        patchRow E (keptOf body rows row) row).flatten).dropLast =
          (splitRowChunks body).1 ++ (texts ++ [last.dropLast]).flatten := by
      have hlastne : last ≠ [] := fun hnil => by simp [hnil] at hhead
      rw [List.map_append, ← htexts, List.map_singleton, ← hlast, List.flatten_append,
        List.flatten_append, List.flatten_singleton, List.flatten_singleton, ← List.append_assoc,
        ← List.append_assoc, List.dropLast_append_of_ne_nil hlastne]
    rw [hsplit] at hdocument hanchors ⊢
    have hdash : last.dropLast.head? = some '-' := by
      obtain ⟨t, ht⟩ := List.head?_eq_some_iff.mp hhead
      cases t with
      | nil =>
        rw [ht] at hend
        cases hend
      | cons c t => rw [ht]; rfl
    refine bodyStates_join hE hpatch (by simp) (fun t ht => ?_) (fun t ht => ?_) ?_ hdocument
      hanchors
    · rcases List.mem_append.mp ht with ht | ht
      · obtain ⟨v, hv, rfl⟩ := List.mem_map.mp ht
        obtain ⟨-, -, -, -, hhead, -⟩ := hpieces v (List.mem_append_left _ hv)
        exact hhead
      · rwa [List.mem_singleton.mp ht]
    · rw [List.dropLast_concat] at ht
      obtain ⟨v, hv, rfl⟩ := List.mem_map.mp ht
      obtain ⟨-, -, -, -, -, hend, -⟩ := hpieces v (List.mem_append_left _ hv)
      exact hend
    · refine List.rel_append ?_ (.cons ⟨d, rfl, hreads.chomp hE hhead hend hid hdisposition⟩ .nil)
      rw [htexts, List.forall₂_map_left_iff, List.forall₂_same]
      intro v hv
      obtain ⟨d, rfl, -, -, -, -, hreads⟩ := hpieces v (List.mem_append_left _ hv)
      exact ⟨d, rfl, hreads⟩

end ReadBack

end Spine

end CoordinatorCore
