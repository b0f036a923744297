import CoordinatorCore.Frontmatter.SeveralLines

/-!
# Splitting and rebuilding

`split_frontmatter` and `rebuild` are inverse to each other, with one exception. A document rebuilt
around any frontmatter splits into the parts it was rebuilt from (`splitFrontmatter_rebuild_any`).
The other way round, a document is its preamble, its delimiters, its frontmatter and its body
(`eq_of_delimiters`), so with bare delimiters it is rebuilt as it was, unless its frontmatter is
empty: `rebuild` gives that a line of its own (`round_trip_iff`).
-/

namespace CoordinatorCore

open Text BodyBlocks

namespace Frontmatter

/-! ### The delimiters of a document -/

/-- The delimiters that `splitFrontmatter` finds, each with the blanks behind it. -/
def delimiters (text : Text) : Option (Text × Text) :=
  let text := crlfToLf text
  let after := if opensDelimiter text then text else dropPreamble text.length text
  if opensDelimiter after then
    (cutAt ['\n'] (after.drop 3)).bind fun m =>
      (lineSearch closeDelimiter true m.2).map fun c =>
        ("---".toList ++ m.1, (m.2.drop c.1).take c.2)
  else none

/-- Both delimiters are bare `---` lines. -/
def BareDelimiters (text : Text) : Prop := delimiters text = some ("---".toList, "---".toList)

/-- A frontmatter with its final line feed. -/
def normalized (fm : Text) : Text := if endsWithNewline fm then fm else fm ++ ['\n']

theorem rebuild_eq (sp : FrontmatterSplit) (fm : Text) :
    rebuild sp fm = sp.preamble ++ ("---".toList ++ '\n' :: (normalized fm ++
      ("---".toList ++ sp.bodyWithLeadingNewline))) := by
  rw [rebuild, normalized]
  simp

/-- A document is its parts, with the delimiters between them. -/
theorem eq_of_delimiters {t : Text} {sp : FrontmatterSplit} (hr : '\r' ∉ t)
    (h : splitFrontmatter t = some sp) : ∃ b c, delimiters t = some ("---".toList ++ b, c) ∧
      t = sp.preamble ++ (("---".toList ++ b) ++ '\n' :: (sp.fmText ++
        (c ++ sp.bodyWithLeadingNewline))) := by
  rw [splitFrontmatter, crlfToLf_of_not_mem hr] at h
  rw [delimiters, crlfToLf_of_not_mem hr]
  have hsuffix : ∃ u, t = u ++ (if opensDelimiter t then t else dropPreamble t.length t) := by
    split_ifs
    · exact ⟨[], rfl⟩
    · obtain ⟨u, hu, -⟩ := dropPreamble_append (n := t.length) hr
      exact ⟨u, hu⟩
  obtain ⟨u, hu⟩ := hsuffix
  generalize (if opensDelimiter t then t else dropPreamble t.length t) = after at h hu ⊢
  split_ifs at h ⊢ with hopen
  obtain ⟨m, hm, hmap⟩ := Option.bind_eq_some_iff.mp h
  obtain ⟨c, hc, rfl⟩ := Option.map_eq_some_iff.mp hmap
  obtain ⟨r, hafter⟩ : ∃ r, after = "---".toList ++ r := by
    rw [opensDelimiter] at hopen
    rcases hp : stripPrefix? "---".toList after with _ | r
    · rw [hp] at hopen
      cases hopen
    · exact ⟨r, stripPrefix?_eq_some.mp hp⟩
  have hdrop : after.drop 3 = r := by rw [hafter]; rfl
  have hcut := eq_of_cutAt hm
  rw [hdrop] at hm hcut
  refine ⟨m.1, (m.2.drop c.1).take c.2, by rw [hdrop, hm, Option.bind_some, hc]; rfl, ?_⟩
  have hbody : m.2 = m.2.take c.1 ++ ((m.2.drop c.1).take c.2 ++ m.2.drop (c.1 + c.2)) := by
    rw [← List.drop_drop, List.take_append_drop, List.take_append_drop]
  have htake : t.take (t.length - after.length) = u := by
    rw [hu]
    simp
  rw [htake]
  dsimp only
  rw [← hbody]
  conv_lhs => rw [hu, hafter, hcut]
  simp

/-! ### Rebuilt around any frontmatter -/

/-- A rebuilt document splits into its parts, whatever frontmatter it is given. -/
theorem splitFrontmatter_rebuild_any {sp : FrontmatterSplit} (hsp : SplitParts sp) {fm : Text}
    (hr : '\r' ∉ fm) (hopen : ∀ l ∈ lines fm, closesFrontmatter l = false) :
    splitFrontmatter (rebuild sp fm) = some { sp with fmText := normalized fm } := by
  obtain ⟨ls, hne, hls, hmem, -⟩ := exists_whole_lines fm
  have hfm : normalized (unlines (ls ++ [[]])) = unlines (ls ++ [[]]) := by
    rw [normalized, if_pos]
    rw [unlines_concat_nil hne, endsWithNewline]
    simp
  have hrebuild : rebuild sp fm = rebuild sp (unlines (ls ++ [[]])) := by
    rw [rebuild_eq, rebuild_eq, hfm, normalized, hls]
  rw [hrebuild, normalized, hls]
  refine (splitFrontmatter_rebuild hsp hne (fun l hl => ?_) fun l hl => ?_).2
  · exact ⟨not_mem_of_mem_lines (hmem l hl), hopen l (hmem l hl)⟩
  · exact fun h => hr (mem_of_mem_lines (hmem l hl) h)

/-! ### Rebuilt as it was -/

theorem normalized_fmText {sp : FrontmatterSplit} (hsp : SplitParts sp) (hne : sp.fmText ≠ []) :
    normalized sp.fmText = sp.fmText := by
  obtain ⟨ls, -, hfm⟩ := hsp.lines
  have hls : ls ≠ [] := by
    rintro rfl
    exact hne hfm
  rw [normalized, if_pos]
  rw [hfm, unlines_concat_nil hls, endsWithNewline]
  simp

/-- A document with bare delimiters is rebuilt as it was, unless its frontmatter is empty. -/
theorem rebuild_fmText_eq_iff {t : Text} {sp : FrontmatterSplit} (hr : '\r' ∉ t)
    (h : splitFrontmatter t = some sp) (hbare : BareDelimiters t) :
    rebuild sp sp.fmText = t ↔ sp.fmText ≠ [] := by
  obtain ⟨b, c, hdel, ht⟩ := eq_of_delimiters hr h
  obtain ⟨hb, rfl⟩ := Prod.mk.inj (Option.some.inj (hdel.symm.trans hbare))
  rw [hb] at ht
  rw [rebuild_eq]
  constructor
  · intro heq hnil
    have hlen := congrArg List.length (heq.trans ht)
    rw [hnil] at hlen
    simp [normalized, endsWithNewline] at hlen
  · intro hne
    rw [normalized_fmText (splitFrontmatter_parts hr h) hne]
    exact ht.symm

/-! ### The round trip -/

/-- What the split of a document promises of `rebuild`: around any frontmatter that no line of
closes, and around its own. -/
structure RoundTrips (t : Text) (sp : FrontmatterSplit) : Prop where
  edited : ∀ fm, '\r' ∉ fm → (∀ l ∈ lines fm, closesFrontmatter l = false) →
    splitFrontmatter (rebuild sp fm) = some { sp with fmText := normalized fm }
  unedited : BareDelimiters t → rebuild sp sp.fmText = t

/-- **The round trip** of split and rebuild holds of a document, unless its delimiters are bare and
nothing is between them. -/
theorem round_trip_iff {t : Text} {sp : FrontmatterSplit} (hr : '\r' ∉ t)
    (h : splitFrontmatter t = some sp) :
    RoundTrips t sp ↔ ¬(BareDelimiters t ∧ sp.fmText = []) := by
  have hparts := splitFrontmatter_parts hr h
  constructor
  · rintro htrip ⟨hbare, hnil⟩
    exact (rebuild_fmText_eq_iff hr h hbare).mp (htrip.unedited hbare) hnil
  · intro hno
    refine ⟨fun fm hfm hopen => splitFrontmatter_rebuild_any hparts hfm hopen, fun hbare => ?_⟩
    exact (rebuild_fmText_eq_iff hr h hbare).mpr fun hnil => hno ⟨hbare, hnil⟩

/-- The round trip of a document with one field. -/
theorem round_trip_one_field :
    '\r' ∉ "---\na: b\n---\n".toList ∧
      RoundTrips "---\na: b\n---\n".toList ⟨[], "a: b\n".toList, ['\n']⟩ := by
  have hr : '\r' ∉ "---\na: b\n---\n".toList := by decide
  have hsplit : splitFrontmatter "---\na: b\n---\n".toList =
      some ⟨[], "a: b\n".toList, ['\n']⟩ := by decide
  exact ⟨hr, (round_trip_iff hr hsplit).mpr fun h => absurd h.2 (by decide)⟩

/-- A document without frontmatter gets an empty line between its delimiters. -/
theorem rebuild_empty_frontmatter :
    ∃ t sp, '\r' ∉ t ∧ splitFrontmatter t = some sp ∧ BareDelimiters t ∧
      t = "---\n---\n".toList ∧ rebuild sp sp.fmText = "---\n\n---\n".toList ∧
        rebuild sp sp.fmText ≠ t := by
  refine ⟨"---\n---\n".toList, ⟨[], [], ['\n']⟩, ?_, ?_, ?_, rfl, ?_, ?_⟩
  · decide
  · decide
  · unfold BareDelimiters
    decide
  · decide
  · decide

end Frontmatter

end CoordinatorCore
