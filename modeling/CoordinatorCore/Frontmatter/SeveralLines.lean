import CoordinatorCore.Frontmatter.Blocks
import CoordinatorCore.Frontmatter.Rebuild

/-!
# Reading up to the closing line

`seen p` reads a list of lines up to the first one that closes the frontmatter. A harmless line, one
that neither closes nor is read, can come and go (`seen_cons_harmless`), and a frontmatter is such a
list of whole lines (`exists_whole_lines`).
-/

namespace CoordinatorCore

open Text BodyBlocks

namespace Frontmatter

/-! ### Reading up to the closing line -/

/-- The first value that `p` reads in front of a closing line. -/
def seen (p : Text → Option Text) (ls : List Text) : Option Text :=
  (ls.takeWhile fun l => !closesFrontmatter l).findSome? p

/-- A line that neither closes nor is read. -/
def Harmless (p : Text → Option Text) (l : Text) : Prop := closesFrontmatter l = false ∧ p l = none

variable {p : Text → Option Text}

theorem seen_cons (p : Text → Option Text) (l : Text) (ls : List Text) :
    seen p (l :: ls) = if closesFrontmatter l then none else (p l).or (seen p ls) := by
  rw [seen, List.takeWhile_cons]
  cases hl : closesFrontmatter l with
  | true => rfl
  | false =>
    rw [if_pos (by rfl), List.findSome?_cons, if_neg (by simp)]
    cases p l <;> rfl

theorem seen_cons_harmless {l : Text} (h : Harmless p l) (ls : List Text) :
    seen p (l :: ls) = seen p ls := by
  rw [seen_cons, h.1, h.2]
  rfl

/-- What stands in front does not matter. -/
theorem seen_append_congr (a : List Text) {b b' : List Text} (h : seen p b = seen p b') :
    seen p (a ++ b) = seen p (a ++ b') := by
  induction a with
  | nil => exact h
  | cons l a ih => rw [List.cons_append, List.cons_append, seen_cons, seen_cons, ih]

theorem harmless_nil (key : Text) : Harmless (keyLine key) [] := ⟨rfl, keyLine_nil key⟩

theorem findKeyLine_map (key : Text) (ls : List Text) :
    (findKeyLine key ls).map (·.2.1) = ls.findSome? (keyLine key) := by
  induction ls with
  | nil => rfl
  | cons l ls ih =>
    rw [findKeyLine, List.findSome?_cons]
    cases keyLine key l with
    | some rest => rfl
    | none => rw [← ih, Option.map_map]; rfl

theorem readFmField_eq_findSome? (fm key : Text) :
    readFmField fm key = ((lines fm).findSome? (keyLine key)).map strip := by
  rw [← findKeyLine_map, Option.map_map]
  rfl

/-! ### Whole lines -/

private theorem unlines_append_nil (a : List Text) {b : List Text} (hb : b ≠ []) :
    unlines (a ++ b) = unlines (a ++ [[]]) ++ unlines b := by
  rcases eq_or_ne a [] with rfl | ha
  · simp [unlines]
  · rw [unlines_append ha hb, unlines_concat_nil ha, List.append_assoc, List.singleton_append]

private theorem endsWithNewline_unlines (ls : List Text) {l : Text} (hl : '\n' ∉ l) (hne : l ≠ []) :
    endsWithNewline (unlines (ls ++ [l])) = false := by
  have hlast : (unlines (ls ++ [l])).getLast? = l.getLast? := by
    rcases eq_or_ne ls [] with rfl | hls
    · simp [unlines]
    · rw [unlines_append hls (by simp), List.getLast?_append_cons, List.getLast?_cons]
      simp [unlines, List.getLast?_eq_some_getLast hne]
  rw [endsWithNewline, hlast, List.getLast?_eq_some_getLast hne]
  have : l.getLast hne ≠ '\n' := fun h => hl (h ▸ List.getLast_mem hne)
  simpa using this

/-- A frontmatter as whole lines: what `rebuild` makes of it. -/
theorem exists_whole_lines (fm : Text) :
    ∃ ls, ls ≠ [] ∧ (if endsWithNewline fm then fm else fm ++ ['\n']) = unlines (ls ++ [[]]) ∧
      (∀ l ∈ ls, l ∈ lines fm) ∧ ∀ key, seen (keyLine key) ls = seen (keyLine key) (lines fm) := by
  have hfm := unlines_lines fm
  obtain ⟨ls, l, hl⟩ := (List.eq_nil_or_concat' (lines fm)).resolve_left (lines_ne_nil fm)
  rw [hl] at hfm
  by_cases hnil : l = [] ∧ ls ≠ []
  · obtain ⟨rfl, hne⟩ := hnil
    refine ⟨ls, hne, ?_, fun m hm => by simp [hl, hm], fun key => ?_⟩
    · rw [if_pos, hfm]
      rw [← hfm, unlines_concat_nil hne, endsWithNewline]
      simp
    · have := seen_append_congr (p := keyLine key) ls (seen_cons_harmless (harmless_nil key) [])
      rw [hl, this, List.append_nil]
  · refine ⟨ls ++ [l], by simp, ?_, fun m hm => by rw [hl]; exact hm, fun key => by rw [hl]⟩
    have hend : endsWithNewline fm = false := by
      by_cases hlnil : l = []
      · obtain rfl : ls = [] := by simpa [hlnil] using hnil
        rw [← hfm, hlnil]
        rfl
      · rw [← hfm]
        exact endsWithNewline_unlines ls (not_mem_of_mem_lines (by rw [hl]; simp)) hlnil
    rw [hend, if_neg (by simp), unlines_concat_nil (by simp), hfm]

end Frontmatter

end CoordinatorCore
