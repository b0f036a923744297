import CoordinatorCore.Frontmatter.SeveralLines

/-!
# Values that go on below their key line

`replace_fm_field` and `remove_fm_field` write one line, so a value that goes on below its key line
has to be refused: what is left of it would stand under a line it does not belong to. The guards
look at the rest of the key line and at the one line below it. They see the continuation exactly
when the rest is the header of a block scalar, or is empty with no unindented gap right below it
(`refuses_iff`); every other continuation is left behind by both writers.
-/

namespace CoordinatorCore

open Text

namespace Frontmatter

variable {fm key rest l : Text} {a b gap ls : List Text}

/-! ### The line below -/

/-- A line that a value may go on behind: white space alone, or a comment. -/
def gapLine (l : Text) : Bool := strip l == [] || (l.dropWhile isBlank).head? == some '#'

/-- A line that goes on with a value: an indented one, or an item of a sequence. -/
def continuationLine (l : Text) : Bool :=
  indented l || ((stripPrefix? ['-'] l).any boundary)

/-- The value of the key goes on below its line: the first line below that is no gap is a
continuation. -/
def Continues (fm key : Text) : Prop :=
  ∃ a rest gap l b, findKeyLine key (lines fm) = some (a, rest, gap ++ l :: b) ∧
    (∀ g ∈ gap, gapLine g = true) ∧ gapLine l = false ∧ continuationLine l = true

/-- The header of a block scalar. -/
def blockMark (s : Text) : Bool := s.head? == some '>' || s.head? == some '|'

/-- What the guards see: the header of a block scalar on the key line, or nothing on it and no
unindented gap right below. -/
def Guarded (fm key : Text) : Prop :=
  ∃ a rest l b, findKeyLine key (lines fm) = some (a, rest, l :: b) ∧
    (blockMark (strip rest) = true ∨
      strip rest = [] ∧ (gapLine l = true → indented l = true))

/-- Both writers refuse the key, whatever the value. -/
structure Refuses (fm key : Text) : Prop where
  replace : ∀ v nq, ∃ e, replaceFmField fm key v nq = .error e
  remove : ∃ e, removeFmField fm key = .error e

theorem continuationLine_cons (c : Char) (l : Text) :
    continuationLine (c :: l) = (isBlank c || c == '-' && boundary l) := by
  by_cases hc : c = '-'
  · subst hc
    simp [continuationLine, indented, stripPrefix?]
  · simp [continuationLine, indented, stripPrefix?, hc, Ne.symm hc]

theorem gapLine_dash (l : Text) : gapLine ('-' :: l) = false := by
  have hdash : isSpace '-' = false := by decide
  have hb : isBlank '-' = false := by decide
  have hstrip : strip ('-' :: l) ≠ [] := by
    rw [strip, lstrip_cons_of_not_space hdash]
    exact fun h => by simpa [hdash] using rstrip_eq_nil_iff.mp h '-' List.mem_cons_self
  simp [gapLine, hb, hstrip]

/-- A line that is no gap and no continuation is not what the guards take for a nested block. -/
theorem nested_first_line {l : Text} (h : gapLine l = false → continuationLine l = true) :
    (l.head?.any fun c => isBlank c || c == '-') = true ↔
      (gapLine l = true → indented l = true) := by
  cases l with
  | nil => simp [gapLine, indented]
  | cons c l =>
    rw [continuationLine_cons] at h
    by_cases hdash : c = '-'
    · subst hdash
      simp [gapLine_dash]
    · have hbeq : (c == '-') = false := by simpa using hdash
      simp only [List.head?_cons, Option.any_some, hbeq, Bool.or_false, Bool.false_and, indented]
        at h ⊢
      exact ⟨fun hb _ => hb, fun hg => (Bool.eq_false_or_eq_true (gapLine (c :: l))).elim hg h⟩

/-! ### The guards -/

theorem blockMark_eq_false {s : Text} (hgt : ∀ cs, s ≠ '>' :: cs) (hpipe : ∀ cs, s ≠ '|' :: cs) :
    blockMark s = false := by
  cases s with
  | nil => rfl
  | cons c cs =>
    have h₁ : c ≠ '>' := fun h => hgt cs (by rw [h])
    have h₂ : c ≠ '|' := fun h => hpipe cs (by rw [h])
    simp [blockMark, h₁, h₂]

theorem isNestedBlockKey_eq (h : findKeyLine key (lines fm) = some (a, rest, l :: b)) :
    isNestedBlockKey fm key = (strip rest == [] && l.head?.any fun c => isBlank c || c == '-') := by
  rw [isNestedBlockKey, h]
  cases l <;> rfl

theorem replaceFmField_eq_error_iff {v : Option Text} {nq : Bool}
    (h : findKeyLine key (lines fm) = some (a, rest, ls)) :
    (∃ e, replaceFmField fm key v nq = .error e) ↔
      blockMark (strip rest) = true ∨ isNestedBlockKey fm key = true := by
  have hread : readFmField fm key = some (strip rest) := by rw [readFmField, h]; rfl
  rw [replaceFmField, hread]
  split
  · next heq =>
    rw [Option.some.injEq] at heq
    simp [heq, blockMark]
  · next heq =>
    rw [Option.some.injEq] at heq
    simp [heq, blockMark]
  · next hgt hpipe =>
    have hmark := blockMark_eq_false (fun cs heq => hgt cs (congrArg some heq))
      fun cs heq => hpipe cs (congrArg some heq)
    cases isNestedBlockKey fm key <;> simp [hmark]

theorem removeFmField_eq_error_iff (h : findKeyLine key (lines fm) = some (a, rest, ls)) :
    (∃ e, removeFmField fm key = .error e) ↔
      blockMark (strip rest) = true ∨ isNestedBlockKey fm key = true := by
  have hread : readFmField fm key = some (strip rest) := by rw [readFmField, h]; rfl
  rw [removeFmField, hread]
  split
  · next heq =>
    rw [Option.some.injEq] at heq
    simp [heq, blockMark]
  · next heq =>
    rw [Option.some.injEq] at heq
    simp [heq, blockMark]
  · next hgt hpipe =>
    have hmark := blockMark_eq_false (fun cs heq => hgt cs (congrArg some heq))
      fun cs heq => hpipe cs (congrArg some heq)
    cases isNestedBlockKey fm key <;> simp [hmark]

/-- Under a continuation the guards fire exactly where they see it. -/
theorem Continues.guard_iff (h : Continues fm key)
    (hfind : findKeyLine key (lines fm) = some (a, rest, ls)) :
    (blockMark (strip rest) = true ∨ isNestedBlockKey fm key = true) ↔ Guarded fm key := by
  obtain ⟨a', rest', gap, l, b, hcont, hgap, hl, hline⟩ := h
  rw [hfind] at hcont
  cases hcont
  -- the line right below is a gap, or it is the continuation itself
  obtain ⟨m, ms, hls, hm⟩ : ∃ m ms, gap ++ l :: b = m :: ms ∧
      (gapLine m = false → continuationLine m = true) := by
    cases gap with
    | nil => exact ⟨l, b, rfl, fun _ => hline⟩
    | cons g gap =>
      refine ⟨g, gap ++ l :: b, rfl, fun hno => ?_⟩
      rw [hgap g List.mem_cons_self] at hno
      cases hno
  rw [hls] at hfind
  rw [isNestedBlockKey_eq hfind, Bool.and_eq_true, nested_first_line hm, beq_iff_eq]
  constructor
  · exact fun h => ⟨a, rest, m, ms, hfind, h⟩
  · rintro ⟨a', rest', m', ms', hfind', h⟩
    rw [hfind] at hfind'
    cases hfind'
    exact h

/-- **The writers refuse a value that goes on below its line** exactly when the header of a block
scalar stands on the key line, or nothing does and no unindented gap comes first. -/
theorem refuses_iff (h : Continues fm key) : Refuses fm key ↔ Guarded fm key := by
  obtain ⟨a, rest, gap, l, b, hfind, -⟩ := id h
  rw [← h.guard_iff hfind]
  constructor
  · exact fun hr => (removeFmField_eq_error_iff hfind).mp hr.remove
  · exact fun hg => ⟨fun v nq => (replaceFmField_eq_error_iff hfind).mpr hg,
      (removeFmField_eq_error_iff hfind).mpr hg⟩

/-- A header on the key line. -/
theorem refuses_iff_folded :
    Refuses "k: >\n  a".toList ['k'] ↔ Guarded "k: >\n  a".toList ['k'] :=
  refuses_iff ⟨[], " >".toList, [], "  a".toList, [], by decide, by simp, by decide, by decide⟩

/-- A plain value over two lines, and a sequence behind an empty line. -/
theorem continued_not_refused :
    (Continues "k: foo\n  bar".toList ['k'] ∧ ¬ Refuses "k: foo\n  bar".toList ['k']) ∧
      Continues "k:\n\n- a\n".toList ['k'] ∧ ¬ Refuses "k:\n\n- a\n".toList ['k'] := by
  have hfirst : removeFmField "k: foo\n  bar".toList ['k'] = .ok "  bar".toList := by decide
  have hsecond : removeFmField "k:\n\n- a\n".toList ['k'] = .ok "\n- a\n".toList := by decide
  refine ⟨⟨⟨[], " foo".toList, [], "  bar".toList, [], ?_⟩, fun h => ?_⟩,
    ⟨[], [], [[]], "- a".toList, [[]], ?_⟩, fun h => ?_⟩
  · exact ⟨by decide, by simp, by decide, by decide⟩
  · obtain ⟨e, he⟩ := h.remove
    rw [hfirst] at he
    cases he
  · exact ⟨by decide, by decide, by decide, by decide⟩
  · obtain ⟨e, he⟩ := h.remove
    rw [hsecond] at he
    cases he

end Frontmatter

end CoordinatorCore
