import Mathlib.Data.List.DropRight

/-!
# Text as a list of code points

The string operations the engine's text surgery is written with, on `Text := List Char`:
stripping by character class, prefix removal, and the split of a text at its line feeds.
Nothing here knows about any document format.

Two conventions of the host language are pinned once. `isSpace` is the character class of
`str.isspace`, which the argument-free `strip` family removes; `isBlank` is the much smaller
regex class `[ \t]`. `lines` splits at `'\n'` only, which is exactly where the multiline
anchors `^` and `$` match, and is a different operation from `str.splitlines`.
-/

namespace CoordinatorCore

/-- A text is the list of its code points. -/
abbrev Text := List Char

namespace Text

instance instLawfulBEq : LawfulBEq Text := List.instLawfulBEq

/-! ### Character classes -/

/-- The code points `str.isspace` accepts, hence the ones a bare `strip` removes. -/
def isSpace (c : Char) : Bool :=
  let n := c.toNat
  (9 ≤ n && n ≤ 13) || (28 ≤ n && n ≤ 32) || n == 0x85 || n == 0xa0 || n == 0x1680 ||
    (0x2000 ≤ n && n ≤ 0x200a) || n == 0x2028 || n == 0x2029 || n == 0x202f || n == 0x205f ||
    n == 0x3000

/-- The regex class `[ \t]`. -/
def isBlank (c : Char) : Bool := c == ' ' || c == '\t'

/-- The regex class `[0-9]`. -/
def isDigit (c : Char) : Bool := '0' ≤ c && c ≤ '9'

/-- A blank is a space or a tab. -/
theorem isBlank_iff {c : Char} : isBlank c = true ↔ c = ' ' ∨ c = '\t' := by
  simp [isBlank]

/-- Blanks are white space. -/
theorem isSpace_of_isBlank {c : Char} (h : isBlank c = true) : isSpace c = true := by
  rcases isBlank_iff.mp h with rfl | rfl <;> decide

/-! ### Stripping -/

/-- `s.lstrip()`. -/
def lstrip (s : Text) : Text := s.dropWhile isSpace

/-- `s.rstrip()`. -/
def rstrip (s : Text) : Text := s.rdropWhile isSpace

/-- `s.strip()`. -/
def strip (s : Text) : Text := rstrip (lstrip s)

@[simp] theorem lstrip_nil : lstrip [] = [] := rfl

@[simp] theorem rstrip_nil : rstrip [] = [] := rfl

@[simp] theorem strip_nil : strip [] = [] := rfl

/-- White space in front is dropped. -/
theorem lstrip_cons_of_space {c : Char} {s : Text} (h : isSpace c = true) :
    lstrip (c :: s) = lstrip s := by
  simp [lstrip, h]

/-- A character in front that is no white space stays. -/
theorem lstrip_cons_of_not_space {c : Char} {s : Text} (h : isSpace c = false) :
    lstrip (c :: s) = c :: s := by
  simp [lstrip, h]

/-- A run of white space in front of a text is stripped from the left. -/
theorem lstrip_append_of_forall {w s : Text} (h : ∀ c ∈ w, isSpace c = true) :
    lstrip (w ++ s) = lstrip s := by
  induction w with
  | nil => rfl
  | cons c w ih =>
    rw [List.cons_append, lstrip_cons_of_space (h c (by simp))]
    exact ih fun d hd => h d (by simp [hd])

/-- A run of white space behind a text is stripped from the right. -/
theorem rstrip_append_of_forall {s w : Text} (h : ∀ c ∈ w, isSpace c = true) :
    rstrip (s ++ w) = rstrip s := by
  induction w using List.reverseRecOn with
  | nil => simp
  | append_singleton w c ih =>
    rw [← List.append_assoc, rstrip, List.rdropWhile_concat_pos _ _ _ (h c (by simp))]
    exact ih fun d hd => h d (by simp [hd])

/-- Only white space is stripped to nothing from the right. -/
theorem rstrip_eq_nil_iff {s : Text} : rstrip s = [] ↔ ∀ c ∈ s, isSpace c = true :=
  List.rdropWhile_eq_nil_iff

/-- Only white space is stripped to nothing from the left. -/
theorem lstrip_eq_nil_iff {s : Text} : lstrip s = [] ↔ ∀ c ∈ s, isSpace c = true :=
  List.dropWhile_eq_nil_iff

/-- What `rstrip` removes is white space. -/
theorem exists_rstrip_append (s : Text) :
    ∃ w, s = rstrip s ++ w ∧ ∀ c ∈ w, isSpace c = true := by
  refine ⟨s.rtakeWhile isSpace, List.rdropWhile_append_rtakeWhile.symm, fun c hc => ?_⟩
  exact List.mem_rtakeWhile_imp hc

/-- A text is what `rstrip` leaves and the slice behind it. -/
theorem rstrip_append_drop (s : Text) : rstrip s ++ s.drop (rstrip s).length = s :=
  List.prefix_iff_eq_append.mp (List.rdropWhile_prefix isSpace s)

/-- What `lstrip` removes is white space. -/
theorem exists_append_lstrip (s : Text) :
    ∃ w, s = w ++ lstrip s ∧ ∀ c ∈ w, isSpace c = true :=
  ⟨s.takeWhile isSpace, (List.takeWhile_append_dropWhile ..).symm, fun _ hc =>
    List.mem_takeWhile_imp hc⟩

/-- A text stays when it does not end in white space. -/
theorem rstrip_eq_self_iff {s : Text} :
    rstrip s = s ↔ ∀ h : s ≠ [], isSpace (s.getLast h) = false := by
  simp [rstrip, List.rdropWhile_eq_self_iff]

theorem rstrip_idem (s : Text) : rstrip (rstrip s) = rstrip s := List.rdropWhile_idempotent ..

/-- The last code point `rstrip` leaves is not white space. -/
theorem getLast_rstrip {s : Text} (h : rstrip s ≠ []) :
    isSpace ((rstrip s).getLast h) = false :=
  rstrip_eq_self_iff.mp (rstrip_idem s) h

/-- A text without white space is left alone by `strip`. -/
theorem strip_of_forall {s : Text} (h : ∀ c ∈ s, isSpace c = false) : strip s = s := by
  have hl : lstrip s = s := by
    cases s with
    | nil => rfl
    | cons c s => exact List.dropWhile_cons_of_neg (by simp [h c (List.mem_cons_self ..)])
  rw [strip, hl, rstrip_eq_self_iff]
  exact fun hne => h _ (List.getLast_mem hne)

/-- A text ending in a code point that is not white space is left alone by `rstrip`. -/
theorem rstrip_concat_of_not_space {s : Text} {c : Char} (h : isSpace c = false) :
    rstrip (s ++ [c]) = s ++ [c] := by
  rw [rstrip, List.rdropWhile_concat_neg]
  simp [h]

/-- `rstrip` stops at the last code point that is not white space. -/
theorem rstrip_append_cons {c : Char} (hc : isSpace c = false) (s t : Text) :
    rstrip (s ++ c :: t) = s ++ c :: rstrip t := by
  simp only [rstrip, List.rdropWhile, List.reverse_append, List.reverse_cons, List.append_assoc,
    List.dropWhile_append]
  cases t.reverse.dropWhile isSpace with
  | nil => simp [hc]
  | cons d ds => simp

/-- Left padding of white space does not change what `strip` leaves. -/
theorem strip_append_left {w s : Text} (h : ∀ c ∈ w, isSpace c = true) :
    strip (w ++ s) = strip s := by
  rw [strip, lstrip_append_of_forall h, strip]

/-- `lstrip` and `rstrip` commute. -/
theorem lstrip_rstrip (s : Text) : lstrip (rstrip s) = rstrip (lstrip s) := by
  induction s with
  | nil => rfl
  | cons c s ih =>
    cases hc : isSpace c with
    | true =>
      rw [lstrip_cons_of_space hc, ← ih]
      by_cases hs : rstrip s = []
      · have hall : ∀ d ∈ c :: s, isSpace d = true := by
          intro d hd
          rcases List.mem_cons.mp hd with rfl | hd
          · exact hc
          · exact rstrip_eq_nil_iff.mp hs d hd
        rw [rstrip_eq_nil_iff.mpr hall, hs]
      · obtain ⟨w, hw, hsp⟩ := exists_rstrip_append s
        have hcons : rstrip (c :: s) = c :: rstrip s := by
          conv_lhs => rw [hw, ← List.cons_append, rstrip_append_of_forall hsp]
          rw [rstrip_eq_self_iff]
          intro h
          rw [List.getLast_cons hs]
          exact getLast_rstrip hs
        rw [hcons, lstrip_cons_of_space hc]
    | false =>
      rw [lstrip_cons_of_not_space hc]
      obtain ⟨w, hw, hsp⟩ := exists_rstrip_append (c :: s)
      cases hr : rstrip (c :: s) with
      | nil =>
        have := rstrip_eq_nil_iff.mp hr c (by simp)
        rw [hc] at this
        exact absurd this (by simp)
      | cons d r =>
        have hd : d = c := by
          rw [hr, List.cons_append] at hw
          exact (List.cons.inj hw).1.symm
        subst hd
        exact lstrip_cons_of_not_space hc

/-- Right padding of white space does not change what `strip` leaves. -/
theorem strip_append_right {s w : Text} (h : ∀ c ∈ w, isSpace c = true) :
    strip (s ++ w) = strip s := by
  rw [strip, ← lstrip_rstrip, rstrip_append_of_forall h, lstrip_rstrip, strip]

theorem strip_idem (s : Text) : strip (strip s) = strip s := by
  have hl : lstrip (lstrip s) = lstrip s := List.dropWhile_idempotent isSpace _
  rw [strip, strip, lstrip_rstrip, rstrip_idem, hl]

/-- A stripped text is stripped on the right. -/
theorem rstrip_of_strip {s : Text} (h : strip s = s) : rstrip s = s := by
  rw [← h, strip, rstrip_idem]

/-- A stripped text is stripped on the left. -/
theorem lstrip_of_strip {s : Text} (h : strip s = s) : lstrip s = s := by
  rw [← h, strip, ← lstrip_rstrip]
  exact List.dropWhile_idempotent isSpace _

/-! ### Prefixes -/

/-- The text behind the prefix `p`, when `s` starts with it. -/
def stripPrefix? : Text → Text → Option Text
  | [], s => some s
  | _ :: _, [] => none
  | a :: p, c :: s => if a = c then stripPrefix? p s else none

/-- What is behind a prefix. -/
theorem stripPrefix?_eq_some {p s r : Text} : stripPrefix? p s = some r ↔ s = p ++ r := by
  induction p generalizing s with
  | nil => simp [stripPrefix?]
  | cons a p ih =>
    cases s with
    | nil => simp [stripPrefix?]
    | cons c s =>
      rw [stripPrefix?]
      split_ifs with h
      · subst h; rw [ih]; simp
      · simp [Ne.symm h]

@[simp] theorem stripPrefix?_append (p r : Text) : stripPrefix? p (p ++ r) = some r :=
  stripPrefix?_eq_some.mpr rfl

/-- A prefix without white space is found in front of white space or not at all. -/
theorem stripPrefix?_append_space {p s w : Text} (hp : ∀ c ∈ p, isSpace c = false)
    (hw : ∀ c ∈ w, isSpace c = true) :
    stripPrefix? p (s ++ w) = (stripPrefix? p s).map (· ++ w) := by
  induction p generalizing s with
  | nil => rfl
  | cons a p ih =>
    cases s with
    | nil =>
      cases w with
      | nil => rfl
      | cons c w =>
        have hne : a ≠ c := by
          rintro rfl
          simpa [hp a (by simp)] using hw a (by simp)
        simp [stripPrefix?, hne]
    | cons c s =>
      rw [List.cons_append, stripPrefix?, stripPrefix?]
      split_ifs
      · exact ih fun d hd => hp d (by simp [hd])
      · rfl

/-! ### Substrings -/

/-- The text before and behind the first occurrence of `p`, as `s.find(p)` locates it. -/
def cutAt (p : Text) : Text → Option (Text × Text)
  | [] => (stripPrefix? p []).map fun r => ([], r)
  | c :: cs =>
    match stripPrefix? p (c :: cs) with
    | some r => some ([], r)
    | none => (cutAt p cs).map fun m => (c :: m.1, m.2)

/-- `p in s`. -/
def contains (p s : Text) : Bool := (cutAt p s).isSome

/-- A cut is an occurrence. -/
theorem eq_of_cutAt {p s a b : Text} (h : cutAt p s = some (a, b)) : s = a ++ p ++ b := by
  induction s generalizing a with
  | nil =>
    rw [cutAt, Option.map_eq_some_iff] at h
    obtain ⟨r, hr, he⟩ := h
    cases he
    simpa using stripPrefix?_eq_some.mp hr
  | cons c s ih =>
    rw [cutAt] at h
    split at h
    · next r hr =>
      cases h
      simpa using stripPrefix?_eq_some.mp hr
    · rw [Option.map_eq_some_iff] at h
      obtain ⟨m, hm, he⟩ := h
      cases he
      simp [ih hm]

/-- The cut at a single character is at its first occurrence. -/
theorem cutAt_append_cons {x : Char} {a : Text} (ha : x ∉ a) (b : Text) :
    cutAt [x] (a ++ x :: b) = some (a, b) := by
  induction a with
  | nil => rw [List.nil_append, cutAt, stripPrefix?, if_pos rfl]; rfl
  | cons c a ih =>
    obtain ⟨hc, ha⟩ := not_or.mp (List.mem_cons.not.mp ha)
    rw [List.cons_append, cutAt, stripPrefix?, if_neg hc, ih ha]
    rfl

/-- Every occurrence makes the cut succeed, at or before it. -/
theorem exists_cutAt_append (p a b : Text) :
    ∃ m, cutAt p (a ++ p ++ b) = some m ∧ m.1.length ≤ a.length := by
  induction a with
  | nil =>
    cases h : p ++ b with
    | nil =>
      obtain ⟨rfl, rfl⟩ := List.append_eq_nil_iff.mp h
      exact ⟨([], []), rfl, by simp⟩
    | cons c cs =>
      refine ⟨([], b), ?_, by simp⟩
      have hp : stripPrefix? p (c :: cs) = some b := stripPrefix?_eq_some.mpr h.symm
      simp [cutAt, h, hp]
  | cons c a ih =>
    obtain ⟨m, hm, hlen⟩ := ih
    simp only [List.cons_append, cutAt]
    split
    · exact ⟨_, rfl, by simp⟩
    · exact ⟨(c :: m.1, m.2), by rw [hm]; rfl, by simp [hlen]⟩

/-- A text is cut at every pattern it contains. -/
theorem cutAt_eq_none_iff {p s : Text} : cutAt p s = none ↔ ¬ p <:+: s := by
  constructor
  · rintro h ⟨a, b, rfl⟩
    obtain ⟨m, hm, -⟩ := exists_cutAt_append p a b
    rw [hm] at h
    cases h
  · intro h
    rcases hc : cutAt p s with _ | ⟨a, b⟩
    · rfl
    · exact absurd ⟨a, b, (eq_of_cutAt hc).symm⟩ h

/-- Containing is being an infix. -/
theorem contains_iff {p s : Text} : contains p s = true ↔ p <:+: s := by
  rw [contains, Option.isSome_iff_ne_none, ne_eq, cutAt_eq_none_iff, not_not]

/-! ### Lines -/

/-- The lines of a text, split at every `'\n'` and without it. -/
def lines (t : Text) : List Text := t.splitOn '\n'

/-- Lines joined by `'\n'`. -/
def unlines (ls : List Text) : Text := ['\n'].intercalate ls

@[simp] theorem unlines_lines (t : Text) : unlines (lines t) = t := List.intercalate_splitOn _

/-- Joining two non-empty blocks of lines puts one line feed between them. -/
theorem unlines_append {a b : List Text} (ha : a ≠ []) (hb : b ≠ []) :
    unlines (a ++ b) = unlines a ++ '\n' :: unlines b := by
  induction a with
  | nil => exact absurd rfl ha
  | cons l a ih =>
    cases a with
    | nil =>
      obtain ⟨m, b, rfl⟩ := List.exists_cons_of_ne_nil hb
      simp [unlines, List.intercalate, List.intersperse]
    | cons m a =>
      have := ih (by simp)
      simp only [unlines, List.intercalate, List.cons_append, List.intersperse,
        List.flatten_cons] at this ⊢
      rw [this]
      simp

theorem lines_ne_nil (t : Text) : lines t ≠ [] := List.splitOn_ne_nil _ _

/-- Lines without line feeds are read back. -/
theorem lines_unlines {ls : List Text} (h : ∀ l ∈ ls, '\n' ∉ l) (hne : ls ≠ []) :
    lines (unlines ls) = ls := List.splitOn_intercalate _ h hne

/-- A text without line feeds is one line. -/
theorem lines_of_not_mem {t : Text} (h : '\n' ∉ t) : lines t = [t] := List.splitOn_eq_singleton h

/-- Splitting distributes over a line feed. -/
theorem lines_append_cons (s t : Text) : lines (s ++ '\n' :: t) = lines s ++ lines t :=
  List.splitOn_append_cons_self _ _

/-- A character that is no line feed goes to the first line. -/
theorem lines_cons_of_ne {c : Char} (h : c ≠ '\n') (t : Text) :
    lines (c :: t) = (lines t).modifyHead (c :: ·) := by
  rw [lines, List.splitOn_cons_eq_if_modifyHead, if_neg (by simpa using h)]
  rfl

/-- Appending a text continues the last line with the first line of the appended text. -/
theorem exists_lines_append (s : Text) :
    ∃ ls l, lines s = ls ++ [l] ∧ l <:+ s ∧
      ∀ t h hs, lines t = h :: hs → lines (s ++ t) = ls ++ (l ++ h) :: hs := by
  induction s with
  | nil => exact ⟨[], [], rfl, List.suffix_refl _, fun t h hs ht => ht⟩
  | cons c s ih =>
    obtain ⟨ls, l, hl, hsuff, hcont⟩ := ih
    by_cases hc : c = '\n'
    · subst hc
      have hcons := lines_append_cons []
      refine ⟨[] :: ls, l, ?_, hsuff.trans (List.suffix_cons ..), fun t h hs ht => ?_⟩
      · rw [← List.nil_append ('\n' :: s), hcons, hl]; rfl
      · rw [List.cons_append, ← List.nil_append ('\n' :: _), hcons, hcont t h hs ht]; rfl
    · cases ls with
      | nil =>
        have hsl : s = l := by rw [← unlines_lines s, hl]; simp [unlines]
        refine ⟨[], c :: l, ?_, hsl ▸ List.suffix_refl _, fun t h hs ht => ?_⟩
        · rw [lines_cons_of_ne hc, hl]; rfl
        · rw [List.cons_append, lines_cons_of_ne hc, hcont t h hs ht]; rfl
      | cons m ls =>
        refine ⟨(c :: m) :: ls, l, ?_, hsuff.trans (List.suffix_cons ..), fun t h hs ht => ?_⟩
        · rw [lines_cons_of_ne hc, hl]; rfl
        · rw [List.cons_append, lines_cons_of_ne hc, hcont t h hs ht]; rfl

/-- The code points of a text are the line feeds and those of its lines. -/
theorem mem_of_mem_lines {t l : Text} (h : l ∈ lines t) {c : Char} (hc : c ∈ l) : c ∈ t := by
  rw [← unlines_lines t]
  obtain ⟨a, b, hab⟩ := List.append_of_mem h
  rw [hab]
  have hl : ∀ ls : List Text, c ∈ unlines (l :: ls) := by
    intro ls
    cases ls with
    | nil => simpa [unlines] using hc
    | cons m ls => simp [unlines, List.intercalate, List.intersperse, hc]
  cases a with
  | nil => exact hl b
  | cons m a =>
    have := unlines_append (a := m :: a) (b := l :: b) (by simp) (by simp)
    rw [this]
    simp [hl b]

/-- A piece between separators holds no separator. -/
theorem not_mem_of_mem_splitOn {α : Type*} [DecidableEq α] {a : α} {t l : List α}
    (h : l ∈ t.splitOn a) : a ∉ l := by
  induction t generalizing l with
  | nil =>
    have : l = [] := by simpa using h
    simp [this]
  | cons c t ih =>
    rw [List.splitOn_cons_eq_if_modifyHead] at h
    split_ifs at h with hc
    · rcases List.mem_cons.mp h with rfl | h
      · simp
      · exact ih h
    · obtain ⟨m, ms, hm⟩ := List.exists_cons_of_ne_nil (List.splitOn_ne_nil a t)
      rw [hm] at h
      rcases List.mem_cons.mp h with rfl | h
      · have hnm : a ∉ m := ih (by rw [hm]; exact List.mem_cons_self ..)
        have hca : ¬ c = a := by simpa using hc
        simp [hnm, Ne.symm hca]
      · exact ih (by rw [hm]; exact List.mem_cons_of_mem _ h)

/-- A line holds no line feed. -/
theorem not_mem_of_mem_lines {t l : Text} (h : l ∈ lines t) : '\n' ∉ l := not_mem_of_mem_splitOn h

end Text

end CoordinatorCore
