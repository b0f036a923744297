import CoordinatorCore.Frontmatter.BlockScalar
import CoordinatorCore.Frontmatter.SeveralLines

/-!
# Appending to a block scalar

An append puts a line behind the last line of a block and should leave everything else alone. What
the reader makes of the result is computed line by line: the lines of the value, the end its last
line may have lacked, the blank line of a folded block, the new line, and the lines that were no
value (`exists_block_lines_append`). Other keys stand at the left margin, and all that goes in
hangs to the right of it (`readFmField_hanging`).

The result is exact unless the text in front of the splice ends in a character that only one of
the two notions of a line takes for an end, or the new line itself holds one (`AppendSafe`,
`append_exact_iff`).
-/

namespace CoordinatorCore

open Text

namespace Frontmatter

variable {h : BlockHeader} {rest l q nl : Text} {k d s : List Text} {pad' : Option Text}

/-! ### The parts of a body -/

/-- The lines below a header: the ones of the value, blank ones dropped behind it, and the rest. -/
structure BodySplit (h : BlockHeader) (rest : Text) (k d s : List Text) (pad' : Option Text) :
    Prop where
  lines : splitlinesKeep rest = k ++ (d ++ s)
  kept : h.kept rest = k
  pad : h.pad rest = pad'.getD [' ', ' ']
  keeps : Kept h.startPad k pad'
  blank : ∀ l ∈ d, blankLine l = true
  chomp : h.chomp = some '+' → d = []
  stops : Stops pad' s

/-- Every text behind a header splits into the body, the lines it drops and the rest. -/
theorem exists_bodySplit (h : BlockHeader) (rest : Text) :
    ∃ k d s pad', BodySplit h rest k d s pad' := by
  obtain ⟨a, s, pad', hls, htake, hkeep, hstop⟩ := exists_takeBody h.startPad (splitlinesKeep rest)
  have hpad : h.pad rest = pad'.getD [' ', ' '] := by rw [BlockHeader.pad, htake]
  by_cases hc : h.chomp = some '+'
  · refine ⟨a, [], s, pad', hls, ?_, hpad, hkeep, by simp, fun _ => rfl, hstop⟩
    rw [BlockHeader.kept, htake, chompLines, if_pos hc]
  · have happ : a = a.rdropWhile blankLine ++ a.rtakeWhile blankLine :=
      List.rdropWhile_append_rtakeWhile.symm
    have hblank : ∀ l ∈ a.rtakeWhile blankLine, blankLine l = true :=
      fun l hl => List.mem_rtakeWhile_imp hl
    refine ⟨a.rdropWhile blankLine, a.rtakeWhile blankLine, s, pad', ?_, ?_, hpad, ?_, hblank,
      fun h => absurd h hc, hstop⟩
    · rw [hls, ← List.append_assoc, ← happ]
    · rw [BlockHeader.kept, htake, chompLines, if_neg hc]
    · rw [happ] at hkeep
      obtain ⟨p, hp, hrest⟩ := kept_append_iff.mp hkeep
      rwa [(kept_of_blank hblank).unique hrest] at hp

/-- The three parts of a split make up the text again. -/
theorem BodySplit.flatten (hs : BodySplit h rest k d s pad') :
    rest = k.flatten ++ (d ++ s).flatten := by
  rw [← List.flatten_append, ← hs.lines, flatten_splitlinesKeep]

/-- The body's lines are lines of the text. -/
theorem BodySplit.mem (hs : BodySplit h rest k d s pad') : ∀ l ∈ k, l ∈ splitlinesKeep rest := by
  intro l hl
  rw [hs.lines]
  exact List.mem_append_left _ hl

/-- The padding of a block that was found is a padding. -/
theorem BodySplit.padding (hs : BodySplit h rest k d s pad') {t : Text}
    (hh : blockHeader t = some h) : Padding (h.pad rest) := by
  rw [hs.pad]
  have hpad := hs.keeps.padding hs.mem (padding_startPad hh)
  cases pad' with
  | none => exact padding_default
  | some p => exact hpad p rfl

/-- The padding the loop has seen is the one lines are written with. -/
theorem BodySplit.pad_eq (hs : BodySplit h rest k d s pad') :
    pad' = some (h.pad rest) ∨ pad' = none ∧ h.pad rest = [' ', ' '] := by
  rw [hs.pad]
  cases pad' with
  | none => exact .inr ⟨rfl, rfl⟩
  | some p => exact .inl rfl

/-- The first line behind the block stops the loop also once the padding is set. -/
theorem BodySplit.stops_some (hs : BodySplit h rest k d s pad') : Stops (some (h.pad rest)) s := by
  intro l hl
  have hnone := bodyStep_eq_none_iff.mp (hs.stops l hl)
  refine bodyStep_eq_none_iff.mpr ⟨hnone.1, fun hi => ?_⟩
  obtain ⟨p, hp, hpre⟩ := hnone.2 hi
  rcases hs.pad_eq with hpad | ⟨hpad, -⟩
  · rw [hpad] at hp
    exact ⟨p, hp, hpre⟩
  · rw [hpad] at hp
    cases hp

/-! ### Ends of lines -/

/-- The lines `k'` read as the lines `k` do. -/
structure SameLines (k k' : List Text) : Prop where
  keeps : ∀ {pad pad'}, Kept pad k pad' → Kept pad k' pad'
  deindent : ∀ q, k'.map (deindent q) = k.map (deindent q)

theorem SameLines.refl (k : List Text) : SameLines k k := ⟨id, fun _ => rfl⟩

/-- How a line is classed does not depend on its line end. -/
theorem bodyStep_append_right {pad : Option Text} {x w : Text}
    (hw : ∀ c ∈ w, c = '\r' ∨ c = '\n') : bodyStep pad (x ++ w) = bodyStep pad x := by
  rw [bodyStep, bodyStep, rstripNewline_append_right hw]

/-- The last line may gain a line end. -/
theorem sameLines_concat {k₀ : List Text} {x w : Text} (hw : ∀ c ∈ w, c = '\r' ∨ c = '\n') :
    SameLines (k₀ ++ [x]) (k₀ ++ [x ++ w]) := by
  constructor
  · intro pad pad' hk
    obtain ⟨p, hk₀, hx⟩ := kept_append_iff.mp hk
    refine kept_append_iff.mpr ⟨p, hk₀, ?_⟩
    rw [kept_cons_iff] at hx ⊢
    rwa [bodyStep_append_right hw]
  · intro q
    simp [deindent, rstripNewline_append_right hw]

/-- The two ends a block can have. -/
def IsLineEnd (nl : Text) : Prop := nl = ['\n'] ∨ nl = ['\r', '\n']

/-- The line end of a body is one. -/
theorem isLineEnd_lineEnd (k : List Text) : IsLineEnd (lineEnd k) := by
  rw [lineEnd]
  split_ifs
  · exact .inr rfl
  · exact .inl rfl

theorem IsLineEnd.mem (h : IsLineEnd nl) : ∀ c ∈ nl, c = '\r' ∨ c = '\n' := by
  rcases h with rfl | rfl <;> simp

/-- A line end alone is a blank line. -/
theorem IsLineEnd.blank (h : IsLineEnd nl) : blankLine nl = true := by
  rcases h with rfl | rfl <;> decide

theorem IsLineEnd.splitlinesKeep (h : IsLineEnd nl) : splitlinesKeep nl = [nl] := by
  rcases h with rfl | rfl <;> decide

theorem IsLineEnd.exists_concat (h : IsLineEnd nl) :
    ∃ e, nl = e ++ ['\n'] ∧ ∀ c ∈ e, c = '\r' := by
  rcases h with rfl | rfl
  · exact ⟨[], rfl, by simp⟩
  · exact ⟨['\r'], rfl, by simp⟩

/-- No line break is torn behind a line end. -/
theorem IsLineEnd.cleanCut (h : IsLineEnd nl) (x t : Text) : CleanCut (x ++ nl) t := by
  obtain ⟨e, rfl, -⟩ := h.exists_concat
  rw [← List.append_assoc, cleanCut_concat]
  exact ⟨by decide, fun h => absurd h (by decide)⟩

/-- What goes in between the value and the appended line: the end of an unterminated line, and
the blank line of a folded block. -/
def gapText (k : List Text) (sep : Bool) (nl : Text) : Text :=
  (if k = [] ∨ endsLine k.flatten = true then [] else nl) ++ (if sep = true then nl else [])

/-- The value ends in a way the gap is right for: at a line feed, at no end of a line at all, or
at a carriage return that no line feed gets behind. -/
def Smooth (k : List Text) (sep : Bool) (nl : Text) : Prop :=
  ∀ c ∈ k.flatten.getLast?, isLineBreak c = true →
    c = '\n' ∨ c = '\r' ∧ ¬ (sep = true ∧ nl = ['\n'])

theorem endsLine_concat (x : Text) (c : Char) :
    endsLine (x ++ [c]) = (c == '\n' || c == '\r') := by
  simp [endsLine]

/-- The blank line in front of the addition, where there is one, is a line of its own. -/
theorem splitlinesKeep_blank (hnl : IsLineEnd nl) (sep : Bool) :
    splitlinesKeep (if sep = true then nl else []) = List.replicate sep.toNat nl := by
  cases sep
  · rfl
  · exact hnl.splitlinesKeep

theorem splitlinesKeep_end_blank (hnl : IsLineEnd nl) (sep : Bool) :
    splitlinesKeep (nl ++ if sep = true then nl else []) =
      nl :: List.replicate sep.toNat nl := by
  have hcut : CleanCut nl (if sep = true then nl else []) := hnl.cleanCut [] _
  rw [splitlinesKeep_append hcut, hnl.splitlinesKeep, splitlinesKeep_blank hnl]
  rfl

/-- No line break is torn behind the blank line in front of the addition. -/
theorem cleanCut_blank (hnl : IsLineEnd nl) {x t : Text} {sep : Bool}
    (hx : sep = false → CleanCut x t) : CleanCut (x ++ if sep = true then nl else []) t := by
  cases sep
  · simpa using hx rfl
  · exact hnl.cleanCut x t

/-- The lines of the last line and the gap. -/
structure GapLines (x gap nl : Text) (sep : Bool) (x' : Text) (n : Nat) : Prop where
  lines : splitlinesKeep (x ++ gap) = x' :: List.replicate n nl
  same : ∃ w, x' = x ++ w ∧ ∀ c ∈ w, c = '\r' ∨ c = '\n'
  cut : ∀ t : Text, t.head? ≠ some '\n' → CleanCut (x ++ gap) t

/-- A last line without an end gets one. -/
theorem gapLines_unbroken {x : Text} (hx : ∀ c ∈ x, isLineBreak c = false) (hnl : IsLineEnd nl)
    (sep : Bool) :
    GapLines x (nl ++ if sep = true then nl else []) nl sep (x ++ nl) sep.toNat := by
  refine ⟨splitlinesKeep_unbroken hx (splitlinesKeep_end_blank hnl sep), ⟨nl, rfl, hnl.mem⟩,
    fun t _ => ?_⟩
  rw [← List.append_assoc]
  exact cleanCut_blank hnl fun _ => hnl.cleanCut x t

/-- A last line with an end keeps it where no line feed gets behind a carriage return. -/
theorem gapLines_ended {x gap : Text} {n : Nat} (sep : Bool) (hx : splitlinesKeep x = [x])
    (hcut : CleanCut x gap) (hgap : splitlinesKeep gap = List.replicate n nl)
    (hend : ∀ t : Text, t.head? ≠ some '\n' → CleanCut (x ++ gap) t) :
    GapLines x gap nl sep x n := by
  refine ⟨?_, ⟨[], by simp, by simp⟩, hend⟩
  rw [splitlinesKeep_append hcut, hx, hgap]
  rfl

/-- The gap behind the last line `x`, by the end it has. -/
theorem exists_gapLines {x : Text} (hx : splitlinesKeep x = [x]) (hnl : IsLineEnd nl)
    (sep : Bool) :
    ∃ x' n, GapLines x ((if endsLine x = true then [] else nl) ++ if sep = true then nl else [])
        nl sep x' n ∧
      (n = sep.toNat ↔ ∀ c ∈ x.getLast?, isLineBreak c = true →
        c = '\n' ∨ c = '\r' ∧ ¬ (sep = true ∧ nl = ['\n'])) := by
  obtain ⟨y, e, hy, hbody, he⟩ := exists_line_end (s := x) (l := x) (by rw [hx]; simp)
  rcases List.eq_nil_or_concat' x with rfl | ⟨z, c, rfl⟩
  · simp at hx
  simp only [endsLine_concat, List.getLast?_concat, Option.mem_some_iff, forall_eq']
  by_cases hc : isLineBreak c = true
  · by_cases hlf : c = '\n'
    · subst hlf
      refine ⟨z ++ ['\n'], sep.toNat, ?_, by simp⟩
      have hcut : ∀ t, CleanCut (z ++ ['\n']) t := (IsLineEnd.cleanCut (.inl rfl)) z
      simpa using gapLines_ended sep hx (hcut _) (splitlinesKeep_blank hnl sep)
        fun t _ => cleanCut_blank hnl fun _ => hcut t
    · by_cases hcr : c = '\r'
      · subst hcr
        by_cases hmeet : sep = true ∧ nl = ['\n']
        · -- the line feed of the blank line ends the value instead
          obtain ⟨rfl, rfl⟩ := hmeet
          obtain ⟨rfl, rfl⟩ : e = ['\r'] ∧ z = y := by
            rcases he with rfl | rfl | ⟨d, rfl, -⟩
            · rw [List.append_nil] at hy
              have := hbody '\r' (by rw [← hy]; simp)
              cases this
            · have := congrArg List.getLast? hy
              simp at this
            · have := List.append_inj' hy rfl
              exact ⟨this.2.symm, this.1⟩
          refine ⟨z ++ ['\r'] ++ ['\n'], 0, ?_, by simp [hc]⟩
          refine ⟨?_, ⟨['\n'], rfl, by simp⟩, fun t _ => ?_⟩
          · simpa using splitlinesKeep_unbroken hbody (t := ['\r', '\n']) (by decide)
          · exact IsLineEnd.cleanCut (.inl rfl) _ t
        · refine ⟨z ++ ['\r'], sep.toNat, ?_, by simpa [hc] using hmeet⟩
          have hcut : ∀ t : Text, t.head? ≠ some '\n' → CleanCut (z ++ ['\r']) t :=
            fun t ht => cleanCut_concat.mpr ⟨by decide, fun _ => ht⟩
          have hblank : (if sep = true then nl else []).head? ≠ some '\n' := by
            cases sep
            · simp
            · rcases hnl with rfl | rfl
              · exact absurd ⟨rfl, rfl⟩ hmeet
              · simp
          simpa using gapLines_ended sep hx (hcut _ hblank)
            (splitlinesKeep_blank hnl sep) fun t ht => cleanCut_blank hnl fun _ => hcut t ht
      · -- a separator that is no line end gets a whole blank line behind it
        have hcut : ∀ t, CleanCut (z ++ [c]) t :=
          fun t => cleanCut_concat.mpr ⟨hc, fun h => absurd h hcr⟩
        refine ⟨z ++ [c], sep.toNat + 1, ?_, by simp [hc, hlf, hcr]⟩
        have hends : (c == '\n' || c == '\r') = false := by simp [hlf, hcr]
        rw [hends, if_neg (by simp)]
        refine gapLines_ended sep hx (hcut _) (splitlinesKeep_end_blank hnl sep) fun t _ => ?_
        rw [← List.append_assoc]
        exact cleanCut_blank hnl fun _ => hnl.cleanCut _ t
  · have hends : (c == '\n' || c == '\r') = false := by
      simp only [Bool.or_eq_false_iff, beq_eq_false_iff_ne]
      constructor <;> rintro rfl <;> exact hc (by decide)
    refine ⟨z ++ [c] ++ nl, sep.toNat, ?_, by simp [hc]⟩
    rw [hends, if_neg (by simp)]
    refine gapLines_unbroken ?_ hnl sep
    rcases he with rfl | rfl | ⟨d, rfl, hd⟩
    · rw [hy, List.append_nil]
      exact hbody
    · have := congrArg List.getLast? hy
      rw [List.getLast?_concat] at this
      simp only [List.getLast?_append_cons, List.getLast?_cons_cons, List.getLast?_singleton,
        Option.some.injEq] at this
      rw [this] at hc
      exact absurd (by decide) hc
    · rw [List.append_inj_right' hy rfl |> List.singleton_inj.mp] at hc
      exact absurd hd hc

/-- The lines of the value and the gap: the value, possibly with an end that its last line did not
have, and blank lines. There are as many of them as wanted when the end is smooth. -/
theorem exists_gap_lines (hk : splitlinesKeep k.flatten = k) (hnl : IsLineEnd nl) {sep : Bool}
    (hsep : sep = true → k ≠ []) :
    ∃ k' n, splitlinesKeep (k.flatten ++ gapText k sep nl) = k' ++ List.replicate n nl ∧
      SameLines k k' ∧ (n = sep.toNat ↔ Smooth k sep nl) ∧
      ∀ t : Text, t.head? ≠ some '\n' → CleanCut (k.flatten ++ gapText k sep nl) t := by
  rcases List.eq_nil_or_concat' k with rfl | ⟨k₀, x, rfl⟩
  · obtain rfl : sep = false := by simpa using hsep
    refine ⟨[], 0, by simp [gapText], SameLines.refl [], ?_, fun t _ => ?_⟩
    · simp [Smooth]
    · simpa [gapText] using cleanCut_nil t
  · obtain ⟨hk₀, hx, hcut⟩ := splitlinesKeep_eq_append hk
    have hx : splitlinesKeep x = [x] := by simpa using hx
    have hxne : x ≠ [] := by
      rintro rfl
      cases hx
    obtain ⟨x', n, hgap, hsmooth⟩ := exists_gapLines hx hnl sep
    obtain ⟨w, rfl, hw⟩ := hgap.same
    have hends : endsLine (k₀ ++ [x]).flatten = endsLine x := by
      simp [endsLine, List.getLast?_append_of_ne_nil _ hxne]
    have hflat : (k₀ ++ [x]).flatten ++ gapText (k₀ ++ [x]) sep nl = k₀.flatten ++ (x ++
        ((if endsLine x = true then [] else nl) ++ if sep = true then nl else [])) := by
      rw [gapText, hends]
      simp
    rw [hflat]
    refine ⟨k₀ ++ [x ++ w], n, ?_, sameLines_concat hw, ?_, fun t ht => ?_⟩
    · have hcut : CleanCut k₀.flatten (x ++ ((if endsLine x = true then [] else nl) ++
          if sep = true then nl else [])) := by
        refine (hcut (by simp)).congr ?_
        rw [List.flatten_singleton, List.head?_append_of_ne_nil _ hxne]
      rw [splitlinesKeep_append hcut, hk₀, hgap.lines]
      simp
    · rw [hsmooth, Smooth, List.flatten_append, List.flatten_singleton,
        List.getLast?_append_of_ne_nil _ hxne]
    · intro hne
      have := hgap.cut t ht (by simp [hxne])
      simpa [List.getLast_append_of_ne_nil, hxne] using this

/-! ### The appended line -/

/-- The appended line is one line to the reader: it ends a line at its last character at most, and
there only where trailing blank lines are dropped. -/
structure OneLine (chomp : Option Char) (l : Text) : Prop where
  inside : ∀ c ∈ l.dropLast, isLineBreak c = false
  last : ∀ c ∈ l.getLast?, isLineBreak c = true → chomp ≠ some '+'

/-- Blank lines are kept by `+` only. -/
theorem chompLines_of_blank {chomp : Option Char} {b : List Text}
    (hb : ∀ l ∈ b, blankLine l = true) :
    chompLines chomp b = if chomp = some '+' then b else [] := by
  rw [chompLines, List.rdropWhile_eq_nil_iff.mpr hb]

/-- Blank lines in front of the end belong to the body. -/
theorem takeBody_blank {b : List Text} (hb : ∀ l ∈ b, blankLine l = true)
    (hs : Stops (some q) s) : (takeBody (some q) (b ++ s)).1 = b := by
  rw [takeBody_append (kept_of_blank hb), hs.takeBody_eq, List.append_nil]

/-- A text that is not on one line has a first line break. -/
theorem exists_first_break (h : ¬ ∀ c ∈ l, isLineBreak c = false) :
    ∃ y x z, l = y ++ x :: z ∧ (∀ c ∈ y, isLineBreak c = false) ∧ isLineBreak x = true := by
  induction l with
  | nil => simp at h
  | cons c l ih =>
    by_cases hc : isLineBreak c = true
    · exact ⟨[], c, l, rfl, by simp, hc⟩
    · rw [Bool.not_eq_true] at hc
      obtain ⟨y, x, z, rfl, hy, hx⟩ := ih fun hall => h (List.forall_mem_cons.mpr ⟨hc, hall⟩)
      exact ⟨c :: y, x, z, rfl, List.forall_mem_cons.mpr ⟨hc, hy⟩, hx⟩

/-- The lines of the appended text: a first one that starts with the padding and the line as far as
it goes, and what the reader makes of the others. -/
theorem exists_appended_lines (hs : BodySplit h rest k d s pad') (hq : Padding (h.pad rest))
    (hnl : IsLineEnd nl) (hl : l ≠ []) (hlf : '\n' ∉ l) (hcr : '\r' ∉ l) :
    ∃ l₁ w more, splitlinesKeep (h.pad rest ++ l ++ nl) = (h.pad rest ++ l₁ ++ w) :: more ∧
      (∀ c ∈ w, c = '\r' ∨ c = '\n') ∧ l₁ <+: l ∧ l₁ ≠ [] ∧
      (l₁ = l ∧ chompLines h.chomp (takeBody (some (h.pad rest)) (more ++ (d ++ s))).1 = [] ↔
        OneLine h.chomp l) := by
  by_cases hbr : ∀ c ∈ l, isLineBreak c = false
  · have hunb : ∀ c ∈ h.pad rest ++ l, isLineBreak c = false := by
      intro c hc
      exact (List.mem_append.mp hc).elim (hq.unbroken c) (hbr c)
    refine ⟨l, nl, [], splitlinesKeep_unbroken hunb hnl.splitlinesKeep, hnl.mem,
      List.prefix_refl l, hl, ?_⟩
    have hone : OneLine h.chomp l := by
      refine ⟨fun c hc => hbr c (List.dropLast_subset l hc), fun c hc hb => ?_⟩
      rw [hbr c (List.mem_of_getLast? hc)] at hb
      cases hb
    have hnone : chompLines h.chomp d = [] := by
      rw [chompLines_of_blank hs.blank]
      split_ifs with hc
      · exact hs.chomp hc
      · rfl
    simp [hone, takeBody_blank hs.blank hs.stops_some, hnone]
  · -- the line goes on behind its first end
    obtain ⟨y, x, z, rfl, hy, hx⟩ := exists_first_break hbr
    have hxcr : x ≠ '\r' := by
      rintro rfl
      exact hcr (by simp)
    have hsplit : splitlinesKeep (h.pad rest ++ (y ++ x :: z) ++ nl) =
        (h.pad rest ++ y ++ [x]) :: splitlinesKeep (z ++ nl) := by
      have htail : splitlinesKeep (x :: (z ++ nl)) = [x] :: splitlinesKeep (z ++ nl) :=
        splitlinesKeep_break hx fun heq => absurd heq hxcr
      have hunb : ∀ c ∈ h.pad rest ++ y, isLineBreak c = false := by
        intro c hc
        exact (List.mem_append.mp hc).elim (hq.unbroken c) (hy c)
      simpa using splitlinesKeep_unbroken hunb htail
    refine ⟨y ++ [x], [], splitlinesKeep (z ++ nl), by simpa using hsplit, by simp,
      ⟨z, by simp⟩, by simp, ?_⟩
    rcases eq_or_ne z [] with rfl | hz
    · have hblank : ∀ m ∈ nl :: d, blankLine m = true :=
        List.forall_mem_cons.mpr ⟨hnl.blank, hs.blank⟩
      have htake : (takeBody (some (h.pad rest)) ([nl] ++ (d ++ s))).1 = nl :: d :=
        takeBody_blank hblank hs.stops_some
      rw [List.nil_append, hnl.splitlinesKeep, htake, chompLines_of_blank hblank]
      constructor
      · rintro ⟨-, hnone⟩
        refine ⟨by simpa using hy, fun c _ _ hc => ?_⟩
        rw [if_pos hc] at hnone
        cases hnone
      · intro hone
        exact ⟨rfl, if_neg (hone.last x (by simp) hx)⟩
    · constructor
      · rintro ⟨heq, -⟩
        have : z = [] := by simpa using heq
        exact absurd this hz
      · intro hone
        have hmem : x ∈ (y ++ x :: z).dropLast := by
          simp [List.dropLast_append_of_ne_nil, List.dropLast_cons_of_ne_nil hz]
        rw [hone.inside x hmem] at hx
        cases hx

/-- Blank lines and then something, against one blank line at most and then one line. -/
theorem replicate_append_cons_eq {n m : Nat} {l₁ : Text} {more : List Text} (h₁ : l₁ ≠ [])
    (hl : l ≠ []) : List.replicate n ([] : Text) ++ l₁ :: more = List.replicate m [] ++ [l] ↔
      n = m ∧ l₁ = l ∧ more = [] := by
  induction n generalizing m with
  | zero =>
    cases m with
    | zero => simp
    | succ m => simp [List.replicate_succ, h₁]
  | succ n ih =>
    cases m with
    | zero => simp [List.replicate_succ, hl.symm]
    | succ m => simpa [List.replicate_succ] using ih

/-- Only what is behind the last filled line is chomped. -/
theorem chompLines_append_cons {chomp : Option Char} {a b : List Text} {m : Text}
    (hm : blankLine m = false) : chompLines chomp (a ++ m :: b) = a ++ m :: chompLines chomp b := by
  rw [chompLines, chompLines]
  split_ifs
  · rfl
  · induction b using List.reverseRecOn with
    | nil =>
      rw [List.rdropWhile_concat_neg _ _ _ (by simp [hm])]
      rfl
    | append_singleton b c ih =>
      rw [← List.cons_append, ← List.append_assoc]
      by_cases hc : blankLine c = true
      · rw [List.rdropWhile_concat_pos _ _ _ hc, List.rdropWhile_concat_pos _ _ _ hc, ih]
      · rw [List.rdropWhile_concat_neg _ _ _ hc, List.rdropWhile_concat_neg _ _ _ hc]
        simp

/-- The text below the header behind an append. -/
def appendedRest (h : BlockHeader) (rest : Text) (k d s : List Text) (sep : Bool) (l : Text) :
    Text :=
  k.flatten ++ gapText k sep (lineEnd k) ++ (h.pad rest ++ l ++ lineEnd k) ++ (d ++ s).flatten

theorem Padding.exists_cons (hq : Padding q) : ∃ c cs, q = c :: cs ∧ isBlank c = true := by
  cases q with
  | nil => cases hq.head
  | cons c cs => exact ⟨c, cs, rfl, hq.head⟩

/-- A line that starts with the padding and a character that is no white space is kept. -/
theorem bodyStep_padded {m l₂ : Text} {c : Char} (hq : Padding q) (hc : isSpace c = false)
    (hm : rstripNewline m = q ++ c :: l₂)
    (hpad : pad' = some q ∨ pad' = none ∧ q = [' ', ' ']) :
    blankLine m = false ∧ bodyStep pad' m = some (some q) := by
  have hfull : blankLine m = false := by
    rw [← blankLine_rstripNewline, hm, ← Bool.not_eq_true, blankLine_iff]
    intro hall
    rw [hall c (by simp)] at hc
    cases hc
  refine ⟨hfull, bodyStep_indented hfull ?_ (hm ▸ List.prefix_append _ _) ?_⟩
  · obtain ⟨d, ds, rfl, hd⟩ := hq.exists_cons
    rw [hm]
    exact hd
  · refine hpad.imp_right fun hnone => ⟨hnone.1, ?_⟩
    rw [hm, List.takeWhile_append_of_pos hq.space, List.takeWhile_cons_of_neg (by simp [hc]),
      List.append_nil]

/-- The lines below the header behind an append. -/
theorem splitlinesKeep_appendedRest (hs : BodySplit h rest k d s pad')
    (hq : Padding (h.pad rest)) {sep : Bool}
    (hcut : ∀ t : Text, t.head? ≠ some '\n' →
      CleanCut (k.flatten ++ gapText k sep (lineEnd k)) t) :
    splitlinesKeep (appendedRest h rest k d s sep l) =
      splitlinesKeep (k.flatten ++ gapText k sep (lineEnd k)) ++
        (splitlinesKeep (h.pad rest ++ l ++ lineEnd k) ++ (d ++ s)) := by
  obtain ⟨-, hrest, -⟩ := splitlinesKeep_eq_append hs.lines
  have hcut₁ : CleanCut (k.flatten ++ gapText k sep (lineEnd k))
      (h.pad rest ++ l ++ lineEnd k) := by
    obtain ⟨c, cs, hcs, hc⟩ := hq.exists_cons
    refine hcut _ ?_
    rw [hcs]
    rintro heq
    rw [Option.some.inj heq] at hc
    cases hc
  have hcut₂ : CleanCut (k.flatten ++ gapText k sep (lineEnd k) ++
      (h.pad rest ++ l ++ lineEnd k)) (d ++ s).flatten := by
    rw [← List.append_assoc]
    exact (isLineEnd_lineEnd k).cleanCut _ _
  rw [appendedRest, splitlinesKeep_append hcut₂, splitlinesKeep_append hcut₁, hrest,
    List.append_assoc]

/-- What is read behind an append: the old value, blank lines, the line as far as it goes, and
what the reader makes of the rest of it. -/
theorem exists_block_lines_append (hs : BodySplit h rest k d s pad') (hq : Padding (h.pad rest))
    {sep : Bool} (hsep : sep = true → k ≠ []) (hl : l ≠ []) (hlf : '\n' ∉ l) (hcr : '\r' ∉ l)
    (hhead : ∀ c ∈ l.head?, isSpace c = false) (i j : Nat) :
    ∃ n l₁ m, (h.block i (appendedRest h rest k d s sep l)).lines =
        (h.block j rest).lines ++ (List.replicate n [] ++ l₁ :: m) ∧ l₁ ≠ [] ∧
      (n = sep.toNat ↔ Smooth k sep (lineEnd k)) ∧ (l₁ = l ∧ m = [] ↔ OneLine h.chomp l) := by
  have hnl := isLineEnd_lineEnd k
  obtain ⟨k', n, hgap, hsame, hsmooth, hcut⟩ :=
    exists_gap_lines (splitlinesKeep_eq_append hs.lines).1 hnl hsep
  obtain ⟨l₁, w, more, happ, hw, hpre, hne, hone⟩ := exists_appended_lines hs hq hnl hl hlf hcr
  -- the line starts with a character that is no white space, in its first part already
  obtain ⟨c, l₂, rfl⟩ := List.exists_cons_of_ne_nil hne
  obtain ⟨l₃, rfl⟩ := hpre
  have hc : isSpace c = false := hhead c rfl
  have hraw : rstripNewline (h.pad rest ++ c :: l₂ ++ w) = h.pad rest ++ c :: l₂ := by
    rw [rstripNewline_append_right hw]
    refine rstripNewline_of_getLast fun d hd => ?_
    have hmem : d ∈ c :: l₂ := by
      rw [List.getLast?_append_of_ne_nil _ (by simp)] at hd
      exact List.mem_of_getLast? hd
    constructor <;> rintro rfl
    · exact hcr (List.mem_append_left _ hmem)
    · exact hlf (List.mem_append_left _ hmem)
  obtain ⟨hfull, hfirst⟩ := bodyStep_padded hq hc hraw hs.pad_eq
  have hlines : splitlinesKeep (appendedRest h rest k d s sep (c :: l₂ ++ l₃)) =
      k' ++ List.replicate n (lineEnd k) ++ (h.pad rest ++ c :: l₂ ++ w) :: (more ++ (d ++ s)) := by
    rw [splitlinesKeep_appendedRest hs hq hcut, hgap, happ]
    rfl
  have hblank : ∀ m ∈ List.replicate n (lineEnd k), blankLine m = true := by
    intro m hm
    rw [List.eq_of_mem_replicate hm]
    exact hnl.blank
  have hkeep : Kept h.startPad (k' ++ List.replicate n (lineEnd k)) pad' :=
    kept_append_iff.mpr ⟨pad', hsame.keeps hs.keeps, kept_of_blank hblank⟩
  have htake := takeBody_append (b := (h.pad rest ++ c :: l₂ ++ w) :: (more ++ (d ++ s))) hkeep
  rw [← hlines, takeBody, hfirst] at htake
  have hkept : h.kept (appendedRest h rest k d s sep (c :: l₂ ++ l₃)) =
      k' ++ List.replicate n (lineEnd k) ++ (h.pad rest ++ c :: l₂ ++ w) ::
        chompLines h.chomp (takeBody (some (h.pad rest)) (more ++ (d ++ s))).1 := by
    rw [BlockHeader.kept, htake]
    exact chompLines_append_cons hfull
  have hpad : h.pad (appendedRest h rest k d s sep (c :: l₂ ++ l₃)) = h.pad rest := by
    rw [BlockHeader.pad, htake]
    simp only [takeBody_some, Option.getD_some]
  refine ⟨n, c :: l₂, (chompLines h.chomp (takeBody (some (h.pad rest))
    (more ++ (d ++ s))).1).map (deindent (h.pad rest)), ?_, hne, hsmooth, ?_⟩
  · have hdrop : deindent (h.pad rest) (h.pad rest ++ c :: l₂ ++ w) = c :: l₂ := by
      rw [deindent, blankLine_rstripNewline, hfull, hraw, if_neg (by simp), List.drop_left]
    have hgapd : deindent (h.pad rest) (lineEnd k) = [] := by
      rw [deindent, blankLine_rstripNewline, if_pos hnl.blank]
    simp only [BlockHeader.block, hkept, hpad, hs.kept, List.map_append, List.map_cons,
      hsame.deindent, hdrop, List.map_replicate, hgapd]
    rw [List.append_assoc]
  · rw [List.map_eq_nil_iff]
    exact hone

/-- What is read behind an append is the old value, the wanted blank line and the line exactly when
the value ends smoothly and the line is one line. -/
theorem block_lines_append_iff (hs : BodySplit h rest k d s pad') (hq : Padding (h.pad rest))
    {sep : Bool} (hsep : sep = true → k ≠ []) (hl : l ≠ []) (hlf : '\n' ∉ l) (hcr : '\r' ∉ l)
    (hhead : ∀ c ∈ l.head?, isSpace c = false) (i j : Nat) :
    (h.block i (appendedRest h rest k d s sep l)).lines =
        (h.block j rest).lines ++ (List.replicate sep.toNat [] ++ [l]) ↔
      Smooth k sep (lineEnd k) ∧ OneLine h.chomp l := by
  obtain ⟨n, l₁, m, hlines, hne, hsmooth, hone⟩ :=
    exists_block_lines_append hs hq hsep hl hlf hcr hhead i j
  rw [hlines, List.append_cancel_left_eq, replicate_append_cons_eq hne hl, hsmooth, hone]

/-! ### The text around the block -/

/-- The chomping indicator on the key line. -/
def fieldChomp (fm key : Text) : Option Char :=
  (findKeyLine key (Text.lines fm)).bind fun m =>
    (blockHeader (headerText (key ++ ':' :: m.2.1))).bind BlockHeader.chomp

variable {fm key r : Text} {a b : List Text}

/-- The block scalar of a key: its key line, its header, and the lines below. -/
structure Located (fm key : Text) (a : List Text) (r : Text) (b : List Text) (h : BlockHeader)
    (k d s : List Text) (pad' : Option Text) : Prop where
  find : findKeyLine key (Text.lines fm) = some (a, r, b)
  header : blockHeader (headerText (key ++ ':' :: r)) = some h
  body : BodySplit h (unlines b) k d s pad'

/-- A block that is read lies somewhere in the frontmatter. -/
theorem exists_located {bl : BlockScalar} (hb : readFmBlockScalar fm key = some bl) :
    ∃ a r b h k d s pad', Located fm key a r b h k d s pad' ∧
      bl = h.block (fm.length - (unlines b).length) (unlines b) := by
  rw [readFmBlockScalar] at hb
  split at hb
  · cases hb
  · next a r b hfind =>
    obtain ⟨h, hh, rfl⟩ := Option.map_eq_some_iff.mp hb
    obtain ⟨k, d, s, pad', hs⟩ := exists_bodySplit h (unlines b)
    exact ⟨a, r, b, h, k, d, s, pad', ⟨hfind, hh, hs⟩, rfl⟩

/-- The text up to the key line. -/
def front (a : List Text) (key r : Text) : Text := unlines (a ++ [key ++ ':' :: r])

theorem Located.newline_not_mem (hl : Located fm key a r b h k d s pad') :
    ∀ m ∈ a ++ [key ++ ':' :: r], '\n' ∉ m := by
  intro m hm
  obtain ⟨hls, -⟩ := findKeyLine_eq_some hl.find
  refine not_mem_of_mem_lines (t := fm) ?_
  rw [hls]
  rw [List.mem_append, List.mem_singleton] at hm
  rcases hm with hm | rfl
  · exact List.mem_append_left _ hm
  · exact List.mem_append_right _ List.mem_cons_self

/-- The frontmatter is the front of the block, its body and the rest. -/
theorem Located.eq (hl : Located fm key a r b h k d s pad') :
    fm = front a key r ++ (if b = [] then [] else '\n' :: unlines b) := by
  obtain ⟨hls, -⟩ := findKeyLine_eq_some hl.find
  rw [← unlines_lines fm, hls, List.append_cons, front]
  split_ifs with hb
  · rw [hb, List.append_nil, List.append_nil]
  · exact unlines_append (by simp) hb

/-- A text that goes on behind the key line with `rest` has the block of `rest`. -/
theorem Located.read (hl : Located fm key a r b h k d s pad') (rest : Text) :
    ∃ i, readFmBlockScalar (front a key r ++ '\n' :: rest) key = some (h.block i rest) := by
  obtain ⟨-, hb, ha⟩ := findKeyLine_eq_some hl.find
  have hfind : findKeyLine key (Text.lines (front a key r ++ '\n' :: rest)) =
      some (a, r, Text.lines rest) := by
    rw [lines_append_cons, front, lines_unlines hl.newline_not_mem (by simp), List.append_assoc]
    exact findKeyLine_append ha (keyLine_self hb)
  rw [readFmBlockScalar, hfind]
  simp only [hl.header, unlines_lines, Option.map_some]
  exact ⟨_, rfl⟩

/-- The front does not end in a line feed. -/
theorem Located.getLast_front (hl : Located fm key a r b h k d s pad') :
    ∀ c ∈ (front a key r).getLast?, c ≠ '\n' := by
  rintro c hc rfl
  have hne : key ++ ':' :: r ≠ [] := by simp
  have hlast : (front a key r).getLast? = (key ++ ':' :: r).getLast? := by
    rcases eq_or_ne a [] with rfl | ha
    · simp [front, unlines]
    · rw [front, unlines_append ha (by simp), List.getLast?_append_of_ne_nil _ (by simp)]
      simp [unlines, List.getLast?_cons]
  rw [hlast] at hc
  exact hl.newline_not_mem _ (by simp) (List.mem_of_getLast? hc)

/-- The offset of the end of the block cuts the text behind the kept lines. -/
theorem Located.cut (hl : Located fm key a r b h k d s pad') :
    ∃ before, fm = before ++ (d ++ s).flatten ∧
      (h.block (fm.length - (unlines b).length) (unlines b)).endOffset = before.length ∧
      (b = [] ∧ before = front a key r ∧ k = [] ∧ (d ++ s).flatten = [] ∨
        b ≠ [] ∧ before = front a key r ++ '\n' :: k.flatten) := by
  have hfm := hl.eq
  have hrest := hl.body.flatten
  by_cases hb : b = []
  · subst hb
    have hnil : k.flatten ++ (d ++ s).flatten = [] := hrest.symm
    obtain ⟨hk, hds⟩ := List.append_eq_nil_iff.mp hnil
    have hkn : k = [] := by
      have := (splitlinesKeep_eq_append hl.body.lines).1
      rw [hk] at this
      exact this.symm
    rw [if_pos rfl, List.append_nil] at hfm
    refine ⟨front a key r, by rw [hds, List.append_nil, ← hfm], ?_, .inl ⟨rfl, rfl, hkn, hds⟩⟩
    simp only [BlockHeader.block, hl.body.kept, hk]
    simp [hfm, unlines]
  · rw [if_neg hb] at hfm
    refine ⟨front a key r ++ '\n' :: k.flatten, ?_, ?_, .inr ⟨hb, rfl⟩⟩
    · rw [hfm, hrest]
      simp
    · simp only [BlockHeader.block, hl.body.kept]
      rw [hfm]
      simp only [List.length_append, List.length_cons]
      omega

/-! ### Other keys -/

/-- A key at the left margin. -/
def LeftMargin (key : Text) : Prop := '\n' ∉ key ∧ ∀ c ∈ key.head?, isSpace c = false

/-- A line that is empty or starts with white space. -/
def Hanging (l : Text) : Prop := ∀ c ∈ l.head?, isSpace c = true

theorem hanging_nil : Hanging [] := by simp [Hanging]

/-- A hanging line may go on with anything. -/
theorem Hanging.append {x y : Text} (hx : Hanging x) (hy : x = [] → Hanging y) :
    Hanging (x ++ y) := by
  cases x with
  | nil => exact hy rfl
  | cons c x => exact hx

/-- A hanging line holds no key of the left margin. -/
theorem LeftMargin.keyLine (hk : LeftMargin key) (hl : Hanging l) : keyLine key l = none := by
  refine Option.eq_none_iff_forall_ne_some.mpr fun r hr => ?_
  obtain ⟨rfl, -⟩ := keyLine_eq_some.mp hr
  cases key with
  | nil => exact absurd (hl ':' rfl) (by decide)
  | cons c key =>
    have hc := hl c rfl
    rw [hk.2 c rfl] at hc
    cases hc

theorem lines_append_of_not_mem {x y m : Text} {ms : List Text} (hx : '\n' ∉ x)
    (hy : Text.lines y = m :: ms) : Text.lines (x ++ y) = (x ++ m) :: ms := by
  obtain ⟨us, u, hu, -, happ⟩ := exists_lines_append x
  rw [lines_of_not_mem hx] at hu
  obtain ⟨rfl, rfl⟩ : us = [] ∧ u = x := by
    cases us with
    | nil => simpa using hu.symm
    | cons v us => simp at hu
  exact happ y m ms hy

/-- The lines of a body that starts every line with white space. -/
theorem hanging_flatten {t : Text} (hk : ∀ l ∈ k, l ∈ splitlinesKeep t)
    (hs : ∀ l ∈ k, ∃ c cs, l = c :: cs ∧ isSpace c = true) :
    ∀ m ∈ Text.lines k.flatten, Hanging m := by
  induction k with
  | nil => simpa [Text.lines] using hanging_nil
  | cons l k ih =>
    have ih := ih (fun m hm => hk m (List.mem_cons_of_mem l hm))
      fun m hm => hs m (List.mem_cons_of_mem l hm)
    have hl : Hanging l := by
      obtain ⟨c, cs, rfl, hc⟩ := hs l List.mem_cons_self
      simpa [Hanging] using hc
    have hcut : '\n' ∉ l ∨ ∃ z, l = z ++ ['\n'] ∧ '\n' ∉ z := by
      obtain ⟨y, e, rfl, hy, he⟩ := exists_line_end (hk l List.mem_cons_self)
      have hy : '\n' ∉ y := fun hm => absurd (hy '\n' hm) (by decide)
      rcases he with rfl | rfl | ⟨c, rfl, -⟩
      · exact .inl (by simpa using hy)
      · exact .inr ⟨y ++ ['\r'], by simp, by simpa using hy⟩
      · by_cases hc : c = '\n'
        · subst hc
          exact .inr ⟨y, rfl, hy⟩
        · exact .inl (by simpa [hy] using Ne.symm hc)
    rw [List.flatten_cons]
    rcases hcut with hn | ⟨z, rfl, hz⟩
    · obtain ⟨m, ms, hms⟩ := List.exists_cons_of_ne_nil (lines_ne_nil k.flatten)
      rw [hms] at ih
      rw [lines_append_of_not_mem hn hms]
      exact List.forall_mem_cons.mpr ⟨hl.append fun _ => ih m List.mem_cons_self,
        fun x hx => ih x (List.mem_cons_of_mem m hx)⟩
    · rw [List.append_assoc, List.singleton_append, lines_append_cons, lines_of_not_mem hz]
      refine List.forall_mem_cons.mpr ⟨?_, ih⟩
      cases z with
      | nil => exact hanging_nil
      | cons c z => exact hl

/-- Hanging text behind a text is not seen at the left margin, where it starts a line or follows a
hanging line. -/
theorem readFmField_hanging {key' x t : Text} (hk : LeftMargin key')
    (ht : ∀ m ∈ Text.lines t, Hanging m)
    (hx : (Text.lines t).head? = some [] ∨ ∃ us u, Text.lines x = us ++ [u] ∧ Hanging u)
    (y : Text) :
    readFmField (x ++ t ++ '\n' :: y) key' = readFmField (x ++ '\n' :: y) key' := by
  obtain ⟨us, u, hu, -, happ⟩ := exists_lines_append x
  obtain ⟨m, ms, hms⟩ := List.exists_cons_of_ne_nil (lines_ne_nil t)
  rw [hms] at ht
  have htail : ms.findSome? (keyLine key') = none := by
    rw [List.findSome?_eq_none_iff]
    exact fun n hn => hk.keyLine (ht n (List.mem_cons_of_mem m hn))
  have hlast : keyLine key' (u ++ m) = keyLine key' u := by
    rcases hx with hx | ⟨us', u', hu', hang⟩
    · rw [hms] at hx
      rw [Option.some.inj hx, List.append_nil]
    · obtain rfl : u = u' := by
        rw [hu] at hu'
        exact List.singleton_inj.mp (List.append_inj_right' hu' rfl)
      rw [hk.keyLine hang, hk.keyLine (hang.append fun _ => ht m List.mem_cons_self)]
  rw [readFmField_eq_findSome?, readFmField_eq_findSome?, lines_append_cons, lines_append_cons,
    happ t m ms hms, hu]
  simp only [List.findSome?_append, List.findSome?_cons, List.findSome?_nil, hlast, htail]

/-- A line feed more is not seen behind a line feed, or at the end. -/
theorem readFmField_newline {key' x y : Text} (h : y = [] ∨ ∃ z, x = z ++ ['\n']) :
    readFmField (x ++ '\n' :: y) key' = readFmField (x ++ y) key' := by
  rw [readFmField_eq_findSome?, readFmField_eq_findSome?, lines_append_cons]
  have hnil : keyLine key' [] = none := by
    cases key' <;> rfl
  rcases h with rfl | ⟨z, rfl⟩
  · rw [List.append_nil, List.findSome?_append, lines_of_not_mem (t := []) (by simp)]
    simp [hnil]
  · rw [List.append_assoc, List.singleton_append, lines_append_cons, lines_append_cons,
      List.findSome?_append, List.findSome?_append, List.findSome?_append,
      lines_of_not_mem (t := []) (by simp)]
    simp [hnil]

/-! ### The append -/

/-- The append puts one line behind the value, with a blank line in front of it in a folded block,
and nothing else changes; doing it again changes nothing. -/
structure AppendedExactly (fm key l : Text) (bl : BlockScalar) (fm' : Text) : Prop where
  lines : ∃ bl', readFmBlockScalar fm' key = some bl' ∧
    bl'.lines = bl.lines ++ ((if bl.separates = true then [[]] else []) ++ [l])
  others : ∀ key', LeftMargin key' → key' ≠ key → readFmField fm' key' = readFmField fm key'
  around : ∃ mid, fm' = fm.take bl.endOffset ++ mid ++ fm.drop bl.endOffset
  again : appendFmBlockScalarLine fm' key l = .ok fm'

/-- What the append needs. A block without lines may not stand behind a carriage return at the end
of the text. A value may not end in a separator that only `str.splitlines` knows; where it ends in
a carriage return alone, no line feed may get behind that, and what follows on the same line must
carry no field that could be read once it stands on its own. -/
structure AppendSafe (fm key l : Text) (bl : BlockScalar) : Prop where
  one : OneLine (fieldChomp fm key) l
  start : bl.lines = [] → (fm.take bl.endOffset).getLast? ≠ some '\r'
  ends : bl.lines ≠ [] → ∀ c ∈ (fm.take bl.endOffset).getLast?, isLineBreak c = true →
    c = '\n' ∨ c = '\r' ∧ ¬ (bl.separates = true ∧ bl.newline = ['\n'])
  alone : (fm.take bl.endOffset).getLast? = some '\r' →
    ∀ key', LeftMargin key' → key' ≠ key →
      readFmField (fm.take bl.endOffset ++ '\n' :: fm.drop bl.endOffset) key' =
        readFmField fm key'

/-- A line end in front of hanging lines leaves them hanging. -/
theorem IsLineEnd.hanging (hnl : IsLineEnd nl) {t : Text}
    (ht : ∀ m ∈ Text.lines t, Hanging m) : ∀ m ∈ Text.lines (nl ++ t), Hanging m := by
  obtain ⟨e, rfl, he⟩ := hnl.exists_concat
  have hn : '\n' ∉ e := fun hm => absurd (he '\n' hm) (by decide)
  rw [List.append_assoc, List.singleton_append, lines_append_cons, lines_of_not_mem hn]
  refine List.forall_mem_cons.mpr ⟨fun c hc => ?_, ht⟩
  rw [he c (List.mem_of_mem_head? hc)]
  decide

/-- What is spliced in is hanging text and a line feed. -/
theorem exists_addition {bl : BlockScalar} (hnl : IsLineEnd bl.newline) (hq : Padding bl.pad)
    (hlf : '\n' ∉ l) (before : Text) :
    ∃ t, bl.addition before l = t ++ ['\n'] ∧ (∀ m ∈ Text.lines t, Hanging m) ∧
      (endsLine before = false → bl.newline = ['\n'] → (Text.lines t).head? = some []) := by
  obtain ⟨e, he, hcr⟩ := hnl.exists_concat
  have hline : ∀ m ∈ Text.lines (bl.pad ++ l ++ e), Hanging m := by
    have hn : '\n' ∉ bl.pad ++ l ++ e := by
      simp only [List.mem_append, not_or]
      exact ⟨⟨fun hm => absurd (hq.unbroken '\n' hm) (by decide), hlf⟩,
        fun hm => absurd (hcr '\n' hm) (by decide)⟩
    obtain ⟨c, cs, hcs, hc⟩ := hq.exists_cons
    rw [lines_of_not_mem hn, hcs]
    simpa [Hanging] using isSpace_of_isBlank hc
  have hsep : ∀ m ∈ Text.lines ((if bl.separates = true then bl.newline else []) ++
      (bl.pad ++ l ++ e)), Hanging m := by
    split_ifs
    · exact hnl.hanging hline
    · exact hline
  refine ⟨(if endsLine before = true then [] else bl.newline) ++
    ((if bl.separates = true then bl.newline else []) ++ (bl.pad ++ l ++ e)), ?_, ?_, ?_⟩
  · rw [BlockScalar.addition]
    nth_rewrite 3 [he]
    simp
  · by_cases hend : endsLine before = true
    · rw [if_pos hend]
      exact hsep
    · rw [if_neg hend]
      exact hnl.hanging hsep
  · intro hend hnewline
    rw [hend, if_neg (by simp), hnewline, List.singleton_append, ← List.nil_append ('\n' :: _),
      lines_append_cons]
    rfl

/-- A line that is the last one already is not appended again. -/
theorem again_of_lines {fm' : Text} {bl : BlockScalar} {ls : List Text} (hlf : '\n' ∉ l)
    (hcr : '\r' ∉ l) (hread : readFmBlockScalar fm' key = some bl) (hlines : bl.lines = ls ++ [l]) :
    appendFmBlockScalarLine fm' key l = .ok fm' := by
  rw [appendFmBlockScalarLine, if_neg (by simp [hlf, hcr]), hread]
  simp [hlines]

/-- Where an append goes: behind `before`, in front of the lines that are no value. -/
structure Site (fm key : Text) (bl : BlockScalar) (a : List Text) (r : Text) (b : List Text)
    (h : BlockHeader) (k d s : List Text) (pad' : Option Text) (before : Text) : Prop where
  loc : Located fm key a r b h k d s pad'
  block : bl = h.block (fm.length - (unlines b).length) (unlines b)
  text : fm = before ++ (d ++ s).flatten
  offset : bl.endOffset = before.length
  place : b = [] ∧ before = front a key r ∧ k = [] ∧ (d ++ s).flatten = [] ∨
    b ≠ [] ∧ before = front a key r ++ '\n' :: k.flatten

variable {bl : BlockScalar} {before : Text}

/-- A block that is read has a site. -/
theorem exists_site (hb : readFmBlockScalar fm key = some bl) :
    ∃ a r b h k d s pad' before, Site fm key bl a r b h k d s pad' before := by
  obtain ⟨a, r, b, h, k, d, s, pad', hloc, hbl⟩ := exists_located hb
  obtain ⟨before, hfm, hlen, hcase⟩ := hloc.cut
  exact ⟨a, r, b, h, k, d, s, pad', before, hloc, hbl, hfm, hbl ▸ hlen, hcase⟩

namespace Site

variable (hs : Site fm key bl a r b h k d s pad' before)
include hs

theorem take_eq : fm.take bl.endOffset = before := by
  rw [hs.offset]
  nth_rewrite 1 [hs.text]
  exact List.take_left

theorem drop_eq : fm.drop bl.endOffset = (d ++ s).flatten := by
  rw [hs.offset]
  nth_rewrite 1 [hs.text]
  exact List.drop_left

/-- The lines of the block are the lines of the body, deindented. -/
theorem lines_eq : bl.lines = k.map (deindent (h.pad (unlines b))) := by
  rw [hs.block]
  simp [BlockHeader.block, hs.loc.body.kept]

/-- A block without lines has an empty body. -/
theorem lines_eq_nil_iff : bl.lines = [] ↔ k = [] := by
  rw [hs.lines_eq, List.map_eq_nil_iff]

theorem pad_eq : bl.pad = h.pad (unlines b) := by
  rw [hs.block]
  rfl

theorem newline_eq : bl.newline = lineEnd k := by
  rw [hs.block]
  simp [BlockHeader.block, hs.loc.body.kept]

theorem padding : Padding bl.pad := hs.pad_eq ▸ hs.loc.body.padding hs.loc.header

/-- A block with a separator has a line. -/
theorem ne_nil_of_separates (hsep : bl.separates = true) : k ≠ [] := by
  rw [ne_eq, ← hs.lines_eq_nil_iff]
  intro hnil
  simp [BlockScalar.separates, hnil] at hsep

theorem chomp_eq : fieldChomp fm key = h.chomp := by
  rw [fieldChomp, hs.loc.find]
  simp [hs.loc.header]

/-- The last character in front of the splice is the one of the value, where there is a value. -/
theorem getLast_before (hk : k ≠ []) : before.getLast? = k.flatten.getLast? := by
  rcases hs.place with ⟨-, -, hnil, -⟩ | ⟨-, rfl⟩
  · exact absurd hnil hk
  · have hne : k.flatten ≠ [] := by
      intro hnil
      have := (splitlinesKeep_eq_append hs.loc.body.lines).1
      rw [hnil] at this
      exact hk this.symm
    rw [List.append_cons, List.getLast?_append_of_ne_nil _ hne]

/-- What an append writes: the addition, between the body and the rest. -/
theorem run (hlf : '\n' ∉ l) (hcr : '\r' ∉ l) (hlast : bl.lines.getLast? ≠ some l)
    (hb : readFmBlockScalar fm key = some bl) :
    appendFmBlockScalarLine fm key l =
      .ok (before ++ bl.addition before l ++ (d ++ s).flatten) := by
  rw [appendFmBlockScalarLine, if_neg (by simp [hlf, hcr]), hb]
  simp only [if_neg hlast, hs.take_eq, hs.drop_eq]

/-- A line glued to the key line leaves no block with lines. -/
theorem lines_of_glued (hb : b = []) (hlast : before.getLast? = some '\r') (hlf : '\n' ∉ l)
    {bl' : BlockScalar}
    (hread : readFmBlockScalar (before ++ bl.addition before l ++ (d ++ s).flatten) key =
      some bl') : bl'.lines = [] := by
  obtain ⟨-, -, ha⟩ := findKeyLine_eq_some hs.loc.find
  rcases hs.place with ⟨-, hbefore, hk, hds⟩ | ⟨hne, -⟩
  swap
  · exact absurd hb hne
  -- a lone carriage return passes for the end of a line, so no separator is written
  have hend : endsLine before = true := by simp [endsLine, hlast]
  have hsep : bl.separates = false := by
    rw [← Bool.not_eq_true]
    exact fun hsep => hs.ne_nil_of_separates hsep hk
  have hnl : bl.newline = ['\n'] := by
    rw [hs.newline_eq, hk]
    rfl
  have hpad : '\n' ∉ bl.pad := fun hm => absurd (hs.padding.unbroken '\n' hm) (by decide)
  -- the first line of the block stands on the line of the key
  have hlines : Text.lines (before ++ bl.addition before l ++ (d ++ s).flatten) =
      a ++ [key ++ ':' :: r ++ (bl.pad ++ l), []] := by
    have htext : before ++ bl.addition before l ++ (d ++ s).flatten =
        unlines (a ++ [key ++ ':' :: r ++ (bl.pad ++ l)]) ++ ['\n'] := by
      rw [BlockScalar.addition, hend, hsep, hnl, hds, hbefore, front]
      rcases eq_or_ne a [] with rfl | hane
      · simp [unlines]
      · rw [unlines_append hane (by simp), unlines_append hane (by simp)]
        simp [unlines]
    rw [htext, lines_append_cons, lines_unlines _ (by simp)]
    · simp [lines_of_not_mem (t := [])]
    · intro m hm
      rw [List.mem_append, List.mem_singleton] at hm
      rcases hm with hm | rfl
      · exact hs.loc.newline_not_mem m (List.mem_append_left _ hm)
      · simp only [List.mem_append, not_or]
        have := hs.loc.newline_not_mem (key ++ ':' :: r) (by simp)
        rw [List.mem_append, not_or] at this
        exact ⟨this, hpad, hlf⟩
  rw [readFmBlockScalar, hlines] at hread
  -- read again, the block has no line of its own
  cases hkey : keyLine key (key ++ ':' :: r ++ (bl.pad ++ l)) with
  | none =>
    have hnone : findKeyLine key (a ++ [key ++ ':' :: r ++ (bl.pad ++ l), []]) = none := by
      rw [findKeyLine_eq_none]
      intro m hm
      rw [List.mem_append] at hm
      rcases hm with hm | hm
      · exact ha m hm
      · simp only [List.mem_cons, List.not_mem_nil, or_false] at hm
        rcases hm with rfl | rfl
        · exact hkey
        · exact keyLine_nil key
    rw [hnone] at hread
    cases hread
  | some r' =>
    rw [findKeyLine_append ha hkey] at hread
    obtain ⟨h', -, rfl⟩ := Option.map_eq_some_iff.mp hread
    have hkept : h'.kept (unlines [[]]) = [] := by
      rw [BlockHeader.kept, chompLines]
      split_ifs <;> rfl
    simp [BlockHeader.block, hkept]

/-- Elsewhere the line stands below the key line. -/
theorem spliced (hglue : b = [] → before.getLast? ≠ some '\r') :
    before ++ bl.addition before l ++ (d ++ s).flatten =
      front a key r ++ '\n' :: appendedRest h (unlines b) k d s bl.separates l := by
  rw [appendedRest, BlockScalar.addition, hs.pad_eq, hs.newline_eq]
  rcases hs.place with ⟨hb, hbefore, hk, hds⟩ | ⟨hb, hbefore⟩
  · have hend : endsLine before = false := by
      rw [endsLine, Option.any_eq_false]
      intro c hc
      have hlf := hs.loc.getLast_front c (hbefore ▸ hc)
      have hcr : c ≠ '\r' := by
        rintro rfl
        exact hglue hb hc
      simp [hlf, hcr]
    have hsep : bl.separates = false := by
      rw [← Bool.not_eq_true]
      exact fun hsep => hs.ne_nil_of_separates hsep hk
    rw [hend, hsep, hds, hk, hbefore]
    simp [gapText, lineEnd]
  · have hend : endsLine before = true ↔ k = [] ∨ endsLine k.flatten = true := by
      rcases eq_or_ne k [] with hk | hk
      · simp [hbefore, hk, endsLine]
      · rw [endsLine, hs.getLast_before hk]
        simp [hk, endsLine]
    rw [gapText, if_congr hend rfl rfl, hbefore]
    simp

/-- The addition goes on smoothly unless a carriage return ends the text in front of it. -/
theorem smooth_iff (hglue : b = [] → before.getLast? ≠ some '\r') :
    Smooth k bl.separates (lineEnd k) ↔ (bl.lines = [] → before.getLast? ≠ some '\r') ∧
      (bl.lines ≠ [] → ∀ c ∈ before.getLast?, isLineBreak c = true →
        c = '\n' ∨ c = '\r' ∧ ¬ (bl.separates = true ∧ bl.newline = ['\n'])) := by
  rw [hs.newline_eq, Smooth]
  rcases eq_or_ne k [] with hk | hk
  · have hlast : before.getLast? ≠ some '\r' := by
      rcases hs.place with ⟨hb, -⟩ | ⟨-, hbefore⟩
      · exact hglue hb
      · simp [hbefore, hk]
    simp [hs.lines_eq_nil_iff, hk, hlast]
  · simp [hs.lines_eq_nil_iff, hk, hs.getLast_before hk]

/-- Other keys read the text as if a line feed went in. -/
theorem readFmField_spliced (hglue : b = [] → before.getLast? ≠ some '\r') (hlf : '\n' ∉ l)
    {key' : Text} (hk : LeftMargin key') :
    readFmField (before ++ bl.addition before l ++ (d ++ s).flatten) key' =
      readFmField (before ++ '\n' :: (d ++ s).flatten) key' := by
  have hnl : IsLineEnd bl.newline := hs.newline_eq ▸ isLineEnd_lineEnd k
  obtain ⟨t, ht, hang, hfirst⟩ := exists_addition hnl hs.padding hlf before
  rw [ht, ← List.append_assoc, List.append_assoc, List.singleton_append]
  refine readFmField_hanging hk hang ?_ _
  rcases hs.place with ⟨hb, hbefore, hkn, -⟩ | ⟨-, hbefore⟩
  · refine .inl (hfirst ?_ ?_)
    · rw [endsLine, Option.any_eq_false]
      intro c hc
      have hlf := hs.loc.getLast_front c (hbefore ▸ hc)
      have hcr : c ≠ '\r' := by
        rintro rfl
        exact hglue hb hc
      simp [hlf, hcr]
    · rw [hs.newline_eq, hkn]
      rfl
  · have hflat := hanging_flatten hs.loc.body.mem
      (hs.loc.body.keeps.head_space hs.loc.body.mem)
    have hlast : (Text.lines k.flatten).getLast (lines_ne_nil _) ∈ Text.lines k.flatten :=
      List.getLast_mem _
    refine .inr ⟨Text.lines (front a key r) ++ (Text.lines k.flatten).dropLast, _, ?_,
      hflat _ hlast⟩
    rw [hbefore, lines_append_cons, List.append_assoc, List.dropLast_append_getLast]

/-- A smooth end that is no carriage return has a line feed in front of the splice or nothing
behind it. -/
theorem readFmField_before (hsmooth : Smooth k bl.separates (lineEnd k))
    (hcr : before.getLast? ≠ some '\r') (key' : Text) :
    readFmField (before ++ '\n' :: (d ++ s).flatten) key' = readFmField fm key' := by
  nth_rewrite 1 [hs.text]
  refine readFmField_newline ?_
  rcases hs.place with ⟨-, -, -, hds⟩ | ⟨-, hbefore⟩
  · exact .inl hds
  · rcases eq_or_ne k [] with rfl | hk
    · exact .inr ⟨front a key r, by simpa using hbefore⟩
    · by_cases hds : d ++ s = []
      · exact .inl (by rw [hds]; rfl)
      · obtain ⟨z, c, hz⟩ := (List.eq_nil_or_concat' before).resolve_left (by simp [hbefore])
        have hlast : k.flatten.getLast? = some c := by
          rw [← hs.getLast_before hk, hz, List.getLast?_concat]
        have hkne : k.flatten ≠ [] := by
          intro hnil
          rw [hnil] at hlast
          cases hlast
        have hbr := ((splitlinesKeep_eq_append hs.loc.body.lines).2.2 hds hkne).1
        rw [List.getLast?_eq_some_getLast hkne] at hlast
        rw [Option.some.inj hlast] at hbr
        have hc : c = '\n' := by
          refine (hsmooth c ?_ hbr).resolve_right fun h => ?_
          · rw [List.getLast?_eq_some_getLast hkne]
            exact hlast
          · rw [hz, List.getLast?_concat, h.1] at hcr
            exact hcr rfl
        exact .inr ⟨z, by rw [hz, hc]⟩

end Site

/-- **An append to a block scalar is exact** under these conditions, and under no others. -/
theorem append_exact_iff {bl : BlockScalar} (hb : readFmBlockScalar fm key = some bl)
    (hl : l ≠ []) (hlf : '\n' ∉ l) (hcr : '\r' ∉ l) (hhead : ∀ c ∈ l.head?, isSpace c = false)
    (hlast : bl.lines.getLast? ≠ some l) :
    (∃ fm', appendFmBlockScalarLine fm key l = .ok fm' ∧ AppendedExactly fm key l bl fm') ↔
      AppendSafe fm key l bl := by
  obtain ⟨a, r, b, h, k, d, s, pad', before, hs⟩ := exists_site hb
  have hres := hs.run hlf hcr hlast hb
  by_cases hglue : b = [] ∧ before.getLast? = some '\r'
  · -- the line is glued to the key line
    have hnil : bl.lines = [] := by
      rw [hs.lines_eq_nil_iff]
      rcases hs.place with ⟨-, -, hk, -⟩ | ⟨hne, -⟩
      · exact hk
      · exact absurd hglue.1 hne
    constructor
    · rintro ⟨fm', hfm', hex⟩
      rw [hres] at hfm'
      obtain rfl := Except.ok.inj hfm'
      obtain ⟨bl', hread, hlines⟩ := hex.lines
      rw [hs.lines_of_glued hglue.1 hglue.2 hlf hread] at hlines
      simp at hlines
    · intro hsafe
      exact absurd (hs.take_eq ▸ hglue.2) (hsafe.start hnil)
  · have hglue : b = [] → before.getLast? ≠ some '\r' := fun hb hcr => hglue ⟨hb, hcr⟩
    have hpad := hs.loc.body.padding hs.loc.header
    obtain ⟨i, hread⟩ := hs.loc.read (appendedRest h (unlines b) k d s bl.separates l)
    rw [← hs.spliced hglue] at hread
    have hiff := block_lines_append_iff hs.loc.body hpad hs.ne_nil_of_separates hl hlf hcr hhead i
      (fm.length - (unlines b).length)
    rw [← hs.block] at hiff
    have hrep : (if bl.separates = true then [[]] else []) =
        List.replicate bl.separates.toNat ([] : Text) := by
      cases bl.separates <;> rfl
    constructor
    · rintro ⟨fm', hfm', hex⟩
      rw [hres] at hfm'
      obtain rfl := Except.ok.inj hfm'
      obtain ⟨bl', hread', hlines⟩ := hex.lines
      rw [hread, Option.some.injEq] at hread'
      rw [← hread', hrep] at hlines
      obtain ⟨hsmooth, hone⟩ := hiff.mp hlines
      obtain ⟨hstart, hends⟩ := (hs.smooth_iff hglue).mp hsmooth
      refine ⟨hs.chomp_eq ▸ hone, hs.take_eq ▸ hstart, hs.take_eq ▸ hends, fun _ key' hk hne => ?_⟩
      rw [hs.take_eq, hs.drop_eq, ← hs.readFmField_spliced hglue hlf hk]
      exact hex.others key' hk hne
    · intro hsafe
      have hsmooth := (hs.smooth_iff hglue).mpr
        ⟨hs.take_eq ▸ hsafe.start, hs.take_eq ▸ hsafe.ends⟩
      have hlines := hiff.mpr ⟨hsmooth, hs.chomp_eq ▸ hsafe.one⟩
      refine ⟨_, hres, ⟨_, hread, by rw [hrep]; exact hlines⟩, fun key' hk hne => ?_, ?_, ?_⟩
      · rw [hs.readFmField_spliced hglue hlf hk]
        by_cases hcr : before.getLast? = some '\r'
        · have := hsafe.alone (hs.take_eq ▸ hcr) key' hk hne
          rwa [hs.take_eq, hs.drop_eq] at this
        · exact hs.readFmField_before hsmooth hcr key'
      · exact ⟨bl.addition before l, by rw [hs.take_eq, hs.drop_eq]⟩
      · rw [← List.append_assoc] at hlines
        exact again_of_lines hlf hcr hread hlines

/-- A literal block with one line. -/
theorem append_exact_iff_literal :
    (∃ fm', appendFmBlockScalarLine "k: |\n  x\n".toList ['k'] ['a'] = .ok fm' ∧
      AppendedExactly "k: |\n  x\n".toList ['k'] ['a'] ⟨'|', 2, [['x']], 9, [' ', ' '], ['\n']⟩
        fm') ↔
      AppendSafe "k: |\n  x\n".toList ['k'] ['a'] ⟨'|', 2, [['x']], 9, [' ', ' '], ['\n']⟩ :=
  append_exact_iff (by decide) (by decide) (by decide) (by decide)
    (by simpa using (by decide : isSpace 'a' = false)) (by decide)

/-- A header at the end of the text that ends in a carriage return swallows the line; behind a
carriage return alone, what stood on the same line becomes a field. -/
theorem append_not_exact :
    (readFmBlockScalar "k: |\r".toList ['k'] = some ⟨'|', 2, [], 5, [' ', ' '], ['\n']⟩ ∧
      ¬ ∃ fm', appendFmBlockScalarLine "k: |\r".toList ['k'] ['a'] = .ok fm' ∧
        AppendedExactly "k: |\r".toList ['k'] ['a'] ⟨'|', 2, [], 5, [' ', ' '], ['\n']⟩ fm') ∧
    readFmBlockScalar "k: |\n  x\ry: z".toList ['k'] =
        some ⟨'|', 2, [['x']], 9, [' ', ' '], ['\n']⟩ ∧
      ¬ ∃ fm', appendFmBlockScalarLine "k: |\n  x\ry: z".toList ['k'] ['a'] = .ok fm' ∧
        AppendedExactly "k: |\n  x\ry: z".toList ['k'] ['a']
          ⟨'|', 2, [['x']], 9, [' ', ' '], ['\n']⟩ fm' := by
  have hglued : appendFmBlockScalarLine "k: |\r".toList ['k'] ['a'] =
      .ok "k: |\r  a\n".toList := by decide
  have hcut : appendFmBlockScalarLine "k: |\n  x\ry: z".toList ['k'] ['a'] =
      .ok "k: |\n  x\r  a\ny: z".toList := by decide
  refine ⟨⟨by decide, ?_⟩, by decide, ?_⟩
  · rintro ⟨fm', hrun, hex⟩
    rw [hglued] at hrun
    obtain rfl := Except.ok.inj hrun
    obtain ⟨bl', hread, -⟩ := hex.lines
    have hnone : readFmBlockScalar "k: |\r  a\n".toList ['k'] = none := by decide
    rw [hnone] at hread
    cases hread
  · rintro ⟨fm', hrun, hex⟩
    rw [hcut] at hrun
    obtain rfl := Except.ok.inj hrun
    have hmargin : LeftMargin ['y'] :=
      ⟨by decide, by simpa using (by decide : isSpace 'y' = false)⟩
    have hread := hex.others ['y'] hmargin (by decide)
    revert hread
    decide

end Frontmatter

end CoordinatorCore
