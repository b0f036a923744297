import CoordinatorCore.Frontmatter.Blocks
import CoordinatorCore.Frontmatter.FieldLaw
import CoordinatorCore.Text.Lines

/-!
# Block scalars

Reading the body of a `|` or `>` value line by line, and appending a line to it, from
`frontmatter/primitives.py`. The key line is found among the lines that end at a line feed; the
body below it is cut at every character `str.splitlines` ends a line at, a lone carriage return
and the Unicode separators among them. The two notions of a line meet where the appended line is
spliced in, and there the append goes wrong.
-/

namespace CoordinatorCore

open Text

namespace Frontmatter

/-! ### The header -/

/-- The groups of `_BLOCK_SCALAR_HEADER_RE`. -/
structure BlockHeader where
  style : Char
  explicit : Option Nat
  chomp : Option Char
deriving DecidableEq, Repr

/-- `[1-9]`, as the number it spells. -/
def takeIndent : Text → Option Nat × Text
  | c :: cs => if '1' ≤ c ∧ c ≤ '9' then (some (c.toNat - 48), cs) else (none, c :: cs)
  | [] => (none, [])

/-- `[+-]`. -/
def takeChomp : Text → Option Char × Text
  | c :: cs => if c = '+' ∨ c = '-' then (some c, cs) else (none, c :: cs)
  | [] => (none, [])

/-- The indentation digit and the chomping indicator, in either order, and the text behind. -/
def indicators (s : Text) : Option Nat × Option Char × Text :=
  let digit := takeIndent s
  let chomp := takeChomp digit.2
  match digit.1 with
  | some n => (some n, chomp.1, chomp.2)
  | none => ((takeIndent chomp.2).1, chomp.1, (takeIndent chomp.2).2)

/-- `_BLOCK_SCALAR_HEADER_RE`. -/
def blockHeader : Text → Option BlockHeader
  | [] => none
  | c :: cs =>
    if c = '|' ∨ c = '>' then
      match (indicators cs).2.2.dropWhile isBlank with
      | [] => some ⟨c, (indicators cs).1, (indicators cs).2.1⟩
      | d :: _ => if d = '#' then some ⟨c, (indicators cs).1, (indicators cs).2.1⟩ else none
    else none

/-- `m.group(0).split(':', 1)[1].strip()` of a key line. -/
def headerText (keyLine : Text) : Text := strip ((keyLine.dropWhile (· != ':')).drop 1)

/-! ### The body -/

/-- `not line.strip()`. -/
def blankLine (line : Text) : Bool := strip line == []

/-- One line of the loop of `read_fm_block_scalar`: the padding behind a kept line, or the break.
The line that sets the padding starts with it, so a break leaves the padding as it was. -/
def bodyStep (pad : Option Text) (line : Text) : Option (Option Text) :=
  let body := rstripNewline line
  if blankLine body then some pad
  else if !indented body then none
  else
    let p := pad.getD (body.takeWhile isSpace)
    if p.isPrefixOf body then some (some p) else none

/-- The loop of `read_fm_block_scalar`: the kept lines and the padding behind the loop. -/
def takeBody : Option Text → List Text → List Text × Option Text
  | pad, [] => ([], pad)
  | pad, line :: rest =>
    match bodyStep pad line with
    | some pad' => (line :: (takeBody pad' rest).1, (takeBody pad' rest).2)
    | none => ([], pad)

/-- The kept lines, without trailing blank ones unless the indicator keeps them. -/
def chompLines (chomp : Option Char) (kept : List Text) : List Text :=
  if chomp = some '+' then kept else kept.rdropWhile blankLine

/-- One line of the body, without its end and its padding. -/
def deindent (pad line : Text) : Text :=
  let raw := rstripNewline line
  if blankLine raw then [] else raw.drop pad.length

/-- `BlockScalar`; `indent` is the length of the padding. -/
structure BlockScalar where
  style : Char
  indent : Nat
  lines : List Text
  endOffset : Nat
  pad : Text
  newline : Text
deriving DecidableEq, Repr

/-- The padding before the body is read. -/
def BlockHeader.startPad (h : BlockHeader) : Option Text :=
  h.explicit.map fun n => List.replicate n ' '

/-- The lines of the body that belong to the value. -/
def BlockHeader.kept (h : BlockHeader) (rest : Text) : List Text :=
  chompLines h.chomp (takeBody h.startPad (splitlinesKeep rest)).1

/-- The padding behind the body. -/
def BlockHeader.pad (h : BlockHeader) (rest : Text) : Text :=
  (takeBody h.startPad (splitlinesKeep rest)).2.getD [' ', ' ']

/-- `any(ln.endswith('\r\n') for ln in kept)`. -/
def lineEnd (kept : List Text) : Text :=
  if kept.any (['\r', '\n'].isSuffixOf ·) then ['\r', '\n'] else ['\n']

/-- The block of a header, `rest` being the text behind the key line and `bodyStart` its offset. -/
def BlockHeader.block (h : BlockHeader) (bodyStart : Nat) (rest : Text) : BlockScalar where
  style := h.style
  indent := (h.pad rest).length
  lines := (h.kept rest).map (deindent (h.pad rest))
  endOffset := bodyStart + (h.kept rest).flatten.length
  pad := h.pad rest
  newline := lineEnd (h.kept rest)

/-- `read_fm_block_scalar`. -/
def readFmBlockScalar (fm key : Text) : Option BlockScalar :=
  match findKeyLine key (Text.lines fm) with
  | none => none
  | some (_, r, b) =>
    (blockHeader (headerText (key ++ ':' :: r))).map fun h =>
      h.block (fm.length - (unlines b).length) (unlines b)

/-! ### Appending a line -/

/-- The `ValueError` of `append_fm_block_scalar_line` on a text of several lines. -/
def notSingleLine (key : Text) : Text :=
  "append_fm_block_scalar_line: field \"".toList ++ key ++ ("\" — *line* must be a single line; " ++
    "append multi-line text one line at a time.").toList

/-- The `ValueError` of `append_fm_block_scalar_line` on a field without a block scalar. -/
def noBlockScalar (key : Text) : Text :=
  "append_fm_block_scalar_line: field \"".toList ++ key ++ ("\" is absent or does not hold a " ++
    "block-scalar (\"|\"/\">\") value — nothing to append into.").toList

/-- `text.endswith(('\n', '\r'))`. -/
def endsLine (s : Text) : Bool := s.getLast?.any fun c => c == '\n' || c == '\r'

/-- `block.style == '>' and block.lines and block.lines[-1].strip()`. -/
def BlockScalar.separates (b : BlockScalar) : Bool :=
  b.style == '>' && b.lines.getLast?.any fun l => !blankLine l

/-- What `append_fm_block_scalar_line` splices in behind `before`. -/
def BlockScalar.addition (b : BlockScalar) (before line : Text) : Text :=
  (if endsLine before then [] else b.newline) ++ (if b.separates then b.newline else []) ++
    b.pad ++ line ++ b.newline

/-- `append_fm_block_scalar_line`; the error is the text of the `ValueError`. -/
def appendFmBlockScalarLine (fm key line : Text) : Except Text Text :=
  if '\n' ∈ line ∨ '\r' ∈ line then .error (notSingleLine key)
  else
    match readFmBlockScalar fm key with
    | none => .error (noBlockScalar key)
    | some b =>
      if b.lines.getLast? = some line then .ok fm
      else
        let before := fm.take b.endOffset
        .ok (before ++ b.addition before line ++ fm.drop b.endOffset)

/-! ### White space -/

/-- A blank line is white space. -/
theorem blankLine_iff {l : Text} : blankLine l = true ↔ ∀ c ∈ l, isSpace c = true := by
  rw [blankLine, beq_iff_eq, strip, ← lstrip_rstrip, lstrip_eq_nil_iff]
  constructor
  · intro h c hc
    obtain ⟨w, hw, hsp⟩ := exists_rstrip_append l
    rw [hw, List.mem_append] at hc
    exact hc.elim (h c) (hsp c)
  · exact fun h c hc => h c ((List.rdropWhile_prefix isSpace l).subset hc)

/-- A line is its text and its line end. -/
theorem exists_rstripNewline_append (l : Text) :
    ∃ w, l = rstripNewline l ++ w ∧ ∀ c ∈ w, c = '\r' ∨ c = '\n' := by
  refine ⟨l.rtakeWhile fun c => c == '\r' || c == '\n',
    List.rdropWhile_append_rtakeWhile.symm, fun c hc => ?_⟩
  simpa using List.mem_rtakeWhile_imp hc

@[simp] theorem blankLine_rstripNewline (l : Text) :
    blankLine (rstripNewline l) = blankLine l := by
  obtain ⟨w, hw, hcr⟩ := exists_rstripNewline_append l
  rw [Bool.eq_iff_iff, blankLine_iff, blankLine_iff]
  constructor
  · intro h c hc
    rw [hw, List.mem_append] at hc
    rcases hc with hc | hc
    · exact h c hc
    · rcases hcr c hc with rfl | rfl <;> decide
  · exact fun h c hc => h c (by rw [hw]; exact List.mem_append_left w hc)

/-- Line ends are stripped wherever they are many. -/
theorem rstripNewline_append_right {s w : Text} (h : ∀ c ∈ w, c = '\r' ∨ c = '\n') :
    rstripNewline (s ++ w) = rstripNewline s := by
  induction w using List.reverseRecOn with
  | nil => rw [List.append_nil]
  | append_singleton w c ih =>
    rw [← List.append_assoc, rstripNewline,
      List.rdropWhile_concat_pos _ _ _ (by simpa using h c (by simp))]
    exact ih fun d hd => h d (by simp [hd])

/-- A line without a line end stays. -/
theorem rstripNewline_of_getLast {s : Text}
    (h : ∀ c ∈ s.getLast?, c ≠ '\r' ∧ c ≠ '\n') : rstripNewline s = s := by
  rw [rstripNewline, List.rdropWhile_eq_self_iff]
  intro hne
  simpa using h (s.getLast hne) (by rw [List.getLast?_eq_some_getLast hne]; rfl)

/-- Line breaks are white space. -/
theorem isSpace_of_isLineBreak {c : Char} (h : isLineBreak c = true) : isSpace c = true := by
  simp only [isLineBreak, Bool.or_eq_true, beq_iff_eq] at h
  rcases h with ((((((((rfl | rfl) | rfl) | rfl) | rfl) | rfl) | rfl) | rfl) | rfl) | rfl <;>
    decide

/-! ### The loop -/

variable {pad pad' : Option Text} {l p : Text} {ls a b : List Text}

/-- What a kept line does to the padding. -/
theorem bodyStep_eq_some (h : bodyStep pad l = some pad') :
    (blankLine l = true ∧ pad' = pad) ∨
      (blankLine l = false ∧ indented (rstripNewline l) = true ∧
        ∃ p, pad' = some p ∧ p <+: rstripNewline l ∧
          (pad = some p ∨ pad = none ∧ p = (rstripNewline l).takeWhile isSpace)) := by
  rw [bodyStep] at h
  simp only [blankLine_rstripNewline] at h
  split_ifs at h with hb hi hp
  · exact .inl ⟨hb, (Option.some.inj h).symm⟩
  · refine .inr ⟨by simpa using hb, by simpa using hi, _, (Option.some.inj h).symm,
      List.isPrefixOf_iff_prefix.mp hp, ?_⟩
    cases pad with
    | none => exact .inr ⟨rfl, rfl⟩
    | some q => exact .inl rfl

/-- A blank line belongs to the body and leaves the padding. -/
theorem bodyStep_blank (h : blankLine l = true) : bodyStep pad l = some pad := by
  simp [bodyStep, h]

/-- An indented line belongs to the body when it has the padding. -/
theorem bodyStep_indented (hb : blankLine l = false) (hi : indented (rstripNewline l) = true)
    (hp : p <+: rstripNewline l)
    (hpad : pad = some p ∨ pad = none ∧ p = (rstripNewline l).takeWhile isSpace) :
    bodyStep pad l = some (some p) := by
  have hget : pad.getD ((rstripNewline l).takeWhile isSpace) = p := by
    rcases hpad with rfl | ⟨rfl, rfl⟩ <;> rfl
  simp [bodyStep, hb, hi, hget, hp]

/-- The body ends at a line that is not blank and lacks the padding. -/
theorem bodyStep_eq_none_iff :
    bodyStep pad l = none ↔ blankLine l = false ∧ (indented (rstripNewline l) = true →
      ∃ p, pad = some p ∧ ¬ p <+: rstripNewline l) := by
  rw [bodyStep]
  simp only [blankLine_rstripNewline]
  split_ifs with hb hi hp
  · simp [hb]
  · rw [Bool.not_eq_true'] at hi
    simpa [hi] using hb
  · rw [List.isPrefixOf_iff_prefix] at hp
    simp only [false_iff, not_and, not_forall]
    refine fun _ => ⟨by simpa using hi, ?_⟩
    rintro ⟨q, rfl, hq⟩
    exact hq hp
  · rw [List.isPrefixOf_iff_prefix] at hp
    simp only [true_iff]
    refine ⟨by simpa using hb, fun _ => ?_⟩
    cases pad with
    | none => exact absurd (List.takeWhile_prefix _) hp
    | some q => exact ⟨q, rfl, hp⟩

/-- Every line of `a` is kept. -/
def Kept (pad : Option Text) (a : List Text) (pad' : Option Text) : Prop :=
  takeBody pad a = (a, pad')

/-- The loop breaks in front of the first line, or there is none. -/
def Stops (pad : Option Text) (ls : List Text) : Prop :=
  ∀ l ∈ ls.head?, bodyStep pad l = none

theorem Kept.nil (pad : Option Text) : Kept pad [] pad := rfl

/-- The lines of a body are kept one by one. -/
theorem kept_cons_iff : Kept pad (l :: a) pad' ↔ ∃ p, bodyStep pad l = some p ∧ Kept p a pad' := by
  rw [Kept, takeBody]
  cases bodyStep pad l with
  | none => simp
  | some p => simp [Kept, Prod.ext_iff]

/-- Lines that are kept are taken first. -/
theorem takeBody_append (h : Kept pad a pad') :
    takeBody pad (a ++ b) = (a ++ (takeBody pad' b).1, (takeBody pad' b).2) := by
  induction a generalizing pad with
  | nil =>
    obtain rfl : pad = pad' := (Prod.ext_iff.mp h).2
    rfl
  | cons l a ih =>
    obtain ⟨p, hp, ha⟩ := kept_cons_iff.mp h
    rw [List.cons_append, takeBody, hp]
    simp [ih ha]

/-- The lines of a body may be cut anywhere. -/
theorem kept_append_iff :
    Kept pad (a ++ b) pad' ↔ ∃ p, Kept pad a p ∧ Kept p b pad' := by
  induction a generalizing pad with
  | nil =>
    refine ⟨fun h => ⟨pad, Kept.nil pad, h⟩, ?_⟩
    rintro ⟨p, hp, hb⟩
    obtain rfl : pad = p := (Prod.ext_iff.mp hp).2
    exact hb
  | cons l a ih =>
    rw [List.cons_append, kept_cons_iff]
    constructor
    · rintro ⟨q, hq, h⟩
      obtain ⟨p, ha, hb⟩ := ih.mp h
      exact ⟨p, kept_cons_iff.mpr ⟨q, hq, ha⟩, hb⟩
    · rintro ⟨p, h, hb⟩
      obtain ⟨q, hq, ha⟩ := kept_cons_iff.mp h
      exact ⟨q, hq, ih.mpr ⟨p, ha, hb⟩⟩

/-- Blank lines are kept and leave the padding. -/
theorem kept_of_blank (h : ∀ l ∈ a, blankLine l = true) : Kept pad a pad := by
  induction a with
  | nil => exact Kept.nil pad
  | cons l a ih =>
    exact kept_cons_iff.mpr ⟨pad, bodyStep_blank (h l List.mem_cons_self),
      ih fun m hm => h m (List.mem_cons_of_mem l hm)⟩

/-- The padding behind lines that are kept is determined. -/
theorem Kept.unique {q : Option Text} (h : Kept pad a pad') (h' : Kept pad a q) : pad' = q := by
  rw [Kept, h, Prod.mk.injEq] at h'
  exact h'.2

/-- Where the body stops nothing is taken. -/
theorem Stops.takeBody_eq (h : Stops pad ls) : takeBody pad ls = ([], pad) := by
  cases ls with
  | nil => rfl
  | cons l ls => rw [takeBody, h l rfl]

/-- The loop keeps a first part of the lines and breaks behind it. -/
theorem exists_takeBody (pad : Option Text) (ls : List Text) :
    ∃ a b pad', ls = a ++ b ∧ takeBody pad ls = (a, pad') ∧ Kept pad a pad' ∧ Stops pad' b := by
  induction ls generalizing pad with
  | nil => exact ⟨[], [], pad, rfl, rfl, Kept.nil pad, by simp [Stops]⟩
  | cons l ls ih =>
    cases hl : bodyStep pad l with
    | none =>
      have hstop : Stops pad (l :: ls) := by simpa [Stops] using hl
      exact ⟨[], l :: ls, pad, rfl, hstop.takeBody_eq, Kept.nil pad, hstop⟩
    | some p =>
      obtain ⟨a, b, pad', rfl, htake, ha, hb⟩ := ih p
      refine ⟨l :: a, b, pad', rfl, ?_, kept_cons_iff.mpr ⟨p, hl, ha⟩, hb⟩
      rw [takeBody, hl]
      simp [htake]

/-- A padding that is set stays. -/
theorem takeBody_some (p : Text) (ls : List Text) : (takeBody (some p) ls).2 = some p := by
  induction ls with
  | nil => rfl
  | cons l ls ih =>
    rw [takeBody]
    cases hl : bodyStep (some p) l with
    | none => rfl
    | some q =>
      obtain rfl : q = some p := by
        rcases bodyStep_eq_some hl with ⟨-, hq⟩ | ⟨-, -, r, rfl, -, hr | ⟨hr, -⟩⟩
        · exact hq
        · exact hr.symm
        · cases hr
      exact ih

/-! ### Padding -/

/-- A text the code can indent with: it starts with a blank, it is white space, and it ends no
line. -/
structure Padding (p : Text) : Prop where
  head : indented p = true
  space : ∀ c ∈ p, isSpace c = true
  unbroken : ∀ c ∈ p, isLineBreak c = false

/-- Spaces are a padding. -/
theorem padding_replicate {n : Nat} (h : n ≠ 0) : Padding (List.replicate n ' ') := by
  obtain ⟨n, rfl⟩ := Nat.exists_eq_succ_of_ne_zero h
  exact ⟨rfl, fun c hc => by rw [List.eq_of_mem_replicate hc]; decide,
    fun c hc => by rw [List.eq_of_mem_replicate hc]; decide⟩

theorem padding_default : Padding [' ', ' '] := padding_replicate (n := 2) (by decide)

/-- The white space in front of a line with something on it. -/
theorem padding_takeWhile {s : Text} (hl : l ∈ splitlinesKeep s) (hb : blankLine l = false)
    (hi : indented (rstripNewline l) = true) :
    Padding ((rstripNewline l).takeWhile isSpace) := by
  obtain ⟨x, e, rfl, hx, he⟩ := exists_line_end hl
  refine ⟨?_, fun c hc => List.mem_takeWhile_imp hc, fun c hc => ?_⟩
  · obtain ⟨c, cs, hcs⟩ : ∃ c cs, rstripNewline (x ++ e) = c :: cs := by
      refine List.exists_cons_of_ne_nil ?_
      intro hnil
      rw [hnil] at hi
      cases hi
    rw [hcs] at hi ⊢
    have hc : isBlank c = true := hi
    rw [List.takeWhile_cons_of_pos (isSpace_of_isBlank hc)]
    exact hc
  · -- the end of the line is white space, so a padding that reached it would be the whole line
    have hspace : ∀ c ∈ e, isSpace c = true := by
      rcases he with rfl | rfl | ⟨d, rfl, hd⟩
      · simp
      · exact List.all_eq_true.mp (by decide)
      · simpa using isSpace_of_isLineBreak hd
    have hpre : (rstripNewline (x ++ e)).takeWhile isSpace <+: x := by
      have hle : (rstripNewline (x ++ e)).takeWhile isSpace <+: x ++ e :=
        (List.takeWhile_prefix _).trans (List.rdropWhile_prefix _ _)
      refine (List.prefix_or_prefix_of_prefix hle (List.prefix_append x e)).resolve_right ?_
      intro hx
      have hblank : blankLine (x ++ e) = true := by
        rw [blankLine_iff]
        intro d hd
        exact (List.mem_append.mp hd).elim (fun hd => List.mem_takeWhile_imp (hx.subset hd))
          (hspace d)
      rw [hblank] at hb
      cases hb
    exact hx c (hpre.subset hc)

/-- The padding that is found is one. -/
theorem Kept.padding {s : Text} (h : Kept pad a pad') (ha : ∀ l ∈ a, l ∈ splitlinesKeep s)
    (hpad : ∀ p ∈ pad, Padding p) : ∀ p ∈ pad', Padding p := by
  induction a generalizing pad with
  | nil =>
    obtain rfl : pad = pad' := (Prod.ext_iff.mp h).2
    exact hpad
  | cons l a ih =>
    obtain ⟨q, hq, h⟩ := kept_cons_iff.mp h
    refine ih h (fun m hm => ha m (List.mem_cons_of_mem l hm)) ?_
    rcases bodyStep_eq_some hq with ⟨-, rfl⟩ | ⟨hb, hi, p, rfl, -, rfl | ⟨-, rfl⟩⟩
    · exact hpad
    · exact hpad
    · rintro p hp
      obtain rfl := Option.some.inj hp
      exact padding_takeWhile (ha l List.mem_cons_self) hb hi

/-- An indentation indicator is not zero. -/
theorem takeIndent_pos {s : Text} {n : Nat} (h : (takeIndent s).1 = some n) : n ≠ 0 := by
  cases s with
  | nil => cases h
  | cons c cs =>
    rw [takeIndent] at h
    split_ifs at h with hc
    have hn : c.toNat = c.val.toNat := rfl
    have h1 : '1'.val.toNat = 49 := rfl
    have hle : '1'.val.toNat ≤ c.val.toNat := UInt32.le_iff_toNat_le.mp hc.1
    obtain rfl : c.toNat - 48 = n := Option.some.inj h
    omega

/-- An explicit indentation is not zero. -/
theorem blockHeader_explicit {s : Text} {h : BlockHeader} (hh : blockHeader s = some h) {n : Nat}
    (hn : h.explicit = some n) : n ≠ 0 := by
  cases s with
  | nil => cases hh
  | cons c cs =>
    have hexp : h.explicit = (indicators cs).1 := by
      rw [blockHeader] at hh
      split_ifs at hh
      split at hh
      · rw [← Option.some.inj hh]
      · split_ifs at hh
        rw [← Option.some.inj hh]
    rw [hexp, indicators] at hn
    cases hd : (takeIndent cs).1 with
    | some m =>
      simp only [hd] at hn
      obtain rfl := Option.some.inj hn
      exact takeIndent_pos hd
    | none =>
      simp only [hd] at hn
      exact takeIndent_pos hn

/-- The padding a header starts with is one. -/
theorem padding_startPad {s : Text} {h : BlockHeader} (hh : blockHeader s = some h) :
    ∀ p ∈ h.startPad, Padding p := by
  rintro p hp
  obtain ⟨n, hn, rfl⟩ := Option.map_eq_some_iff.mp hp
  exact padding_replicate (blockHeader_explicit hh hn)

/-- A kept line starts with white space. -/
theorem Kept.head_space {s : Text} (h : Kept pad a pad') (ha : ∀ l ∈ a, l ∈ splitlinesKeep s) :
    ∀ l ∈ a, ∃ c cs, l = c :: cs ∧ isSpace c = true := by
  induction a generalizing pad with
  | nil => simp
  | cons l a ih =>
    obtain ⟨q, hq, h⟩ := kept_cons_iff.mp h
    refine List.forall_mem_cons.mpr ⟨?_, ih h fun m hm => ha m (List.mem_cons_of_mem l hm)⟩
    obtain ⟨c, cs, rfl⟩ := List.exists_cons_of_ne_nil
      (ne_nil_of_mem_splitlinesKeep (ha l List.mem_cons_self))
    refine ⟨c, cs, rfl, ?_⟩
    rcases bodyStep_eq_some hq with ⟨hb, -⟩ | ⟨-, hi, -⟩
    · exact blankLine_iff.mp hb c List.mem_cons_self
    · obtain ⟨w, hw, -⟩ := exists_rstripNewline_append (c :: cs)
      cases hr : rstripNewline (c :: cs) with
      | nil =>
        rw [hr] at hi
        cases hi
      | cons d ds =>
        rw [hr, List.cons_append] at hw
        rw [hr, ← (List.cons.inj hw).1] at hi
        exact isSpace_of_isBlank hi

end Frontmatter

end CoordinatorCore
