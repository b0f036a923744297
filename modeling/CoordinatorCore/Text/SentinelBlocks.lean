import CoordinatorCore.Text.Search

/-!
# Blocks between two markers

`text/sentinel_blocks.py` replaces what stands between a begin marker and an end marker. A marker
with nothing but white space in front of it takes its line: the block starts behind the line break of
the begin marker and ends in front of the indentation of the end marker.

A call can be repeated when the markers it leaves are read as they were read before it. `Rereads` is
this condition, and `lossless_iff` says that nothing else is needed. What breaks it: a new block that
starts with a line break behind a begin marker whose line goes on, an empty one that puts both
markers on one line, and a stray begin marker in front of a block that is added at the end.
-/

namespace CoordinatorCore

open Text

namespace SentinelBlocks

/-! ### The code -/

/-- The markers of a block, as `_find_markers` gives them. -/
structure MarkerPositions where
  beginStart : Nat
  beginEnd : Nat
  endStart : Nat
  endEnd : Nat
  deriving DecidableEq

/-- What stands behind the last line feed. -/
def lastLine (t : Text) : Text := t.rtakeWhile (· ≠ '\n')

/-- Where the line of a position starts. -/
def lineStart (content : Text) (i : Nat) : Nat := i - (lastLine (content.take i)).length

/-- Past the character, if it stands there. -/
def stepPast (content : Text) (c : Char) (i : Nat) : Nat := if content[i]? = some c then i + 1 else i

/-- Past the line break, if one stands there. -/
def lineEnd (content : Text) (i : Nat) : Nat := stepPast content '\n' (stepPast content '\r' i)

/-- There is nothing but white space between the start of the line and the position. -/
def ownLine (content : Text) (i : Nat) : Bool := strip (lastLine (content.take i)) = []

/-- `_find_markers`. -/
def findMarkers (content beginMarker endMarker : Text) : Option MarkerPositions :=
  (cutAt beginMarker content).bind fun x => (cutAt endMarker x.2).map fun y =>
    let bi := x.1.length
    let ei := x.1.length + beginMarker.length + y.1.length
    { beginStart := if ownLine content bi then lineStart content bi else bi
      beginEnd := if ownLine content bi then lineEnd content (bi + beginMarker.length)
        else bi + beginMarker.length
      endStart := if ownLine content ei then lineStart content ei else ei
      endEnd := if ownLine content ei then lineEnd content (ei + endMarker.length)
        else ei + endMarker.length }

/-- What `extract_block` returns. -/
structure BlockResult where
  block : Text
  before : Text
  after : Text
  deriving DecidableEq

/-- `extract_block`. -/
def extractBlock (content beginMarker endMarker : Text) : Option BlockResult :=
  (findMarkers content beginMarker endMarker).map fun pos =>
    { block := (content.take pos.endStart).drop pos.beginEnd
      before := content.take pos.beginEnd
      after := content.drop pos.endStart }

/-- The new block with a line feed at its end, unless it is empty. -/
def withNewline (t : Text) : Text :=
  if t ≠ [] ∧ t.getLast? ≠ some '\n' then t ++ ['\n'] else t

/-- `replace_block`. -/
def replaceBlock (content beginMarker endMarker newBlockContent : Text) : Option Text :=
  (findMarkers content beginMarker endMarker).map fun pos =>
    content.take pos.beginEnd ++ withNewline newBlockContent ++ content.drop pos.endStart

/-- `insert_at`. -/
inductive InsertAt
  | start
  | end_
  deriving DecidableEq

/-- `insert_or_replace_block`. -/
def insertOrReplaceBlock (content beginMarker endMarker newBlockContent : Text)
    (insertAt : InsertAt) : Text :=
  match replaceBlock content beginMarker endMarker newBlockContent with
  | some replaced => replaced
  | none =>
    let block := beginMarker ++ '\n' :: (withNewline newBlockContent ++ endMarker ++ ['\n'])
    match insertAt with
    | .start => block ++ content
    | .end_ =>
      let sep := if content ≠ [] ∧ content.getLast? ≠ some '\n' then ['\n'] else []
      content ++ sep ++ block

/-! ### What is asked of a call -/

/-- A line of its own, with nothing that ends it. -/
structure IsMarker (t : Text) : Prop where
  ne_nil : t ≠ []
  unbroken : '\n' ∉ t ∧ '\r' ∉ t

/-- The markers are apart. -/
structure Markers (beginMarker endMarker : Text) : Prop where
  begin_ : IsMarker beginMarker
  end_ : IsMarker endMarker
  begin_not_in_end : contains beginMarker endMarker = false
  end_not_in_begin : contains endMarker beginMarker = false

/-- The new block holds no marker. -/
def Unmarked (beginMarker endMarker t : Text) : Prop :=
  contains beginMarker t = false ∧ contains endMarker t = false

/-- The text outside the block. -/
def outside (content beginMarker endMarker : Text) : Text :=
  match findMarkers content beginMarker endMarker with
  | some pos => content.take pos.beginEnd ++ content.drop (max pos.beginEnd pos.endStart)
  | none => content

/-- The block is read back, the call can be repeated, a later call overwrites it, and the text
outside the block stays. -/
structure Lossless (content beginMarker endMarker new : Text) (insertAt : InsertAt) : Prop where
  readBack : (extractBlock (insertOrReplaceBlock content beginMarker endMarker new insertAt)
    beginMarker endMarker).map BlockResult.block = some (withNewline new)
  again : insertOrReplaceBlock (insertOrReplaceBlock content beginMarker endMarker new insertAt)
    beginMarker endMarker new insertAt = insertOrReplaceBlock content beginMarker endMarker new insertAt
  later : ∀ n, Unmarked beginMarker endMarker n →
    insertOrReplaceBlock (insertOrReplaceBlock content beginMarker endMarker new insertAt)
      beginMarker endMarker n insertAt = insertOrReplaceBlock content beginMarker endMarker n insertAt
  kept : (outside content beginMarker endMarker).Sublist
    (insertOrReplaceBlock content beginMarker endMarker new insertAt)

/-! ### Lines -/

/-- The character, if it stands at the front. -/
def frontChar (c : Char) (t : Text) : Text := if t.head? = some c then [c] else []

/-- The line break at the front of a text. -/
def lineBreak (t : Text) : Text :=
  frontChar '\r' t ++ frontChar '\n' (t.drop (frontChar '\r' t).length)

/-- `_step_past` in terms of the character in front. -/
theorem stepPast_eq (content : Text) (c : Char) (i : Nat) :
    stepPast content c i = i + (frontChar c (content.drop i)).length := by
  rw [stepPast, frontChar, List.head?_drop]
  split_ifs <;> rfl

/-- The end of a line break, as a position. -/
theorem lineEnd_eq (content : Text) (i : Nat) :
    lineEnd content i = i + (lineBreak (content.drop i)).length := by
  rw [lineEnd, stepPast_eq, stepPast_eq, lineBreak, List.length_append, List.drop_drop, Nat.add_assoc]

/-- What is in front does not change with what follows a text that has a front. -/
theorem frontChar_append {c : Char} {s t : Text} (h : s = [] → t.head? ≠ some c) :
    frontChar c (s ++ t) = frontChar c s := by
  cases s with
  | nil => simp [frontChar, h rfl]
  | cons d s => rfl

/-- The front and the rest make up the text. -/
theorem frontChar_append_drop (c : Char) (t : Text) :
    frontChar c t ++ t.drop (frontChar c t).length = t := by
  rw [frontChar]
  split_ifs with h
  · obtain ⟨d, t, rfl⟩ := List.exists_cons_of_ne_nil (l := t) (by rintro rfl; cases h)
    rw [← Option.some.inj h]
    rfl
  · rfl

theorem eq_of_mem_frontChar {c d : Char} {t : Text} (h : d ∈ frontChar c t) : d = c := by
  rw [frontChar] at h
  split_ifs at h
  · exact List.mem_singleton.mp h
  · cases h

/-- A line break is read at the front. -/
theorem lineBreak_isPrefix (t : Text) : lineBreak t <+: t := by
  refine ⟨(t.drop (frontChar '\r' t).length).drop
    (frontChar '\n' (t.drop (frontChar '\r' t).length)).length, ?_⟩
  rw [lineBreak, List.append_assoc, frontChar_append_drop, frontChar_append_drop]

/-- What stands behind a line feed, or a character that is not in a line break, does not matter. -/
theorem lineBreak_append {s t : Text} (h : s.getLast? = some '\n' ∨
    t.head? ≠ some '\r' ∧ t.head? ≠ some '\n') : lineBreak (s ++ t) = lineBreak s := by
  have hcr : frontChar '\r' (s ++ t) = frontChar '\r' s := by
    refine frontChar_append ?_
    rintro rfl
    exact (h.resolve_left (by simp)).1
  rw [lineBreak, lineBreak, hcr]
  congr 1
  have hdrop : (s ++ t).drop (frontChar '\r' s).length = s.drop (frontChar '\r' s).length ++ t := by
    have hlen := congrArg List.length (frontChar_append_drop '\r' s)
    rw [List.drop_append_of_le_length]
    rw [← hlen, List.length_append]
    exact Nat.le_add_right _ _
  rw [hdrop]
  refine frontChar_append fun hnil => ?_
  rcases h with h | h
  · -- a carriage return alone does not end in a line feed
    have hs := frontChar_append_drop '\r' s
    rw [hnil, List.append_nil] at hs
    have hmem := List.mem_of_getLast? h
    rw [← hs] at hmem
    exact absurd (eq_of_mem_frontChar hmem) (by decide)
  · exact h.2

theorem newline_not_mem_lastLine (t : Text) : '\n' ∉ lastLine t := by
  intro h
  simpa using List.mem_rtakeWhile_imp h

/-- The last line ends the text. -/
theorem lastLine_suffix (t : Text) : lastLine t <:+ t := List.rtakeWhile_suffix _ t

/-- The last line goes on as long as no line feed is added. -/
theorem lastLine_append_of_not_mem (s : Text) {t : Text} (h : '\n' ∉ t) :
    lastLine (s ++ t) = lastLine s ++ t := by
  have hall : ∀ c ∈ t.reverse, decide (c ≠ '\n') = true := fun c hc => by
    rw [decide_eq_true_iff]
    rintro rfl
    exact h (List.mem_reverse.mp hc)
  rw [lastLine, List.rtakeWhile, List.reverse_append, List.takeWhile_append_of_pos hall,
    List.reverse_append, List.reverse_reverse]
  rfl

/-- Behind a line feed the last line is empty. -/
theorem lastLine_of_getLast? {t : Text} (h : t.getLast? = some '\n') : lastLine t = [] := by
  rw [lastLine, List.rtakeWhile_eq_nil_iff]
  intro hne
  rw [List.getLast?_eq_some_getLast hne] at h
  simp [Option.some.inj h]

/-- A line feed starts the last line again. -/
theorem lastLine_append_of_mem (s : Text) {t : Text} (h : '\n' ∈ t) :
    lastLine (s ++ t) = lastLine t := by
  induction t using List.reverseRecOn with
  | nil => cases h
  | append_singleton t c ih =>
    by_cases hc : c = '\n'
    · rw [lastLine_of_getLast? (by simp [hc]), lastLine_of_getLast? (by simp [hc])]
    · have hlast : '\n' ∉ [c] := by simpa using fun h => hc h.symm
      have ht : '\n' ∈ t := (List.mem_append.mp h).resolve_right hlast
      rw [← List.append_assoc, lastLine_append_of_not_mem _ hlast,
        lastLine_append_of_not_mem _ hlast, ih ht]

/-! ### The parts of a content -/

/-- The content is what stands in front of the first begin marker, what stands between it and the
next end marker, and the rest. -/
structure Marked (beginMarker endMarker content u m v : Text) : Prop where
  text : content = u ++ beginMarker ++ (m ++ endMarker ++ v)
  first : cutAt beginMarker (u ++ beginMarker) = some (u, [])
  next : cutAt endMarker (m ++ endMarker) = some (m, [])

/-- The line break that a begin marker takes. -/
def taken (u m : Text) : Text := if strip (lastLine u) = [] then lineBreak m else []

/-- The indentation that stays in front of an end marker, behind the text. -/
def indent (s : Text) : Text := if strip (lastLine s) = [] then lastLine s else []

section

variable {b e content u m v new : Text}

/-- A marker does not start with a line break. -/
theorem IsMarker.head? (h : IsMarker e) (t : Text) :
    (e ++ t).head? ≠ some '\r' ∧ (e ++ t).head? ≠ some '\n' := by
  obtain ⟨c, e, rfl⟩ := List.exists_cons_of_ne_nil h.ne_nil
  constructor
  · intro heq
    exact h.unbroken.2 (by rw [← Option.some.inj heq]; exact List.mem_cons_self)
  · intro heq
    exact h.unbroken.1 (by rw [← Option.some.inj heq]; exact List.mem_cons_self)

/-- A marker does not lie across the end of a line. -/
theorem IsMarker.noStraddle (h : IsMarker e) {s : Text} (hs : s = [] ∨ s.getLast? = some '\n')
    (t : Text) : NoStraddle e s t := by
  refine noStraddle_left (d := '\n') (fun hmem => h.unbroken.1 (List.dropLast_subset e hmem)) ?_
  intro hne
  rw [List.getLast?_eq_some_getLast hne] at hs
  exact Option.some.inj (hs.resolve_left hne)

/-- A marker is found at its own front. -/
theorem IsMarker.cutAt_self (h : IsMarker e) : cutAt e e = some ([], []) := by
  obtain ⟨c, e', rfl⟩ := List.exists_cons_of_ne_nil h.ne_nil
  have hpre : stripPrefix? (c :: e') (c :: e') = some [] := by
    rw [stripPrefix?_eq_some, List.append_nil]
  rw [cutAt, hpre]

/-- A line feed contains no marker. -/
theorem IsMarker.not_in_newline (h : IsMarker e) : contains e ['\n'] = false := by
  rw [Bool.eq_false_iff, ne_eq, contains_iff]
  intro hwithin
  obtain ⟨c, e', rfl⟩ := List.exists_cons_of_ne_nil h.ne_nil
  have hc := List.mem_singleton.mp (hwithin.subset List.mem_cons_self)
  exact h.unbroken.1 (by rw [← hc]; exact List.mem_cons_self)

/-- The markers are found where the block stands, and the offsets are those of its content. -/
theorem findMarkers_of_marked (he : IsMarker e) (h : Marked b e content u m v) :
    ∃ pos, findMarkers content b e = some pos ∧
      pos.beginEnd = (u ++ b ++ taken u m).length ∧
      pos.endStart = (u ++ b ++ m).length - (indent (u ++ b ++ m)).length := by
  obtain ⟨rfl, hfirst, hnext⟩ := h
  have hcut := (cutAt_append_self (m ++ e ++ v)).mpr hfirst
  have hcut' := (cutAt_append_self v).mpr hnext
  have htake : (u ++ b ++ (m ++ e ++ v)).take u.length = u := by
    rw [List.append_assoc]
    exact List.take_left
  have htake' : (u ++ b ++ (m ++ e ++ v)).take (u.length + b.length + m.length) = u ++ b ++ m := by
    rw [← List.length_append, ← List.length_append, List.append_assoc m, ← List.append_assoc (u ++ b)]
    exact List.take_left
  have hdrop : (u ++ b ++ (m ++ e ++ v)).drop (u.length + b.length) = m ++ e ++ v := by
    rw [← List.length_append]
    exact List.drop_left
  have hbreak : lineBreak (m ++ e ++ v) = lineBreak m := by
    rw [List.append_assoc]
    exact lineBreak_append (.inr (he.head? v))
  rw [findMarkers, hcut, Option.bind_some, hcut', Option.map_some]
  refine ⟨_, rfl, ?_, ?_⟩
  · dsimp only
    rw [ownLine, htake, taken, lineEnd_eq, hdrop, hbreak]
    by_cases hown : strip (lastLine u) = []
    · simp [hown, Nat.add_assoc]
    · simp [hown]
  · dsimp only
    have hlen : u.length + b.length + m.length = (u ++ b ++ m).length := by simp [Nat.add_assoc]
    rw [ownLine, lineStart, htake', indent, hlen]
    generalize u ++ b ++ m = s
    by_cases hown : strip (lastLine s) = []
    · simp [hown]
    · simp [hown]

/-- The line break behind the begin marker is the front of the content. -/
theorem taken_prefix (u m : Text) : taken u m <+: m := by
  rw [taken]
  split_ifs
  · exact lineBreak_isPrefix m
  · exact List.nil_prefix

theorem indent_suffix (s : Text) : indent s <:+ s := by
  rw [indent]
  split_ifs
  · exact lastLine_suffix s
  · exact List.nil_suffix

/-- A block is replaced behind the line break of the begin marker and in front of the indentation of
the end marker. -/
theorem replaceBlock_of_marked (he : IsMarker e) (h : Marked b e content u m v) (new : Text) :
    replaceBlock content b e new = some (u ++ b ++
      (taken u m ++ withNewline new ++ (indent (u ++ b ++ m) ++ (e ++ v)))) := by
  obtain ⟨pos, hpos, hbegin, hend⟩ := findMarkers_of_marked he h
  obtain ⟨m', hm'⟩ := taken_prefix u m
  obtain ⟨s, hs⟩ := indent_suffix (u ++ b ++ m)
  have htake : content.take pos.beginEnd = u ++ b ++ taken u m := by
    have htext : content = u ++ b ++ taken u m ++ (m' ++ e ++ v) := by
      rw [h.text]
      conv_lhs => rw [← hm']
      simp only [List.append_assoc]
    rw [hbegin, htext]
    exact List.take_left
  have hdrop : content.drop pos.endStart = indent (u ++ b ++ m) ++ (e ++ v) := by
    have htext : content = s ++ (indent (u ++ b ++ m) ++ (e ++ v)) := by
      rw [h.text, ← List.append_assoc s, hs]
      simp only [List.append_assoc]
    have hlen : (u ++ b ++ m).length - (indent (u ++ b ++ m)).length = s.length := by
      have := congrArg List.length hs
      rw [List.length_append] at this
      omega
    rw [hend, hlen, htext]
    exact List.drop_left
  rw [replaceBlock, hpos, Option.map_some, htake, hdrop]
  simp only [List.append_assoc]

/-- The block that is read is the content between the markers. -/
theorem extractBlock_of_marked (he : IsMarker e) (h : Marked b e content u m v) :
    (extractBlock content b e).map BlockResult.block = some
      (((u ++ b ++ m).take ((u ++ b ++ m).length - (indent (u ++ b ++ m)).length)).drop
        (u ++ b ++ taken u m).length) := by
  obtain ⟨pos, hpos, hbegin, hend⟩ := findMarkers_of_marked he h
  have htext : content = (u ++ b ++ m) ++ (e ++ v) := by
    rw [h.text]
    simp only [List.append_assoc]
  rw [extractBlock, hpos, Option.map_some, Option.map_some, hbegin, hend, htext,
    List.take_append_of_le_length (Nat.sub_le _ _)]

/-! ### Reading a replaced block -/

/-- A text that is given a line feed is empty or ends in one. -/
theorem withNewline_cases (t : Text) : withNewline t = [] ∨ (withNewline t).getLast? = some '\n' := by
  rw [withNewline]
  split_ifs with h
  · exact .inr (by simp)
  · rcases not_and_or.mp h with h | h
    · exact .inl (not_not.mp h)
    · exact .inr (not_not.mp h)

theorem withNewline_eq_nil_iff {t : Text} : withNewline t = [] ↔ t = [] := by
  rw [withNewline]
  split_ifs with h
  · simpa using h.1
  · rfl

/-- A marker is not in the line feed that ends a block. -/
theorem cutAt_withNewline (he : IsMarker e) (h : contains e new = false) :
    cutAt e (withNewline new) = none := by
  have hnew : cutAt e new = none := by simpa [contains] using h
  rw [withNewline]
  split_ifs
  · have hnl : cutAt e ['\n'] = none := by simpa [contains] using he.not_in_newline
    have hstraddle : NoStraddle e new ['\n'] :=
      noStraddle_right (fun hmem => he.unbroken.1 (List.mem_of_mem_tail hmem)) rfl
    rw [cutAt_append_right hstraddle hnew, hnl]
    rfl
  · exact hnew

/-- A marker does not start in a line break. -/
theorem cutAt_lineBreak_append (he : IsMarker e) {k : Text} (hk : ∀ c ∈ k, c = '\r' ∨ c = '\n')
    (t : Text) : cutAt e (k ++ t) = (cutAt e t).map fun x => (k ++ x.1, x.2) := by
  have hnot : ∀ c ∈ k, c ∉ e := fun c hc hce => by
    rcases hk c hc with rfl | rfl
    · exact he.unbroken.2 hce
    · exact he.unbroken.1 hce
  refine cutAt_append_right ?_ ?_
  · rintro v w hv - rfl hsuff -
    obtain ⟨c, v, rfl⟩ := List.exists_cons_of_ne_nil hv
    exact hnot c (hsuff.subset List.mem_cons_self) List.mem_cons_self
  · rw [cutAt_eq_none_iff]
    intro hwithin
    obtain ⟨c, e', rfl⟩ := List.exists_cons_of_ne_nil he.ne_nil
    exact hnot c (hwithin.subset List.mem_cons_self) List.mem_cons_self

theorem mem_taken {c : Char} (h : c ∈ taken u m) : c = '\r' ∨ c = '\n' := by
  rw [taken] at h
  split_ifs at h
  · rcases List.mem_append.mp h with h | h
    · exact .inl (eq_of_mem_frontChar h)
    · exact .inr (eq_of_mem_frontChar h)
  · cases h

/-- In a content with a replaced block the same begin marker is found, and the end marker at the
place where the indentation first lets it be. -/
theorem exists_reread (he : IsMarker e) (h : Marked b e content u m v)
    (hnew : contains e new = false) (w : Text) : ∃ w₀ y, w₀ <+: w ∧ w ++ e = w₀ ++ e ++ y ∧
      Marked b e (u ++ b ++ (taken u m ++ withNewline new ++ (w ++ (e ++ v)))) u
        (taken u m ++ withNewline new ++ w₀) (y ++ v) := by
  obtain ⟨⟨w₀, y⟩, hcut, hlen⟩ := exists_cutAt_append e w []
  rw [List.append_nil] at hcut
  have hw := eq_of_cutAt hcut
  dsimp only at hw hlen
  have hfirst : cutAt e (w₀ ++ e) = some (w₀, []) := by
    rw [hw] at hcut
    exact (cutAt_append_self y).mp hcut
  have hpre : w₀ <+: w := by
    have hwhole : w₀ <+: w ++ e := by
      rw [hw, List.append_assoc]
      exact List.prefix_append ..
    exact List.prefix_of_prefix_length_le hwhole (List.prefix_append w e) hlen
  refine ⟨w₀, y, hpre, hw, ?_, h.first, ?_⟩
  · rw [← List.append_assoc w, hw]
    simp only [List.append_assoc]
  · have hbody := cutAt_append_right
      (he.noStraddle (withNewline_cases new) (w₀ ++ e)) (cutAt_withNewline he hnew)
    rw [List.append_assoc, List.append_assoc, cutAt_lineBreak_append he (fun c hc => mem_taken hc),
      hbody, hfirst]
    simp

/-! ### When the markers are read again -/

/-- Only white space strips to nothing. -/
theorem strip_eq_nil_iff {t : Text} : strip t = [] ↔ ∀ c ∈ t, isSpace c = true := by
  rw [strip, ← lstrip_rstrip, lstrip_eq_nil_iff]
  constructor
  · intro h c hc
    by_contra hspace
    obtain ⟨s, r, rfl⟩ := List.append_of_mem hc
    rw [rstrip_append_cons (by simpa using hspace)] at h
    exact hspace (h c (by simp))
  · exact fun h c hc => h c ((List.rdropWhile_prefix isSpace t).subset hc)

/-- An indent is white space. -/
theorem isSpace_of_mem_indent {s : Text} {c : Char} (h : c ∈ indent s) : isSpace c = true := by
  rw [indent] at h
  split_ifs at h with hblank
  · exact strip_eq_nil_iff.mp hblank c h
  · cases h

/-- An indent is on one line. -/
theorem newline_not_mem_indent (s : Text) : '\n' ∉ indent s := by
  rw [indent]
  split_ifs
  · exact newline_not_mem_lastLine s
  · exact List.not_mem_nil

/-- A line break is read once. -/
theorem lineBreak_idem (t : Text) : lineBreak (lineBreak t) = lineBreak t := by
  rw [lineBreak.eq_1 t, frontChar, frontChar]
  split_ifs <;> rfl

theorem newline_not_mem_taken (h : (taken u m).getLast? ≠ some '\n') : '\n' ∉ taken u m := by
  intro hmem
  rw [taken] at h hmem
  split_ifs at h hmem
  · rw [lineBreak] at h hmem
    rcases List.mem_append.mp hmem with hmem | hmem
    · exact absurd (eq_of_mem_frontChar hmem) (by decide)
    · generalize frontChar '\r' m = r at h hmem
      rw [frontChar] at h hmem
      split_ifs at hmem with hnl
      · rw [if_pos hnl] at h
        exact h (by simp)
      · cases hmem
  · cases hmem

/-- The markers that a call leaves are read as they were read before it. Nothing goes wrong behind a
begin marker whose line ends. Otherwise a new block must not add to the line break, and an empty one
must leave the end marker at the place where it is, which it does when no indentation stays in front
of it and there is something in front of it that is not white space. -/
def Rereads (b u m new : Text) : Prop :=
  (taken u m).getLast? = some '\n' ∨
    if new = [] then strip (lastLine u ++ b) ≠ [] ∧ indent (u ++ b ++ m) = []
    else strip (lastLine u) = [] → lineBreak (taken u m ++ withNewline new) = taken u m

/-- Behind a line feed the indentation is read again. -/
private theorem indent_reread {s w : Text} (hs : s.getLast? = some '\n') (hnl : '\n' ∉ w)
    (hblank : ∀ c ∈ w, isSpace c = true) : indent (s ++ w) = w := by
  have hlast : lastLine (s ++ w) = w := by
    rw [lastLine_append_of_not_mem s hnl, lastLine_of_getLast? hs, List.nil_append]
  rw [indent, hlast, if_pos (strip_eq_nil_iff.mpr hblank)]

/-- An end marker does not start in the indentation that stays in front of it, unless the begin
marker is white space on the same line. -/
private theorem indent_eq_nil (h : Marked b e content u m v) (hb : IsMarker b)
    (hne : strip (lastLine u ++ b) ≠ []) {y : Text} (hw : indent (u ++ b ++ m) ++ e = e ++ y) :
    indent (u ++ b ++ m) = [] := by
  by_contra hindent
  by_cases hm : '\n' ∈ m
  · have hsuff : indent (u ++ b ++ m) <:+ m := by
      rw [indent, lastLine_append_of_mem _ hm]
      split_ifs
      · exact lastLine_suffix m
      · exact List.nil_suffix
    obtain ⟨x, hx⟩ := hsuff
    obtain ⟨z, hz, hlen⟩ := exists_cutAt_append e x y
    have htext : m ++ e = x ++ e ++ y := by
      conv_lhs => rw [← hx]
      rw [List.append_assoc, hw, List.append_assoc]
    rw [← htext, h.next] at hz
    rw [← Option.some.inj hz] at hlen
    have := congrArg List.length hx
    rw [List.length_append] at this
    have hpos := List.length_pos_iff.mpr hindent
    dsimp only at hlen
    omega
  · rw [indent] at hindent
    split_ifs at hindent with hblank
    · rw [lastLine_append_of_not_mem _ hm, lastLine_append_of_not_mem _ hb.unbroken.1,
        strip_eq_nil_iff] at hblank
      exact hne (strip_eq_nil_iff.mpr fun c hc => hblank c (List.mem_append_left m hc))
    · exact hindent rfl

/-- The new content stands between the same line break and indent if and only if it rereads. -/
theorem same_iff_rereads (hb : IsMarker b) (h : Marked b e content u m v) {w₀ y : Text}
    (hpre : w₀ <+: indent (u ++ b ++ m)) (hw : indent (u ++ b ++ m) ++ e = w₀ ++ e ++ y) :
    taken u (taken u m ++ withNewline new ++ w₀) = taken u m ∧
      indent (u ++ b ++ (taken u m ++ withNewline new ++ w₀)) = w₀ ↔ Rereads b u m new := by
  have hnl : '\n' ∉ w₀ := fun hmem => newline_not_mem_indent _ (hpre.subset hmem)
  have hblank : ∀ c ∈ w₀, isSpace c = true := fun c hc => isSpace_of_mem_indent (hpre.subset hc)
  have htaken : ∀ t, taken u (taken u m ++ t) = taken u m ↔
      (strip (lastLine u) = [] → lineBreak (taken u m ++ t) = taken u m) := by
    intro t
    rw [taken, taken]
    split_ifs with hown <;> simp [hown]
  -- taking the line break twice takes nothing more
  have hidem : strip (lastLine u) = [] → lineBreak (taken u m) = taken u m := by
    intro hown
    rw [taken, if_pos hown, lineBreak_idem]
  -- behind a whole line the indent is read again as it was written
  by_cases hend : (taken u m).getLast? = some '\n'
  · refine iff_of_true ⟨?_, ?_⟩ (.inl hend)
    · rw [List.append_assoc, htaken]
      intro hown
      rw [lineBreak_append (.inl hend), hidem hown]
    · rw [← List.append_assoc]
      refine indent_reread ?_ hnl hblank
      rcases withNewline_cases new with hnew | hnew
      · rw [hnew, List.append_nil, List.getLast?_append, hend]
        rfl
      · rw [List.getLast?_append, List.getLast?_append, hnew]
        rfl
  · rw [Rereads, or_iff_right hend]
    -- without new text the marker's own line goes on behind it
    by_cases hnew : new = []
    · have hbody : withNewline new = [] := withNewline_eq_nil_iff.mpr hnew
      rw [if_pos hnew, hbody, List.append_nil]
      have hlast : lastLine (u ++ b ++ (taken u m ++ w₀)) =
          lastLine u ++ b ++ (taken u m ++ w₀) := by
        rw [lastLine_append_of_not_mem, lastLine_append_of_not_mem _ hb.unbroken.1]
        rw [List.mem_append]
        exact not_or.mpr ⟨newline_not_mem_taken hend, hnl⟩
      have hstrip : strip (lastLine u ++ b ++ (taken u m ++ w₀)) = strip (lastLine u ++ b) := by
        refine strip_append_right fun c hc => ?_
        rcases List.mem_append.mp hc with hc | hc
        · rcases mem_taken hc with rfl | rfl <;> decide
        · exact hblank c hc
      rw [indent, hlast, hstrip]
      by_cases hside : strip (lastLine u ++ b) = []
      · rw [if_pos hside]
        refine iff_of_false (fun hsame => ?_) fun hside' => hside'.1 hside
        have hlen := congrArg List.length hsame.2
        have hpos := List.length_pos_iff.mpr hb.ne_nil
        simp only [List.length_append] at hlen
        omega
      · rw [if_neg hside]
        constructor
        · rintro ⟨-, hw₀⟩
          rw [← hw₀, List.nil_append] at hw
          exact ⟨hside, indent_eq_nil h hb hside hw⟩
        · rintro ⟨-, hindent⟩
          rw [hindent, List.prefix_nil] at hpre
          rw [hpre, htaken, List.append_nil]
          exact ⟨hidem, rfl⟩
    -- a new body ends its line, so the indent is read again
    · have hbody := (withNewline_cases new).resolve_left fun hnil =>
        hnew (withNewline_eq_nil_iff.mp hnil)
      rw [if_neg hnew, List.append_assoc, htaken, ← List.append_assoc]
      have hends : (taken u m ++ withNewline new).getLast? = some '\n' := by
        rw [List.getLast?_append, hbody]
        rfl
      rw [lineBreak_append (.inl hends), ← List.append_assoc, indent_reread ?_ hnl hblank]
      · exact and_iff_left rfl
      · rw [List.getLast?_append, hends]
        rfl

/-! ### Calls -/

variable {insertAt : InsertAt}

/-- A block that is there is replaced in place. -/
theorem insertOrReplaceBlock_of_marked (he : IsMarker e) (h : Marked b e content u m v)
    (new : Text) (insertAt : InsertAt) :
    insertOrReplaceBlock content b e new insertAt =
      u ++ b ++ (taken u m ++ withNewline new ++ (indent (u ++ b ++ m) ++ (e ++ v))) := by
  rw [insertOrReplaceBlock, replaceBlock_of_marked he h new]

/-- What stands outside of a replaced block stays. -/
theorem outside_of_marked (he : IsMarker e) (h : Marked b e content u m v) (new : Text) :
    (outside content b e).Sublist
      (insertOrReplaceBlock content b e new insertAt) := by
  obtain ⟨pos, hpos, -, -⟩ := findMarkers_of_marked he h
  rw [outside, hpos, insertOrReplaceBlock, replaceBlock, hpos]
  dsimp only [Option.map_some]
  rw [List.append_assoc]
  refine (List.Sublist.refl _).append (List.Sublist.trans ?_ (List.sublist_append_right ..))
  rw [← Nat.add_sub_of_le (le_max_right pos.beginEnd pos.endStart), ← List.drop_drop]
  exact List.drop_sublist ..

private theorem drop_take_append (s t w : Text) :
    ((s ++ t ++ w).take ((s ++ t ++ w).length - w.length)).drop s.length = t := by
  have hlen : (s ++ t ++ w).length - w.length = (s ++ t).length := by
    rw [List.length_append, Nat.add_sub_cancel]
  rw [hlen, List.take_left, List.drop_left]

/-- Markers that are read as before make the call lossless. -/
private theorem lossless_of_same (he : IsMarker e) (h : Marked b e content u m v)
    {w₀ y : Text}
    (hw : indent (u ++ b ++ m) ++ e = w₀ ++ e ++ y)
    (hr : Marked b e (u ++ b ++ (taken u m ++ withNewline new ++
      (indent (u ++ b ++ m) ++ (e ++ v)))) u (taken u m ++ withNewline new ++ w₀) (y ++ v))
    (hsame : taken u (taken u m ++ withNewline new ++ w₀) = taken u m ∧
      indent (u ++ b ++ (taken u m ++ withNewline new ++ w₀)) = w₀) :
    Lossless content b e new insertAt := by
  have hlater : ∀ n, insertOrReplaceBlock (insertOrReplaceBlock content b e new insertAt) b e n
      insertAt = insertOrReplaceBlock content b e n insertAt := by
    intro n
    rw [insertOrReplaceBlock_of_marked he h, insertOrReplaceBlock_of_marked he hr,
      insertOrReplaceBlock_of_marked he h, hsame.1, hsame.2, ← List.append_assoc w₀,
      ← List.append_assoc (w₀ ++ e), ← hw]
    simp only [List.append_assoc]
  refine ⟨?_, hlater new, fun n _ => hlater n, outside_of_marked he h new⟩
  rw [insertOrReplaceBlock_of_marked he h, extractBlock_of_marked he hr, hsame.1, hsame.2]
  have hsplit : u ++ b ++ (taken u m ++ withNewline new ++ w₀) =
      (u ++ b ++ taken u m) ++ withNewline new ++ w₀ := by
    simp only [List.append_assoc]
  rw [hsplit, drop_take_append]

/-- A found block is replaced without loss exactly when its markers are read again. -/
theorem lossless_iff_rereads (hm : Markers b e) (h : Marked b e content u m v)
    (hnew : Unmarked b e new) : Lossless content b e new insertAt ↔ Rereads b u m new := by
  obtain ⟨w₀, y, hpre, hw, hr⟩ := exists_reread hm.end_ h hnew.2 (indent (u ++ b ++ m))
  rw [← same_iff_rereads hm.begin_ h hpre hw]
  constructor
  · intro hl
    have hlater := hl.later ['\n'] ⟨hm.begin_.not_in_newline, hm.end_.not_in_newline⟩
    have hfeed : withNewline ['\n'] = ['\n'] := rfl
    rw [insertOrReplaceBlock_of_marked hm.end_ h, insertOrReplaceBlock_of_marked hm.end_ hr,
      insertOrReplaceBlock_of_marked hm.end_ h, hfeed, ← List.append_assoc (indent (u ++ b ++ m)),
      hw] at hlater
    generalize taken u (taken u m ++ withNewline new ++ w₀) = k at hlater ⊢
    have hnl := newline_not_mem_indent (u ++ b ++ (taken u m ++ withNewline new ++ w₀))
    generalize indent (u ++ b ++ (taken u m ++ withNewline new ++ w₀)) = w at hlater hnl ⊢
    have hnl₀ : '\n' ∉ w₀ := fun hmem => newline_not_mem_indent _ (hpre.subset hmem)
    have hcut : k ++ ['\n'] ++ w = taken u m ++ ['\n'] ++ w₀ := by
      refine @List.append_cancel_right _ _ (e ++ (y ++ v)) _ ?_
      simpa only [List.append_assoc, List.append_cancel_left_eq] using hlater
    -- the lines behind the last line feed are the two indentations
    have hlast := congrArg lastLine hcut
    rw [lastLine_append_of_not_mem _ hnl, lastLine_append_of_not_mem _ hnl₀,
      lastLine_of_getLast? (by simp), lastLine_of_getLast? (by simp)] at hlast
    have hwe : w = w₀ := hlast
    rw [hwe] at hcut
    exact ⟨List.append_cancel_right (List.append_cancel_right hcut), hwe⟩
  · exact lossless_of_same hm.end_ h hw hr

/-! ### Inserted blocks -/

private theorem next_fresh (he : IsMarker e) (hnew : contains e new = false) :
    cutAt e ('\n' :: withNewline new ++ e) = some ('\n' :: withNewline new, []) := by
  have hbody := cutAt_append_right (he.noStraddle (withNewline_cases new) e)
    (cutAt_withNewline he hnew)
  have hfeed := cutAt_lineBreak_append he (k := ['\n']) (by simp) (withNewline new ++ e)
  rw [hbody, he.cutAt_self] at hfeed
  simpa using hfeed

/-- A block on lines of its own. -/
private theorem marked_fresh (hm : Markers b e) (hfirst : cutAt b (u ++ b) = some (u, []))
    (hnew : contains e new = false) (v : Text) :
    Marked b e (u ++ b ++ ('\n' :: withNewline new ++ e ++ v)) u ('\n' :: withNewline new) v :=
  ⟨rfl, hfirst, next_fresh hm.end_ hnew⟩

private theorem fresh_lines (b new : Text) (hu : lastLine u = []) :
    taken u ('\n' :: withNewline new) = ['\n'] ∧ indent (u ++ b ++ '\n' :: withNewline new) = [] := by
  constructor
  · rw [taken, hu, if_pos strip_nil]
    rfl
  · have hlast : lastLine (u ++ b ++ '\n' :: withNewline new) = [] := by
      refine lastLine_of_getLast? ?_
      rcases withNewline_cases new with h | h
      · rw [h]
        simp
      · rw [List.getLast?_append, List.getLast?_cons, h]
        rfl
    rw [indent, hlast]
    exact ite_self _

/-- An inserted block that is found on lines of its own is lossless. -/
private theorem lossless_fresh (hm : Markers b e) (hfirst : cutAt b (u ++ b) = some (u, []))
    (hu : lastLine u = []) (hnew : Unmarked b e new) (hnone : findMarkers content b e = none)
    (hsub : content.Sublist (u ++ b ++ ('\n' :: withNewline new ++ e ++ v)))
    (hr : ∀ n, insertOrReplaceBlock content b e n insertAt =
      u ++ b ++ ('\n' :: withNewline n ++ e ++ v)) : Lossless content b e new insertAt := by
  have hmarked := marked_fresh hm hfirst hnew.2 v
  obtain ⟨htaken, hindent⟩ := fresh_lines b new hu
  have hlater : ∀ n, insertOrReplaceBlock (insertOrReplaceBlock content b e new insertAt) b e n
      insertAt = insertOrReplaceBlock content b e n insertAt := by
    intro n
    rw [hr new, insertOrReplaceBlock_of_marked hm.end_ hmarked, htaken, hindent, hr n]
    simp
  refine ⟨?_, hlater new, fun n _ => hlater n, ?_⟩
  · rw [hr new, extractBlock_of_marked hm.end_ hmarked, htaken, hindent]
    have hsplit : u ++ b ++ '\n' :: withNewline new =
        (u ++ b ++ ['\n']) ++ withNewline new ++ [] := by simp
    rw [hsplit, drop_take_append]
  · rw [outside, hnone, hr new]
    exact hsub

/-- The line feed between a content and a block that is added to it. -/
def separator (content : Text) : Text :=
  if content ≠ [] ∧ content.getLast? ≠ some '\n' then ['\n'] else []

/-- With the separator a content is empty or ends in a line feed. -/
theorem separated (content : Text) : content ++ separator content = [] ∨
    (content ++ separator content).getLast? = some '\n' := by
  rw [separator]
  split_ifs with h
  · exact .inr (by simp)
  · rw [List.append_nil]
    exact (not_and_or.mp h).imp not_not.mp not_not.mp

/-- Without a block, one is put in front. -/
theorem insertOrReplaceBlock_start (h : findMarkers content b e = none) (new : Text) :
    insertOrReplaceBlock content b e new .start =
      [] ++ b ++ ('\n' :: withNewline new ++ e ++ '\n' :: content) := by
  rw [insertOrReplaceBlock, replaceBlock, h]
  simp

/-- Without a block, one is put behind, after the separator. -/
theorem insertOrReplaceBlock_end (h : findMarkers content b e = none) (new : Text) :
    insertOrReplaceBlock content b e new .end_ =
      content ++ separator content ++ b ++ ('\n' :: withNewline new ++ e ++ ['\n']) := by
  rw [insertOrReplaceBlock, replaceBlock, h]
  simp [separator]

/-- A marker that is not in a text is not in it with the separator. -/
theorem cutAt_separated (hb : IsMarker b) {x : Text} (h : cutAt b x = none) (content : Text) :
    cutAt b (x ++ separator content) = none := by
  rw [separator]
  split_ifs
  · have hnl : cutAt b ['\n'] = none := by simpa [contains] using hb.not_in_newline
    have hstraddle : NoStraddle b x ['\n'] :=
      noStraddle_right (fun hmem => hb.unbroken.1 (List.mem_of_mem_tail hmem)) rfl
    rw [cutAt_append_right hstraddle h, hnl]
    rfl
  · rwa [List.append_nil]

/-- What stands between a marker in the content and the added block ends in a line feed. -/
private theorem getLast?_behind (hb : IsMarker b) {x : Text} (htext : content = u ++ b ++ x) :
    (x ++ separator content).getLast? = some '\n' := by
  have hsep := separated content
  generalize separator content = sep at hsep ⊢
  rw [htext, List.append_assoc] at hsep
  rcases List.eq_nil_or_concat' (x ++ sep) with hnil | ⟨t, c, hcons⟩
  · rw [hnil, List.append_nil] at hsep
    rcases hsep with hsep | hsep
    · exact absurd (List.append_eq_nil_iff.mp hsep).2 hb.ne_nil
    · rw [List.getLast?_append_of_ne_nil u hb.ne_nil] at hsep
      exact absurd (List.mem_of_getLast? hsep) hb.unbroken.1
  · rw [hcons] at hsep ⊢
    rcases hsep with hsep | hsep
    · simp at hsep
    · rwa [List.getLast?_append_of_ne_nil _ (by simp)] at hsep

/-- Behind a stray begin marker a block that is added at the end is read back with the new begin
marker in it. -/
private theorem not_lossless_stray (hm : Markers b e) {x : Text}
    (hcut : cutAt b content = some (u, x)) (hx : cutAt e x = none) (hnew : Unmarked b e new)
    (hnone : findMarkers content b e = none) : ¬ Lossless content b e new .end_ := by
  have htext : content = u ++ b ++ x := eq_of_cutAt hcut
  have hfirst : cutAt b (u ++ b) = some (u, []) := by
    rw [htext] at hcut
    exact (cutAt_append_self x).mp hcut
  have hlast := getLast?_behind hm.begin_ htext
  have hfront := cutAt_separated hm.end_ hx content
  generalize hsep : separator content = sep at hlast hfront
  -- the stray begin marker meets the end marker of the new block
  have hnext : cutAt e (x ++ sep ++ (b ++ '\n' :: withNewline new) ++ e) =
      some (x ++ sep ++ (b ++ '\n' :: withNewline new), []) := by
    have hbegin : cutAt e b = none := by simpa [contains] using hm.end_not_in_begin
    have hstraddle : NoStraddle e b ('\n' :: withNewline new ++ e) :=
      noStraddle_right (fun hmem => hm.end_.unbroken.1 (List.mem_of_mem_tail hmem)) rfl
    rw [List.append_assoc, cutAt_append_right (hm.end_.noStraddle (.inr hlast) _) hfront,
      List.append_assoc, cutAt_append_right hstraddle hbegin, next_fresh hm.end_ hnew.2]
    simp
  have hr : Marked b e (insertOrReplaceBlock content b e new .end_) u
      (x ++ sep ++ (b ++ '\n' :: withNewline new)) ['\n'] := by
    refine ⟨?_, hfirst, hnext⟩
    rw [insertOrReplaceBlock_end hnone, hsep, htext]
    simp
  have hindent : indent (u ++ b ++ (x ++ sep ++ (b ++ '\n' :: withNewline new))) = [] := by
    have hlines : lastLine (u ++ b ++ (x ++ sep ++ (b ++ '\n' :: withNewline new))) = [] := by
      refine lastLine_of_getLast? ?_
      rcases withNewline_cases new with h | h
      · rw [h]
        simp
      · simp [List.getLast?_append, List.getLast?_cons, h]
    rw [indent, hlines]
    exact ite_self _
  -- so all of the old text behind it would be read back
  have htaken : (taken u (x ++ sep ++ (b ++ '\n' :: withNewline new))).length ≤
      (x ++ sep).length := by
    rw [taken]
    split_ifs
    · rw [lineBreak_append (.inl hlast)]
      exact (lineBreak_isPrefix _).length_le
    · exact Nat.zero_le _
  intro hl
  have hread := hl.readBack
  rw [extractBlock_of_marked hm.end_ hr, hindent] at hread
  have hlen := congrArg List.length (Option.some.inj hread)
  have hpos := List.length_pos_iff.mpr hm.begin_.ne_nil
  simp only [List.length_drop, List.length_take, List.length_append, List.length_cons,
    List.length_nil] at hlen htaken
  omega

private theorem lossless_start (hm : Markers b e) (hnew : Unmarked b e new)
    (hnone : findMarkers content b e = none) : Lossless content b e new .start := by
  refine lossless_fresh (u := []) (v := '\n' :: content) hm ?_ rfl hnew hnone ?_
    (insertOrReplaceBlock_start hnone)
  · exact hm.begin_.cutAt_self
  · rw [← List.append_assoc]
    exact (List.sublist_cons_self ..).trans (List.sublist_append_right ..)

/-- What a call can be trusted with: a content without the begin marker, a stray begin marker behind
the block that is inserted, or a block whose markers are read again. -/
def Repeatable (content beginMarker endMarker new : Text) (insertAt : InsertAt) : Prop :=
  match cutAt beginMarker content with
  | none => True
  | some (u, rest) =>
    match cutAt endMarker rest with
    | none => insertAt = .start
    | some (m, _) => Rereads beginMarker u m new

end

/-- A call is lossless exactly when it is repeatable. -/
theorem lossless_iff {content beginMarker endMarker new : Text} {insertAt : InsertAt}
    (hm : Markers beginMarker endMarker) (hnew : Unmarked beginMarker endMarker new) :
    Lossless content beginMarker endMarker new insertAt ↔
      Repeatable content beginMarker endMarker new insertAt := by
  rw [Repeatable]
  cases hcut : cutAt beginMarker content with
  | none =>
    have hnone : findMarkers content beginMarker endMarker = none := by rw [findMarkers, hcut]; rfl
    refine iff_of_true ?_ trivial
    -- no begin marker: the block is fresh wherever it goes
    cases insertAt with
    | start => exact lossless_start hm hnew hnone
    | end_ =>
      have hbefore := cutAt_separated hm.begin_ hcut content
      have hseparated := separated content
      refine lossless_fresh (u := content ++ separator content) (v := ['\n']) hm ?_ ?_ hnew hnone ?_
        (insertOrReplaceBlock_end hnone)
      · rw [cutAt_append_right (hm.begin_.noStraddle hseparated _) hbefore, hm.begin_.cutAt_self]
        simp
      · rcases hseparated with h | h
        · rw [h]
          rfl
        · exact lastLine_of_getLast? h
      · rw [List.append_assoc, List.append_assoc]
        exact List.sublist_append_left ..
  | some x =>
    obtain ⟨u, rest⟩ := x
    dsimp only
    cases hnext : cutAt endMarker rest with
    | none =>
      have hnone : findMarkers content beginMarker endMarker = none := by
        rw [findMarkers, hcut, Option.bind_some, hnext]
        rfl
      -- a begin marker without its end: a block appended behind it would be read from there
      cases insertAt with
      | start => exact iff_of_true (lossless_start hm hnew hnone) rfl
      | end_ => exact iff_of_false (not_lossless_stray hm hcut hnext hnew hnone) (by simp)
    | some y =>
      obtain ⟨m, v⟩ := y
      have hrest : rest = m ++ endMarker ++ v := eq_of_cutAt hnext
      have htext : content = u ++ beginMarker ++ rest := eq_of_cutAt hcut
      refine lossless_iff_rereads (v := v) hm ⟨by rw [htext, hrest], ?_, ?_⟩ hnew
      · rw [htext] at hcut
        exact (cutAt_append_self rest).mp hcut
      · rw [hrest] at hnext
        exact (cutAt_append_self v).mp hnext

/-! ### Two contents -/

private theorem markers_be : Markers ['<', 'b', '>'] ['<', 'e', '>'] :=
  ⟨⟨by decide, by decide⟩, ⟨by decide, by decide⟩, by decide, by decide⟩

private theorem unmarked_x : Unmarked ['<', 'b', '>'] ['<', 'e', '>'] ['x'] :=
  ⟨by decide, by decide⟩

/-- Markers on lines of their own. -/
def ownLines : Text := ['<', 'b', '>', '\n', 'o', '\n', '<', 'e', '>', '\n']

/-- Markers on lines of their own lose nothing. -/
theorem lossless_ownLines :
    Lossless ownLines ['<', 'b', '>'] ['<', 'e', '>'] ['x'] .end_ := by
  refine (lossless_iff markers_be unmarked_x).mpr ?_
  have hcut : cutAt ['<', 'b', '>'] ownLines = some ([], ownLines.drop 3) := by decide
  have hnext : cutAt ['<', 'e', '>'] (ownLines.drop 3) = some (['\n', 'o', '\n'], ['\n']) := by
    decide
  rw [Repeatable, hcut]
  dsimp only
  rw [hnext]
  exact .inl (by decide)

/-- A content with a begin marker and no end marker. -/
def strayBegin : Text := ['<', 'b', '>', ' ', 'o', '\n']

/-- The first call adds a block at the end, and the same call again deletes the text between the
stray marker and the end of the block. -/
theorem stray_begin_deletes :
    Markers ['<', 'b', '>'] ['<', 'e', '>'] ∧ Unmarked ['<', 'b', '>'] ['<', 'e', '>'] ['x'] ∧
      insertOrReplaceBlock (insertOrReplaceBlock strayBegin ['<', 'b', '>'] ['<', 'e', '>'] ['x']
        .end_) ['<', 'b', '>'] ['<', 'e', '>'] ['x'] .end_ =
        ['<', 'b', '>', 'x', '\n', '<', 'e', '>', '\n'] ∧
      ¬ Lossless strayBegin ['<', 'b', '>'] ['<', 'e', '>'] ['x'] .end_ := by
  refine ⟨markers_be, unmarked_x, by decide, fun h => ?_⟩
  have hagain := h.again
  revert hagain
  decide

end SentinelBlocks

end CoordinatorCore
