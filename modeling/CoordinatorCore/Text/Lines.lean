import CoordinatorCore.Text.Basic

/-!
# Lines with their ends

`str.splitlines`, which ends a line at more characters than the line feed: a carriage return, the
pair of both, and the separators of the Unicode tables. `splitlinesKeep` keeps the ends, so that
its lines joined are the text again (`flatten_splitlinesKeep`).
-/

namespace CoordinatorCore

namespace Text

/-- The characters at which `str.splitlines` ends a line. -/
def isLineBreak (c : Char) : Bool :=
  c == '\n' || c == '\r' || c == Char.ofNat 0x0b || c == Char.ofNat 0x0c ||
    c == Char.ofNat 0x1c || c == Char.ofNat 0x1d || c == Char.ofNat 0x1e ||
    c == Char.ofNat 0x85 || c == Char.ofNat 0x2028 || c == Char.ofNat 0x2029

/-- `s.splitlines(keepends=True)`. -/
def splitlinesKeep : Text → List Text
  | [] => []
  | '\r' :: '\n' :: s => ['\r', '\n'] :: splitlinesKeep s
  | c :: s =>
    if isLineBreak c then [c] :: splitlinesKeep s
    else
      match splitlinesKeep s with
      | [] => [[c]]
      | l :: ls => (c :: l) :: ls

/-- A line without its end. -/
def dropLineEnd (l : Text) : Text :=
  if ['\r', '\n'] <:+ l then l.dropLast.dropLast
  else match l.getLast? with
    | some c => if isLineBreak c then l.dropLast else l
    | none => l

/-- `s.splitlines()`. -/
def splitlines (s : Text) : List Text := (splitlinesKeep s).map dropLineEnd

/-- `s.rstrip("\r\n")`. -/
def rstripNewline (s : Text) : Text := s.rdropWhile fun c => c == '\r' || c == '\n'

/-- `s.endswith("\n")`. -/
def endsWithNewline (s : Text) : Bool := s.getLast? == some '\n'

/-- `s.replace("\r\n", "\n")`. -/
def crlfToLf : Text → Text
  | [] => []
  | '\r' :: '\n' :: s => '\n' :: crlfToLf s
  | c :: s => c :: crlfToLf s

/-- The lines joined are the text. -/
@[simp] theorem flatten_splitlinesKeep (s : Text) : (splitlinesKeep s).flatten = s := by
  fun_induction splitlinesKeep s with
  | case1 => rfl
  | case2 s ih => simp [ih]
  | case3 c s _ h ih => simp [ih]
  | case4 c s _ h hnil ih => simpa [hnil] using ih
  | case5 c s _ h l ls hls ih => simpa [hls] using ih

/-- A line is a text without line breaks and a line end. -/
theorem exists_line_end {s l : Text} (h : l ∈ splitlinesKeep s) :
    ∃ b e, l = b ++ e ∧ (∀ c ∈ b, isLineBreak c = false) ∧
      (e = [] ∨ e = ['\r', '\n'] ∨ ∃ c, e = [c] ∧ isLineBreak c = true) := by
  revert l
  fun_induction splitlinesKeep s with
  | case1 =>
    intro l h
    cases h
  | case2 s ih =>
    intro l h
    rcases List.mem_cons.mp h with rfl | h
    · exact ⟨[], _, rfl, by simp, .inr (.inl rfl)⟩
    · exact ih h
  | case3 c s _ hc ih =>
    intro l h
    rcases List.mem_cons.mp h with rfl | h
    · exact ⟨[], _, rfl, by simp, .inr (.inr ⟨c, rfl, hc⟩)⟩
    · exact ih h
  | case4 c s _ hc hnil ih =>
    intro l h
    rw [List.mem_singleton.mp h]
    exact ⟨[c], [], rfl, by simpa using hc, .inl rfl⟩
  | case5 c s _ hc l' ls hls ih =>
    intro l h
    rcases List.mem_cons.mp h with rfl | h
    · obtain ⟨b, e, rfl, hb, he⟩ := ih (by rw [hls]; exact List.mem_cons_self)
      exact ⟨c :: b, e, rfl, by simpa using ⟨by simpa using hc, hb⟩, he⟩
    · exact ih (by rw [hls]; exact List.mem_cons_of_mem l' h)

/-- A line without its end holds no character that ends a line. -/
theorem isLineBreak_of_mem_splitlines {s l : Text} (h : l ∈ splitlines s) {c : Char}
    (hc : c ∈ l) : isLineBreak c = false := by
  obtain ⟨k, hk, rfl⟩ := List.mem_map.mp h
  obtain ⟨b, e, rfl, hb, he⟩ := exists_line_end hk
  have hcr : '\r' ∉ b := fun h => absurd (hb _ h) (by decide)
  suffices hdrop : dropLineEnd (b ++ e) = b from hb c (hdrop ▸ hc)
  rcases he with rfl | rfl | ⟨d, rfl, hd⟩
  · rw [List.append_nil]
    have hsuff : ¬ ['\r', '\n'] <:+ b := fun hs => hcr (hs.subset List.mem_cons_self)
    rw [dropLineEnd, if_neg hsuff]
    rcases hl : b.getLast? with _ | d
    · rfl
    · simp [hb d (List.mem_of_getLast? hl)]
  · rw [dropLineEnd, if_pos (List.suffix_append b _)]
    simp
  · have hsuff : ¬ ['\r', '\n'] <:+ b ++ [d] := by
      rintro ⟨t, ht⟩
      have hlast : (t ++ ['\r']) ++ ['\n'] = b ++ [d] := by simpa using ht
      have := (List.append_inj' hlast rfl).1
      exact hcr (by rw [← this]; simp)
    rw [dropLineEnd, if_neg hsuff, List.getLast?_concat]
    simp [hd]

/-! ### Cuts between lines -/

@[simp] theorem splitlinesKeep_nil : splitlinesKeep [] = [] := rfl

/-- A carriage return and a line feed are one line end. -/
theorem splitlinesKeep_crlf (s : Text) :
    splitlinesKeep ('\r' :: '\n' :: s) = ['\r', '\n'] :: splitlinesKeep s := rfl

/-- A line break at the front is a line of its own. -/
theorem splitlinesKeep_break {c : Char} {s : Text} (hc : isLineBreak c = true)
    (hs : c = '\r' → s.head? ≠ some '\n') : splitlinesKeep (c :: s) = [c] :: splitlinesKeep s := by
  generalize ht : c :: s = t
  fun_cases splitlinesKeep t with
  | case1 => cases ht
  | case2 s' =>
    cases ht
    exact absurd rfl (hs rfl)
  | case3 c' s' _ _ =>
    cases ht
    rfl
  | case4 c' s' _ hc' _ =>
    cases ht
    exact absurd hc hc'
  | case5 c' s' _ hc' _ _ _ =>
    cases ht
    exact absurd hc hc'

/-- A character at the front goes to the first line. -/
theorem splitlinesKeep_char {c : Char} {s l : Text} {ls : List Text} (hc : isLineBreak c = false)
    (hs : splitlinesKeep s = l :: ls) : splitlinesKeep (c :: s) = (c :: l) :: ls := by
  generalize ht : c :: s = t
  fun_cases splitlinesKeep t with
  | case1 => cases ht
  | case2 s' =>
    cases ht
    cases hc
  | case3 c' s' _ hc' =>
    cases ht
    rw [hc] at hc'
    cases hc'
  | case4 c' s' _ _ hnil =>
    cases ht
    rw [hnil] at hs
    cases hs
  | case5 c' s' _ _ l' ls' hls =>
    cases ht
    rw [hls] at hs
    cases hs
    rfl

/-- One character is one line. -/
theorem splitlinesKeep_last {c : Char} (hc : isLineBreak c = false) :
    splitlinesKeep [c] = [[c]] := by
  generalize ht : [c] = t
  fun_cases splitlinesKeep t with
  | case1 => cases ht
  | case2 s => cases ht
  | case3 c' s _ hc' =>
    cases ht
    rw [hc] at hc'
    cases hc'
  | case4 c' s _ _ _ =>
    cases ht
    rfl
  | case5 c' s _ _ l ls hls =>
    cases ht
    cases hls

/-- The text behind `s` starts a line of its own, without a pair `"\r\n"` across the cut. -/
def CleanCut (s t : Text) : Prop :=
  ∀ h : s ≠ [], isLineBreak (s.getLast h) = true ∧ (s.getLast h = '\r' → t.head? ≠ some '\n')

theorem cleanCut_nil (t : Text) : CleanCut [] t := fun h => absurd rfl h

/-- A text is cut cleanly behind a line break that is not torn. -/
theorem cleanCut_concat {s t : Text} {c : Char} :
    CleanCut (s ++ [c]) t ↔ isLineBreak c = true ∧ (c = '\r' → t.head? ≠ some '\n') := by
  rw [CleanCut]
  simp

/-- Only the first character behind the cut matters. -/
theorem CleanCut.congr {s t t' : Text} (h : CleanCut s t) (ht : t'.head? = t.head?) :
    CleanCut s t' := by
  intro hne
  rw [ht]
  exact h hne

/-- A cut stays clean without the first character. -/
theorem CleanCut.tail {c : Char} {s t : Text} (h : CleanCut (c :: s) t) : CleanCut s t := by
  intro hs
  simpa [List.getLast_cons hs] using h (List.cons_ne_nil c s)

theorem CleanCut.singleton {c : Char} {t : Text} (h : CleanCut [c] t) :
    isLineBreak c = true ∧ (c = '\r' → t.head? ≠ some '\n') := h (by simp)

/-- A clean cut cuts no line. -/
theorem splitlinesKeep_append {s t : Text} (h : CleanCut s t) :
    splitlinesKeep (s ++ t) = splitlinesKeep s ++ splitlinesKeep t := by
  fun_induction splitlinesKeep s with
  | case1 => rfl
  | case2 s ih =>
    rw [List.cons_append, List.cons_append, splitlinesKeep_crlf, ih h.tail.tail]
    rfl
  | case3 c s hcr hc ih =>
    -- the pair would lie across the cut
    have hpair : c = '\r' → (s ++ t).head? ≠ some '\n' := by
      rintro rfl
      cases s with
      | nil => exact h.singleton.2 rfl
      | cons d s => exact fun heq => hcr s rfl (by rw [Option.some.inj heq])
    rw [List.cons_append, splitlinesKeep_break hc hpair, ih h.tail]
    rfl
  | case4 c s hcr hc hnil ih =>
    obtain rfl : s = [] := by
      rw [← flatten_splitlinesKeep s, hnil]
      rfl
    exact absurd h.singleton.1 hc
  | case5 c s hcr hc l ls hls ih =>
    have ih := ih h.tail
    rw [hls, List.cons_append] at ih
    exact splitlinesKeep_char (by simpa using hc) ih

/-- No line is empty. -/
theorem ne_nil_of_mem_splitlinesKeep {s l : Text} (h : l ∈ splitlinesKeep s) : l ≠ [] := by
  revert l
  fun_induction splitlinesKeep s with
  | case1 => simp
  | case2 s ih => simpa using fun l hl => ih hl
  | case3 c s _ _ ih => simpa using fun l hl => ih hl
  | case4 => simp
  | case5 c s _ _ l ls hls ih =>
    rw [hls] at ih
    simpa using fun m hm => ih (List.mem_cons_of_mem l hm)

/-- A text without ends goes in front of the first line. -/
theorem splitlinesKeep_unbroken {s t l : Text} {ls : List Text}
    (h : ∀ c ∈ s, isLineBreak c = false) (ht : splitlinesKeep t = l :: ls) :
    splitlinesKeep (s ++ t) = (s ++ l) :: ls := by
  induction s with
  | nil => exact ht
  | cons c s ih =>
    exact splitlinesKeep_char (h c List.mem_cons_self)
      (ih fun d hd => h d (List.mem_cons_of_mem c hd))

/-- The first line, and the lines of the text behind it. -/
theorem splitlinesKeep_eq_cons {s l : Text} {ls : List Text} (h : splitlinesKeep s = l :: ls) :
    ∃ t, s = l ++ t ∧ splitlinesKeep t = ls ∧ splitlinesKeep l = [l] ∧
      (t ≠ [] → CleanCut l t) := by
  fun_induction splitlinesKeep s generalizing l ls with
  | case1 => cases h
  | case2 s ih =>
    obtain ⟨rfl, rfl⟩ := List.cons.inj h
    refine ⟨s, rfl, rfl, rfl, fun _ => ?_⟩
    exact (cleanCut_concat (s := ['\r'])).mpr ⟨by decide, fun heq => absurd heq (by decide)⟩
  | case3 c s hcr hc ih =>
    obtain ⟨rfl, rfl⟩ := List.cons.inj h
    refine ⟨s, rfl, rfl, splitlinesKeep_break hc (by simp), fun _ => ?_⟩
    refine (cleanCut_concat (s := [])).mpr ⟨hc, ?_⟩
    rintro rfl hs
    obtain ⟨d, s, rfl⟩ := List.exists_cons_of_ne_nil (l := s) (by rintro rfl; cases hs)
    exact hcr s rfl (by rw [Option.some.inj hs])
  | case4 c s hcr hc hnil ih =>
    obtain ⟨rfl, rfl⟩ := List.cons.inj h
    obtain rfl : s = [] := by
      rw [← flatten_splitlinesKeep s, hnil]
      rfl
    exact ⟨[], rfl, rfl, splitlinesKeep_last (by simpa using hc), fun h => absurd rfl h⟩
  | case5 c s hcr hc m ms hms ih =>
    obtain ⟨rfl, rfl⟩ := List.cons.inj h
    obtain ⟨t, rfl, ht, hm, hcut⟩ := ih hms
    have hmne : m ≠ [] := by
      rintro rfl
      cases hm
    refine ⟨t, rfl, ht, ?_, fun hne h => ?_⟩
    · exact splitlinesKeep_char (by simpa using hc) hm
    · rw [List.getLast_cons hmne]
      exact hcut hne hmne

/-- Some first lines, and the lines of the text behind them. -/
theorem splitlinesKeep_eq_append {s : Text} {a b : List Text} (h : splitlinesKeep s = a ++ b) :
    splitlinesKeep a.flatten = a ∧ splitlinesKeep b.flatten = b ∧
      (b ≠ [] → CleanCut a.flatten b.flatten) := by
  induction a generalizing s with
  | nil =>
    rw [List.nil_append] at h
    exact ⟨rfl, by rw [← h, flatten_splitlinesKeep], fun _ => cleanCut_nil _⟩
  | cons l a ih =>
    obtain ⟨t, rfl, ht, hl, hcut⟩ := splitlinesKeep_eq_cons h
    obtain ⟨ha, hb, hab⟩ := ih ht
    have hflat : a.flatten ++ b.flatten = t := by
      rw [← List.flatten_append]
      exact (congrArg List.flatten ht).symm.trans (flatten_splitlinesKeep t)
    rcases eq_or_ne a [] with rfl | hne
    · refine ⟨by simpa using hl, hb, fun hbne => ?_⟩
      have ht : t = b.flatten := by simpa using hflat.symm
      have htne : t ≠ [] := by
        rintro rfl
        rw [← ht, splitlinesKeep_nil] at hb
        exact hbne hb.symm
      simpa [ht] using hcut htne
    · have hane : a.flatten ≠ [] := by
        intro hnil
        rw [hnil, splitlinesKeep_nil] at ha
        exact hne ha.symm
      have hcl : CleanCut l a.flatten := by
        intro hlne
        have htne : t ≠ [] := by
          rw [← hflat]
          simp [hane]
        obtain ⟨hbr, hlast⟩ := hcut htne hlne
        refine ⟨hbr, fun heq => ?_⟩
        have := hlast heq
        rwa [← hflat, List.head?_append_of_ne_nil _ hane] at this
      refine ⟨?_, hb, fun h => ?_⟩
      · rw [List.flatten_cons, splitlinesKeep_append hcl, hl, ha]
        rfl
      · intro hall
        simpa [List.flatten_cons, List.getLast_append_of_ne_nil, hane] using hab h hane

/-! ### Lines without other ends -/

/-- A text without ends is one line, unless it is empty. -/
theorem splitlines_of_unbroken {s : Text} (h : ∀ c ∈ s, isLineBreak c = false) (hne : s ≠ []) :
    splitlines s = [s] := by
  obtain ⟨l, c, rfl⟩ := (List.eq_nil_or_concat' s).resolve_left hne
  have hl := fun d hd => h d (List.mem_append_left [c] hd)
  have hc := h c (List.mem_append_right l (List.mem_singleton_self c))
  have hcr : '\r' ∉ l ++ [c] := fun hmem => absurd (h _ hmem) (by decide)
  have hpair : ¬ ['\r', '\n'] <:+ l ++ [c] := fun hs => hcr (hs.subset List.mem_cons_self)
  rw [splitlines, splitlinesKeep_unbroken hl (splitlinesKeep_last hc), List.map_singleton,
    dropLineEnd, if_neg hpair, List.getLast?_concat]
  simp [hc]

/-- The first line ends at its line feed. -/
theorem splitlines_cons {l : Text} (h : ∀ c ∈ l, isLineBreak c = false) (s : Text) :
    splitlines (l ++ '\n' :: s) = l :: splitlines s := by
  have hcut : CleanCut (l ++ ['\n']) s := cleanCut_concat.mpr ⟨rfl, fun heq => absurd heq (by decide)⟩
  have hone : splitlinesKeep ['\n'] = [['\n']] := splitlinesKeep_break rfl (by decide)
  have hcr : '\r' ∉ l := fun hmem => absurd (h _ hmem) (by decide)
  have hpair : ¬ ['\r', '\n'] <:+ l ++ ['\n'] := by
    rintro ⟨t, ht⟩
    have hlast : (t ++ ['\r']) ++ ['\n'] = l ++ ['\n'] := by simpa using ht
    exact hcr (by rw [← (List.append_inj' hlast rfl).1]; simp)
  have hdrop : dropLineEnd (l ++ ['\n']) = l := by
    rw [dropLineEnd, if_neg hpair, List.getLast?_concat]
    simp [isLineBreak]
  have hsplit : l ++ '\n' :: s = (l ++ ['\n']) ++ s := by simp
  rw [splitlines, hsplit, splitlinesKeep_append hcut, splitlinesKeep_unbroken h hone,
    List.singleton_append, List.map_cons, hdrop]
  rfl

/-- Where a line feed is the only end, `splitlines` and `split("\n")` differ in empty lines only. -/
theorem mem_splitlines_unlines {ls : List Text}
    (h : ∀ l ∈ ls, ∀ c ∈ l, isLineBreak c = false) {p : Text} (hp : p ≠ []) :
    p ∈ splitlines (unlines ls) ↔ p ∈ ls := by
  induction ls with
  | nil => simp [unlines, splitlines]
  | cons l ls ih =>
    have hl := h l List.mem_cons_self
    cases ls with
    | nil =>
      have hone : unlines [l] = l := by simp [unlines]
      rw [hone, List.mem_singleton]
      rcases eq_or_ne l [] with rfl | hne
      · simp [splitlines, hp]
      · rw [splitlines_of_unbroken hl hne, List.mem_singleton]
    | cons m ls =>
      have happend := unlines_append (a := [l]) (b := m :: ls) (by simp) (by simp)
      have hone : unlines [l] = l := by simp [unlines]
      rw [List.singleton_append, hone] at happend
      rw [happend, splitlines_cons hl, List.mem_cons,
        ih fun k hk => h k (List.mem_cons_of_mem l hk)]
      exact List.mem_cons.symm

end Text

end CoordinatorCore
