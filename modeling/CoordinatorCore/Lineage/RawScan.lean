import CoordinatorCore.Lineage.Edges
import CoordinatorCore.Lineage.Quoted
import CoordinatorCore.Text.Lines
import CoordinatorCore.Text.Search

/-!
# The raw scan for a handoff id

`_raw_scan_handoff_id` reads the id of a record off the first 4096 bytes of its file with a pattern,
to spare the parser; `build_handoff_id_index` takes its answer for the parser's. The scan looks for
the first `handoff_id:` in the first column. The parser takes the last top-level key of that name,
in whatever column and with a blank before its colon, turns its text into a typed scalar, and finds
no frontmatter at all behind an opening line that carries a text.

`raw_scan_agrees_iff` says when the two give the same id. The window is any text with the
frontmatter of the document in it (`delimit`); `delimit_append` is why a prefix will do.
-/

namespace CoordinatorCore

open Text

namespace Lineage

/-! ### The scan -/

/-- The key the scan looks for. -/
def handoffId : Text := "handoff_id".toList

/-- `_RAW_SCAN_HANDOFF_ID_RE` on one line. -/
def idLine (l : Text) : Option Text :=
  (stripPrefix? (handoffId ++ [':']) l).bind fun r =>
    match r.dropWhile isBlank with
    | [] => none
    | c :: t => if isSpace c then none else some ((c :: t).rdropWhile isBlank)

/-- A value the pattern cannot be trusted with. -/
def ambiguous (v : Text) : Bool :=
  v.head?.all (fun c => c == '"' || c == '\'' || c == '|' || c == '>') || v.any (· == '#')

/-- The answer of the scan. -/
inductive RawScan
  | fallback
  | absent
  | id (v : Text)
deriving DecidableEq

/-- `_raw_scan_handoff_id` on the decoded window. -/
def rawScanHandoffId (window : Text) : RawScan :=
  match skipPrologue (crlfToLf window) with
  | none => .fallback
  | some text =>
    if (stripPrefix? "---".toList text).isNone then .fallback
    else
      match cutAt ['\n'] text with
      | none => .fallback
      | some (first, rest) =>
        if (lines rest).any isTerminator then
          match (first :: (lines rest).takeWhile fun l => !isTerminator l).findSome? idLine with
          | none => .absent
          | some v => if ambiguous v then .fallback else .id v
        else .fallback

/-- The id an answer stands for. -/
def RawScan.result : RawScan → Option Text
  | id v => some v
  | _ => none

/-- What `build_handoff_id_index` makes of a parsed value. -/
def printed (container : Val → Text) : Val → Option Text
  | .null => none
  | v => some (strip (v.pyStr container))

/-! ### Delimiting -/

/-- The text behind the opening dashes and the lines up to the closing delimiter. -/
def delimit (content : Text) : Option (Text × List Text) :=
  (skipPrologue content).bind fun t =>
    (stripPrefix? "---".toList t).bind fun afterFirst =>
      (cutAt ['\n'] afterFirst).bind fun m =>
        if (lines m.2).any isTerminator then
          some (m.1, (lines m.2).takeWhile fun l => !isTerminator l)
        else none

/-- The parser reads the delimited lines, when the opening line carries nothing else. -/
theorem frontmatterLines_of_delimit {content o : Text} {pre : List Text}
    (h : delimit content = some (o, pre)) :
    frontmatterLines content = if strip o ≠ [] then none else some (pre ++ [[]]) := by
  rw [delimit, Option.bind_eq_some_iff] at h
  obtain ⟨t, ht, h⟩ := h
  obtain ⟨a, ha, h⟩ := Option.bind_eq_some_iff.mp h
  obtain ⟨m, hm, h⟩ := Option.bind_eq_some_iff.mp h
  split_ifs at h with hterm
  obtain ⟨rfl, rfl⟩ := Prod.mk.inj (Option.some.inj h)
  rw [frontmatterLines, ht]
  simp only [ha, hm, hterm, if_true]

/-- A line without one final carriage return. -/
def chopCr (l : Text) : Text := if l.getLast? = some '\r' then l.dropLast else l

/-- The lines of a text whose line ends are normalised: all but the last lose a carriage return. -/
def chopLines : List Text → List Text
  | [] => []
  | [l] => [l]
  | l :: m :: ls => chopCr l :: chopLines (m :: ls)

private theorem chopLines_cons {ls : List Text} (h : ls ≠ []) (l : Text) :
    chopLines (l :: ls) = chopCr l :: chopLines ls := by
  cases ls with
  | nil => exact absurd rfl h
  | cons m ls => rfl

private theorem crlfToLf_cons {c : Char} {s : Text} (h : c ≠ '\r' ∨ s.head? ≠ some '\n') :
    crlfToLf (c :: s) = c :: crlfToLf s := by
  cases s with
  | nil => unfold crlfToLf; split <;> simp_all [crlfToLf]
  | cons e s =>
    rw [crlfToLf]
    rintro s' rfl heq
    cases heq
    simp at h

private theorem crlfToLf_pair (s : Text) : crlfToLf ('\r' :: '\n' :: s) = '\n' :: crlfToLf s := by
  rw [crlfToLf]

/-- Induction along the normalisation: a pair, or a character that starts none. -/
private theorem crlf_induction {motive : Text → Prop} (nil : motive [])
    (pair : ∀ s, motive s → motive ('\r' :: '\n' :: s))
    (cons : ∀ c s, (c ≠ '\r' ∨ s.head? ≠ some '\n') → motive s → motive (c :: s)) (t : Text) :
    motive t := by
  induction t using crlfToLf.induct with
  | case1 => exact nil
  | case2 s ih => exact pair s ih
  | case3 c s h ih =>
    refine cons c s ?_ ih
    by_contra hc
    obtain ⟨rfl, hs⟩ : c = '\r' ∧ s.head? = some '\n' := by simpa using hc
    cases s with
    | nil => cases hs
    | cons e s =>
      obtain rfl : e = '\n' := by simpa using hs
      exact h s rfl rfl

private theorem chopCr_cons {c : Char} {l : Text} (h : c ≠ '\r' ∨ l ≠ []) :
    chopCr (c :: l) = c :: chopCr l := by
  cases l with
  | nil =>
    have hc : c ≠ '\r' := h.resolve_right (fun h => h rfl)
    simp [chopCr, hc]
  | cons e l =>
    rw [chopCr, chopCr, List.getLast?_cons_cons]
    split_ifs <;> simp

/-- Translating line ends chops the lines. -/
theorem lines_crlfToLf (t : Text) : lines (crlfToLf t) = chopLines (lines t) := by
  induction t using crlf_induction with
  | nil => rfl
  | pair s ih =>
    have h₁ : lines ('\r' :: '\n' :: s) = ['\r'] :: lines s := lines_append_cons ['\r'] s
    have h₂ : lines ('\n' :: crlfToLf s) = [] :: lines (crlfToLf s) := lines_append_cons [] _
    rw [crlfToLf_pair, h₁, h₂, ih, chopLines_cons (lines_ne_nil s)]
    rfl
  | cons c s hc ih =>
    rw [crlfToLf_cons hc]
    by_cases hn : c = '\n'
    · subst hn
      have h₁ : lines ('\n' :: s) = [] :: lines s := lines_append_cons [] s
      have h₂ : lines ('\n' :: crlfToLf s) = [] :: lines (crlfToLf s) := lines_append_cons [] _
      rw [h₁, h₂, ih, chopLines_cons (lines_ne_nil s)]
      rfl
    · rw [lines_cons_of_ne hn, lines_cons_of_ne hn, ih]
      obtain ⟨l, ls, hl⟩ := List.exists_cons_of_ne_nil (lines_ne_nil s)
      rw [hl, List.modifyHead_cons]
      cases ls with
      | nil => rfl
      | cons m ls =>
        rw [chopLines, chopLines, List.modifyHead_cons, chopCr_cons]
        refine hc.imp_right fun hs hnil => hs ?_
        -- an empty first line means a line feed in front
        rw [← unlines_lines s, hl, hnil, unlines]
        simp [List.intercalate, List.intersperse]

/-- Translating line ends commutes with stripping. -/
theorem lstrip_crlfToLf (t : Text) : lstrip (crlfToLf t) = crlfToLf (lstrip t) := by
  induction t using crlf_induction with
  | nil => rfl
  | pair s ih =>
    rw [crlfToLf_pair, lstrip_cons_of_space (by decide), lstrip_cons_of_space (by decide),
      lstrip_cons_of_space (by decide), ih]
  | cons c s hc ih =>
    rw [crlfToLf_cons hc]
    by_cases hsp : isSpace c = true
    · rw [lstrip_cons_of_space hsp, lstrip_cons_of_space hsp, ih]
    · have hsp : isSpace c = false := by simpa using hsp
      rw [lstrip_cons_of_not_space hsp, lstrip_cons_of_not_space hsp, crlfToLf_cons hc]

/-- A prefix on one line is found before and behind the translation. -/
theorem stripPrefix?_crlfToLf {p : Text} (hp : ∀ c ∈ p, c ≠ '\r' ∧ c ≠ '\n') (t : Text) :
    stripPrefix? p (crlfToLf t) = (stripPrefix? p t).map crlfToLf := by
  induction p generalizing t with
  | nil => rfl
  | cons a p ih =>
    have ha := hp a (List.mem_cons_self ..)
    have ih := ih fun c hc => hp c (List.mem_cons_of_mem _ hc)
    cases t using crlf_induction with
    | nil => rfl
    | pair s _ => rw [crlfToLf_pair, stripPrefix?, stripPrefix?, if_neg ha.2, if_neg ha.1]; rfl
    | cons c s hc _ =>
      rw [crlfToLf_cons hc, stripPrefix?, stripPrefix?]
      split_ifs
      · exact ih s
      · rfl

/-- A pattern on one line is found before and behind the translation. -/
theorem cutAt_crlfToLf {p : Text} (hp : ∀ c ∈ p, c ≠ '\r' ∧ c ≠ '\n') (hne : p ≠ [])
    (t : Text) :
    cutAt p (crlfToLf t) = (cutAt p t).map fun m => (crlfToLf m.1, crlfToLf m.2) := by
  obtain ⟨a, p, rfl⟩ := List.exists_cons_of_ne_nil hne
  have ha := hp a (List.mem_cons_self ..)
  induction t using crlf_induction with
  | nil => rfl
  | pair s ih =>
    rw [crlfToLf_pair, cutAt, cutAt, cutAt, stripPrefix?, stripPrefix?, stripPrefix?,
      if_neg ha.2, if_neg ha.1, if_neg ha.2, ih]
    cases cutAt (a :: p) s with
    | none => rfl
    | some m => simp [crlfToLf_pair]
  | cons c s hc ih =>
    have hpre := stripPrefix?_crlfToLf hp (c :: s)
    rw [crlfToLf_cons hc] at hpre ⊢
    rw [cutAt, cutAt, hpre]
    cases stripPrefix? (a :: p) (c :: s) with
    | some r => rfl
    | none =>
      simp only [Option.map_none, ih]
      cases hm : cutAt (a :: p) s with
      | none => rfl
      | some m =>
        obtain ⟨x, y⟩ := m
        have hx : c ≠ '\r' ∨ x.head? ≠ some '\n' := by
          refine hc.imp_right fun hs hx => hs ?_
          cases x with
          | nil => cases hx
          | cons e x =>
            obtain rfl : e = '\n' := by simpa using hx
            rw [eq_of_cutAt hm]
            rfl
        simp [crlfToLf_cons hx]

/-- One round over the prologue. -/
theorem skipPrologue_eq (t : Text) :
    skipPrologue t = match stripPrefix? "<!--".toList (lstrip t) with
      | none => some (lstrip t)
      | some u => (cutAt "-->".toList u).bind fun m => skipPrologue m.2 := by
  rw [skipPrologue]
  split
  · next h => simp only [h]
  · next u h =>
    simp only [h]
    split
    · next h' => rw [h']; rfl
    · next x v h' => rw [h']; rfl

/-- The prologue is skipped in front of the normalised text as in front of the text. -/
theorem skipPrologue_crlfToLf (t : Text) :
    skipPrologue (crlfToLf t) = (skipPrologue t).map crlfToLf := by
  have hopen : ∀ c ∈ "<!--".toList, c ≠ '\r' ∧ c ≠ '\n' := by simp
  have hclose : ∀ c ∈ "-->".toList, c ≠ '\r' ∧ c ≠ '\n' := by simp
  induction t using skipPrologue.induct with
  | case1 t h =>
    rw [skipPrologue_eq, skipPrologue_eq t, lstrip_crlfToLf, stripPrefix?_crlfToLf hopen, h]
    rfl
  | case2 t u h h' =>
    rw [skipPrologue_eq, skipPrologue_eq t, lstrip_crlfToLf, stripPrefix?_crlfToLf hopen, h]
    simp only [Option.map_some, cutAt_crlfToLf hclose (by decide), h', Option.map_none,
      Option.bind_none]
  | case3 t u h x v h' ih =>
    rw [skipPrologue_eq, skipPrologue_eq t, lstrip_crlfToLf, stripPrefix?_crlfToLf hopen, h]
    simp only [Option.map_some, cutAt_crlfToLf hclose (by decide), h', Option.bind_some]
    exact ih

private theorem isTerminator_chopCr (l : Text) : isTerminator (chopCr l) = isTerminator l := by
  rw [chopCr]
  split_ifs with h
  · obtain ⟨l, rfl⟩ := List.getLast?_eq_some_iff.mp h
    rw [List.dropLast_concat, isTerminator, isTerminator,
      stripPrefix?_append_space (w := ['\r']) (by simp [isSpace])
        (List.forall_mem_singleton.mpr (by decide))]
    cases stripPrefix? "---".toList l with
    | none => rfl
    | some r => simp [isSpace]
  · rfl

/-- In front of the closing delimiter every line is chopped. -/
private theorem takeWhile_chopLines {ls : List Text} (h : ls.any isTerminator = true) :
    (chopLines ls).any isTerminator = true ∧
      (chopLines ls).takeWhile (fun l => !isTerminator l) =
        (ls.takeWhile fun l => !isTerminator l).map chopCr := by
  induction ls with
  | nil => cases h
  | cons l ls ih =>
    cases ls with
    | nil =>
      have hl : isTerminator l = true := by simpa using h
      simp [chopLines, hl]
    | cons m ls =>
      rw [chopLines]
      by_cases hl : isTerminator l = true
      · simp [isTerminator_chopCr, hl]
      · rw [List.any_cons, Bool.eq_false_iff.mpr hl, Bool.false_or] at h
        obtain ⟨hany, htake⟩ := ih h
        rw [List.any_cons, hany, Bool.or_true, List.takeWhile_cons, List.takeWhile_cons,
          isTerminator_chopCr, Bool.eq_false_iff.mpr hl, htake]
        exact ⟨rfl, rfl⟩

private theorem not_mem_of_cutAt {c : Char} {s a b : Text} (h : cutAt [c] s = some (a, b)) :
    c ∉ a := by
  induction s generalizing a with
  | nil => cases h
  | cons e s ih =>
    rw [cutAt, stripPrefix?] at h
    split_ifs at h with he
    · obtain ⟨rfl, -⟩ := Prod.mk.inj (Option.some.inj h)
      exact List.not_mem_nil
    · obtain ⟨⟨a', b'⟩, hm, heq⟩ := Option.map_eq_some_iff.mp h
      obtain ⟨rfl, rfl⟩ := Prod.mk.inj heq
      rw [List.mem_cons, not_or]
      exact ⟨he, ih hm⟩

/-- Up to the first line feed, normalising chops the line. -/
private theorem crlfToLf_line {x : Text} (hx : '\n' ∉ x) (y : Text) :
    crlfToLf (x ++ '\n' :: y) = chopCr x ++ '\n' :: crlfToLf y := by
  induction x with
  | nil => exact crlfToLf_cons (Or.inl (by decide))
  | cons c x ih =>
    rw [List.mem_cons, not_or] at hx
    by_cases hc : c ≠ '\r' ∨ x ≠ []
    · rw [List.cons_append, crlfToLf_cons, ih hx.2, chopCr_cons hc, List.cons_append]
      refine hc.imp_right fun hne hhead => ?_
      obtain ⟨e, x, rfl⟩ := List.exists_cons_of_ne_nil hne
      obtain rfl : e = '\n' := by simpa using hhead
      exact hx.2 (List.mem_cons_self ..)
    · obtain ⟨rfl, rfl⟩ : c = '\r' ∧ x = [] := by simpa using hc
      exact crlfToLf_pair y

/-- Normalising the line ends chops the lines and keeps the delimiters. -/
theorem delimit_crlfToLf {t o : Text} {pre : List Text} (h : delimit t = some (o, pre)) :
    delimit (crlfToLf t) = some (chopCr o, pre.map chopCr) := by
  have hdash : ∀ c ∈ "---".toList, c ≠ '\r' ∧ c ≠ '\n' := by simp
  rw [delimit, Option.bind_eq_some_iff] at h
  obtain ⟨u, hu, h⟩ := h
  obtain ⟨a, ha, h⟩ := Option.bind_eq_some_iff.mp h
  obtain ⟨⟨x, y⟩, hm, h⟩ := Option.bind_eq_some_iff.mp h
  split_ifs at h with hterm
  obtain ⟨rfl, rfl⟩ := Prod.mk.inj (Option.some.inj h)
  have hx := not_mem_of_cutAt hm
  have hxchop : '\n' ∉ chopCr x := by
    rw [chopCr]
    split_ifs
    · exact fun hmem => hx ((List.dropLast_sublist x).subset hmem)
    · exact hx
  have hcut : cutAt ['\n'] (crlfToLf a) = some (chopCr x, crlfToLf y) := by
    rw [eq_of_cutAt hm, List.append_assoc]
    erw [crlfToLf_line hx y]
    exact cutAt_append_cons hxchop _
  obtain ⟨hany, htake⟩ := takeWhile_chopLines hterm
  rw [← lines_crlfToLf] at hany htake
  rw [delimit, skipPrologue_crlfToLf, hu, Option.map_some, Option.bind_some,
    stripPrefix?_crlfToLf hdash, ha, Option.map_some, Option.bind_some, hcut, Option.bind_some,
    if_pos hany, htake]

private theorem lstrip_append {a : Text} (h : lstrip a ≠ []) (x : Text) :
    lstrip (a ++ x) = lstrip a ++ x := by
  induction a with
  | nil => exact absurd rfl h
  | cons c a ih =>
    by_cases hc : isSpace c = true
    · rw [lstrip_cons_of_space hc] at h ⊢
      rw [List.cons_append, lstrip_cons_of_space hc, ih h]
    · have hc : isSpace c = false := by simpa using hc
      rw [List.cons_append, lstrip_cons_of_not_space hc, lstrip_cons_of_not_space hc,
        List.cons_append]

/-- What follows the opening dashes does not change the prologue. -/
private theorem skipPrologue_append {a t : Text} (h : skipPrologue a = some ('-' :: t)) (x : Text) :
    skipPrologue (a ++ x) = some ('-' :: t ++ x) := by
  induction a using skipPrologue.induct with
  | case1 a hnone =>
    rw [skipPrologue_eq, hnone] at h
    have ha : lstrip a = '-' :: t := Option.some.inj h
    rw [skipPrologue_eq, lstrip_append (by rw [ha]; simp), ha]
    rfl
  | case2 a u hu hcut =>
    rw [skipPrologue_eq, hu] at h
    simp only [hcut, Option.bind_none] at h
    cases h
  | case3 a u hu y v hcut ih =>
    rw [skipPrologue_eq, hu] at h
    simp only [hcut, Option.bind_some] at h
    have ha := stripPrefix?_eq_some.mp hu
    have hux : stripPrefix? "<!--".toList (lstrip a ++ x) = some (u ++ x) := by
      rw [ha, List.append_assoc]
      exact stripPrefix?_append _ _
    rw [skipPrologue_eq, lstrip_append (by rw [ha]; simp), hux]
    simp only [cutAt_append_left hcut, Option.bind_some]
    exact ih h

/-! ### The two readings of one frontmatter -/

/-- The scan answers by the first line its pattern matches. -/
theorem rawScanHandoffId_eq {window o : Text} {pre : List Text}
    (h : delimit window = some (o, pre)) :
    rawScanHandoffId window = match pre.findSome? fun l => idLine (chopCr l) with
      | none => .absent
      | some v => if ambiguous v then .fallback else .id v := by
  have h' := delimit_crlfToLf h
  rw [delimit, Option.bind_eq_some_iff] at h'
  obtain ⟨t, ht, h'⟩ := h'
  obtain ⟨a, ha, h'⟩ := Option.bind_eq_some_iff.mp h'
  obtain ⟨⟨x, y⟩, hm, hd⟩ := Option.bind_eq_some_iff.mp h'
  split_ifs at hd with hterm
  have hpre : (lines y).takeWhile (fun l => !isTerminator l) = pre.map chopCr :=
    (Prod.mk.inj (Option.some.inj hd)).2
  -- the opening line is the dashes, which the pattern does not match
  have hcut : cutAt ['\n'] t = some ("---".toList ++ x, y) := by
    have hx := not_mem_of_cutAt hm
    rw [stripPrefix?_eq_some.mp ha, eq_of_cutAt hm, ← List.append_assoc, ← List.append_assoc,
      List.append_assoc _ ['\n']]
    refine cutAt_append_cons (fun hmem => ?_) y
    rcases List.mem_append.mp hmem with hmem | hmem
    · exact absurd hmem (by decide)
    · exact hx hmem
  have hfirst : idLine ("---".toList ++ x) = none := rfl
  have hsome : (stripPrefix? "---".toList t).isNone = false := by rw [ha]; rfl
  rw [rawScanHandoffId, ht]
  simp only [hsome, hcut, hterm, hpre, if_true, List.findSome?_cons, hfirst, List.findSome?_map]
  rfl

/-- The parser reads the key off the delimited lines. -/
theorem parseFrontmatter_of_delimit {content o : Text} {pre : List Text}
    (h : delimit content = some (o, pre)) :
    parseFrontmatter content = if strip o ≠ [] then [] else
      parseYamlMappingBlock (pre ++ [[]]) 0 [] := by
  rw [parseFrontmatter, frontmatterLines_of_delimit h]
  split_ifs <;> rfl

/-! ### The last entry of a key -/

/-- The line `raw` is read as a top-level entry for the key, with `value` behind its colon, and the
key is not set again. -/
structure LastEntry (key : Text) (ls : List Text) (raw : Text) (tail : List Text)
    (value : Text) : Prop where
  arrives : Arrives ls (raw :: tail)
  content : skippable raw = false
  named : keyAndRest raw = some (key, value)
  last : Unassigned key (advance raw tail)

/-- The parser keeps the last entry of a key. -/
theorem LastEntry.get_parse {key raw value : Text} {ls tail : List Text}
    (h : LastEntry key ls raw tail value) :
    (parseYamlMappingBlock ls 0 []).get key = entryValue raw value tail := by
  refine get_parse_of_last h.arrives ?_ h.last []
  rw [assigned, if_neg (by simp [h.content]), h.named, Option.map_some]

/-- A key is never set, or has a last entry. -/
theorem unassigned_or_lastEntry (key : Text) (ls : List Text) :
    Unassigned key ls ∨ ∃ raw tail value, LastEntry key ls raw tail value := by
  induction hn : ls.length using Nat.strong_induction_on generalizing ls with
  | _ n ih =>
    cases ls with
    | nil =>
      refine Or.inl fun raw tail h => ?_
      cases h
    | cons raw rest =>
      have hlen := (advance_suffix raw rest).length_le
      have hlt : (advance raw rest).length < n := by
        rw [← hn, List.length_cons]
        omega
      rcases ih _ hlt (advance raw rest) rfl with hun | ⟨raw', tail, value, hlast⟩
      · by_cases hset : ∃ v, assigned raw rest = some (key, v)
        · obtain ⟨v, hv⟩ := hset
          rw [assigned] at hv
          split_ifs at hv with hs
          obtain ⟨⟨k, value⟩, hk, heq⟩ := Option.map_eq_some_iff.mp hv
          obtain ⟨rfl, -⟩ := Prod.mk.inj heq
          exact Or.inr ⟨raw, rest, value, .here _, by simpa using hs, hk, hun⟩
        · refine Or.inl fun raw' tail h e he hkey => ?_
          cases h with
          | here => exact hset ⟨e.2, by rw [he, ← hkey]⟩
          | step h => exact hun raw' tail h e he hkey
      · exact Or.inr ⟨raw', tail, value, .step hlast.arrives, hlast.content, hlast.named,
          hlast.last⟩

/-! ### Agreement -/

/-- The value the parser gives to a text of one line that opens neither a comment, a quote nor a
block scalar. -/
def bareValue (v : Text) : Val :=
  if bracketed (strip v) then .seq (parseInlineList (strip v)) else parseScalar (strip v)

/-- `l` is the first line the pattern matches, with text `v`. -/
structure FirstId (pre a : List Text) (l : Text) (b : List Text) (v : Text) : Prop where
  split : pre = a ++ l :: b
  before : ∀ x ∈ a, idLine (chopCr x) = none
  text : idLine (chopCr l) = some v

/-- When the scan and the parser give the same id. Without a line the pattern matches, the opening
line carries a text or the last top-level entry of the key gives it no value. With one, the opening
line carries no text, and either that line is the last top-level entry of the key and its text
prints as itself, or the last entry is another one that prints as the same text. -/
def ScanAgrees (container : Val → Text) (o : Text) (pre : List Text) : Prop :=
  ((∀ l ∈ pre, idLine (chopCr l) = none) ∧ (strip o ≠ [] ∨
    ∀ raw tail value, LastEntry handoffId (pre ++ [[]]) raw tail value →
      entryValue raw value tail = .null)) ∨
  ∃ a l b v, FirstId pre a l b v ∧ strip o = [] ∧
    ((LastEntry handoffId (pre ++ [[]]) l (b ++ [[]]) (strip v) ∧
        printed container (bareValue v) = some v) ∨
      ∃ raw tail value, LastEntry handoffId (pre ++ [[]]) raw tail value ∧
        (raw, tail) ≠ (l, b ++ [[]]) ∧
          printed container (entryValue raw value tail) = some v)

private theorem identifierKey_handoffId : identifierKey handoffId = true := by decide

/-- The text behind the colon of a matched line, up to padding. -/
private theorem keyAndRest_idLine {l v : Text} (h : idLine (chopCr l) = some v) :
    keyAndRest l = some (handoffId, strip v) ∧ ∃ c t, v = c :: t ∧ isSpace c = false := by
  rw [idLine, Option.bind_eq_some_iff] at h
  obtain ⟨r, hr, h⟩ := h
  obtain ⟨cr, hcr, hl⟩ : ∃ cr, (∀ c ∈ cr, isSpace c = true) ∧ l = chopCr l ++ cr := by
    rw [chopCr]
    split_ifs with hlast
    · obtain ⟨l', rfl⟩ := List.getLast?_eq_some_iff.mp hlast
      exact ⟨['\r'], List.forall_mem_singleton.mpr (by decide), by rw [List.dropLast_concat]⟩
    · exact ⟨[], fun c hc => absurd hc List.not_mem_nil, (List.append_nil l).symm⟩
  have hblank : ∀ {w : Text}, (∀ c ∈ w, isBlank c = true) → ∀ c ∈ w, isSpace c = true :=
    fun hw c hc => isSpace_of_isBlank (hw c hc)
  cases hd : r.dropWhile isBlank with
  | nil =>
    rw [hd] at h
    cases h
  | cons c t =>
    rw [hd] at h
    dsimp only at h
    split_ifs at h with hc
    have hv : (c :: t).rdropWhile isBlank = v := Option.some.inj h
    have hcs : isSpace c = false := by simpa using hc
    -- the value is what stands between the blanks
    have hr' : r = r.takeWhile isBlank ++ (c :: t) := by
      rw [← hd, List.takeWhile_append_dropWhile]
    have ht : c :: t = v ++ (c :: t).rtakeWhile isBlank := by
      rw [← hv, List.rdropWhile_append_rtakeWhile]
    have hstrip : strip (r ++ cr) = strip v := by
      rw [strip_append_right hcr, hr', strip_append_left (hblank fun c hc =>
        List.mem_takeWhile_imp hc), ht, strip_append_right (hblank fun c hc =>
        List.mem_rtakeWhile_imp hc)]
    refine ⟨?_, ?_⟩
    · rw [hl, stripPrefix?_eq_some.mp hr, List.append_assoc, List.append_assoc]
      exact (keyAndRest_keyLine identifierKey_handoffId (r ++ cr)).trans (by rw [hstrip])
    · have hne : v ≠ [] := by
        rintro rfl
        have := List.rdropWhile_eq_nil_iff.mp hv c (List.mem_cons_self ..)
        rw [isSpace_of_isBlank this] at hcs
        cases hcs
      obtain ⟨e, v', rfl⟩ := List.exists_cons_of_ne_nil hne
      obtain ⟨rfl, -⟩ : c = e ∧ _ := by simpa using ht
      exact ⟨c, v', rfl, hcs⟩

/-- An unambiguous text is read as it stands. -/
private theorem entryValue_idLine {l v : Text} (h : idLine (chopCr l) = some v)
    (ha : ambiguous v = false) (tail : List Text) :
    entryValue l (strip v) tail = bareValue v := by
  obtain ⟨-, c, t, rfl, hc⟩ := keyAndRest_idLine h
  have hstrip : strip (c :: t) = c :: rstrip t := by
    rw [strip, lstrip_cons_of_not_space hc]
    exact rstrip_append_cons hc [] t
  rw [ambiguous, Bool.or_eq_false_iff] at ha
  obtain ⟨hhead, hhash⟩ := ha
  have hhash' : '#' ∉ c :: rstrip t := by
    rw [← hstrip]
    intro hmem
    have : '#' ∈ c :: t := (((List.rdropWhile_prefix ..).sublist).trans
      (List.dropWhile_sublist ..)).subset hmem
    rw [List.any_eq_false] at hhash
    exact hhash _ this (by simp)
  have hnone : beforeComment none false false (c :: rstrip t) = none := by
    cases hb : beforeComment none false false (c :: rstrip t) with
    | none => rfl
    | some p =>
      obtain ⟨r, hr⟩ := exists_of_beforeComment hb
      exact absurd (by rw [hr]; simp) hhash'
  have hq : c ≠ '"' ∧ c ≠ '\'' ∧ c ≠ '|' ∧ c ≠ '>' := by simpa [and_assoc] using hhead
  have hcomment : c ≠ '#' := fun h => hhash' (h ▸ List.mem_cons_self ..)
  rw [bareValue, hstrip, entryValue, if_neg (by simpa [emptyRest] using hcomment), if_neg]
  · unfold parseRest
    simp only [stripInlineComment, hnone]
    split_ifs with hb hopen
    · rfl
    · exact absurd hopen.1 (not_or.mpr ⟨hq.1, hq.2.1⟩)
    · rfl
  · simp [isBlockScalar, hq]

private theorem printed_eq_none_iff {container : Val → Text} {v : Val} :
    printed container v = none ↔ v = .null := by
  cases v <;> simp [printed]

private theorem LastEntry.not_unassigned {key raw value : Text} {ls tail : List Text}
    (h : LastEntry key ls raw tail value) : ¬ Unassigned key ls := by
  intro hun
  refine hun raw tail h.arrives (key, entryValue raw value tail) ?_ rfl
  rw [assigned, if_neg (by simp [h.content]), h.named, Option.map_some]

/-- The parsed value is nothing exactly when no last entry gives one. -/
private theorem get_parse_eq_null_iff (key : Text) (ls : List Text) :
    (parseYamlMappingBlock ls 0 []).get key = .null ↔
      ∀ raw tail value, LastEntry key ls raw tail value → entryValue raw value tail = .null := by
  constructor
  · intro h raw tail value hlast
    rw [← hlast.get_parse, h]
  · intro h
    rcases unassigned_or_lastEntry key ls with hun | ⟨raw, tail, value, hlast⟩
    · rw [get_parse_of_unassigned hun]
      rfl
    · rw [hlast.get_parse, h raw tail value hlast]

private theorem FirstId.findSome? {pre a b : List Text} {l v : Text} (h : FirstId pre a l b v) :
    (pre.findSome? fun l => idLine (chopCr l)) = some v := by
  rw [List.findSome?_eq_some_iff]
  exact ⟨a, l, b, h.split, h.text, h.before⟩

/-- The scan gives what the index would use from the parser exactly when the last top-level entry
of the key is the line scanned and prints as itself, or another one that prints as the same. -/
theorem raw_scan_agrees_iff (container : Val → Text) {content window o : Text} {pre : List Text}
    (hc : delimit content = some (o, pre)) (hw : delimit window = some (o, pre))
    (hf : rawScanHandoffId window ≠ .fallback) :
    (rawScanHandoffId window).result =
        printed container ((parseFrontmatter content).get handoffId) ↔
      ScanAgrees container o pre := by
  rw [rawScanHandoffId_eq hw] at hf ⊢
  rw [parseFrontmatter_of_delimit hc]
  cases hid : pre.findSome? fun l => idLine (chopCr l) with
  | none =>
    -- the scan finds no id line
    have hall : ∀ l ∈ pre, idLine (chopCr l) = none := List.findSome?_eq_none_iff.mp hid
    have hfirst : ∀ a l b v, ¬ FirstId pre a l b v := by
      intro a l b v h
      rw [h.findSome?] at hid
      cases hid
    rw [show (RawScan.absent).result = none from rfl, eq_comm, printed_eq_none_iff]
    by_cases ho : strip o ≠ []
    · rw [if_pos ho]
      exact iff_of_true rfl (Or.inl ⟨hall, Or.inl ho⟩)
    · rw [if_neg ho, get_parse_eq_null_iff]
      constructor
      · exact fun h => Or.inl ⟨hall, Or.inr h⟩
      · rintro (⟨-, h⟩ | ⟨a, l, b, v, h, -⟩)
        · exact h.resolve_left ho
        · exact absurd h (hfirst a l b v)
  | some v =>
    rw [hid] at hf
    -- the scan finds one, and does not fall back on it
    have hamb : ambiguous v = false := by
      by_contra h
      exact hf (by simp [h])
    obtain ⟨a, l, b, hsplit, htext, hbefore⟩ := List.findSome?_eq_some_iff.mp hid
    have hfirst : FirstId pre a l b v := ⟨hsplit, hbefore, htext⟩
    simp only [hamb, Bool.false_eq_true, if_false, RawScan.result]
    constructor
    · intro h
      have hnn : ∀ d : Dict, printed container (d.get handoffId) = some v →
          d.get handoffId ≠ .null := by
        intro d hd hnull
        rw [hnull] at hd
        cases hd
      by_cases ho : strip o ≠ []
      · rw [if_pos ho] at h
        cases h
      · rw [if_neg ho] at h
        rcases unassigned_or_lastEntry handoffId (pre ++ [[]]) with
          hun | ⟨raw, tail, value, hlast⟩
        · exact absurd (get_parse_of_unassigned hun []) (hnn _ h.symm)
        · rw [hlast.get_parse] at h
          refine Or.inr ⟨a, l, b, v, hfirst, not_not.mp ho, ?_⟩
          by_cases heq : (raw, tail) = (l, b ++ [[]])
          · obtain ⟨rfl, rfl⟩ := Prod.mk.inj heq
            obtain rfl : value = strip v := by
              have := hlast.named.symm.trans (keyAndRest_idLine htext).1
              exact (Prod.mk.inj (Option.some.inj this)).2
            rw [entryValue_idLine htext hamb] at h
            exact Or.inl ⟨hlast, h.symm⟩
          · exact Or.inr ⟨raw, tail, value, hlast, heq, h.symm⟩
    · rintro (⟨hall, -⟩ | ⟨a', l', b', v', hfirst', ho, h⟩)
      · rw [hall l (by rw [hsplit]; simp)] at htext
        cases htext
      · obtain rfl : v = v' := Option.some.inj (hid.symm.trans hfirst'.findSome?)
        rw [if_neg (not_not_intro ho)]
        rcases h with ⟨hlast, hprint⟩ | ⟨raw, tail, value, hlast, -, hprint⟩
        · rw [hlast.get_parse, entryValue_idLine hfirst'.text hamb, hprint]
        · rw [hlast.get_parse, hprint]

/-- A record with an id that reads as a text. -/
theorem raw_scan_agrees_iff_plain :
    (rawScanHandoffId "---\nhandoff_id: hnd-1\n---\n".toList).result =
        printed (fun _ => []) ((parseFrontmatter
          "---\nhandoff_id: hnd-1\n---\nbody\n".toList).get handoffId) ↔
      ScanAgrees (fun _ => []) [] ["handoff_id: hnd-1".toList] :=
  raw_scan_agrees_iff (fun _ => []) (by decide +kernel) (by decide +kernel) (by decide +kernel)

/-- An id of digits: the scan keeps its zeros, the parser makes it a number. -/
theorem raw_scan_respells_digits :
    delimit "---\nhandoff_id: 007\n---\n".toList = some ([], ["handoff_id: 007".toList]) ∧
      rawScanHandoffId "---\nhandoff_id: 007\n---\n".toList = .id "007".toList ∧
      printed (fun _ => []) ((parseFrontmatter "---\nhandoff_id: 007\n---\n".toList).get
        handoffId) = some "7.0".toList := by
  refine ⟨?_, ?_, ?_⟩ <;> decide +kernel

end Lineage

end CoordinatorCore
