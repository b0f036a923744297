import CoordinatorCore.Frontmatter.RestrictedYaml
import CoordinatorCore.Lineage.Quoted

/-!
# Reading back what the writer wrote

`serialize_yaml_scalar` decides on the quotes, and the restricted reader is to give the string back.
What is quoted it does give back, whatever the text holds (`lineValue_single`). A bare text is read
as itself or as the JSON scalar it spells, unless the reader strips something off it, finds it
empty, takes it for YAML's other null, or meets an integer no float is large enough for
(`parseYaml_serialized_iff`): the writer looks for a blank in front only.
-/

namespace CoordinatorCore

open Text Frontmatter

namespace RestrictedYaml

open Lineage (indentOf skippable isBlockScalar consumeBlockScalar keyAndRest emptyRest quotedBy
  dashItem identifierKey keyAndRest_keyLine skippable_keyLine indentOf_keyLine strip_keyLine
  exists_cons_of_identifierKey wordChar_of_mem wordChar)

variable (flowMapping : Text → Except Text (Option Dict))

/-! ### A document of one line -/

/-- The value of a key alone in its document. -/
def lineValue (rest : Text) : Except Text Val :=
  if emptyRest rest then .ok .null
  else if isBlockScalar rest then .ok (.str (consumeBlockScalar 0 []).1)
  else flowValue flowMapping rest

theorem foldQuotedContinuation_nil (rest : Text) : foldQuotedContinuation [] rest = (rest, []) := by
  unfold foldQuotedContinuation
  cases quotedScalarOpens rest <;> rfl

variable {flowMapping} {k : Text}

/-- A line with an identifier key is no list item. -/
theorem isDash_keyLine (hk : identifierKey k = true) (tail : Text) :
    isDash (k ++ ':' :: tail) = false := by
  obtain ⟨c, k', rfl, hc⟩ := exists_cons_of_identifierKey hk
  have hne : '-' ≠ c := by
    rintro rfl
    exact absurd hc (by decide)
  have hstrip := strip_keyLine hk tail
  rw [List.cons_append] at hstrip
  simp [isDash, dashItem, hstrip, stripPrefix?, hne, hne.symm]

/-- An identifier key is not quoted. -/
theorem unquoteKey_keyLine (hk : identifierKey k = true) : unquoteKey k = k := by
  obtain ⟨c, k', rfl, hc⟩ := exists_cons_of_identifierKey hk
  have h1 : c ≠ '"' := by
    rintro rfl
    exact absurd hc (by decide)
  have h2 : c ≠ '\'' := by
    rintro rfl
    exact absurd hc (by decide)
  simp [unquoteKey, quotedBy, h1, h2]

/-- A document with the single line `k:tail` has one entry. -/
theorem parseYaml_keyLine (hk : identifierKey k = true) {tail : Text} (ht : '\n' ∉ tail) :
    parseYaml flowMapping (k ++ ':' :: tail) =
      (lineValue flowMapping (strip tail)).map fun v => .map [(.str k, v)] := by
  have hnl : '\n' ∉ k ++ ':' :: tail := by
    have hkn : '\n' ∉ k := fun h => absurd (wordChar_of_mem hk h) (by decide)
    simp [hkn, ht]
  have hvalue : keyValue flowMapping (k ++ ':' :: tail) (strip tail) [] =
      (lineValue flowMapping (strip tail)).map fun v => (v, []) := by
    rw [keyValue, lineValue, foldQuotedContinuation_nil, indentOf_keyLine hk]
    split_ifs
    · rfl
    · rfl
    · rfl
  rw [parseYaml, lines_of_not_mem hnl, yamlLines_cons, if_neg (by simp [skippable_keyLine hk]),
    if_neg (by simp), if_neg (by simp [isDash_keyLine hk]), keyAndRest_keyLine hk]
  dsimp only
  rw [hvalue, unquoteKey_keyLine hk]
  cases lineValue flowMapping (strip tail) with
  | error e => rfl
  | ok v =>
    change (yamlLines flowMapping [] 0 [(.str k, v)]).map (·.1) = _
    rw [yamlLines_nil]
    rfl

/-! ### What the writer quotes -/

/-- No comment starts inside of a serialized text. -/
theorem beforeComment_doubleQuotes (prev : Option Char) (s : Text) :
    beforeComment prev .single (doubleQuotes s ++ ['\'']) = none := by
  induction s generalizing prev with
  | nil => rfl
  | cons c s ih =>
    by_cases hc : c = '\''
    · subst hc
      rw [Lineage.doubleQuotes_apostrophe]
      simp [beforeComment, Quotes.next, ih]
    · rw [Lineage.doubleQuotes_cons hc]
      simp [beforeComment, Quotes.next, hc, ih]

/-- A single-quoted text carries no comment. -/
theorem stripInlineComment_single (s : Text) :
    stripInlineComment ('\'' :: doubleQuotes s ++ ['\'']) = '\'' :: doubleQuotes s ++ ['\''] := by
  have h : beforeComment none .out ('\'' :: doubleQuotes s ++ ['\'']) = none := by
    simp [beforeComment, Quotes.next, beforeComment_doubleQuotes]
  rw [stripInlineComment, h]

/-- A quoted text is no integer. -/
theorem jsInt_single (s : Text) : jsInt ('\'' :: doubleQuotes s ++ ['\'']) = none := by
  rw [jsInt, Lineage.strip_single, List.cons_append, List.map_cons,
    show asciiDigit '\'' = '\'' by decide, pyInt_quote (.inl rfl)]

/-- A quoted text is no number. -/
theorem jsNumber_single (s : Text) : jsNumber ('\'' :: doubleQuotes s ++ ['\'']) = none := by
  rw [jsNumber, jsInt_single, Lineage.strip_single, List.cons_append, pyFloat_quote (.inl rfl)]
  rfl

/-- What is quoted is read back. -/
theorem lineValue_single (s : Text) :
    lineValue flowMapping ('\'' :: doubleQuotes s ++ ['\'']) = .ok (.str s) := by
  have hlast : ('\'' :: (doubleQuotes s ++ ['\''])).getLast? = some '\'' :=
    List.getLast?_concat (l := '\'' :: doubleQuotes s)
  have hq : quotedBy '\'' ('\'' :: (doubleQuotes s ++ ['\''])) = true := by simp [quotedBy, hlast]
  have hscalar : parseScalar ('\'' :: doubleQuotes s ++ ['\'']) = .ok (.str s) := by
    rw [parseScalar, stripInlineComment_single, jsInt_single, jsNumber_single]
    dsimp only
    rw [List.cons_append, if_neg (by simp), if_neg (by simp), if_neg (by simp), if_neg (by simp),
      if_neg, if_pos hq]
    · simp [undoubleQuotes_doubleQuotes]
    · simp [quotedBy]
  rw [lineValue, if_neg (by simp [emptyRest]), if_neg (by simp [isBlockScalar]), flowValue,
    stripInlineComment_single]
  simp only [List.cons_append] at hscalar ⊢
  simp [enclosed, hscalar]

/-! ### Bare texts -/

/-- The JSON scalar a text spells. -/
inductive Spells : Val → Text → Prop
  | null : Spells .null "null".toList
  | true : Spells (.bool Bool.true) "true".toList
  | false : Spells (.bool Bool.false) "false".toList
  | int (n : Int) : Spells (.int n) (toString n).toList
  | float (r : Text) : Spells (.other .float r) r

/-- A scalar has one spelling. -/
theorem Spells.unique {v : Val} {s t : Text} (hs : Spells v s) (ht : Spells v t) : s = t := by
  cases hs <;> cases ht <;> rfl

/-- No bare text spells a text by another rule. -/
theorem not_spells_str {s t : Text} : ¬ Spells (.str s) t := nofun

/-- A number is spelled by its text. -/
theorem spells_jsNumber {t : Text} {v : Val} (h : jsNumber t = some v) : Spells v t := by
  rw [jsNumber] at h
  split at h
  · next n hn =>
    obtain ⟨-, hp⟩ := Option.filter_eq_some_iff.mp hn
    obtain rfl : .int n = v := by simpa using h
    obtain rfl : (toString n).toList = t := by simpa using hp
    exact .int n
  · obtain ⟨r, hr, rfl⟩ := Option.map_eq_some_iff.mp h
    obtain ⟨-, hp⟩ := Option.filter_eq_some_iff.mp hr
    obtain ⟨rfl, -⟩ : r = t ∧ _ := by simpa using hp
    exact .float r

/-- No character of a bare text has a meaning. -/
def Bare (t : Text) : Prop := ∀ c ∈ t, isStructural c = false

/-- A bare text has no structural character. -/
theorem Bare.ne {t : Text} (h : Bare t) {c d : Char} (hc : c ∈ t) (hd : isStructural d = true) :
    c ≠ d := by
  rintro rfl
  rw [h c hc] at hd
  cases hd

/-- A bare text stays bare without its first character. -/
theorem Bare.of_cons {c : Char} {t : Text} (h : Bare (c :: t)) : Bare t :=
  fun d hd => h d (.tail _ hd)

/-- Stripping adds no character. -/
theorem mem_of_mem_strip {t : Text} {c : Char} (h : c ∈ strip t) : c ∈ t :=
  ((List.rdropWhile_prefix ..).sublist.trans (List.dropWhile_sublist _)).subset h

/-- A bare text has no comment. -/
theorem beforeComment_bare {t : Text} (h : Bare t) (prev : Option Char) :
    beforeComment prev .out t = none := by
  induction t generalizing prev with
  | nil => rfl
  | cons c t ih =>
    have h1 := h.ne (.head _) (d := '#') (by decide)
    have h2 := h.ne (.head _) (d := '"') (by decide)
    have h3 := h.ne (.head _) (d := '\'') (by decide)
    simp [beforeComment, Quotes.next, h1, h2, h3, ih h.of_cons]

/-- A bare text is left by the comment stripper. -/
theorem stripInlineComment_bare {t : Text} (h : Bare t) : stripInlineComment t = t := by
  rw [stripInlineComment, beforeComment_bare h]

/-- A sign and digits that make an integer too large for a float. -/
def TooLarge (t : Text) : Prop := ∃ n, jsInt t = some n ∧ floatBound ≤ n.natAbs

/-- The integers a float cannot hold are those that are spelled too large. -/
theorem any_overflowsFloat_iff {t : Text} :
    (jsInt t).any overflowsFloat = true ↔ TooLarge t := by
  simp [Option.any_eq_true, overflowsFloat, TooLarge]

/-- A text that is no integer is not too large. -/
theorem not_tooLarge {t : Text} (h : jsInt t = none) : ¬ TooLarge t := by
  rintro ⟨n, hn, -⟩
  simp [h] at hn

theorem parseScalar_tilde : parseScalar ['~'] = .ok .null := by
  rw [parseScalar, show stripInlineComment ['~'] = ['~'] by decide]
  rfl

/-- A bare text is read as itself or as the scalar it spells, but for `~`; one that is too large is
not read at all. -/
theorem parseScalar_bare {t : Text} (h : Bare t) (ht : t ≠ ['~']) :
    parseScalar t = .error intTooLarge ∧ TooLarge t ∨
      ¬ TooLarge t ∧ ∃ v, parseScalar t = .ok v ∧ (v = .str t ∨ Spells v t) := by
  have hq : ∀ q, isStructural q = true → quotedBy q t = false := by
    intro q hs
    cases t with
    | nil => rfl
    | cons c t => simp [quotedBy, h.ne (.head _) hs]
  simp only [parseScalar, stripInlineComment_bare h, hq '"' (by decide), hq '\'' (by decide),
    Bool.false_eq_true, if_false]
  split_ifs with h1 h2 h3 h4
  · obtain rfl : t = "null".toList := h1.resolve_right ht
    exact .inr ⟨not_tooLarge (by decide), _, rfl, .inr .null⟩
  · subst h2
    exact .inr ⟨not_tooLarge (by decide), _, rfl, .inr .true⟩
  · subst h3
    exact .inr ⟨not_tooLarge (by decide), _, rfl, .inr .false⟩
  · exact .inl ⟨rfl, any_overflowsFloat_iff.mp h4⟩
  · refine .inr ⟨fun h => h4 (any_overflowsFloat_iff.mpr h), ?_⟩
    cases hn : jsNumber t with
    | some v => exact ⟨v, rfl, .inr (spells_jsNumber hn)⟩
    | none => exact ⟨_, rfl, .inl rfl⟩

/-- The reader finds a null or a scalar in a bare text. -/
theorem lineValue_bare {t : Text} (h : Bare t) :
    lineValue flowMapping t = if t = [] then .ok .null else parseScalar t := by
  cases t with
  | nil => rfl
  | cons c t =>
    have hne : ∀ {d : Char}, isStructural d = true → c ≠ d := fun hd => h.ne (.head _) hd
    rw [lineValue, if_neg (by simp [emptyRest, hne (d := '#') (by decide)]),
      if_neg (by simp [isBlockScalar, hne (d := '|') (by decide), hne (d := '>') (by decide)]),
      flowValue, stripInlineComment_bare h]
    simp [enclosed, hne (d := '[') (by decide), hne (d := '\x7b') (by decide)]

/-! ### The law -/

variable (flowMapping) in
/-- The reader gives the string back, or, where it is not quoted, the scalar it spells. -/
def ReadsBack (k s : Text) : Prop :=
  ∃ v, parseYaml flowMapping (k ++ ':' :: ' ' :: serializeYamlScalar (some s) false) =
      .ok (.map [(.str k, v)]) ∧
    (v = .str s ∨ needsQuoting s false = false ∧ Spells v s)

/-- A string is read back when it is quoted, or is not empty, has no white space at its ends, is no
`~` and no integer too large for a float. -/
theorem parseYaml_serialized_iff {k s : Text} (hk : identifierKey k = true) (hs : '\n' ∉ s) :
    ReadsBack flowMapping k s ↔
      needsQuoting s false = true ∨
        (s ≠ [] ∧ strip s = s ∧ s ≠ ['~'] ∧ ¬ TooLarge s) := by
  have hnl : '\n' ∉ ' ' :: serializeYamlScalar (some s) false := by
    simpa using newline_not_mem_serialize false hs
  have hstrip : strip (' ' :: serializeYamlScalar (some s) false) =
      strip (serializeYamlScalar (some s) false) :=
    strip_append_left (w := [' ']) (List.forall_mem_singleton.mpr (by decide))
  rw [ReadsBack, parseYaml_keyLine hk hnl, hstrip]
  by_cases hq : needsQuoting s false = true
  · have hval : serializeYamlScalar (some s) false = '\'' :: doubleQuotes s ++ ['\''] := by
      simp [serializeYamlScalar, hq]
    rw [hval, Lineage.strip_single, lineValue_single]
    exact iff_of_true ⟨_, rfl, .inl rfl⟩ (.inl hq)
  · have hval : serializeYamlScalar (some s) false = s := by simp [serializeYamlScalar, hq]
    have hbare : Bare s := by
      intro c hc
      simp only [needsQuoting, Bool.or_eq_true, not_or, List.any_eq_true, not_exists] at hq
      simpa [hc] using hq.1.1.1.1 c
    have hbare' : Bare (strip s) := fun c hc => hbare c (mem_of_mem_strip hc)
    rw [hval, lineValue_bare hbare']
    constructor
    · rintro ⟨v, hv, h⟩
      right
      split_ifs at hv with he
      · -- nothing but white space is null, which is spelled otherwise
        obtain rfl : .null = v := by simpa [Except.map] using hv
        rcases h with h | ⟨-, h⟩
        · cases h
        · rw [h.unique .null] at he
          exact absurd he (by decide)
      · by_cases htilde : strip s = ['~']
        · rw [htilde] at hv
          obtain rfl : .null = v := by simpa [Except.map, parseScalar_tilde] using hv
          rcases h with h | ⟨-, h⟩
          · cases h
          · rw [h.unique .null] at htilde
            exact absurd htilde (by decide)
        · obtain ⟨hp, -⟩ | ⟨hsmall, w, hp, hw⟩ := parseScalar_bare hbare' htilde
          · simp [hp, Except.map] at hv
          · obtain rfl : w = v := by simpa [hp, Except.map] using hv
            have hs' : strip s = s := by
              rcases hw with rfl | hw
              · rcases h with h | ⟨-, h⟩
                · exact Val.str.inj h
                · exact absurd h not_spells_str
              · rcases h with rfl | ⟨-, h⟩
                · exact absurd hw not_spells_str
                · exact hw.unique h
            rw [hs'] at he htilde hsmall
            exact ⟨he, hs', htilde, hsmall⟩
    · rintro (h | ⟨hne, hs', htilde, hsmall⟩)
      · exact absurd h hq
      · obtain ⟨-, hlarge⟩ | ⟨-, v, hp, hv⟩ := parseScalar_bare hbare htilde
        · exact absurd hlarge hsmall
        · rw [hs', if_neg hne, hp]
          exact ⟨v, rfl, hv.imp_right fun h => ⟨by simpa using hq, h⟩⟩

theorem parseYaml_serialized_iff_title :
    ReadsBack (fun _ => .ok none) "title".toList "it's a # \x7b[b]: 'c'".toList ↔
      needsQuoting "it's a # \x7b[b]: 'c'".toList false = true ∨
        ("it's a # \x7b[b]: 'c'".toList ≠ [] ∧
          strip "it's a # \x7b[b]: 'c'".toList = "it's a # \x7b[b]: 'c'".toList ∧
          "it's a # \x7b[b]: 'c'".toList ≠ ['~'] ∧
          ¬ TooLarge "it's a # \x7b[b]: 'c'".toList) :=
  parseYaml_serialized_iff (by decide) (by decide)

/-- A blank at the end is written bare, and lost. -/
theorem trailing_blank_is_lost :
    ¬ ∀ (flowMapping : Text → Except Text (Option Dict)) (k s : Text), identifierKey k = true →
      '\n' ∉ s → ReadsBack flowMapping k s := by
  intro h
  obtain ⟨v, hv, hread⟩ := h (fun _ => .ok none) "title".toList "a ".toList (by decide)
    (by decide)
  have hline : lineValue (fun _ => .ok none) (strip (' ' :: "a ".toList)) = .ok (.str ['a']) := rfl
  rw [show serializeYamlScalar (some "a ".toList) false = "a ".toList from rfl,
    parseYaml_keyLine (by decide) (by decide), hline] at hv
  obtain rfl : .str ['a'] = v := by simpa [Except.map] using hv
  rcases hread with h | ⟨-, h⟩
  · exact absurd (Val.str.inj h) (by decide)
  · exact absurd h not_spells_str

end RestrictedYaml

end CoordinatorCore
