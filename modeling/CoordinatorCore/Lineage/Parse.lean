import CoordinatorCore.Value
import CoordinatorCore.Frontmatter.Primitives
import CoordinatorCore.Text.Number

/-!
# The lineage parser

`dag.py` reads frontmatter with a line-oriented parser of its own, for the subset of YAML the
handoff records use: one key a line, block mappings and block lists by indentation, inline lists,
block scalars, and quoted scalars folded over several lines. A line it cannot classify is passed
over.

A loop over line numbers becomes a recursion on the remaining lines, and "the next line to look at"
a suffix of them. The three mutual parsers descend on the size of the lines they are given.
-/

namespace CoordinatorCore

open Text

namespace Lineage

/-! ### Scalars -/

/-- `_strip_inline_comment` behind the character `prev`: the text in front of the comment, if a
comment starts. `s` and `d` say whether the position is inside single or double quotes. -/
def beforeComment (prev : Option Char) (s d : Bool) : Text → Option Text
  | [] => none
  | c :: cs =>
    if c = '"' ∧ s = false then (beforeComment (some c) s (!d) cs).map (c :: ·)
    else if c = '\'' ∧ d = false then
      if s = true ∧ cs.head? = some '\'' then (beforeComment (some c) s d cs).map (c :: ·)
      else (beforeComment (some c) (!s) d cs).map (c :: ·)
    else if c = '#' ∧ s = false ∧ d = false ∧ prev.any isBlank ∧ cs.head?.all isBlank then some []
    else (beforeComment (some c) s d cs).map (c :: ·)

/-- `_strip_inline_comment`. -/
def stripInlineComment (text : Text) : Text :=
  match beforeComment none false false text with
  | some t => rstrip t
  | none => text

/-- `s.replace(ab, r)` for a pair of characters and one character. -/
def replacePair (a b r : Char) : Text → Text
  | c :: e :: cs => if c = a ∧ e = b then r :: replacePair a b r cs
    else c :: replacePair a b r (e :: cs)
  | cs => cs

/-- The text is at least two characters long, and the first and the last one are `q`. -/
def quotedBy (q : Char) (t : Text) : Bool :=
  2 ≤ t.length && t.head? == some q && t.getLast? == some q

/-- `_parse_scalar` on a text without comment and padding. -/
def scalarOf (t : Text) : Val :=
  if t = [] ∨ t = "null".toList ∨ t = "~".toList then .null
  else if t = "true".toList then .bool true
  else if t = "false".toList then .bool false
  else
    match (pyInt t).filter fun n => (toString n).toList = t with
    | some n => .int n
    | none =>
      match pyFloat t with
      | some r => .other .float r
      | none =>
        if quotedBy '"' t then
          .str (replacePair '\\' '\\' '\\' (replacePair '\\' '"' '"' (t.drop 1).dropLast))
        else if quotedBy '\'' t then .str (Frontmatter.undoubleQuotes (t.drop 1).dropLast)
        else .str t

/-- `_parse_scalar`. -/
def parseScalar (text : Text) : Val := scalarOf (strip (stripInlineComment text))

/-! ### Inline lists -/

/-- The loop of `_parse_inline_list`: the items between commas outside quotes. -/
def inlineItems (s d : Bool) (current : Text) : Text → List Text
  | [] => [strip current]
  | c :: cs =>
    if c = '"' ∧ s = false then inlineItems s (!d) (current ++ [c]) cs
    else if c = '\'' ∧ d = false then inlineItems (!s) d (current ++ [c]) cs
    else if c = ',' ∧ s = false ∧ d = false then strip current :: inlineItems s d [] cs
    else inlineItems s d (current ++ [c]) cs

/-- The text stands in brackets. -/
def bracketed (t : Text) : Bool := t.head? == some '[' && t.getLast? == some ']'

/-- `_parse_inline_list`. -/
def parseInlineList (text : Text) : List Val :=
  let t := strip text
  if bracketed t then
    let inner := strip (t.drop 1).dropLast
    ((inlineItems false false [] inner).filter fun item => item ≠ []).map parseScalar
  else []

/-! ### Lines -/

/-- `len(raw) - len(raw.lstrip())`. -/
def indentOf (raw : Text) : Nat := raw.length - (lstrip raw).length

/-- A blank line or a comment line. -/
def skippable (raw : Text) : Bool :=
  match strip raw with
  | [] => true
  | c :: _ => c == '#'

/-- The number of characters of the lines, line ends included. -/
def size : List Text → Nat
  | [] => 0
  | l :: ls => l.length + 1 + size ls

theorem size_le_of_sublist {a b : List Text} (h : a.Sublist b) : size a ≤ size b := by
  induction h with
  | slnil => exact le_rfl
  | cons l _ ih => rw [size]; omega
  | cons_cons l _ ih => rw [size, size]; omega

/-! ### Block scalars and folded quotes -/

/-- A chomping and an indentation indicator, in either order. -/
def blockIndicator : Text → Bool
  | [] => true
  | [c] => c == '+' || c == '-' || isDigit c
  | [c, e] => ((c == '+' || c == '-') && isDigit e) || (isDigit c && (e == '+' || e == '-'))
  | _ => false

/-- `_BLOCK_SCALAR_RE`. -/
def isBlockScalar : Text → Bool
  | [] => false
  | c :: t => (c == '|' || c == '>') && [0, 1, 2].any fun k =>
      blockIndicator (t.take k) &&
        match lstrip (t.drop k) with
        | [] => true
        | e :: _ => e == '#'

/-- A line that belongs to a block scalar under a key at `keyIndent`. -/
def inBlockScalar (keyIndent : Nat) (raw : Text) : Bool :=
  strip raw == [] || keyIndent < indentOf raw

/-- `_consume_block_scalar`: the text, and the lines behind it. -/
def consumeBlockScalar (keyIndent : Nat) (ls : List Text) : Text × List Text :=
  let body := (ls.takeWhile (inBlockScalar keyIndent)).map fun raw =>
    if strip raw = [] then [] else raw
  let trimmed := body.rdropWhile (· == [])
  let stripIndent := ((trimmed.find? fun l => strip l != []).map indentOf).getD 0
  (unlines (trimmed.map fun l => l.drop stripIndent), ls.dropWhile (inBlockScalar keyIndent))

/-- The loop of `_closes_quote`, behind the character `prev` of the body. -/
def closesBody (quote : Char) (prev : Option Char) : Text → Bool
  | [] => false
  | c :: cs =>
    if c ≠ quote then closesBody quote (some c) cs
    else if quote = '\'' then
      match cs with
      | '\'' :: cs' => closesBody quote (some '\'') cs'
      | _ => true
    else if prev = some '\\' then closesBody quote (some c) cs
    else true

/-- `_closes_quote`. -/
def closesQuote (quote : Char) (value : Text) : Bool := closesBody quote none (value.drop 1)

/-- The continuation lines of a quoted scalar that is still open, and the lines behind them. -/
def foldQuoted (quote : Char) : List Text → List Text × List Text
  | [] => ([], [])
  | l :: ls =>
    let s := strip l
    if s = [] then ([], l :: ls)
    else if closesQuote quote (quote :: s) then ([s], ls)
    else (s :: (foldQuoted quote ls).1, (foldQuoted quote ls).2)

theorem foldQuoted_suffix (quote : Char) (ls : List Text) : (foldQuoted quote ls).2 <:+ ls := by
  induction ls with
  | nil => exact List.suffix_rfl
  | cons l ls ih =>
    rw [foldQuoted]
    split_ifs with h₁ h₂
    · exact List.suffix_rfl
    · exact List.suffix_cons l ls
    · exact ih.trans (List.suffix_cons l ls)

/-! ### Blocks -/

/-- `_LIST_ENTRY_KEY_RE` on the text of a list item. -/
def listEntryKey : Text → Bool
  | [] => false
  | c :: cs => (c.isAlpha || c == '_') &&
      match lstrip (cs.dropWhile fun e => e.isAlphanum || e == '_' || e == '-') with
      | ':' :: [] => true
      | ':' :: e :: _ => isSpace e
      | _ => false

/-- The text of a list item, behind its dash. -/
def dashItem (raw : Text) : Option Text := (stripPrefix? "- ".toList (strip raw)).map strip

/-- The line a mapping entry of a list starts with, the dash replaced by padding. -/
def entryLine (raw item : Text) : Text := List.replicate (indentOf raw + 1) ' ' ++ item

/-- A continuation line of the list entry whose dash stands on `raw`. -/
def belongsTo (raw l : Text) : Bool := skippable l || indentOf raw < indentOf l

/-- A line of the block whose first line is `next`. -/
def nestedWith (next l : Text) : Bool := skippable l || indentOf next ≤ indentOf l

/-- The key and the rest of a line, at its first colon. -/
def keyAndRest (raw : Text) : Option (Text × Text) :=
  (cutAt [':'] (strip raw)).map fun m => (strip m.1, strip m.2)

/-- A comment, or nothing. -/
def emptyRest : Text → Bool
  | [] => true
  | c :: _ => c == '#'

/-- The value of a key whose rest of line is a scalar or an inline list, and the lines behind
it. -/
def parseRest (rest : Text) (ls : List Text) : Val × List Text :=
  if bracketed (stripInlineComment rest) then
    (.seq (parseInlineList (stripInlineComment rest)), ls)
  else
    match rest with
    | q :: _ =>
      if (q = '"' ∨ q = '\'') ∧ closesQuote q rest = false then
        (parseScalar ([' '].intercalate (rest :: (foldQuoted q ls).1)), (foldQuoted q ls).2)
      else (parseScalar rest, ls)
    | [] => (parseScalar rest, ls)

theorem parseRest_suffix (rest : Text) (ls : List Text) : (parseRest rest ls).2 <:+ ls := by
  unfold parseRest
  split_ifs
  · exact List.suffix_rfl
  · cases rest with
    | nil => exact List.suffix_rfl
    | cons q t =>
      dsimp only
      split_ifs
      · exact foldQuoted_suffix q ls
      · exact List.suffix_rfl

private theorem length_dashItem {raw item : Text} (h : dashItem raw = some item) :
    (entryLine raw item).length < raw.length := by
  obtain ⟨t, ht, rfl⟩ := Option.map_eq_some_iff.mp h
  have hraw : strip raw = "- ".toList ++ t := stripPrefix?_eq_some.mp ht
  have hlen : (strip raw).length = 2 + t.length := by rw [hraw]; simp; omega
  have hstrip : (strip raw).length ≤ (lstrip raw).length := by
    rw [strip]
    exact (List.rdropWhile_prefix ..).length_le
  have hl : (lstrip raw).length ≤ raw.length := (List.dropWhile_suffix _).length_le
  have hitem : (strip t).length ≤ t.length := by
    rw [strip]
    exact (List.rdropWhile_prefix ..).length_le.trans (List.dropWhile_suffix _).length_le
  rw [entryLine, List.length_append, List.length_replicate, indentOf]
  omega

mutual

/-- `_parse_yaml_block`. -/
def parseYamlBlock (ls : List Text) (baseIndent : Nat) : Val :=
  match ls.find? fun raw => !skippable raw with
  | none => .map []
  | some raw =>
    if indentOf raw < baseIndent then .map []
    else if (dashItem raw).isSome || strip raw == ['-'] then .seq (parseYamlListBlock ls baseIndent)
    else .map (parseYamlMappingBlock ls baseIndent [])
termination_by 2 * size ls + 1

/-- `_parse_yaml_list_block`. -/
def parseYamlListBlock (ls : List Text) (baseIndent : Nat) : List Val :=
  match ls with
  | [] => []
  | raw :: rest =>
    if skippable raw then parseYamlListBlock rest baseIndent
    else if indentOf raw < baseIndent then []
    else if strip raw = ['-'] then .null :: parseYamlListBlock rest baseIndent
    else
      match _ : dashItem raw with
      | none => parseYamlListBlock rest baseIndent
      | some item =>
        if listEntryKey item then
          .map (parseYamlMappingBlock (entryLine raw item :: rest.takeWhile (belongsTo raw))
              (indentOf raw + 1) []) ::
            parseYamlListBlock (rest.dropWhile (belongsTo raw)) baseIndent
        else parseScalar item :: parseYamlListBlock rest baseIndent
termination_by 2 * size ls
decreasing_by
  · simp only [size]; omega
  · simp only [size]; omega
  · simp only [size]; omega
  · have hitem := length_dashItem ‹dashItem raw = some item›
    have htake := size_le_of_sublist (List.takeWhile_sublist (l := rest) (belongsTo raw))
    simp only [size]
    omega
  · have hdrop := size_le_of_sublist (List.dropWhile_sublist (l := rest) (belongsTo raw))
    simp only [size]
    omega
  · simp only [size]; omega

/-- `_parse_yaml_mapping_block`, with the entries read so far. -/
def parseYamlMappingBlock (ls : List Text) (baseIndent : Nat) (result : Dict) : Dict :=
  match ls with
  | [] => result
  | raw :: rest =>
    if skippable raw then parseYamlMappingBlock rest baseIndent result
    else if indentOf raw < baseIndent then result
    else
      match keyAndRest raw with
      | none => parseYamlMappingBlock rest baseIndent result
      | some (key, value) =>
        if emptyRest value then
          match _ : rest.dropWhile skippable with
          | [] => parseYamlMappingBlock rest baseIndent (result.set key .null)
          | next :: more =>
            if indentOf raw < indentOf next then
              parseYamlMappingBlock ((next :: more).dropWhile (nestedWith next)) baseIndent
                (result.set key (parseYamlBlock (next :: more) (indentOf next)))
            else parseYamlMappingBlock rest baseIndent (result.set key .null)
        else if isBlockScalar value then
          let consumed := consumeBlockScalar (indentOf raw) rest
          parseYamlMappingBlock consumed.2 baseIndent (result.set key (.str consumed.1))
        else
          let parsed := parseRest value rest
          parseYamlMappingBlock parsed.2 baseIndent (result.set key parsed.1)
termination_by 2 * size ls
decreasing_by
  · simp only [size]; omega
  · simp only [size]; omega
  · simp only [size]; omega
  · have hrest := size_le_of_sublist (List.dropWhile_sublist (l := rest) skippable)
    rw [‹rest.dropWhile skippable = next :: more›] at hrest
    simp only [size] at hrest ⊢
    omega
  · have hrest := size_le_of_sublist (List.dropWhile_sublist (l := rest) skippable)
    rw [‹rest.dropWhile skippable = next :: more›] at hrest
    have hdrop := size_le_of_sublist (List.dropWhile_sublist (l := next :: more) (nestedWith next))
    simp only [size] at hrest hdrop ⊢
    omega
  · simp only [size]; omega
  · have hrest := size_le_of_sublist
      (List.dropWhile_sublist (l := rest) (inBlockScalar (indentOf raw)))
    simp only [size, consumeBlockScalar]
    omega
  · have hrest := size_le_of_sublist (parseRest_suffix value rest).sublist
    simp only [size]
    omega

end

/-! ### The document -/

/-- The text behind the leading whitespace and comments; `none` when a comment is not closed. -/
def skipPrologue (t : Text) : Option Text :=
  match _ : stripPrefix? "<!--".toList (lstrip t) with
  | none => some (lstrip t)
  | some u =>
    match _ : cutAt "-->".toList u with
    | none => none
    | some (_, v) => skipPrologue v
termination_by t.length
decreasing_by
  have ht : (lstrip t).length ≤ t.length := (List.dropWhile_suffix _).length_le
  rw [stripPrefix?_eq_some.mp ‹stripPrefix? "<!--".toList (lstrip t) = some u›,
    eq_of_cutAt ‹cutAt "-->".toList u = some _›] at ht
  simp only [List.length_append] at ht
  have hopen : "<!--".toList.length = 4 := rfl
  omega

/-- `^---\s*$` on one line. -/
def isTerminator (l : Text) : Bool := (stripPrefix? "---".toList l).any fun r => r.all isSpace

/-- The frontmatter of a document, as the lines between its delimiters; the last of them is the
empty one in front of the closing delimiter. -/
def frontmatterLines (content : Text) : Option (List Text) :=
  match skipPrologue content with
  | none => none
  | some t =>
    match stripPrefix? "---".toList t with
    | none => none
    | some afterFirst =>
      match cutAt ['\n'] afterFirst with
      | none => none
      | some (opening, rest) =>
        if strip opening ≠ [] then none
        else if (lines rest).any isTerminator then
          some ((lines rest).takeWhile (fun l => !isTerminator l) ++ [[]])
        else none

/-- `_parse_frontmatter`. -/
def parseFrontmatter (content : Text) : Dict :=
  match frontmatterLines content with
  | none => []
  | some ls => parseYamlMappingBlock ls 0 []

end Lineage

end CoordinatorCore
