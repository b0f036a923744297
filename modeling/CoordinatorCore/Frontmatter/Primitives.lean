import CoordinatorCore.Text.Basic

/-!
# Single-line frontmatter fields

The field primitives of `frontmatter/primitives.py`: reading `key:` off a frontmatter text,
the scalar serializer, and the three writers that edit one line in place. A frontmatter text
is a `Text`, and every pattern of the module is anchored by the multiline `^` and `$`, so each
function is written over `Text.lines`.

The one shared pattern is `^key:(?=[ \t]|\r?$)`. It is `keyLine`: the text behind the colon
when the line carries the key, so that `status` never matches `status_message:`. The capture
groups of the readers differ only in the padding `[ \t]*` and the `\r?` around the value, all
of which the final `.strip()` removes, so `readFmField` strips the whole rest of the line.
-/

namespace CoordinatorCore

open Text

namespace Frontmatter

/-! ### The key line -/

/-- The lookahead `(?=[ \t]|\r?$)` at the position just behind the colon. -/
def boundary : Text → Bool
  | [] => true
  | ['\r'] => true
  | c :: _ => isBlank c

/-- `^key:(?=[ \t]|\r?$)` on one line: the text behind the colon. -/
def keyLine (key line : Text) : Option Text :=
  (stripPrefix? (key ++ [':']) line).filter boundary

/-- The first line carrying `key`, as the lines before it, its rest and the lines behind it. -/
def findKeyLine (key : Text) : List Text → Option (List Text × Text × List Text)
  | [] => none
  | l :: ls =>
    match keyLine key l with
    | some rest => some ([], rest, ls)
    | none => (findKeyLine key ls).map fun m => (l :: m.1, m.2)

/-- `read_fm_field`. -/
def readFmField (fm key : Text) : Option Text :=
  (findKeyLine key (lines fm)).map fun m => strip m.2.1

/-! ### Scalars -/

/-- `s.replace("'", "''")`. -/
def doubleQuotes (s : Text) : Text :=
  s.flatMap fun c => if c = '\'' then ['\'', '\''] else [c]

/-- `s.replace("''", "'")`. -/
def undoubleQuotes : Text → Text
  | '\'' :: '\'' :: cs => '\'' :: undoubleQuotes cs
  | c :: cs => c :: undoubleQuotes cs
  | [] => []

/-- `unquote_yaml_scalar`. -/
def unquoteYamlScalar (raw : Text) : Text :=
  if 2 ≤ raw.length ∧ raw.head? = some '\'' ∧ raw.getLast? = some '\'' then
    undoubleQuotes (raw.drop 1).dropLast
  else if 2 ≤ raw.length ∧ raw.head? = some '"' ∧ raw.getLast? = some '"' then
    (raw.drop 1).dropLast
  else raw

/-- The characters of `_STRUCTURAL_RE`. -/
def isStructural (c : Char) : Bool :=
  "#:\x7b\x7d[],&*!|>\"'%@`".toList.contains c

/-- The text a `$`-anchored `match` without the multiline flag sees: one final `'\n'` is
outside the match. -/
def chopFinalNewline (s : Text) : Text :=
  if s.getLast? = some '\n' then s.dropLast else s

/-- `_ALL_NUMERIC_RE`. -/
def allNumeric (s : Text) : Bool :=
  let t := chopFinalNewline s
  !t.isEmpty && t.all isDigit

/-- `_SCIENTIFIC_RE`. -/
def scientific (s : Text) : Bool :=
  let t := chopFinalNewline s
  match t.dropWhile isDigit with
  | [] => false
  | e :: ds => !(t.takeWhile isDigit).isEmpty && (e == 'e' || e == 'E') &&
      !ds.isEmpty && ds.all isDigit

/-- The quoting decision of `serialize_yaml_scalar` on `str(v)`. -/
def needsQuoting (s : Text) (numericQuoting : Bool) : Bool :=
  s.any isStructural || s.head? == some '-' || s.head? == some '?' || s.head? == some ' ' ||
    (numericQuoting && (allNumeric s || scientific s))

/-- `serialize_yaml_scalar`; `none` is `None` and `some s` a value whose `str` is `s`. -/
def serializeYamlScalar (v : Option Text) (numericQuoting : Bool) : Text :=
  match v with
  | none => "null".toList
  | some s =>
    if needsQuoting s numericQuoting then '\'' :: doubleQuotes s ++ ['\''] else s

/-! ### Trailing comments -/

/-- The single-quoted scalar behind its opening quote, with its closing quote, and the tail. -/
def scanSingle : Text → Text × Text
  | [] => ([], [])
  | '\'' :: '\'' :: cs => ('\'' :: '\'' :: (scanSingle cs).1, (scanSingle cs).2)
  | '\'' :: cs => (['\''], cs)
  | c :: cs => (c :: (scanSingle cs).1, (scanSingle cs).2)

/-- The double-quoted scalar behind its opening quote, with its closing quote, and the tail. -/
def scanDouble : Text → Text × Text
  | [] => ([], [])
  | '"' :: cs => (['"'], cs)
  | '\\' :: c :: cs => ('\\' :: c :: (scanDouble cs).1, (scanDouble cs).2)
  | c :: cs => (c :: (scanDouble cs).1, (scanDouble cs).2)

/-- `raw[:quoted_end]` and `raw[quoted_end:]`. -/
def quotedPrefix : Text → Text × Text
  | '\'' :: cs => ('\'' :: (scanSingle cs).1, (scanSingle cs).2)
  | '"' :: cs => ('"' :: (scanDouble cs).1, (scanDouble cs).2)
  | raw => ([], raw)

/-- The split at the first `#` that starts the text or follows `[ \t]`; `b` says whether the
position is such a start. -/
def commentSplit : Bool → Text → Option (Text × Text)
  | _, [] => none
  | b, c :: cs =>
    if b = true ∧ c = '#' then some ([], c :: cs)
    else (commentSplit (isBlank c) cs).map fun p => (c :: p.1, p.2)

/-- `_split_trailing_comment`. -/
def splitTrailingComment (raw : Text) : Text × Text :=
  let q := quotedPrefix raw
  match commentSplit true q.2 with
  | none => (raw, [])
  | some (before, comment) =>
    let valueWithPad := q.1 ++ before
    let value := rstrip valueWithPad
    (value, valueWithPad.drop value.length ++ comment)

/-- `_strip_trailing_comment`. -/
def stripTrailingComment (raw : Text) : Text := (splitTrailingComment raw).1

/-- `read_fm_field_unquoted`. -/
def readFmFieldUnquoted (fm key : Text) : Option Text :=
  (readFmField fm key).map fun raw => unquoteYamlScalar (stripTrailingComment raw)

/-! ### Writers -/

/-- The group `(.*?)(\r?)$` on the rest of a line: the rest without one final `'\r'`, and it. -/
def splitCr (rest : Text) : Text × Text :=
  if rest.getLast? = some '\r' then (rest.dropLast, ['\r']) else (rest, [])

/-- The captured rest of a key line, cut into its leading `[ \t]` run and the split of what
follows it into old value and comment. -/
def oldParts (rest : Text) : Text × Text × Text :=
  let body := (splitCr rest).1
  (body.takeWhile isBlank, splitTrailingComment (body.dropWhile isBlank))

/-- `_sub` of `replace_fm_field_raw` on the rest of one matching line. -/
def rewriteRest (rawValue rest : Text) : Text :=
  let (leadingWs, oldValue, commentSuffix) := oldParts rest
  let newRest :=
    if commentSuffix = [] then (if leadingWs = [] then [' '] else leadingWs) ++ rawValue
    else if oldValue = [] then ' ' :: rawValue ++ leadingWs ++ commentSuffix
    else leadingWs ++ rawValue ++ commentSuffix
  newRest ++ (splitCr rest).2

/-- The substitution of `replace_fm_field_raw` on one line. -/
def replaceLine (key rawValue line : Text) : Text :=
  match keyLine key line with
  | some rest => key ++ ':' :: rewriteRest rawValue rest
  | none => line

/-- `replace_fm_field_raw`: every line carrying the key is rewritten. -/
def replaceFmFieldRaw (fm key rawValue : Text) : Text :=
  unlines ((lines fm).map (replaceLine key rawValue))

/-- `_is_nested_block_key`. -/
def isNestedBlockKey (fm key : Text) : Bool :=
  match findKeyLine key (lines fm) with
  | none => false
  | some (_, rest, after) =>
    strip rest == [] &&
      match after with
      | (c :: _) :: _ => isBlank c || c == '-'
      | _ => false

/-- The message of `_raise_nested_block_guard`. -/
def nestedBlockGuard (fnName key : Text) : Text :=
  fnName ++ ": field \"".toList ++ key ++
    ("\" holds a nested YAML block (sequence-of-mappings, e.g. gate_evidence:) — mutating only " ++
      "the key line would silently orphan its indented continuation lines. Use ").toList ++
    (if fnName = "remove_fm_field".toList then "remove_fm_nested_field".toList
      else "write_fm_nested_field".toList) ++
    "(fm, \"".toList ++ key ++ "\", ...) instead.".toList

/-- The block-scalar refusal of `replace_fm_field`. -/
def blockScalarGuard (key current : Text) : Text :=
  let truncated := if 40 < current.length then current.take 40 ++ "...".toList else current
  "replace_fm_field: field \"".toList ++ key ++ "\" uses a block-scalar YAML value (\"".toList ++
    truncated ++ "\") — a single-line replace would truncate it. To add a line, use ".toList ++
    "append_fm_block_scalar_line(fm, \"".toList ++ key ++ "\", ...).".toList

/-- `replace_fm_field`; the error is the text of the `ValueError`. -/
def replaceFmField (fm key : Text) (v : Option Text) (numericQuoting : Bool) :
    Except Text Text :=
  match readFmField fm key with
  | some ('>' :: cs) => .error (blockScalarGuard key ('>' :: cs))
  | some ('|' :: cs) => .error (blockScalarGuard key ('|' :: cs))
  | _ =>
    if isNestedBlockKey fm key then .error (nestedBlockGuard "replace_fm_field".toList key)
    else .ok (replaceFmFieldRaw fm key (serializeYamlScalar v numericQuoting))

/-- The line `insert_fm_field` writes. -/
def newLine (key : Text) (v : Option Text) (numericQuoting : Bool) : Text :=
  key ++ ':' :: ' ' :: serializeYamlScalar v numericQuoting

/-- The append-only branch of `insert_fm_field`; the line ending is the one of the original. -/
def appendField (fm line : Text) : Text :=
  let eol := if contains ['\r', '\n'] fm then ['\r', '\n'] else ['\n']
  rstrip fm ++ eol ++ line ++ eol

/-- The anchored branch of `insert_fm_field`: the new line goes behind the first line carrying
the anchor and takes over its final `'\r'`. -/
def insertAfter (anchor line : Text) (m : List Text × Text × List Text) : Text :=
  let cr := if m.2.1.getLast? = some '\r' then ['\r'] else []
  unlines (m.1 ++ (anchor ++ ':' :: m.2.1) :: (line ++ cr) :: m.2.2)

/-- `insert_fm_field`. -/
def insertFmField (fm key : Text) (v : Option Text) (afterKey : Option Text)
    (numericQuoting : Bool) : Text :=
  match afterKey.bind fun a => (findKeyLine a (lines fm)).map fun m => (a, m) with
  | some (a, m) => insertAfter a (newLine key v numericQuoting) m
  | none => appendField fm (newLine key v numericQuoting)

end Frontmatter

end CoordinatorCore
