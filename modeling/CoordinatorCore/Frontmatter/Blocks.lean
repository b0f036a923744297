import CoordinatorCore.Frontmatter.Primitives

/-!
# Fields of several lines

The primitives of `frontmatter/primitives.py` and of `ops/handoff_transition.py` that remove a
field, that handle the block of lines under a key, and that write a sequence as a flow sequence.
The block of a key is every line behind the key line that is empty, starts with a blank or is a
dash item; the empty line behind a final line feed is no line of it (`behindBlock`).
-/

namespace CoordinatorCore

open Text

namespace Frontmatter

/-! ### Removing a field -/

/-- `pattern.sub('', fm)` of `remove_fm_field`: every line carrying the key goes, with its line
feed where it has one. -/
def removeLines (key : Text) : List Text → List Text
  | [] => []
  | [l] => if (keyLine key l).isSome then [[]] else [l]
  | l :: m :: ls =>
    if (keyLine key l).isSome then removeLines key (m :: ls) else l :: removeLines key (m :: ls)

/-- The block-scalar refusal of `remove_fm_field`. -/
def removeBlockScalarGuard (key current : Text) : Text :=
  let truncated := if 40 < current.length then current.take 40 ++ "...".toList else current
  "remove_fm_field: field \"".toList ++ key ++ "\" uses a block-scalar YAML value (\"".toList ++
    truncated ++ ("\") — cannot safely remove single-line. " ++
      "Fix the frontmatter manually.").toList

/-- `remove_fm_field`; the error is the text of the `ValueError`. -/
def removeFmField (fm key : Text) : Except Text Text :=
  match readFmField fm key with
  | some ('>' :: cs) => .error (removeBlockScalarGuard key ('>' :: cs))
  | some ('|' :: cs) => .error (removeBlockScalarGuard key ('|' :: cs))
  | _ =>
    if isNestedBlockKey fm key then .error (nestedBlockGuard "remove_fm_field".toList key)
    else .ok (unlines (removeLines key (lines fm)))

/-! ### The block of a key -/

/-- A line that starts with a blank. -/
def indented (l : Text) : Bool := l.head?.any isBlank

/-- A line that `_locate_nested_block` takes into the block. -/
def nestedLine : Text → Bool
  | [] => true
  | ['-'] => true
  | '-' :: c :: _ => c == ' '
  | c :: _ => isBlank c

/-- The lines of the block, among the lines behind the key line. -/
def blockLines : List Text → List Text
  | [] => []
  | [[]] => []
  | l :: ls => if nestedLine l then l :: blockLines ls else []

/-- The lines behind the block. -/
def behindBlock : List Text → List Text
  | [] => []
  | [[]] => [[]]
  | l :: ls => if nestedLine l then behindBlock ls else l :: ls

/-- The lines of `fm[block_end:]`, where nothing is one empty line. -/
def orEmptyLine (ls : List Text) : List Text := if ls = [] then [[]] else ls

/-- `remove_fm_nested_field`. -/
def removeFmNestedField (fm key : Text) : Text :=
  match findKeyLine key (lines fm) with
  | none => fm
  | some (a, _, b) => unlines (a ++ orEmptyLine (behindBlock b))

/-- `write_fm_nested_field`, of a block given as its lines. -/
def writeFmNestedField (fm key : Text) (block : List Text) : Text :=
  match findKeyLine key (lines fm) with
  | none =>
    let trimmed := rstrip fm
    trimmed ++ (if trimmed = [] then [] else ['\n']) ++
      unlines ((key ++ [':']) :: block ++ [[]])
  | some (a, _, b) => unlines (a ++ (key ++ [':']) :: block ++ orEmptyLine (behindBlock b))

/-! ### Notes and retirement -/

def gateNotesKey : Text := "gate_notes".toList
def blockingNotesKey : Text := "blocking_notes".toList
def gateDependencyKey : Text := "gate_dependency".toList

/-- `_append_blocking_note`. -/
def appendBlockingNote (fm note anchorKey : Text) : Except Text Text :=
  if note = [] then .ok fm
  else
    let key := if (readFmField fm gateNotesKey).isSome then gateNotesKey else blockingNotesKey
    match readFmFieldUnquoted fm key with
    | none => .ok (insertFmField fm key (some note) (some anchorKey) false)
    | some [] => replaceFmField fm key (some note) false
    | some existing => replaceFmField fm key (some (existing ++ " | ".toList ++ note)) false

/-- `_retire_gate_dependency`. -/
def retireGateDependency (fm : Text) : Except Text Text :=
  match readFmFieldUnquoted fm gateDependencyKey with
  | none => removeFmField fm gateDependencyKey
  | some current =>
    (appendBlockingNote fm current gateDependencyKey).bind fun fm =>
      removeFmField fm gateDependencyKey

/-! ### Flow sequences -/

/-- One element of a flow sequence. -/
def quoteItem (s : Text) : Text := '\'' :: doubleQuotes s ++ ['\'']

/-- `_yaml_flow_seq`, of elements whose `str` is given. -/
def yamlFlowSeq (items : List Text) : Text :=
  '[' :: List.intercalate ", ".toList (items.map quoteItem) ++ [']']

/-- `_replace_fm_array_field`. -/
def replaceFmArrayField (fm key : Text) (items : List Text) : Text :=
  match findKeyLine key (lines fm) with
  | none => fm
  | some (a, rest, b) =>
    let cr := if rest.getLast? = some '\r' then ['\r'] else []
    unlines (a ++ (key ++ ':' :: ' ' :: yamlFlowSeq items ++ cr) :: behindBlock b)

/-- The new line of `_insert_fm_array_field` behind the block of its anchor. Behind a block that
ends the text without a line feed it is glued to the last line. -/
def insertBehindBlock (line : Text) (b : List Text) : List Text :=
  if b = [] then [line]
  else if behindBlock b = [] then
    (blockLines b).dropLast ++ [(blockLines b).getLastD [] ++ line, []]
  else blockLines b ++ line :: behindBlock b

/-- `_insert_fm_array_field`. -/
def insertFmArrayField (fm key : Text) (items : List Text) (afterKey : Text) : Text :=
  let newLine := key ++ ':' :: ' ' :: yamlFlowSeq items
  match findKeyLine afterKey (lines fm) with
  | some (a, rest, b) =>
    let cr := if rest.getLast? = some '\r' then ['\r'] else []
    unlines (a ++ (afterKey ++ ':' :: rest) :: insertBehindBlock (newLine ++ cr) b)
  | none =>
    let trimmed := rstrip fm
    let eol := if contains ['\r', '\n'] trimmed then ['\r', '\n'] else ['\n']
    trimmed ++ eol ++ newLine ++ eol

end Frontmatter

end CoordinatorCore
