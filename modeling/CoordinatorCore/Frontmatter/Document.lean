import CoordinatorCore.BodyBlocks
import CoordinatorCore.Text.Lines
import CoordinatorCore.Value

/-!
# The frontmatter of a document

Two readers delimit the frontmatter of a plan. `splitFrontmatter` is the one of the writers: it
normalises line ends and hands back the parts that `rebuild` puts together again.
`frontmatterBlock` is the delimiting half of `parse_frontmatter`, the one of the checks; the YAML
reader behind it is a parameter.
-/

namespace CoordinatorCore

open Text

namespace Frontmatter

/-! ### Splitting and rebuilding -/

structure FrontmatterSplit where
  /-- Blank lines and comments in front of the opening delimiter. -/
  preamble : Text
  fmText : Text
  /-- Everything behind the closing delimiter, its line end included. -/
  bodyWithLeadingNewline : Text
  deriving DecidableEq

/-- `^---[ \t]*\n` at the front of `s`. -/
def opensDelimiter (s : Text) : Bool :=
  match stripPrefix? "---".toList s with
  | some r => (r.dropWhile isBlank).head? == some '\n'
  | none => false

/-- `^---[ \t]*$` at the front of a line: the length of the match. -/
def closeDelimiter (s : Text) : Option Nat :=
  (stripPrefix? "---".toList s).bind fun r =>
    let rest := r.dropWhile isBlank
    if rest = [] ∨ rest.head? = some '\n' then some (3 + (r.takeWhile isBlank).length) else none

/-- One round of the group of `_PREAMBLE_RE`: a blank line, or a comment with the rest of its
line. The text behind it. -/
def preambleRound (s : Text) : Option Text :=
  let r := s.dropWhile isBlank
  let blank : Option Text :=
    match r with
    | '\n' :: t => some t
    | '\r' :: '\n' :: t => some t
    | _ => none
  match blank with
  | some t => some t
  | none =>
    (stripPrefix? BodyBlocks.commentOpen r).bind fun t =>
      (cutAt BodyBlocks.commentClose t).map fun m =>
        match m.2.dropWhile isBlank with
        | '\r' :: '\n' :: u => u
        | '\r' :: u => u
        | '\n' :: u => u
        | u => u

/-- `_PREAMBLE_RE.match`: the text behind the longest preamble, in at most `n` rounds. -/
def dropPreamble : Nat → Text → Text
  | 0, s => s
  | n + 1, s =>
    match preambleRound s with
    | some t => dropPreamble n t
    | none => s

/-- `split_frontmatter`. -/
def splitFrontmatter (text : Text) : Option FrontmatterSplit :=
  let text := crlfToLf text
  let after := if opensDelimiter text then text else dropPreamble text.length text
  if opensDelimiter after then
    (cutAt ['\n'] (after.drop 3)).bind fun m =>
      (BodyBlocks.lineSearch closeDelimiter true m.2).map fun c =>
        { preamble := text.take (text.length - after.length)
          fmText := m.2.take c.1
          bodyWithLeadingNewline := m.2.drop (c.1 + c.2) }
  else none

/-- `rebuild`. -/
def rebuild (split : FrontmatterSplit) (fmText : Text) : Text :=
  let fmNormalized := if endsWithNewline fmText then fmText else fmText ++ ['\n']
  split.preamble ++ "---\n".toList ++ fmNormalized ++ "---".toList ++ split.bodyWithLeadingNewline

/-! ### Parsing -/

/-- The leading white space and comments that `parse_frontmatter` skips, in at most `n` rounds;
`none` is a comment without an end. -/
def skipComments : Nat → Text → Option Text
  | 0, s => some s
  | n + 1, s =>
    match stripPrefix? BodyBlocks.commentOpen (lstrip s) with
    | none => some (lstrip s)
    | some r =>
      match cutAt BodyBlocks.commentClose r with
      | none => none
      | some m => skipComments n m.2

/-- `^---\s*$` at the front of a line: the length of the match. -/
def parseCloseDelimiter (s : Text) : Option Nat :=
  (stripPrefix? "---".toList s).bind fun r => (BodyBlocks.spaceToEol r).map (3 + ·)

/-- The YAML block that `parse_frontmatter` delimits. -/
def frontmatterBlock (content : Text) : Option Text :=
  (skipComments content.length content).bind fun remaining =>
    (stripPrefix? "---".toList remaining).bind fun afterFirst =>
      (cutAt ['\n'] afterFirst).bind fun m =>
        if strip m.1 ≠ [] then none
        else (BodyBlocks.lineSearch parseCloseDelimiter true m.2).map fun c => m.2.take c.1

/-- `parse_frontmatter(content)["frontmatter"]`, over the YAML reader `parseYaml`. -/
def parseFrontmatter (parseYaml : Text → Option Val) (content : Text) : Option Dict :=
  (frontmatterBlock content).bind fun block =>
    (parseYaml block).bind fun v => v.asDict.filter fun d => !d.isEmpty

end Frontmatter

end CoordinatorCore
