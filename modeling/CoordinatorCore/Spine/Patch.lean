import CoordinatorCore.Spine.Rows
import CoordinatorCore.Text.Lines

/-!
# Patching the spine body

`_patch_body` of `ops/plan_tasks_mutate.py`: a verb that changes a few rows writes those rows
anew and keeps the bytes of the others. The body is cut at its top-level `- ` lines; the cut is
trusted only when every chunk loads to its row, and otherwise the whole body is dumped.

The YAML reader and writer are parameters (`Engine`), together with the parts of the row
validator and of the Unicode tables that no function here computes.
-/

namespace CoordinatorCore

open Text

/-- What the verbs call and this development does not compute. -/
structure Engine where
  /-- `_load_spine_yaml`; `none` is a `YAMLError`. -/
  loadSpineYaml : Text → Option Val
  /-- `yaml.safe_load`. -/
  safeLoad : Text → Option Val
  /-- `_dump_rows`. -/
  dumpRows : List Val → Text
  /-- `yaml.safe_dump([item], sort_keys=False, allow_unicode=True, width=10_000)`. -/
  dumpGateItem : Dict → Text
  /-- `parse_yaml`, the frontmatter reader; `none` is any exception. -/
  parseYaml : Text → Option Val
  /-- `plan_tasks_row_errors` reports nothing, for `governed` and `plan_created`. -/
  rowShapeOk : Bool → Val → Dict → Bool
  /-- `str.isalnum` beyond ASCII. -/
  isAlnum : Char → Bool
  /-- `str.casefold`. -/
  casefold : Text → Text
  /-- `str(value)` of a value that is no string. -/
  strOf : Val → Text
  /-- `hashlib.sha256(payload.encode("utf-8")).hexdigest()`. -/
  sha256 : Text → Text

namespace Spine

variable (E : Engine)

/-- `str(value)`. -/
def pyStr (v : Val) : Text :=
  match v with
  | .str s => s
  | v => E.strOf v

/-- `str(value or "").strip()`. -/
def strippedStr (v : Val) : Text := if v.truthy then strip (pyStr E v) else []

/-! ### Chunks -/

/-- A line that starts a top-level row. -/
def startsRow (ln : Text) : Bool := "- ".toList.isPrefixOf ln || rstripNewline ln == ['-']

/-- Group the lines so that each row start opens a group. -/
def groupRows : List Text → List (List Text)
  | [] => []
  | ln :: lns =>
    if startsRow ln then (ln :: lns.takeWhile fun l => !startsRow l) :: groupRows lns
    else groupRows lns

/-- `_split_row_chunks`: the preamble, and one chunk a row. -/
def splitRowChunks (body : Text) : Text × List Text :=
  let lines := splitlinesKeep body
  ((lines.takeWhile fun l => !startsRow l).flatten, (groupRows lines).map List.flatten)

/-- `\w`. -/
def isWord (c : Char) : Bool := c.isAlphanum || c == '_' || (128 ≤ c.toNat && E.isAlnum c)

/-- `_ROW_KEY_RE` on a line: the prefix and the key. -/
def rowKey (ln : Text) : Option (Text × Text) :=
  let key : Text → Option Text := fun r =>
    match r with
    | c :: cs =>
      if c.isAlpha || c == '_' then
        let rest := cs.dropWhile fun c => isWord E c || c == '-'
        match rest with
        | [':'] => some (c :: cs.takeWhile fun c => isWord E c || c == '-')
        | ':' :: d :: _ =>
          if isSpace d then some (c :: cs.takeWhile fun c => isWord E c || c == '-') else none
        | _ => none
      else none
    | [] => none
  match stripPrefix? "- ".toList ln with
  | some r => (key r).map fun k => ("- ".toList, k)
  | none => (stripPrefix? "  ".toList ln).bind fun r => (key r).map fun k => ("  ".toList, k)

/-! ### Patching one chunk -/

/-- `_keys_added_after`: the entries new in `row` that follow `key`, up to a key `orig` had. -/
def keysAddedAfter (key : Text) (orig row : Dict) : Dict :=
  if row.mem key then
    ((row.dropWhile fun e => !Dict.hasKey key e).drop 1).takeWhile fun e =>
      !orig.any fun o => o.1.pyEq e.1
  else []

/-- One key of the row as the chunk writes it. -/
def renderKey (pre : Text) (e : Val × Val) : Text := pre ++ (E.dumpRows [.map [e]]).drop 2

/-- The loop over the key lines of a chunk, from line `pos` on. -/
def patchKeys (orig row : Dict) (force : Option Text) (lines : List Text) (stops : List Nat) :
    List (Nat × Text × Text) → Nat → Text
  | [], pos => (lines.drop pos).flatten
  | (i, pre, key) :: starts, pos =>
    let stop := (stops.find? fun j => i < j).getD lines.length
    let kept : Text :=
      if !row.mem key then []
      else if (row.get key).pyEq (orig.get key) && force != some key then
        ((lines.take stop).drop i).flatten
      else renderKey E pre (.str key, row.get key)
    let added : Text := (keysAddedAfter key orig row).flatMap (renderKey E "  ".toList)
    ((lines.take i).drop pos).flatten ++ kept ++ added ++
      patchKeys orig row force lines stops starts stop

/-- `_patch_row_chunk`. -/
def patchRowChunk (chunk : Text) (orig row : Dict) : Option Text :=
  -- a last line without its end is rendered anew, with its whole key
  let force : Option Text :=
    if endsWithNewline chunk then none
    else (((splitlines chunk).filterMap (rowKey E)).map (·.2)).getLast?
  let lines := splitlinesKeep (if endsWithNewline chunk then chunk else chunk ++ ['\n'])
  let starts := lines.zipIdx.filterMap fun (ln, i) => (rowKey E ln).map fun k => (i, k.1, k.2)
  if starts.length == orig.length &&
      (starts.zip orig).all fun (s, e) => e.1.pyEq (.str s.2.2) then
    let stops := (lines.zipIdx.filter fun (ln, _) =>
      (rowKey E ln).isSome || "  #".toList.isPrefixOf ln).map (·.2)
    let patched := patchKeys E orig row force lines stops starts 0
    if starts.isEmpty || !"- ".toList.isPrefixOf patched then none
    else
      match E.loadSpineYaml patched with
      | some v => if v.pyEq (.seq [.map row]) then some patched else none
      | none => none
  else none

/-! ### Patching the body -/

/-- `_chunk_parses_to`. -/
def chunkParsesTo (chunk : Text) (orig : Val) : Bool :=
  match E.loadSpineYaml chunk with
  | some v => v.pyEq (.seq [orig])
  | none => false

/-- `r.get("id") if isinstance(r, dict) else None`. -/
def idOrNone (v : Val) : Val := (v.asDict.map rowId).getD .null

/-- Pairwise distinct as the members of a set. -/
def distinct : List Val → Bool
  | [] => true
  | v :: vs => !vs.any (fun w => v.pyEq w) && distinct vs

/-- The text of one row in the patched body. -/
def patchRow (kept : Option (Val × Text)) (row : Val) : Text :=
  let text :=
    match kept, row.asDict with
    | some (orig, chunk), some d =>
      if orig.pyEq row then chunk
      else ((orig.asDict.bind fun o => patchRowChunk E chunk o d).getD (E.dumpRows [row]))
    | _, _ => E.dumpRows [row]
  if endsWithNewline text then text else text ++ ['\n']

/-- `_patch_body`; `none` is an id that cannot be a set member. -/
def patchBody (body : Text) (originalRows rows : List Val) : Option Text :=
  let (preamble, chunks) := splitRowChunks body
  let ids := originalRows.map idOrNone
  if chunks.length != originalRows.length || ids.any (·.pyEq .null) then some (E.dumpRows rows)
  else if !ids.all Val.hashable then none
  else if !distinct ids || !(chunks.zip originalRows).all (fun (c, o) => chunkParsesTo E c o) then
    some (E.dumpRows rows)
  else
    let byId := originalRows.zip chunks
    let out := rows.map fun row =>
      patchRow E (byId.find? fun e => row.asDict.isSome && (idOrNone e.1).pyEq (idOrNone row)) row
    let patched := preamble ++ out.flatten
    some (if !endsWithNewline body && endsWithNewline patched then patched.dropLast else patched)

end Spine

end CoordinatorCore
