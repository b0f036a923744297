import CoordinatorCore.Lineage.Parse

/-!
# The restricted YAML reader

`parse_yaml` of `frontmatter/schema_validate.py`, the reader the record validator works with. It is
a sister of the lineage parser: the same line kinds and block scalars, but with comments that need
white space on both sides, numbers that must print as they are spelled, quoted scalars folded over
any lines, and lists whose items are scanned twice, by `_parse_list` for the values and by
`_skip_past` for the line behind them.

As there, a loop over line numbers is a recursion on the remaining lines. A parse returns the lines
it leaves together with the bound that makes the recursion end.
-/

namespace CoordinatorCore

open Text

namespace RestrictedYaml

open Lineage (indentOf skippable size isBlockScalar consumeBlockScalar inBlockScalar keyAndRest
  emptyRest quotedBy dashItem size_le_of_sublist)

/-! ### Scalars -/

/-- Where `_strip_inline_comment` stands: outside of quotes, inside, or at the second character of a
doubled single quote. -/
inductive Quotes
  | out
  | single
  | double
  | escaped
deriving DecidableEq

/-- The position behind `c`, with `cs` to come. -/
def Quotes.next (q : Quotes) (c : Char) (cs : Text) : Quotes :=
  match q with
  | .out => if c = '"' then .double else if c = '\'' then .single else .out
  | .single =>
    if c = '\'' then
      if cs.head? = some '\'' then .escaped else .out
    else .single
  | .double => if c = '"' then .out else .double
  | .escaped => .single

/-- The text in front of the comment, if a comment starts behind the character `prev`. -/
def beforeComment (prev : Option Char) (q : Quotes) : Text → Option Text
  | [] => none
  | c :: cs =>
    if q = .out ∧ c = '#' ∧ prev.all isSpace ∧ cs.head?.all isSpace then some []
    else (beforeComment (some c) (q.next c cs) cs).map (c :: ·)

/-- `_strip_inline_comment`. -/
def stripInlineComment (text : Text) : Text :=
  match beforeComment none .out text with
  | some t => rstrip t
  | none => text

/-- A float that `_js_number_str` prints as an integer: it is whole, and below `10 ^ 21`. -/
def jsIntegral (r : Text) : Bool :=
  r.rdropWhile (· == '0') != r && (r.rdropWhile (· == '0')).getLast? == some '.' ||
    (cutAt "e+".toList r).any fun m => digitsValue m.2 < 21

/-- `int(text)` where `_js_number` calls it: on a sign and digits of any script. -/
def jsInt (text : Text) : Option Int := pyInt ((strip text).map asciiDigit)

/-- `_js_number(text)`, where it is finite and prints as the text. -/
def jsNumber (text : Text) : Option Val :=
  match (jsInt text).filter fun n => (toString n).toList = text with
  | some n => some (.int n)
  | none =>
    ((pyFloat (strip text)).filter fun r => r = text ∧ jsIntegral r = false).map (.other .float)

/-- The least integer that rounds to `2 ^ 1024`, which is no float any more. -/
def floatBound : ℕ := 2 ^ 1024 - 2 ^ 970

example : (toBinary64 floatBound 1).isNone ∧ (toBinary64 (floatBound - 1) 1).isSome := by
  decide +kernel

/-- `math.isfinite` raises on the integer, which is too large for a float. -/
def overflowsFloat (n : Int) : Bool := decide (floatBound ≤ n.natAbs)

/-- The `OverflowError` of `math.isfinite`. -/
def intTooLarge : Text := "int too large to convert to float".toList

/-- `_parse_scalar`. -/
def parseScalar (text : Text) : Except Text Val :=
  let t := stripInlineComment text
  if t = "null".toList ∨ t = "~".toList then .ok .null
  else if t = "true".toList then .ok (.bool true)
  else if t = "false".toList then .ok (.bool false)
  else if (jsInt t).any overflowsFloat then .error intTooLarge
  else
    match jsNumber t with
    | some n => .ok n
    | none =>
      if quotedBy '"' t then .ok (.str (t.drop 1).dropLast)
      else if quotedBy '\'' t then .ok (.str (Frontmatter.undoubleQuotes (t.drop 1).dropLast))
      else .ok (.str t)

/-! ### Quoted scalars over several lines -/

/-- The loop of `_quoted_scalar_opens`: the quote is not closed. -/
def opensBody (quote : Char) : Text → Bool
  | [] => true
  | [c] => (quote == '"' && c == '\\') || c != quote
  | c :: e :: cs =>
    if quote = '"' ∧ c = '\\' then opensBody quote cs
    else if c = quote then
      if quote = '\'' ∧ e = '\'' then opensBody quote cs else false
    else opensBody quote (e :: cs)

/-- `_quoted_scalar_opens`: the quote character of a scalar the text opens and does not close. -/
def quotedScalarOpens : Text → Option Char
  | [] => none
  | c :: cs => if (c = '"' ∨ c = '\'') ∧ opensBody c cs = true then some c else none

/-- The continuation lines of a quoted scalar up to the one that closes it, and the lines behind;
`none` when a delimiter or the end comes first. -/
def closingLines (quote : Char) : List Text → Option (List Text × List Text)
  | [] => none
  | l :: ls =>
    let line := strip l
    if line = "---".toList then none
    else if quotedScalarOpens (quote :: line) = none then some ([line], ls)
    else (closingLines quote ls).map fun m => (line :: m.1, m.2)

/-- Folding: a single space between the parts, and a newline for an empty one. -/
def foldParts (folded : Text) : List Text → Text
  | [] => folded
  | part :: parts =>
    foldParts
      (if part = [] then folded ++ ['\n']
        else if folded.getLast? = some '\n' then folded ++ part
        else folded ++ ' ' :: part) parts

/-- `_fold_quoted_continuation`: the value, and the lines behind it. -/
def foldQuotedContinuation (ls : List Text) (rest : Text) : Text × List Text :=
  match quotedScalarOpens rest with
  | none => (rest, ls)
  | some quote =>
    match closingLines quote ls with
    | none => (rest, ls)
    | some (parts, ls') => (foldParts rest parts, ls')

/-- The lines behind a quoted text are lines of the input. -/
theorem closingLines_suffix {quote : Char} {ls parts ls' : List Text}
    (h : closingLines quote ls = some (parts, ls')) : ls' <:+ ls := by
  induction ls generalizing parts with
  | nil => simp [closingLines] at h
  | cons l ls ih =>
    simp only [closingLines] at h
    split_ifs at h with h₁ h₂
    · obtain ⟨-, rfl⟩ := Prod.mk.inj (Option.some.inj h)
      exact List.suffix_cons l ls
    · obtain ⟨⟨ps, r⟩, hm, he⟩ := Option.map_eq_some_iff.mp h
      obtain ⟨-, rfl⟩ := Prod.mk.inj he
      exact (ih hm).trans (List.suffix_cons l ls)

/-- The lines behind the continuation of a quoted text are lines of the input. -/
theorem foldQuotedContinuation_suffix (ls : List Text) (rest : Text) :
    (foldQuotedContinuation ls rest).2 <:+ ls := by
  unfold foldQuotedContinuation
  split
  · exact List.suffix_rfl
  · split
    · exact List.suffix_rfl
    · next h => exact closingLines_suffix h

/-! ### Inline collections -/

/-- `sep.join`, of a list of indices. -/
def joinIndices (bad : List ℕ) : Text :=
  (", ".toList).intercalate (bad.map fun n => (toString n).toList)

/-- The `ValueError` of `_parse_inline_list`. -/
def malformedInlineList (bad : List ℕ) (text : Text) : Text :=
  "schema.js: malformed inline list — item(s) at position(s) [".toList ++ joinIndices bad ++
    "] parsed to null/empty in ".toList ++ text ++
    ". Remediation: check the inline list for trailing commas or empty items.".toList

/-- A list item that parsed to nothing. -/
def isEmptyItem : Val → Bool
  | .null => true
  | .str [] => true
  | _ => false

/-- `_parse_inline_list`. -/
def parseInlineList (text : Text) : Except Text Val :=
  let inner := (text.drop 1).dropLast
  if strip inner = [] then .ok (.seq [])
  else
    ((inner.splitOn ',').mapM fun s => parseScalar (strip s)).bind fun items =>
      let bad := (items.zipIdx.filter fun m => isEmptyItem m.1).map (·.2)
      if bad = [] then .ok (.seq items) else .error (malformedInlineList bad text)

/-- `text.startswith(a) and text.endswith(b)`. -/
def enclosed (a b : Char) (t : Text) : Bool := t.head? == some a && t.getLast? == some b

/-- `_unquote_key`. -/
def unquoteKey (key : Text) : Text :=
  if quotedBy '"' key || quotedBy '\'' key then (key.drop 1).dropLast else key

/-! ### Lines -/

/-- `raw` is a list item. -/
def isDash (raw : Text) : Bool := (dashItem raw).isSome || strip raw == ['-']

/-- `_LIST_ITEM_MAPPING_RE` on the text of a list item. -/
def listItemMapping (item : Text) : Bool :=
  let isKey := fun c : Char => c.isAlphanum || c == '_' || c == '-'
  !(item.takeWhile isKey).isEmpty &&
    match item.dropWhile isKey with
    | ':' :: [] => true
    | ':' :: e :: _ => isSpace e
    | _ => false

/-- The continuation lines of a mapping item whose entries stand at `indent`, and the lines behind
them. A comment further left is passed over. -/
def continuation (indent : ℕ) : List Text → List Text × List Text
  | [] => ([], [])
  | l :: ls =>
    if strip l = [] then ([] :: (continuation indent ls).1, (continuation indent ls).2)
    else if indent ≤ indentOf l then (l :: (continuation indent ls).1, (continuation indent ls).2)
    else if skippable l then continuation indent ls
    else ([], l :: ls)

/-- A line that `_skip_past` passes over behind a dash at `dashIndent`. -/
def passedOver (dashIndent : ℕ) (l : Text) : Bool := skippable l || dashIndent < indentOf l

/-- `_skip_past`. -/
def skipPast (base : ℕ) (ls : List Text) : List Text :=
  match ls with
  | [] => []
  | raw :: rest =>
    if skippable raw then skipPast base rest
    else if indentOf raw < base then raw :: rest
    else if isDash raw then skipPast base (rest.dropWhile (passedOver (indentOf raw)))
    else raw :: rest
termination_by ls.length
decreasing_by
  · simp
  · exact Nat.lt_succ_of_le (List.dropWhile_suffix _).length_le

/-- The lines behind a skipped block are lines of the input. -/
theorem skipPast_suffix (base : ℕ) (ls : List Text) : skipPast base ls <:+ ls := by
  induction ls using skipPast.induct base with
  | case1 => simp [skipPast]
  | case2 raw rest h ih =>
    rw [skipPast, if_pos h]
    exact ih.trans (List.suffix_cons raw rest)
  | case3 raw rest h h' =>
    simp [skipPast, h, h']
  | case4 raw rest h h' hd ih =>
    rw [skipPast, if_neg h, if_neg h', if_pos hd]
    exact (ih.trans (List.dropWhile_suffix _)).trans (List.suffix_cons raw rest)
  | case5 raw rest h h' hd =>
    simp [skipPast, h, h', hd]

/-- The continuation of a line and what follows are no larger than the lines. -/
theorem size_continuation (indent : ℕ) (ls : List Text) :
    size ((continuation indent ls).1.map fun l => l.drop indent) +
      size (continuation indent ls).2 ≤ size ls := by
  induction ls with
  | nil => simp [continuation, size]
  | cons l ls ih =>
    rw [continuation]
    split_ifs
    · simp only [List.map_cons, size, List.drop_nil, List.length_nil]
      omega
    · simp only [List.map_cons, size, List.length_drop]
      omega
    · simp only [size]
      omega
    · simp [size]

private theorem length_item {raw item : Text} (h : dashItem raw = some item) :
    item.length < raw.length := by
  obtain ⟨t, ht, rfl⟩ := Option.map_eq_some_iff.mp h
  have hraw : strip raw = "- ".toList ++ t := stripPrefix?_eq_some.mp ht
  have hlen : (strip raw).length = 2 + t.length := by rw [hraw]; simp; omega
  have hle : ∀ u : Text, (strip u).length ≤ u.length := fun u =>
    (List.rdropWhile_prefix ..).length_le.trans (List.dropWhile_suffix _).length_le
  have := hle raw
  have := hle t
  omega

/-! ### Blocks -/

/-- The lines a parse leaves. -/
abbrev Rest (ls : List Text) := { r : List Text // size r ≤ size ls }

/-- The lines left of a shorter text are lines left of a longer one. -/
def Rest.widen {a b : List Text} (h : size a ≤ size b) (r : Val × Rest a) : Val × Rest b :=
  (r.1, ⟨r.2.1, r.2.2.trans h⟩)

/-- The value and the lines left, without the bound. -/
def Rest.forget {ls : List Text} (r : Val × Rest ls) : Val × List Text := (r.1, r.2.1)

/-- The line behind a key without a value opens a nested block. -/
def opensBlock (raw next : Text) : Bool :=
  indentOf raw < indentOf next || (indentOf next == indentOf raw && isDash next)

variable (flowMapping : Text → Except Text (Option Dict))

/-- The value of a key whose rest of line is no block scalar. `flowMapping` is what `yaml.safe_load`
makes of a text in braces, with its dates as strings; `none` when that is rejected or no mapping. -/
def flowValue (rest : Text) : Except Text Val :=
  let stripped := stripInlineComment rest
  if enclosed '[' ']' stripped then parseInlineList stripped
  else if enclosed '\x7b' '\x7d' stripped then
    (flowMapping stripped).bind fun
      | some d => .ok (.map d)
      | none => parseScalar stripped
  else parseScalar stripped

/-- Behind a block scalar less is left. -/
theorem size_consumeBlockScalar_le (raw : Text) (rest : List Text) :
    size (consumeBlockScalar (indentOf raw) rest).2 ≤ size (raw :: rest) := by
  have hrest := size_le_of_sublist
    (List.dropWhile_sublist (l := rest) (inBlockScalar (indentOf raw)))
  simp only [size, consumeBlockScalar]
  omega

/-- Behind a quoted text less is left. -/
theorem size_foldQuotedContinuation_le (raw : Text) (rest : List Text) (value : Text) :
    size (foldQuotedContinuation rest value).2 ≤ size (raw :: rest) := by
  have hrest := size_le_of_sublist (foldQuotedContinuation_suffix rest value).sublist
  simp only [size]
  omega

/-- Behind a line less is left. -/
theorem size_le_cons (raw : Text) (rest : List Text) : size rest ≤ size (raw :: rest) := by
  simp only [size]
  omega

/-- Behind skipped lines less is left. -/
theorem size_le_cons_of_dropWhile (raw : Text) {rest : List Text} {next : Text} {more : List Text}
    (h : rest.dropWhile skippable = next :: more) {n : ℕ} (hn : n ≤ size (next :: more)) :
    n ≤ size (raw :: rest) :=
  hn.trans ((h ▸ size_le_of_sublist (List.dropWhile_sublist (l := rest) skippable)).trans
    (size_le_cons raw rest))

mutual

/-- `_parse_yaml_lines`, with the entries read so far. -/
def parseYamlLines (ls : List Text) (base : ℕ) (result : Dict) : Except Text (Val × Rest ls) :=
  match ls with
  | [] => .ok (.map result, ⟨[], le_rfl⟩)
  | raw :: rest =>
    if skippable raw then
      (parseYamlLines rest base result).map (Rest.widen (size_le_cons raw rest))
    else if indentOf raw < base then .ok (.map result, ⟨raw :: rest, le_rfl⟩)
    else if isDash raw then
      (parseList (raw :: rest) base).map fun items => (.seq items,
        ⟨skipPast base (raw :: rest), size_le_of_sublist (skipPast_suffix ..).sublist⟩)
    else
      match keyAndRest raw with
      | none => (parseYamlLines rest base result).map (Rest.widen (size_le_cons raw rest))
      | some (key, value) =>
        let key := unquoteKey key
        if emptyRest value then
          match h : rest.dropWhile skippable with
          | [] =>
            (parseYamlLines rest base (result.set key .null)).map
              (Rest.widen (size_le_cons raw rest))
          | next :: more =>
            if opensBlock raw next then
              match parseYamlLines (next :: more) (indentOf next) [] with
              | .error e => .error e
              | .ok (nested, left) =>
                (parseYamlLines left.1 base (result.set key nested)).map
                  (Rest.widen (size_le_cons_of_dropWhile raw h left.2))
            else
              (parseYamlLines rest base (result.set key .null)).map
                (Rest.widen (size_le_cons raw rest))
        else if isBlockScalar value then
          let consumed := consumeBlockScalar (indentOf raw) rest
          (parseYamlLines consumed.2 base (result.set key (.str consumed.1))).map
            (Rest.widen (size_consumeBlockScalar_le raw rest))
        else
          let folded := foldQuotedContinuation rest value
          match flowValue flowMapping folded.1 with
          | .error e => .error e
          | .ok v =>
            (parseYamlLines folded.2 base (result.set key v)).map
              (Rest.widen (size_foldQuotedContinuation_le raw rest value))
termination_by 2 * size ls + 1
decreasing_by
  · simp only [size]; omega
  · omega
  · simp only [size]; omega
  · simp only [size]; omega
  · have hnext := h ▸ size_le_of_sublist (List.dropWhile_sublist (l := rest) skippable)
    simp only [size] at hnext ⊢
    omega
  · have hnext := h ▸ size_le_of_sublist (List.dropWhile_sublist (l := rest) skippable)
    have hleft := left.2
    simp only [size] at hnext hleft ⊢
    omega
  · simp only [size]; omega
  · have hrest := size_le_of_sublist
      (List.dropWhile_sublist (l := rest) (inBlockScalar (indentOf raw)))
    simp only [size, consumeBlockScalar]
    omega
  · have hrest := size_le_of_sublist (foldQuotedContinuation_suffix rest value).sublist
    simp only [size]
    omega

/-- `_parse_list`. -/
def parseList (ls : List Text) (base : ℕ) : Except Text (List Val) :=
  match ls with
  | [] => .ok []
  | raw :: rest =>
    if skippable raw then parseList rest base
    else if indentOf raw < base then .ok []
    else
      match _ : dashItem raw with
      | some item =>
        if listItemMapping item then
          let cont := continuation (indentOf raw + 2) rest
          match parseYamlLines (item :: cont.1.map fun l => l.drop (indentOf raw + 2)) 0 [] with
          | .error e => .error e
          | .ok (obj, _) => (parseList cont.2 base).map (obj :: ·)
        else
          match parseScalar item with
          | .error e => .error e
          | .ok v => (parseList rest base).map (v :: ·)
      | none => if strip raw = ['-'] then (parseList rest base).map (.null :: ·) else .ok []
termination_by 2 * size ls
decreasing_by
  · simp only [size]; omega
  · have hitem := length_item ‹dashItem raw = some item›
    have hcont := size_continuation (indentOf raw + 2) rest
    simp only [size] at hcont ⊢
    omega
  · have hcont := size_continuation (indentOf raw + 2) rest
    simp only [size] at hcont ⊢
    omega
  · simp only [size]; omega
  · simp only [size]; omega

end

/-! ### The parse without its bounds -/

/-- `_parse_yaml_lines`: the value, and the lines from the next one on. -/
def yamlLines (ls : List Text) (base : ℕ) (d : Dict) : Except Text (Val × List Text) :=
  (parseYamlLines flowMapping ls base d).map Rest.forget

/-- The value of the key on the line `raw`, with `value` behind its colon, and the lines left. -/
def keyValue (raw value : Text) (rest : List Text) : Except Text (Val × List Text) :=
  if emptyRest value then
    match rest.dropWhile skippable with
    | [] => .ok (.null, rest)
    | next :: more =>
      if opensBlock raw next then yamlLines flowMapping (next :: more) (indentOf next) []
      else .ok (.null, rest)
  else if isBlockScalar value then
    .ok (.str (consumeBlockScalar (indentOf raw) rest).1, (consumeBlockScalar (indentOf raw) rest).2)
  else
    (flowValue flowMapping (foldQuotedContinuation rest value).1).map fun v =>
      (v, (foldQuotedContinuation rest value).2)

variable {flowMapping}

private theorem forget_widen {a b : List Text} (h : size a ≤ size b)
    (x : Except Text (Val × Rest a)) :
    (x.map (Rest.widen h)).map Rest.forget = x.map Rest.forget := by
  cases x <;> rfl

@[simp] theorem yamlLines_nil (base : ℕ) (d : Dict) :
    yamlLines flowMapping [] base d = .ok (.map d, []) := by
  rw [yamlLines, parseYamlLines]
  rfl

/-- One line of `_parse_yaml_lines`. -/
theorem yamlLines_cons (raw : Text) (rest : List Text) (base : ℕ) (d : Dict) :
    yamlLines flowMapping (raw :: rest) base d =
      if skippable raw then yamlLines flowMapping rest base d
      else if indentOf raw < base then .ok (.map d, raw :: rest)
      else if isDash raw then
        (parseList flowMapping (raw :: rest) base).map fun items =>
          (.seq items, skipPast base (raw :: rest))
      else
        match keyAndRest raw with
        | none => yamlLines flowMapping rest base d
        | some (key, value) =>
          (keyValue flowMapping raw value rest).bind fun m =>
            yamlLines flowMapping m.2 base (d.set (unquoteKey key) m.1) := by
  rw [yamlLines, parseYamlLines]
  split_ifs with h₁ h₂ h₃
  · exact forget_widen _ _
  · rfl
  · cases parseList flowMapping (raw :: rest) base <;> rfl
  · cases keyAndRest raw with
    | none => exact forget_widen _ _
    | some m =>
      obtain ⟨key, value⟩ := m
      dsimp only
      rw [keyValue]
      split_ifs with h₄ h₅
      · split
        · next h => simp only [h]; exact forget_widen _ _
        · next next more h =>
          simp only [h]
          split_ifs
          · rw [yamlLines]
            cases parseYamlLines flowMapping (next :: more) (indentOf next) [] with
            | error e => rfl
            | ok m => exact forget_widen _ _
          · exact forget_widen _ _
      · exact forget_widen _ _
      · cases flowValue flowMapping (foldQuotedContinuation rest value).1 with
        | error e => rfl
        | ok v => exact forget_widen _ _

variable (flowMapping)

/-- `parse_yaml`. -/
def parseYaml (text : Text) : Except Text Val :=
  (yamlLines flowMapping (lines text) 0 []).map (·.1)

end RestrictedYaml

end CoordinatorCore
