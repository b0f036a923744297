import CoordinatorCore.Json
import CoordinatorCore.Text.Bytes

/-!
# Lines of the touched-files record

`session/touch_record.py`: one event is one line, a JSON object with a newline behind it.
`lineOf` writes it, `decodeLine` takes the stored form as it stands, and `iterCompleteLines` leaves
out the line a writer has not finished.
-/

namespace CoordinatorCore

open Text

namespace Touch

/-! ### Events -/

/-- `VERB_TOUCH`, `VERB_RELEASE`. -/
inductive Verb
  | touch
  | release
  deriving DecidableEq

/-- The spelling of a verb. -/
def Verb.code : Verb → PyStr
  | .touch => PyStr.ofText ['T']
  | .release => PyStr.ofText ['R']

/-- The verb of a spelling in `_VALID_VERBS`. -/
def Verb.ofCode? (s : PyStr) : Option Verb :=
  if s = Verb.touch.code then some .touch
  else if s = Verb.release.code then some .release
  else none

/-- `KIND_WRITE`, `KIND_READ`. -/
inductive Kind
  | write
  | read
  deriving DecidableEq

/-- The spelling of a kind. -/
def Kind.code : Kind → PyStr
  | .write => PyStr.ofText ['w']
  | .read => PyStr.ofText ['r']

/-- The kind of a spelling in `_VALID_KINDS`. -/
def Kind.ofCode? (s : PyStr) : Option Kind :=
  if s = Kind.write.code then some .write
  else if s = Kind.read.code then some .read
  else none

/-- `TouchEvent`. The timestamp is a float, known by its `repr`. -/
structure TouchEvent where
  schemaVersion : Int
  verb : Verb
  timestamp : Text
  sessionId : PyStr
  agentId : Option PyStr
  path : PyStr
  contentHash : Option PyStr
  name : Option PyStr
  kind : Option Kind
  deriving DecidableEq

/-! ### Encoding -/

/-- `SCHEMA_VERSION`. -/
def schemaVersion : Int := 1

/-- A key of the record. -/
def key (k : Text) : PyStr := PyStr.ofText k

/-- A string or `None`. -/
def optStr : Option PyStr → Json
  | none => .null
  | some s => .str s

/-- An entry that is left out for `None`. -/
def optEntry (k : Text) (s : Option PyStr) : List (PyStr × Json) :=
  match s with
  | none => []
  | some s => [(key k, .str s)]

/-- The record of an event, its path already in canonical form. -/
def recordOf (sessionId : PyStr) (agentId : Option PyStr) (verb path : PyStr) (timestamp : Text)
    (contentHash name kind : Option PyStr) : Json :=
  .obj ([(key ['v'], .int schemaVersion), (key ['v', 'e', 'r', 'b'], .str verb),
    (key ['t', 's'], .float timestamp), (key ['s', 'i', 'd'], .str sessionId),
    (key ['a', 'g', 'e', 'n', 't'], optStr agentId), (key ['p', 'a', 't', 'h'], .str path)] ++
    optEntry ['h', 'a', 's', 'h'] contentHash ++ optEntry ['n', 'a', 'm', 'e'] name ++
    optEntry ['k', 'i', 'n', 'd'] kind)

/-- The line of a record. -/
def lineOf (record : Json) : Bytes := utf8Encode (record.dumps ++ ['\n'])

/-! ### Decoding -/

/-- Why a line is not read: `MalformedRecordLine`, or an exception `decode_line` lets through. -/
inductive DecodeError
  | malformed
  | uncaught
  deriving DecidableEq

/-- The white space around a number. -/
def isNumberSpace (c : Char) : Bool := isSpace c && !(0x1c ≤ c.toNat && c.toNat ≤ 0x1f)

/-- A number without the white space around it. -/
def stripNumber (t : Text) : Text := (t.dropWhile isNumberSpace).rdropWhile isNumberSpace

/-- `int(s)`. -/
def intOfStr (s : PyStr) : Option Int :=
  s.toText?.bind fun t => (dropUnderscores false ((stripNumber t).map asciiDigit)).bind pyInt

/-- The `repr` of an infinity. -/
def infinity (neg : Bool) : Text := if neg then ['-', 'i', 'n', 'f'] else ['i', 'n', 'f']

/-- `float(s)`. -/
def floatOfStr (s : PyStr) : Option Text :=
  s.toText?.bind fun t =>
    let t := stripNumber t
    let (neg, word) := splitSign t
    let word := word.map Char.toLower
    if word = ['n', 'a', 'n'] then some ['n', 'a', 'n']
    else if word = ['i', 'n', 'f'] ∨ word = ['i', 'n', 'f', 'i', 'n', 'i', 't', 'y'] then
      some (infinity neg)
    else (parseDecimal t).map fun _ => (pyFloat t).getD (infinity neg)

/-- `int(x)` of a finite float. -/
def truncFloat (r : Text) : Option Int :=
  (parseDecimal r).bind fun x =>
    let (n, d) := scaleFraction x.digits 1 10 x.exp
    (toBinary64 n d).map fun (m, e) =>
      let (a, b) := scaleFraction m 1 2 e
      if x.neg then -((a / b : Nat) : Int) else ((a / b : Nat) : Int)

/-- `int(record[key])`. -/
def intField : Option Json → Except DecodeError Int
  | some (.bool b) => .ok (if b then 1 else 0)
  | some (.int n) => .ok n
  | some (.float r) =>
    if r = ['n', 'a', 'n'] then .error .malformed
    else match truncFloat r with
      | some n => .ok n
      | none => .error .uncaught
  | some (.str s) =>
    match intOfStr s with
    | some n => .ok n
    | none => .error .malformed
  | _ => .error .malformed

/-- `float(record[key])`. -/
def floatField : Option Json → Except DecodeError Text
  | some (.bool b) => .ok (if b then ['1', '.', '0'] else ['0', '.', '0'])
  | some (.int n) =>
    match pyFloat (Json.writeInt n) with
    | some r => .ok r
    | none => .error .uncaught
  | some (.float r) => .ok r
  | some (.str s) =>
    match floatOfStr s with
    | some r => .ok r
    | none => .error .malformed
  | _ => .error .malformed

/-- `record[key]`. -/
def requiredField : Option Json → Except DecodeError Json
  | some v => .ok v
  | none => .error .malformed

/-- A string or `None`; a missing key counts as `None`. -/
def optStrField : Option Json → Except DecodeError (Option PyStr)
  | none | some .null => .ok none
  | some (.str s) => .ok (some s)
  | _ => .error .malformed

/-- A kind or `None`; a missing key counts as `None`. -/
def kindField : Option Json → Except DecodeError (Option Kind)
  | none | some .null => .ok none
  | some (.str s) =>
    match Kind.ofCode? s with
    | some k => .ok (some k)
    | none => .error .malformed
  | _ => .error .malformed

/-- A verb. -/
def verbField : Json → Except DecodeError Verb
  | .str s =>
    match Verb.ofCode? s with
    | some v => .ok v
    | none => .error .malformed
  | _ => .error .malformed

/-- A string that is not empty. -/
def textField : Json → Except DecodeError PyStr
  | .str [] => .error .malformed
  | .str s => .ok s
  | _ => .error .malformed

/-- The event of a record. -/
def eventOf (record : List (PyStr × Json)) : Except DecodeError TouchEvent := do
  let schemaVersion ← intField (Json.lookup (key ['v']) record)
  let verb ← requiredField (Json.lookup (key ['v', 'e', 'r', 'b']) record)
  let timestamp ← floatField (Json.lookup (key ['t', 's']) record)
  let sessionId ← requiredField (Json.lookup (key ['s', 'i', 'd']) record)
  let agentId ← requiredField (Json.lookup (key ['a', 'g', 'e', 'n', 't']) record)
  let path ← requiredField (Json.lookup (key ['p', 'a', 't', 'h']) record)
  let contentHash ← optStrField (Json.lookup (key ['h', 'a', 's', 'h']) record)
  let name ← optStrField (Json.lookup (key ['n', 'a', 'm', 'e']) record)
  let kind ← kindField (Json.lookup (key ['k', 'i', 'n', 'd']) record)
  let verb ← verbField verb
  let sessionId ← textField sessionId
  let agentId ← optStrField (some agentId)
  let path ← textField path
  return { schemaVersion, verb, timestamp, sessionId, agentId, path, contentHash, name, kind }

/-- `decode_line`. -/
def decodeLine (line : Bytes) : Except DecodeError TouchEvent :=
  match utf8Decode line with
  | none => .error .malformed
  | some text =>
    match Json.loads (text.rdropWhile (· == '\n')) with
    | .error .syntax_ => .error .malformed
    | .error .digits => .error .uncaught
    | .ok (.obj record) => eventOf record
    | .ok _ => .error .malformed

/-- The byte that ends a line. -/
def newline : UInt8 := 10

/-- `iter_complete_lines`. -/
def iterCompleteLines (raw : Bytes) : List Bytes :=
  ((raw.splitOn newline).dropLast.filter (· ≠ [])).map (· ++ [newline])

/-! ### Lines of a file -/

/-- Nothing stands behind the last newline. -/
def Closed (raw : Bytes) : Prop := raw = [] ∨ ∃ front, raw = front ++ [newline]

/-- Behind a newline the lines start anew. -/
theorem iterCompleteLines_append {a : Bytes} (h : Closed a) (b : Bytes) :
    iterCompleteLines (a ++ b) = iterCompleteLines a ++ iterCompleteLines b := by
  rcases h with rfl | ⟨front, rfl⟩
  · rfl
  · have hsplit : ∀ t, ((front ++ newline :: t).splitOn newline).dropLast =
        front.splitOn newline ++ (t.splitOn newline).dropLast := fun t => by
      rw [List.splitOn_append_cons_self, List.dropLast_append_of_ne_nil (List.splitOn_ne_nil _ _)]
    have hnil : ([] : Bytes).splitOn newline = [[]] := rfl
    simp only [iterCompleteLines, List.append_assoc, List.singleton_append, hsplit, hnil,
      List.dropLast_singleton, List.append_nil, List.filter_append, List.map_append]

/-- A fragment holds no line. -/
theorem iterCompleteLines_of_not_mem {b : Bytes} (h : newline ∉ b) : iterCompleteLines b = [] := by
  rw [iterCompleteLines, List.splitOn_eq_singleton h]
  rfl

/-- Closed files one behind the other are read one after the other. -/
theorem iterCompleteLines_flatten_closed {cs : List Bytes} (h : ∀ c ∈ cs, Closed c) :
    iterCompleteLines cs.flatten = cs.flatMap iterCompleteLines := by
  induction cs with
  | nil => rfl
  | cons c cs ih =>
    rw [List.flatten_cons, iterCompleteLines_append (h c List.mem_cons_self),
      ih fun d hd => h d (List.mem_cons_of_mem _ hd), List.flatMap_cons]

/-- Lines one behind the other are read one after the other. -/
theorem iterCompleteLines_flatten {ls : List Bytes}
    (h : ∀ l ∈ ls, Closed l ∧ iterCompleteLines l = [l]) : iterCompleteLines ls.flatten = ls := by
  rw [iterCompleteLines_flatten_closed fun l hl => (h l hl).1]
  exact (List.flatMap_congr fun l hl => (h l hl).2).trans (List.flatMap_singleton' ls)

theorem closed_flatten {ls : List Bytes} (h : ∀ l ∈ ls, Closed l) : Closed ls.flatten := by
  induction ls with
  | nil => exact Or.inl rfl
  | cons l ls ih =>
    rw [List.flatten_cons]
    rcases ih fun m hm => h m (List.mem_cons_of_mem _ hm) with hnil | ⟨front, hfront⟩
    · rw [hnil, List.append_nil]
      exact h l List.mem_cons_self
    · exact Or.inr ⟨l ++ front, by rw [hfront, List.append_assoc]⟩

end Touch

end CoordinatorCore
