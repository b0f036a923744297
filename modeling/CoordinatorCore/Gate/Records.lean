import CoordinatorCore.Machine.Grouping
import CoordinatorCore.Text.Paths
import CoordinatorCore.Value

/-!
# Handoff records and their index

What the gate evaluator reads of a handoff's frontmatter, and the index it resolves durable ids
with. A `stub_id` names a whole continuation chain, so its slot holds the head that is left when
the records the chain has moved past are dropped; a `handoff_id` and a path's last segment name a
record each, the last one of the corpus where there are several.
-/

namespace CoordinatorCore

open Text

/-- `a or b`. -/
def Val.orElse (a b : Val) : Val := if a.truthy then a else b

/-- `d.get(k, v)`. -/
def Dict.getD (d : Dict) (k : Text) (v : Val) : Val := if d.mem k then d.get k else v

namespace Gate

/-- The exceptions the evaluator can end with. -/
inductive Raised
  | typeError
  | attributeError
deriving DecidableEq

/-! ### Field names and values -/

namespace Key

def id : Text := ['i', 'd']
def stubId : Text := ['s', 't', 'u', 'b', '_', 'i', 'd']
def handoffId : Text := ['h', 'a', 'n', 'd', 'o', 'f', 'f', '_', 'i', 'd']
def kind : Text := ['k', 'i', 'n', 'd']
def blocks : Text := ['b', 'l', 'o', 'c', 'k', 's']
def blockedBy : Text := ['b', 'l', 'o', 'c', 'k', 'e', 'd', '_', 'b', 'y']
def deploymentState : Text :=
  ['d', 'e', 'p', 'l', 'o', 'y', 'm', 'e', 'n', 't', '_', 's', 't', 'a', 't', 'e']
def shippedIn : Text := ['s', 'h', 'i', 'p', 'p', 'e', 'd', '_', 'i', 'n']
def continuedInto : Text := ['c', 'o', 'n', 't', 'i', 'n', 'u', 'e', 'd', '_', 'i', 'n', 't', 'o']
def predecessor : Text := ['p', 'r', 'e', 'd', 'e', 'c', 'e', 's', 's', 'o', 'r']
def additionalPredecessors : Text :=
  ['a', 'd', 'd', 'i', 't', 'i', 'o', 'n', 'a', 'l', '_'] ++ predecessor ++ ['s']
def attachedPath : Text := ['_', 'p', 'a', 't', 'h']
def path : Text := ['p', 'a', 't', 'h']

end Key

namespace State

def shipped : Text := ['s', 'h', 'i', 'p', 'p', 'e', 'd']
def abandoned : Text := ['a', 'b', 'a', 'n', 'd', 'o', 'n', 'e', 'd']
def continued : Text := ['c', 'o', 'n', 't', 'i', 'n', 'u', 'e', 'd']
def closed : Text := ['c', 'l', 'o', 's', 'e', 'd']
def inFlight : Text := ['i', 'n', '_', 'f', 'l', 'i', 'g', 'h', 't']

end State

/-- A value that is a string with something in it. -/
def nonEmptyStr : Val → Option Text
  | .str [] => none
  | .str s => some s
  | _ => none

theorem nonEmptyStr_eq_some {v : Val} {s : Text} : nonEmptyStr v = some s ↔ v = .str s ∧ s ≠ [] := by
  cases v with
  | str t =>
    cases t with
    | nil => simp only [nonEmptyStr, reduceCtorEq, Val.str.injEq, ne_eq, false_iff, not_and,
        not_not]; exact fun h => h.symm
    | cons c t => simp only [nonEmptyStr, Option.some.injEq, Val.str.injEq, ne_eq,
        iff_self_and]; rintro rfl h; cases h
  | _ => simp [nonEmptyStr]

/-- `_blocker_deployment_state`, of a record that was found. -/
def deploymentState (record : Dict) : Option Text :=
  match record.get Key.deploymentState with
  | .str s => some s
  | _ => none

/-! ### Durable ids -/

/-- The scaffold's stand-in that is no durable id. -/
def placeholderStem : Text :=
  ['p', 'l', 'a', 'c', 'e', 'h', 'o', 'l', 'd', 'e', 'r', '-', 'r', 'e', 'p', 'l', 'a', 'c', 'e',
    '-', 'w', 'i', 't', 'h']

/-- The regex class `[a-z0-9-]`. -/
def isSlugChar (c : Char) : Bool := ('a' ≤ c && c ≤ 'z') || isDigit c || c == '-'

/-- The regex class `[0-9a-f]`. -/
def isHexChar (c : Char) : Bool := isDigit c || ('a' ≤ c && c ≤ 'f')

/-- A slug, a dash and six hexadecimal digits, read from the end. -/
def isSlugHex (s : Text) : Bool :=
  let r := s.reverse
  let rest := r.drop 6
  (r.take 6).length == 6 && (r.take 6).all isHexChar && rest.head? == some '-' &&
    !rest.tail.isEmpty && rest.tail.all isSlugChar

/-- `_HANDOFF_ID_PATTERN.match`. Its `$` also matches in front of a final line feed. -/
def isHandoffId (s : Text) : Bool :=
  match stripPrefix? ['h', 'n', 'd', '-'] s with
  | none => false
  | some body =>
    !placeholderStem.isPrefixOf body &&
      isSlugHex (if body.getLast? = some '\n' then body.dropLast else body)

/-- The `handoff_id` a record is indexed under. -/
def indexedHandoffId (record : Dict) : Option Text :=
  match record.get Key.handoffId with
  | .str s => if isHandoffId s then some s else none
  | _ => none

/-- The `id or stub_id` a record is indexed under. -/
def indexedStubId (record : Dict) : Option Text :=
  nonEmptyStr ((record.get Key.id).orElse (record.get Key.stubId))

/-! ### Paths -/

/-- `_path_basename`. -/
def pathBasename (path : Val) : Option Text :=
  (nonEmptyStr path).map fun p => basename (p.map fun c => if c == '\\' then '/' else c)

/-- The last segment of the path attached to a record. -/
def ownBasename (record : Dict) : Option Text :=
  ((pathBasename (record.get Key.attachedPath)).filter (· ≠ [])).or
    ((pathBasename (record.get Key.path)).filter (· ≠ []))

/-! ### Continuation chains -/

/-- `"none"`, the authored absence of a predecessor. -/
def noneWord : Text := ['n', 'o', 'n', 'e']

/-- The items of a list, and nothing of any other value. -/
def listItems : Val → List Val
  | .seq items => items
  | _ => []

/-- `_predecessor_refs`. -/
def predecessorRefs (record : Dict) : List Text :=
  (record.get Key.predecessor :: listItems (record.get Key.additionalPredecessors)).filterMap
    fun v => match v with
      | .str s => if strip s ≠ [] ∧ strip s ≠ noneWord then some (strip s) else none
      | _ => none

/-- The last segments the records of a group name as their predecessors'. -/
def supersededBasenames (records : List Dict) : List Text :=
  (records.flatMap predecessorRefs).filterMap fun ref =>
    (pathBasename (.str ref)).filter (· ≠ [])

/-- A record its chain has moved past: stamped as continued, with a successor of its own, or named
as a predecessor in its group. -/
def isSuperseded (names : List Text) (record : Dict) : Bool :=
  (match record.get Key.deploymentState with
    | .str s => s == State.continued
    | _ => false) ||
  (match record.get Key.continuedInto with
    | .str s => !(strip s).isEmpty
    | _ => false) ||
  (match ownBasename record with
    | some b => names.contains b
    | none => false)

/-- `collapse_to_chain_heads`. A group that is superseded as a whole stays as it is. -/
def collapseToChainHeads (records : List Dict) : List Dict :=
  let heads := records.filter fun r => !isSuperseded (supersededBasenames records) r
  if heads = [] then records else heads

theorem mem_of_mem_collapse {records : List Dict} {r : Dict}
    (h : r ∈ collapseToChainHeads records) : r ∈ records := by
  rw [collapseToChainHeads] at h
  split_ifs at h with hnil
  · exact h
  · exact (List.mem_filter.mp h).1

/-- The collapse never leaves nothing. -/
theorem collapse_eq_nil_iff {records : List Dict} :
    collapseToChainHeads records = [] ↔ records = [] := by
  rw [collapseToChainHeads]
  split_ifs with hnil
  · exact Iff.rfl
  · exact ⟨fun h => absurd h hnil, fun h => by subst h; rfl⟩

/-- Which records a chain has moved past does not depend on their order. -/
theorem collapse_perm {rs rs' : List Dict} (h : rs.Perm rs') :
    (collapseToChainHeads rs).Perm (collapseToChainHeads rs') := by
  have hnames : ∀ b, b ∈ supersededBasenames rs ↔ b ∈ supersededBasenames rs' := fun b =>
    ((h.flatMap_right _).filterMap _).mem_iff
  have hsuper : isSuperseded (supersededBasenames rs) = isSuperseded (supersededBasenames rs') := by
    funext r
    unfold isSuperseded
    cases ownBasename r with
    | none => rfl
    | some b => simp only [List.contains_eq_mem, hnames b]
  have hheads : (rs.filter fun r => !isSuperseded (supersededBasenames rs) r).Perm
      (rs'.filter fun r => !isSuperseded (supersededBasenames rs') r) := by
    rw [hsuper]
    exact h.filter _
  rw [collapseToChainHeads, collapseToChainHeads]
  by_cases hnil : (rs.filter fun r => !isSuperseded (supersededBasenames rs) r) = []
  · rw [if_pos hnil, if_pos (by rw [hnil] at hheads; exact hheads.symm.eq_nil)]
    exact h
  · rw [if_neg hnil, if_neg fun hnil' => hnil (by rw [hnil'] at hheads; exact hheads.eq_nil)]
    exact hheads

/-! ### The index -/

/-- `_TypedHandoffIndex`. -/
structure TypedHandoffIndex where
  byHandoffId : Table Text Dict
  byStubId : Table Text Dict
  byPathBasename : Table Text Dict

namespace TypedHandoffIndex

/-- `get`. -/
def get (index : TypedHandoffIndex) (key : Text) : Option Dict :=
  if isHandoffId key then index.byHandoffId.get key else index.byStubId.get key

/-- `get_by_path`. -/
def getByPath (index : TypedHandoffIndex) (path : Text) : Option Dict :=
  (pathBasename (.str path)).bind index.byPathBasename.get

end TypedHandoffIndex

/-- The records with one key, each under it. -/
def keyed (key : Dict → Option Text) (handoffs : List Dict) : List (Text × Dict) :=
  handoffs.filterMap fun h => (key h).map fun k => (k, h)

/-- `_index_by_id`. -/
def indexById (handoffs : List Dict) : TypedHandoffIndex where
  byHandoffId := Table.ofPairs (keyed indexedHandoffId handoffs)
  byStubId := (Table.grouped (keyed indexedStubId handoffs)).mapValues fun candidates =>
    (collapseToChainHeads candidates).getLastD []
  byPathBasename := Table.ofPairs (keyed ownBasename handoffs)

/-- The records of one `stub_id`, in corpus order. -/
def stubGroup (handoffs : List Dict) (k : Text) : List Dict :=
  handoffs.filter fun h => indexedStubId h = some k

theorem mem_keyed {key : Dict → Option Text} {handoffs : List Dict} {k : Text} {r : Dict} :
    (k, r) ∈ keyed key handoffs ↔ r ∈ handoffs ∧ key r = some k := by
  rw [keyed, List.mem_filterMap]
  constructor
  · rintro ⟨h, hmem, hk⟩
    obtain ⟨k', hk', heq⟩ := Option.map_eq_some_iff.mp hk
    cases heq
    exact ⟨hmem, hk'⟩
  · rintro ⟨hmem, hk⟩
    exact ⟨r, hmem, by rw [hk]; rfl⟩

theorem keyed_perm {key : Dict → Option Text} {hs hs' : List Dict} (h : hs.Perm hs') :
    (keyed key hs).Perm (keyed key hs') := h.filterMap _

private theorem valuesOf_keyed (key : Dict → Option Text) (handoffs : List Dict) (k : Text) :
    Table.valuesOf (keyed key handoffs) k = handoffs.filter fun h => key h = some k := by
  induction handoffs with
  | nil => rfl
  | cons h hs ih =>
    rw [List.filter_cons, keyed, List.filterMap_cons]
    cases hk : key h with
    | none => simpa [keyed] using ih
    | some k' =>
      by_cases heq : k' = k
      · subst heq
        simpa [Table.valuesOf, keyed] using ih
      · simpa [Table.valuesOf, keyed, heq] using ih

/-- The slot of a `stub_id`: the last head of its group. -/
theorem get_byStubId (handoffs : List Dict) (k : Text) :
    (indexById handoffs).byStubId.get k =
      (collapseToChainHeads (stubGroup handoffs k)).getLast? := by
  rw [indexById, Table.get_mapValues, Table.get_grouped, valuesOf_keyed, ← stubGroup]
  by_cases hnil : stubGroup handoffs k = []
  · rw [if_pos hnil, hnil]
    rfl
  · have hheads := fun h => hnil (collapse_eq_nil_iff.mp h)
    rw [if_neg hnil, Option.map_some, List.getLast?_eq_some_getLast hheads,
      List.getLastD_eq_getLast?, List.getLast?_eq_some_getLast hheads]
    rfl

/-- The slot of a `handoff_id`: the last record that carries it. -/
theorem get_byHandoffId (handoffs : List Dict) (k : Text) :
    (indexById handoffs).byHandoffId.get k =
      (handoffs.filter fun h => indexedHandoffId h = some k).getLast? := by
  rw [indexById, Table.get_ofPairs_eq_getLast?, valuesOf_keyed]

/-- The slot of a last segment: the last record with it. -/
theorem get_byPathBasename (handoffs : List Dict) (b : Text) :
    (indexById handoffs).byPathBasename.get b =
      (handoffs.filter fun h => ownBasename h = some b).getLast? := by
  rw [indexById, Table.get_ofPairs_eq_getLast?, valuesOf_keyed]

end Gate

end CoordinatorCore
