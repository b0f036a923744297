import CoordinatorCore.Value

/-!
# Lineage edges

A handoff record names the records it continues in a handful of frontmatter fields. `EDGE_KIND_META`
of `dag.py` says which field carries which kind of edge and whether the field is a list, and
`EDGE_KIND_FIELD_ALIASES` which further fields carry the same kind by handoff id instead of by path.
`handoffEdges` reads the raw references off a record; resolving them is the business of others.

`str` of a list or a mapping is a parameter throughout (`container`): no result depends on how
Python prints one.
-/

namespace CoordinatorCore

open Text

/-- `str(value)`. -/
def Val.pyStr (container : Val → Text) : Val → Text
  | .null => "None".toList
  | .bool true => "True".toList
  | .bool false => "False".toList
  | .int n => (toString n).toList
  | .str s => s
  | .other _ repr => repr
  | v => container v

namespace Lineage

/-- An absolute path. -/
abbrev Path := Text

/-- An entry of `EDGE_KIND_META`. -/
structure EdgeKindMeta where
  field : Text
  multi : Bool

/-- `EDGE_KIND_META`. -/
def edgeKindMeta : List (Text × EdgeKindMeta) :=
  [("predecessor".toList, ⟨"predecessor".toList, false⟩),
   ("additional_predecessors".toList, ⟨"additional_predecessors".toList, true⟩),
   ("forked_from".toList, ⟨"forked_from".toList, false⟩),
   ("origin_handoff".toList, ⟨"origin_handoff".toList, false⟩)]

/-- `EDGE_KIND_FIELD_ALIASES`. -/
def edgeKindFieldAliases : List (Text × List Text) :=
  [("predecessor".toList, ["predecessor_id".toList]),
   ("origin_handoff".toList, ["origin_handoff_id".toList])]

/-- `EDGE_KIND_FIELD_ALIASES.get(kind, ())`. -/
def aliasesOf (kind : Text) : List Text := (edgeKindFieldAliases.lookup kind).getD []

/-- The texts that name no record. -/
def isSentinel (s : Text) : Bool := s == [] || s == "none".toList || s == "null".toList

/-- The reference a single value names, if any. -/
def refOf (container : Val → Text) : Val → Option Text
  | .null => none
  | v =>
    let s := strip (v.pyStr container)
    if isSentinel s then none else some s

/-- The references of one field. -/
def fieldRefs (container : Val → Text) (multi : Bool) (v : Val) : List Text :=
  if multi then
    match v with
    | .seq items => items.filterMap (refOf container)
    | _ => []
  else (refOf container v).toList

/-- The fields that carry the edges of one kind. -/
def fieldNames (kind : Text) (m : EdgeKindMeta) (includeAliases : Bool) : List Text :=
  m.field :: if includeAliases then aliasesOf kind else []

/-- `handoff_edges`. -/
def handoffEdges (container : Val → Text) (nodeMeta : Dict) (edgeKinds : List Text)
    (includeAliases : Bool) : List Text :=
  edgeKinds.flatMap fun kind =>
    match edgeKindMeta.lookup kind with
    | none => []
    | some m => (fieldNames kind m includeAliases).flatMap fun f =>
        fieldRefs container m.multi (nodeMeta.get f)

/-- A record without frontmatter has no edges. -/
@[simp] theorem handoffEdges_nil (container : Val → Text) (edgeKinds : List Text)
    (includeAliases : Bool) : handoffEdges container [] edgeKinds includeAliases = [] := by
  rw [handoffEdges, List.flatMap_eq_nil_iff]
  intro kind _
  cases edgeKindMeta.lookup kind with
  | none => rfl
  | some m =>
    refine List.flatMap_eq_nil_iff.mpr fun f _ => ?_
    rw [Dict.get_eq_null_of_not_mem rfl]
    unfold fieldRefs
    split_ifs <;> rfl

end Lineage

end CoordinatorCore
