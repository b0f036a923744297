import CoordinatorCore.Value

/-!
# Which properties a schema evaluates

The check of `unevaluatedProperties: false` in `frontmatter/schema_validate.py`. A schema is the
record of the keywords that evaluate properties, in place or through a subschema
(`Schema.Keywords`); all that the check asks of the other keywords is the verdict of the validator
on a subschema (`Subject`).

`Annotates` is what draft 2020-12 says about annotations: a successful schema evaluates the
properties of its own keywords and those of the subschemas it applies in place.
`evaluatedPropertyKeys` reads a part of that, and something else where the validator decides the
`if`-schema otherwise than the draft. `counted_or_passedOver` and `evaluates_or_misread` compare the
draft's answer with what the function reads, and `exact_iff` draws the conclusion.
-/

namespace CoordinatorCore

open Text

/-! ### Schemas -/

/-- The keywords of a schema that have to do with evaluated properties, over the subschemas `σ`;
the others are kept as they are written. -/
structure Keywords (σ : Type) where
  ref : Option Text := none
  properties : Option (List (Text × σ)) := none
  patternProperties : Option (List (Text × σ)) := none
  additionalProperties : Option σ := none
  unevaluatedProperties : Option σ := none
  allOf : Option (List σ) := none
  anyOf : Option (List σ) := none
  oneOf : Option (List σ) := none
  if_ : Option σ := none
  then_ : Option σ := none
  else_ : Option σ := none
  dependentSchemas : Option (List (Text × σ)) := none
  assertions : List (Text × Val) := []

/-- A JSON schema. -/
inductive Schema
  | bool (b : Bool)
  | node (keywords : Keywords Schema)

/-- The names under `properties`. -/
def Keywords.declared {σ : Type} (kw : Keywords σ) : List Text :=
  (kw.properties.getD []).map Prod.fst

namespace Schema

/-- A document with its `$defs`. -/
structure Document where
  defs : List (Text × Schema)

/-- `_resolve_json_ref`, with the document that nested references are read in; `none` is its
`ValueError`. The sibling schemas are files. -/
def resolveJsonRef (sibling : Text → Option (Schema × Document)) (root : Document) (ref : Text) :
    Option (Schema × Document) :=
  match sibling ref with
  | some found => some found
  | none =>
    (stripPrefix? "#/$defs/".toList ref).bind fun name => (root.defs.lookup name).map (·, root)

/-- An object under validation, as far as annotations see it: its keys, what the validator says
about it on a schema of a document (`none` when it raises), and whether it is valid. -/
structure Subject where
  sibling : Text → Option (Schema × Document)
  keys : List Text
  verdict : Document → Schema → Option Bool
  Valid : Document → Schema → Prop
  patternMatches : Text → Text → Bool
  /-- A schema with a reference asserts what the target of the reference does. -/
  valid_ref : ∀ {root root' : Document} {kw : Keywords Schema} {r : Text} {s : Schema},
    kw.ref = some r → resolveJsonRef sibling root r = some (s, root') →
      Valid root (.node kw) → Valid root' s

variable (O : Subject)

/-! ### The check -/

/-- The names that a schema declares. -/
def declaredOf : Schema → List Text
  | .bool _ => []
  | .node kw => kw.declared

/-- The schema that a branch stands for: a `$ref` is followed once. -/
def resolveBranch (root : Document) (branch : Schema) : Option Schema :=
  match branch with
  | .bool b => some (.bool b)
  | .node kw =>
    match kw.ref with
    | some r => (resolveJsonRef O.sibling root r).map Prod.fst
    | none => some (.node kw)

/-- What `_branch_properties` reads off the resolved branch. -/
def readBranch (resolved : Schema) : Option (List Text) :=
  match resolved with
  | .bool _ => some []
  | .node kw =>
    if kw.oneOf.isSome || kw.anyOf.isSome || kw.allOf.isSome || kw.patternProperties.isSome ||
        kw.unevaluatedProperties.isSome then none
    else
      match kw.additionalProperties with
      | some (.node _) => none
      | some (.bool true) => some (kw.declared ++ O.keys)
      | _ => some kw.declared

/-- `_branch_properties`. -/
def branchProperties (root : Document) (branch : Schema) : Option (List Text) :=
  (resolveBranch O root branch).bind (readBranch O)

/-- The loop over `allOf`. -/
def allOfProperties (root : Document) : List Schema → Option (List Text)
  | [] => some []
  | sub :: subs =>
    (branchProperties O root sub).bind fun ks => (allOfProperties root subs).map (ks ++ ·)

/-- The keys of `if`, `then` and `else`. -/
def conditionalProperties (root : Document) (kw : Keywords Schema) : Option (List Text) :=
  match kw.if_ with
  | none => some []
  | some c =>
    if kw.then_.isSome || kw.else_.isSome then
      (O.verdict root c).bind fun holds =>
        if holds then
          match kw.then_ with
          | some t => (branchProperties O root t).map (declaredOf c ++ ·)
          | none => some (declaredOf c)
        else
          match kw.else_ with
          | some e => branchProperties O root e
          | none => some []
    else some []

/-- `_evaluated_property_keys`; `none` is its `ValueError`. -/
def evaluatedPropertyKeys (root : Document) (kw : Keywords Schema) : Option (List Text) :=
  if kw.patternProperties.isSome then none
  else if kw.oneOf.isSome || kw.anyOf.isSome then none
  else
    let own :=
      match kw.additionalProperties with
      | some (.node _) => none
      | some (.bool true) => some (kw.declared ++ O.keys)
      | _ => some kw.declared
    own.bind fun own =>
      (allOfProperties O root (kw.allOf.getD [])).bind fun branches =>
        (conditionalProperties O root kw).map fun conditional => own ++ branches ++ conditional

/-- An error of the validator. -/
structure FieldError where
  field : Text
  error : Text
  hint : Text
deriving DecidableEq

/-- The error for a key that nothing evaluates. -/
def unevaluatedError (path key : Text) : FieldError where
  field := if path = [] then key else path ++ '.' :: key
  error := "unevaluated property \"".toList ++ (key ++ "\" not allowed".toList)
  hint := ("Remove this property, or add it to properties (or an allOf/then branch's " ++
    "properties) so it counts as evaluated.").toList

/-- What the node reports for its `unevaluatedProperties`; a node with a `$ref` is the schema it
points to and reports nothing of its own. -/
def unevaluatedErrors (root : Document) (path : Text) (kw : Keywords Schema) :
    Option (List FieldError) :=
  if kw.ref.isSome then some []
  else
    match kw.unevaluatedProperties with
    | none => some []
    | some (.bool true) => some []
    | some (.bool false) =>
      (evaluatedPropertyKeys O root kw).map fun evaluated =>
        (O.keys.filter (· ∉ evaluated)).map (unevaluatedError path)
    | some (.node _) => none

/-! ### What the draft says -/

/-- The properties of the object that a successful schema evaluates by its own keywords. -/
inductive Local (kw : Keywords Schema) (k : Text) : Prop
  | properties (h : k ∈ kw.declared) : Local kw k
  | pattern {ps p s} (h : kw.patternProperties = some ps) (hmem : (p, s) ∈ ps)
      (hmatch : O.patternMatches p k = true) : Local kw k
  | additional {s} (h : kw.additionalProperties = some s) (hs : s ≠ .bool false) : Local kw k
  | unevaluated {s} (h : kw.unevaluatedProperties = some s) (hs : s ≠ .bool false) : Local kw k

/-- The subschemas that a schema applies in place with success. -/
inductive Applies (root : Document) (kw : Keywords Schema) : Document → Schema → Prop
  | ref {r s root'} (h : kw.ref = some r) (hres : resolveJsonRef O.sibling root r = some (s, root'))
      (hs : O.Valid root' s) : Applies root kw root' s
  | branch {s} (h : s ∈ kw.allOf.getD [] ++ kw.anyOf.getD [] ++ kw.oneOf.getD [])
      (hs : O.Valid root s) : Applies root kw root s
  | dependent {ds p s} (h : kw.dependentSchemas = some ds) (hmem : (p, s) ∈ ds) (hp : p ∈ O.keys)
      (hs : O.Valid root s) : Applies root kw root s
  | if_ {c} (h : kw.if_ = some c) (hc : O.Valid root c) : Applies root kw root c
  | then_ {c s} (h : kw.if_ = some c) (hc : O.Valid root c) (hthen : kw.then_ = some s)
      (hs : O.Valid root s) : Applies root kw root s
  | else_ {c s} (h : kw.if_ = some c) (hc : ¬ O.Valid root c)
      (helse : kw.else_ = some s) (hs : O.Valid root s) : Applies root kw root s

/-- The properties that a successful schema evaluates. -/
inductive Annotates : Document → Schema → Text → Prop
  | here {root kw k} (h : Local O kw k) : Annotates root (.node kw) k
  | under {root root' kw s k} (h : Applies O root kw root' s) (hs : Annotates root' s k) :
      Annotates root (.node kw) k

/-- The properties that the other keywords of a node evaluate. -/
def Evaluates (root : Document) (kw : Keywords Schema) (k : Text) : Prop :=
  Annotates O root (.node { kw with unevaluatedProperties := none }) k

/-- The object satisfies the keywords of the node that apply subschemas. -/
structure Satisfies (root : Document) (kw : Keywords Schema) : Prop where
  allOf : ∀ s ∈ kw.allOf.getD [], O.Valid root s
  then_ : ∀ {c s}, kw.if_ = some c → O.Valid root c → kw.then_ = some s →
    O.Valid root s
  else_ : ∀ {c s}, kw.if_ = some c → ¬ O.Valid root c → kw.else_ = some s →
    O.Valid root s

/-- The node reports the keys that the draft leaves unevaluated. -/
def Exact (root : Document) (path : Text) (kw : Keywords Schema) : Prop :=
  ∃ bad : List Text, unevaluatedErrors O root path kw = some (bad.map (unevaluatedError path)) ∧
    ∀ k, k ∈ bad ↔ k ∈ O.keys ∧ ¬ Evaluates O root kw k

/-! ### What the function reads and what it passes over -/

/-- What is read off a resolved branch. -/
def Reads (resolved : Schema) (k : Text) : Prop :=
  match resolved with
  | .bool _ => False
  | .node kw => k ∈ kw.declared ∨ kw.additionalProperties = some (.bool true)

/-- What is read off a branch. -/
def BranchReads (root : Document) (branch : Schema) (k : Text) : Prop :=
  ∃ resolved, resolveBranch O root branch = some resolved ∧ Reads resolved k

/-- The branch that a verdict on the `if`-schema selects. -/
def taken (kw : Keywords Schema) (b : Bool) : Option Schema := if b then kw.then_ else kw.else_

/-- The validator, asked about the `if`-schema `c` for the sake of a branch, answers `b`, and the
draft decides otherwise. -/
structure Misjudged (root : Document) (kw : Keywords Schema) (c : Schema) (b : Bool) : Prop where
  if_ : kw.if_ = some c
  branch : (kw.then_.isSome || kw.else_.isSome) = true
  verdict : O.verdict root c = some b
  wrong : ¬ (b = true ↔ O.Valid root c)

/-- What is read off a node. -/
inductive Counted (root : Document) (kw : Keywords Schema) (k : Text) : Prop
  | declared (h : k ∈ kw.declared) : Counted root kw k
  | additional (h : kw.additionalProperties = some (.bool true)) : Counted root kw k
  | allOf {s} (h : s ∈ kw.allOf.getD []) (hs : BranchReads O root s k) : Counted root kw k
  | if_ {c} (h : kw.if_ = some c) (hboth : (kw.then_.isSome || kw.else_.isSome) = true)
      (hc : O.verdict root c = some true) (hk : k ∈ declaredOf c) : Counted root kw k
  | branch {c b s} (h : kw.if_ = some c) (hc : O.verdict root c = some b) (hb : taken kw b = some s)
      (hs : BranchReads O root s k) : Counted root kw k

/-- What is read off a node by a wrong verdict on the `if`-schema: its `properties`, and the branch
that the draft does not select. -/
inductive Misread (root : Document) (kw : Keywords Schema) (k : Text) : Prop
  | if_ {c} (h : Misjudged O root kw c true) (hk : k ∈ declaredOf c) : Misread root kw k
  | branch {c b s} (h : Misjudged O root kw c b) (hb : taken kw b = some s)
      (hs : BranchReads O root s k) : Misread root kw k

/-- What a branch evaluates by a construct that is passed over: a subschema inside it, the keywords
beside its `$ref`, a subschema behind its `$ref`. -/
inductive Skipped (root : Document) : Schema → Text → Prop
  | inside {kw root' s k} (h : kw.ref = none) (ha : Applies O root kw root' s)
      (hs : Annotates O root' s k) : Skipped root (.node kw) k
  | beside {kw r k} (h : kw.ref = some r)
      (hs : Annotates O root (.node { kw with ref := none }) k) : Skipped root (.node kw) k
  | behind {kw r root' target root'' s k} (h : kw.ref = some r)
      (hres : resolveJsonRef O.sibling root r = some (.node target, root'))
      (ha : Applies O root' target root'' s) (hs : Annotates O root'' s k) :
      Skipped root (.node kw) k

/-- What a node evaluates by a construct that is passed over: one in a branch, all of an `if`-schema
but its `properties`, an `if` on its own, a dependent schema, and what the draft applies of a
condition on which the verdict is wrong. -/
inductive PassedOver (root : Document) (kw : Keywords Schema) (k : Text) : Prop
  | allOf {s} (h : s ∈ kw.allOf.getD []) (hs : Skipped O root s k) : PassedOver root kw k
  | if_ {c} (h : kw.if_ = some (.node c)) (hc : O.Valid root (.node c))
      (hs : Annotates O root (.node { c with properties := none }) k) : PassedOver root kw k
  | lone {c} (h : kw.if_ = some c) (hthen : kw.then_ = none) (helse : kw.else_ = none)
      (hc : O.Valid root c) (hs : Annotates O root c k) : PassedOver root kw k
  | then_ {c s} (h : kw.if_ = some c) (hc : O.Valid root c) (hthen : kw.then_ = some s)
      (hs : Skipped O root s k) : PassedOver root kw k
  | else_ {c s} (h : kw.if_ = some c) (hc : ¬ O.Valid root c)
      (helse : kw.else_ = some s) (hs : Skipped O root s k) : PassedOver root kw k
  | dependent {ds p s} (h : kw.dependentSchemas = some ds) (hmem : (p, s) ∈ ds) (hp : p ∈ O.keys)
      (hs : O.Valid root s) (hk : Annotates O root s k) : PassedOver root kw k
  | unheld {c} (h : Misjudged O root kw c false) (hs : Annotates O root c k) : PassedOver root kw k
  | untaken {c b s} (h : Misjudged O root kw c b) (hb : taken kw (!b) = some s)
      (hs : Annotates O root s k) : PassedOver root kw k

variable {O} {root : Document} {kw : Keywords Schema} {k : Text} {ks : List Text}

/-! ### The function on a branch -/

/-- The keys a branch is read for. -/
theorem readBranch_eq_some {resolved : Schema} (h : readBranch O resolved = some ks)
    (hk : k ∈ O.keys) : k ∈ ks ↔ Reads resolved k := by
  cases resolved with
  | bool b =>
    cases h
    simp [Reads]
  | node kw =>
    rw [readBranch] at h
    split_ifs at h
    split at h
    · cases h
    · next heq =>
      cases h
      simp [Reads, heq, hk]
    · next hnode htrue =>
      cases h
      simp [Reads, show kw.additionalProperties ≠ some (.bool true) from htrue]

/-- On a branch that is walked, everything that its own keywords evaluate is read. -/
theorem reads_of_local (h : readBranch O (.node kw) = some ks) (hl : Local O kw k) :
    Reads (.node kw) k := by
  rw [readBranch] at h
  split_ifs at h with hnest
  simp only [Bool.or_eq_true, not_or, Option.not_isSome_iff_eq_none] at hnest
  cases hl with
  | properties hk => exact .inl hk
  | pattern hps => rw [hnest.1.2] at hps; cases hps
  | unevaluated hu => rw [hnest.2] at hu; cases hu
  | @additional s ha hs =>
    rw [ha] at h
    cases s with
    | node kw' => cases h
    | bool b =>
      cases b with
      | true => exact .inr ha
      | false => exact absurd rfl hs

/-- The keys a branch is read for, with its references resolved. -/
theorem branchProperties_eq_some {s : Schema} (h : branchProperties O root s = some ks)
    (hk : k ∈ O.keys) : k ∈ ks ↔ BranchReads O root s k := by
  obtain ⟨resolved, hres, hread⟩ := Option.bind_eq_some_iff.mp h
  rw [readBranch_eq_some hread hk]
  constructor
  · exact fun hr => ⟨resolved, hres, hr⟩
  · rintro ⟨resolved', hres', hr⟩
    rw [hres] at hres'
    cases hres'
    exact hr

/-! ### Annotations of a branch -/

/-- A node with as many keywords evaluates as much. -/
theorem Annotates.of_keywords {kw' : Keywords Schema} (hl : Local O kw k → Local O kw' k)
    (happ : ∀ {root' s}, Applies O root kw root' s → Applies O root kw' root' s)
    (h : Annotates O root (.node kw) k) : Annotates O root (.node kw') k := by
  cases h with
  | here h => exact .here (hl h)
  | under h hs => exact .under (happ h) hs

/-- What a schema evaluates itself depends on its own property keywords. -/
theorem local_congr (kw kw' : Keywords Schema) (hp : kw'.properties = kw.properties)
    (hpp : kw'.patternProperties = kw.patternProperties)
    (ha : kw'.additionalProperties = kw.additionalProperties)
    (hu : kw'.unevaluatedProperties = kw.unevaluatedProperties) (h : Local O kw k) :
    Local O kw' k := by
  cases h with
  | properties h => exact .properties (by rwa [Keywords.declared, hp])
  | pattern h hmem hmatch => exact .pattern (hpp.trans h) hmem hmatch
  | additional h hs => exact .additional (ha.trans h) hs
  | unevaluated h hs => exact .unevaluated (hu.trans h) hs

/-- Beside a reference stands what a node without it evaluates. -/
theorem annotates_without_ref (h : Annotates O root (.node { kw with ref := none }) k) :
    Annotates O root (.node kw) k := by
  refine h.of_keywords (local_congr { kw with ref := none } kw rfl rfl rfl rfl) fun happ => ?_
  cases happ with
  | ref h => cases h
  | branch h hs => exact .branch h hs
  | dependent h hmem hp hs => exact .dependent h hmem hp hs
  | if_ h hc => exact .if_ h hc
  | then_ h hc ht hs => exact .then_ h hc ht hs
  | else_ h hc he hs => exact .else_ h hc he hs

/-- What a walked branch evaluates is read or passed over. -/
theorem Annotates.reads_or_skipped {s : Schema} (hb : branchProperties O root s = some ks)
    (h : Annotates O root s k) : BranchReads O root s k ∨ Skipped O root s k := by
  obtain ⟨resolved, hres, hread⟩ := Option.bind_eq_some_iff.mp hb
  cases h with
  | @here _ kw _ hl =>
    cases href : kw.ref with
    | none =>
      rw [resolveBranch, href] at hres
      cases hres
      exact .inl ⟨.node kw, by rw [resolveBranch, href], reads_of_local hread hl⟩
    | some r => exact .inr (.beside href (.here (local_congr kw _ rfl rfl rfl rfl hl)))
  | @under _ root' kw s _ happ hs =>
    cases href : kw.ref with
    | none => exact .inr (.inside href happ hs)
    | some r =>
      cases happ with
      | @ref r' _ _ h hfound hv =>
        rw [href] at h
        cases h
        have htarget : resolveBranch O root (.node kw) = some s := by
          rw [resolveBranch, href]
          dsimp only
          rw [hfound]
          rfl
        rw [htarget] at hres
        cases hres
        -- behind the reference, the target's own keywords are read
        cases hs with
        | here hl => exact .inl ⟨_, htarget, reads_of_local hread hl⟩
        | under happ' hs' => exact .inr (.behind href hfound happ' hs')
      | branch h hs' => exact .inr (.beside href (.under (.branch h hs') hs))
      | dependent h hmem hp hs' => exact .inr (.beside href (.under (.dependent h hmem hp hs') hs))
      | if_ h hc => exact .inr (.beside href (.under (.if_ h hc) hs))
      | then_ h hc ht hs' => exact .inr (.beside href (.under (.then_ h hc ht hs') hs))
      | else_ h hc he hs' => exact .inr (.beside href (.under (.else_ h hc he hs') hs))

/-- A schema that is read evaluates on its own. -/
theorem Reads.local {resolved : Schema} (h : Reads resolved k) :
    ∃ kw, resolved = .node kw ∧ Local O kw k := by
  cases resolved with
  | bool b => cases h
  | node kw =>
    rcases h with h | h
    · exact ⟨kw, rfl, .properties h⟩
    · exact ⟨kw, rfl, .additional h (by simp)⟩

/-- What a branch is read for is evaluated when the branch holds. -/
theorem BranchReads.annotates {s : Schema} (hv : O.Valid root s) (h : BranchReads O root s k) :
    Annotates O root s k := by
  obtain ⟨resolved, hres, hreads⟩ := h
  obtain ⟨target, rfl, hl⟩ := hreads.local (O := O)
  cases s with
  | bool b => cases hres
  | node kw =>
    rw [resolveBranch] at hres
    cases href : kw.ref with
    | none =>
      rw [href] at hres
      cases hres
      exact .here hl
    | some r =>
      rw [href] at hres
      obtain ⟨⟨s', root'⟩, hfound, heq⟩ := Option.map_eq_some_iff.mp hres
      cases heq
      exact .under (.ref href hfound (O.valid_ref href hfound hv)) (.here hl)

/-- What is passed over in a branch is evaluated all the same. -/
theorem Skipped.annotates {s : Schema} (hv : O.Valid root s) (h : Skipped O root s k) :
    Annotates O root s k := by
  cases h with
  | inside h happ hs => exact .under happ hs
  | beside h hs => exact annotates_without_ref hs
  | behind h hfound happ hs =>
    exact .under (.ref h hfound (O.valid_ref h hfound hv)) (.under happ hs)

/-! ### The function on a node -/

/-- The keys of an `allOf` are those of its branches. -/
theorem allOfProperties_eq_some {subs : List Schema} (h : allOfProperties O root subs = some ks) :
    (∀ s ∈ subs, ∃ ks', branchProperties O root s = some ks') ∧
      ∀ k ∈ O.keys, (k ∈ ks ↔ ∃ s ∈ subs, BranchReads O root s k) := by
  induction subs generalizing ks with
  | nil =>
    cases h
    simp
  | cons s subs ih =>
    obtain ⟨ks₁, h₁, h⟩ := Option.bind_eq_some_iff.mp h
    obtain ⟨ks₂, h₂, rfl⟩ := Option.map_eq_some_iff.mp h
    obtain ⟨hsome, hmem⟩ := ih h₂
    constructor
    · intro t ht
      rcases List.mem_cons.mp ht with rfl | ht
      · exact ⟨ks₁, h₁⟩
      · exact hsome t ht
    · intro k hk
      rw [List.mem_append, branchProperties_eq_some h₁ hk, hmem k hk]
      simp

/-- The branch of the condition that is walked, and what is read of the condition. -/
structure ReadConditional (O : Subject) (root : Document) (kw : Keywords Schema)
    (ks : List Text) : Prop where
  verdict : ∀ {c}, kw.if_ = some c → (kw.then_.isSome || kw.else_.isSome) = true →
    ∃ b, O.verdict root c = some b
  walked : ∀ {c b s}, kw.if_ = some c → O.verdict root c = some b → taken kw b = some s →
    ∃ ks', branchProperties O root s = some ks'
  counted : ∀ k ∈ ks, k ∈ O.keys → Counted O root kw k
  read_if : ∀ {c k}, kw.if_ = some c → (kw.then_.isSome || kw.else_.isSome) = true →
    O.verdict root c = some true → k ∈ declaredOf c → k ∈ ks
  read_branch : ∀ {c b s k}, k ∈ O.keys → kw.if_ = some c → O.verdict root c = some b →
    taken kw b = some s → BranchReads O root s k → k ∈ ks

/-- The keys of a condition with a branch. -/
theorem conditionalProperties_eq (h : conditionalProperties O root kw = some ks) {c : Schema}
    (hif : kw.if_ = some c) (hboth : (kw.then_.isSome || kw.else_.isSome) = true) :
    ∃ b kb, O.verdict root c = some b ∧ ks = (if b then declaredOf c else []) ++ kb ∧
      (taken kw b = none ∧ kb = [] ∨
        ∃ s, taken kw b = some s ∧ branchProperties O root s = some kb) := by
  rw [conditionalProperties, hif] at h
  dsimp only at h
  rw [hboth, if_pos rfl] at h
  obtain ⟨b, hb, h⟩ := Option.bind_eq_some_iff.mp h
  cases b with
  | true =>
    rw [if_pos rfl] at h
    cases hthen : kw.then_ with
    | none =>
      rw [hthen] at h
      cases h
      exact ⟨true, [], hb, by simp, .inl ⟨hthen, rfl⟩⟩
    | some t =>
      rw [hthen] at h
      obtain ⟨kt, ht, rfl⟩ := Option.map_eq_some_iff.mp h
      exact ⟨true, kt, hb, rfl, .inr ⟨t, hthen, ht⟩⟩
  | false =>
    rw [if_neg (by simp)] at h
    cases helse : kw.else_ with
    | none =>
      rw [helse] at h
      cases h
      exact ⟨false, [], hb, by simp, .inl ⟨helse, rfl⟩⟩
    | some e =>
      rw [helse] at h
      exact ⟨false, ks, hb, by simp, .inr ⟨e, helse, h⟩⟩

theorem isSome_of_taken {b : Bool} {s : Schema} (h : taken kw b = some s) :
    (kw.then_.isSome || kw.else_.isSome) = true := by
  cases b with
  | true => simp [show kw.then_ = some s from h]
  | false => simp [show kw.else_ = some s from h]

/-- The keys of a conditional are those of the branch that is taken. -/
theorem conditionalProperties_eq_some (h : conditionalProperties O root kw = some ks) :
    ReadConditional O root kw ks := by
  -- every field but `counted` is about an `if` with a branch
  have hfield : ∀ {c}, kw.if_ = some c → (kw.then_.isSome || kw.else_.isSome) = true →
      ∃ b kb, O.verdict root c = some b ∧ ks = (if b then declaredOf c else []) ++ kb ∧
        (taken kw b = none ∧ kb = [] ∨
          ∃ s, taken kw b = some s ∧ branchProperties O root s = some kb) :=
    fun hif hboth => conditionalProperties_eq h hif hboth
  constructor
  · intro c hif hboth
    obtain ⟨b, -, hb, -⟩ := hfield hif hboth
    exact ⟨b, hb⟩
  · intro c b s hif hb htaken
    obtain ⟨b', kb, hb', -, hcase⟩ := hfield hif (isSome_of_taken htaken)
    rw [hb] at hb'
    cases hb'
    rcases hcase with ⟨hnone, -⟩ | ⟨s', hs', hbranch⟩
    · rw [htaken] at hnone
      cases hnone
    · rw [htaken] at hs'
      cases hs'
      exact ⟨kb, hbranch⟩
  · intro k hk hkey
    cases hif : kw.if_ with
    | none =>
      rw [conditionalProperties, hif] at h
      cases h
      cases hk
    | some c =>
      cases hboth : kw.then_.isSome || kw.else_.isSome with
      | false =>
        rw [conditionalProperties, hif] at h
        dsimp only at h
        rw [hboth, if_neg (by simp)] at h
        cases h
        cases hk
      | true =>
        obtain ⟨b, kb, hb, rfl, hcase⟩ := hfield hif hboth
        rcases List.mem_append.mp hk with hk | hk
        · cases b with
          | true => exact .if_ hif hboth hb hk
          | false => cases hk
        · rcases hcase with ⟨-, rfl⟩ | ⟨s, hs, hbranch⟩
          · cases hk
          · exact .branch hif hb hs ((branchProperties_eq_some hbranch hkey).mp hk)
  · intro c k hif hboth hc hk
    obtain ⟨b, kb, hb, rfl, -⟩ := hfield hif hboth
    rw [hc] at hb
    cases hb
    exact List.mem_append_left kb hk
  · intro c b s k hkey hif hb htaken hk
    obtain ⟨b', kb, hb', rfl, hcase⟩ := hfield hif (isSome_of_taken htaken)
    rw [hb] at hb'
    cases hb'
    rcases hcase with ⟨hnone, -⟩ | ⟨s', hs', hbranch⟩
    · rw [htaken] at hnone
      cases hnone
    · rw [htaken] at hs'
      cases hs'
      exact List.mem_append_right _ ((branchProperties_eq_some hbranch hkey).mpr hk)

/-- What the function has looked at when it does not raise. -/
structure Accepted (O : Subject) (root : Document) (kw : Keywords Schema) (ev : List Text) :
    Prop where
  pattern : kw.patternProperties = none
  anyOf : kw.anyOf = none
  oneOf : kw.oneOf = none
  additional : ∀ s, kw.additionalProperties = some s → s ≠ .bool false → s = .bool true
  walked : ∀ s ∈ kw.allOf.getD [], ∃ ks, branchProperties O root s = some ks
  conditional : ∃ ks, ReadConditional O root kw ks
  counted : ∀ k ∈ O.keys, (k ∈ ev ↔ Counted O root kw k)

/-- A schema that is accepted is read in full. -/
theorem accepted {ev : List Text} (h : evaluatedPropertyKeys O root kw = some ev) :
    Accepted O root kw ev := by
  rw [evaluatedPropertyKeys] at h
  split_ifs at h with hpattern hof
  simp only [Bool.or_eq_true, not_or, Option.not_isSome_iff_eq_none] at hpattern hof
  obtain ⟨own, hown, h⟩ := Option.bind_eq_some_iff.mp h
  obtain ⟨branches, hbranches, h⟩ := Option.bind_eq_some_iff.mp h
  obtain ⟨cond, hcond, rfl⟩ := Option.map_eq_some_iff.mp h
  obtain ⟨hwalked, hall⟩ := allOfProperties_eq_some hbranches
  have hread := conditionalProperties_eq_some hcond
  -- the keywords of the node itself
  have hadd : ∀ s, kw.additionalProperties = some s → s ≠ .bool false → s = .bool true := by
    intro s hs hne
    rw [hs] at hown
    cases s with
    | node kw' => cases hown
    | bool b =>
      cases b with
      | true => rfl
      | false => exact absurd rfl hne
  have hown' : ∀ k ∈ O.keys, (k ∈ own ↔
      k ∈ kw.declared ∨ kw.additionalProperties = some (.bool true)) := by
    intro k hk
    split at hown
    · cases hown
    · next heq =>
      cases hown
      simp [heq, hk]
    · next hnode htrue =>
      cases hown
      simp [show kw.additionalProperties ≠ some (.bool true) from htrue]
  refine ⟨hpattern, hof.2, hof.1, hadd, hwalked, ⟨cond, hread⟩, fun k hk => ?_⟩
  rw [List.mem_append, List.mem_append, hown' k hk, hall k hk]
  constructor
  · rintro (((h | h) | ⟨s, hs, h⟩) | h)
    · exact .declared h
    · exact .additional h
    · exact .allOf hs h
    · exact hread.counted k h hk
  · rintro (h | h | ⟨h, hs⟩ | ⟨h, hboth, hc, hd⟩ | ⟨h, hc, hb, hs⟩)
    · exact .inl (.inl (.inl h))
    · exact .inl (.inl (.inr h))
    · exact .inl (.inr ⟨_, h, hs⟩)
    · exact .inr (hread.read_if h hboth hc hd)
    · exact .inr (hread.read_branch hk h hc hb hs)

/-! ### The draft's answer in two parts -/

/-- An evaluated key is declared, or evaluated without the declarations. -/
theorem Annotates.declared_or (h : Annotates O root (.node kw) k) :
    k ∈ kw.declared ∨ Annotates O root (.node { kw with properties := none }) k := by
  cases h with
  | here hl =>
    cases hl with
    | properties h => exact .inl h
    | pattern h hmem hmatch => exact .inr (.here (.pattern h hmem hmatch))
    | additional h hs => exact .inr (.here (.additional h hs))
    | unevaluated h hs => exact .inr (.here (.unevaluated h hs))
  | under happ hs =>
    refine .inr (.under ?_ hs)
    cases happ with
    | ref h hfound hv => exact .ref h hfound hv
    | branch h hs => exact .branch h hs
    | dependent h hmem hp hs => exact .dependent h hmem hp hs
    | if_ h hc => exact .if_ h hc
    | then_ h hc ht hs => exact .then_ h hc ht hs
    | else_ h hc he hs => exact .else_ h hc he hs

/-- Declarations do not take evaluated keys away. -/
theorem annotates_without_properties
    (h : Annotates O root (.node { kw with properties := none }) k) :
    Annotates O root (.node kw) k := by
  refine h.of_keywords (fun hl => ?_) fun happ => ?_
  · cases hl with
    | properties h => cases h
    | pattern h hmem hmatch => exact .pattern h hmem hmatch
    | additional h hs => exact .additional h hs
    | unevaluated h hs => exact .unevaluated h hs
  · cases happ with
    | ref h hfound hv => exact .ref h hfound hv
    | branch h hs => exact .branch h hs
    | dependent h hmem hp hs => exact .dependent h hmem hp hs
    | if_ h hc => exact .if_ h hc
    | then_ h hc ht hs => exact .then_ h hc ht hs
    | else_ h hc he hs => exact .else_ h hc he hs

/-- A condition that is wrongly refused holds. -/
theorem Misjudged.valid {c : Schema} (h : Misjudged O root kw c false) : O.Valid root c := by
  by_contra hc
  exact h.wrong (iff_of_false (by simp) hc)

/-- A condition that is wrongly taken does not hold. -/
theorem Misjudged.not_valid {c : Schema} (h : Misjudged O root kw c true) : ¬ O.Valid root c :=
  fun hc => h.wrong (iff_of_true rfl hc)

/-- A misread key is counted. -/
theorem Misread.counted (h : Misread O root kw k) : Counted O root kw k := by
  cases h with
  | if_ h hk => exact .if_ h.if_ h.branch h.verdict hk
  | branch h hb hs => exact .branch h.if_ h.verdict hb hs

section Node

variable {ev : List Text} (ha : Accepted O root kw ev)
include ha

/-- The validator reached a verdict on an `if`-schema with a branch: the draft's or a wrong one. -/
theorem Accepted.verdict_eq {c : Schema} (hif : kw.if_ = some c)
    (hboth : (kw.then_.isSome || kw.else_.isSome) = true) :
    ∃ b, O.verdict root c = some b ∧ ((b = true ↔ O.Valid root c) ∨ Misjudged O root kw c b) := by
  obtain ⟨ks, hread⟩ := ha.conditional
  obtain ⟨b, hb⟩ := hread.verdict hif hboth
  exact ⟨b, hb, or_iff_not_imp_left.mpr fun hwrong => ⟨hif, hboth, hb, hwrong⟩⟩

/-- What the draft evaluates is read or passed over. -/
theorem Accepted.counted_or_passedOver (href : kw.ref = none) (h : Evaluates O root kw k) :
    Counted O root kw k ∨ PassedOver O root kw k := by
  obtain ⟨ks, hread⟩ := ha.conditional
  cases h with
  | here hl =>
    cases hl with
    | properties h => exact .inl (.declared h)
    | pattern h => rw [ha.pattern] at h; cases h
    | unevaluated h => cases h
    | additional h hs =>
      obtain rfl := ha.additional _ h hs
      exact .inl (.additional h)
  | @under _ _ _ s _ happ hs =>
    cases happ with
    | ref h => rw [href] at h; cases h
    -- of the combinators only `allOf` is let through
    | branch h hv =>
      simp only [ha.anyOf, ha.oneOf, Option.getD_none, List.append_nil] at h
      obtain ⟨ks', hks'⟩ := ha.walked s h
      exact (hs.reads_or_skipped hks').imp (Counted.allOf h) (PassedOver.allOf h)
    | dependent h hmem hp hv => exact .inr (.dependent h hmem hp hv hs)
    | if_ h hc =>
      -- the verdict of an `if` is asked only where a branch stands beside it
      cases hboth : kw.then_.isSome || kw.else_.isSome with
      | false =>
        obtain ⟨hthen, helse⟩ : kw.then_ = none ∧ kw.else_ = none := by simpa using hboth
        exact .inr (.lone h hthen helse hc hs)
      | true =>
        obtain ⟨b, hb, hiff | hwrong⟩ := ha.verdict_eq h hboth
        · rw [hiff.mpr hc] at hb
          cases s with
          | bool b' => cases hs
          | node kc =>
            rcases hs.declared_or with hk | hk
            · exact .inl (.if_ h hboth hb hk)
            · exact .inr (.if_ h hc hk)
        · cases b with
          | true => exact absurd hc hwrong.not_valid
          | false => exact .inr (.unheld hwrong hs)
    | then_ h hc hthen hv =>
      obtain ⟨b, hb, hiff | hwrong⟩ := ha.verdict_eq h (isSome_of_taken (b := true) hthen)
      · rw [hiff.mpr hc] at hb
        obtain ⟨ks', hks'⟩ := hread.walked h hb hthen
        exact (hs.reads_or_skipped hks').imp (Counted.branch h hb hthen)
          (PassedOver.then_ h hc hthen)
      · cases b with
        | true => exact absurd hc hwrong.not_valid
        | false => exact .inr (.untaken hwrong hthen hs)
    | else_ h hc helse hv =>
      obtain ⟨b, hb, hiff | hwrong⟩ := ha.verdict_eq h (isSome_of_taken (b := false) helse)
      · rw [show b = false by simpa [hc] using hiff] at hb
        obtain ⟨ks', hks'⟩ := hread.walked h hb helse
        exact (hs.reads_or_skipped hks').imp (Counted.branch h hb helse)
          (PassedOver.else_ h hc helse)
      · cases b with
        | true => exact .inr (.untaken hwrong helse hs)
        | false => exact absurd hwrong.valid hc

omit ha

/-- What is read the draft evaluates, unless a wrong verdict has it read. -/
theorem Counted.evaluates_or_misread (hsat : Satisfies O root kw) (h : Counted O root kw k) :
    Evaluates O root kw k ∨ Misread O root kw k := by
  have hallOf : ∀ {s}, s ∈ kw.allOf.getD [] →
      s ∈ kw.allOf.getD [] ++ kw.anyOf.getD [] ++ kw.oneOf.getD [] :=
    fun hs => List.mem_append_left _ (List.mem_append_left _ hs)
  cases h with
  | declared h => exact .inl (.here (.properties h))
  | additional h => exact .inl (.here (.additional h (by simp)))
  | @allOf s h hs =>
    exact .inl (.under (.branch (hallOf h) (hsat.allOf s h)) (hs.annotates (hsat.allOf s h)))
  | @if_ c h hboth hc hk =>
    by_cases hv : O.Valid root c
    · refine .inl (.under (.if_ h hv) ?_)
      cases c with
      | bool b => cases hk
      | node kc => exact .here (.properties hk)
    · exact .inr (.if_ ⟨h, hboth, hc, fun hiff => hv (hiff.mp rfl)⟩ hk)
  | @branch c b s h hc hb hs =>
    by_cases hiff : b = true ↔ O.Valid root c
    · cases b with
      | true =>
        have hv := hsat.then_ h (hiff.mp rfl) hb
        exact .inl (.under (.then_ h (hiff.mp rfl) hb hv) (hs.annotates hv))
      | false =>
        have hnot : ¬ O.Valid root c := by simpa using hiff
        have hv := hsat.else_ h hnot hb
        exact .inl (.under (.else_ h hnot hb hv) (hs.annotates hv))
    · exact .inr (.branch ⟨h, isSome_of_taken hb, hc, hiff⟩ hb hs)

/-- A key that is passed over is evaluated. -/
theorem PassedOver.evaluates (hsat : Satisfies O root kw) (h : PassedOver O root kw k) :
    Evaluates O root kw k := by
  have hallOf : ∀ {s}, s ∈ kw.allOf.getD [] →
      s ∈ kw.allOf.getD [] ++ kw.anyOf.getD [] ++ kw.oneOf.getD [] :=
    fun hs => List.mem_append_left _ (List.mem_append_left _ hs)
  cases h with
  | @allOf s h hs =>
    exact .under (.branch (hallOf h) (hsat.allOf s h)) (hs.annotates (hsat.allOf s h))
  | if_ h hc hs => exact .under (.if_ h hc) (annotates_without_properties hs)
  | lone h hthen helse hc hs => exact .under (.if_ h hc) hs
  | then_ h hc hthen hs =>
    have hv := hsat.then_ h hc hthen
    exact .under (.then_ h hc hthen hv) (hs.annotates hv)
  | else_ h hc helse hs =>
    have hv := hsat.else_ h hc helse
    exact .under (.else_ h hc helse hv) (hs.annotates hv)
  | dependent h hmem hp hs hk => exact .under (.dependent h hmem hp hs) hk
  | unheld h hs => exact .under (.if_ h.if_ h.valid) hs
  | @untaken c b s h hb hs =>
    cases b with
    | true => exact .under (.else_ h.if_ h.not_valid hb (hsat.else_ h.if_ h.not_valid hb)) hs
    | false => exact .under (.then_ h.if_ h.valid hb (hsat.then_ h.if_ h.valid hb)) hs

end Node

/-- The error names its key. -/
theorem unevaluatedError_injective (path : Text) : Function.Injective (unevaluatedError path) := by
  intro k k' h
  have herror := congrArg FieldError.error h
  exact List.append_cancel_right (List.append_cancel_left herror)

/-- **The check of `unevaluatedProperties: false` is right** exactly when nothing that it passes
over evaluates a key that is not read elsewhere, and every key that a wrong verdict has it read is
evaluated elsewhere; beside a `$ref` it reports nothing. -/
theorem exact_iff {ev : List Text} (path : Text)
    (hfalse : kw.unevaluatedProperties = some (.bool false))
    (hev : evaluatedPropertyKeys O root kw = some ev) (hsat : Satisfies O root kw) :
    Exact O root path kw ↔
      (kw.ref = none ∧ (∀ k ∈ O.keys, PassedOver O root kw k → Counted O root kw k) ∧
          ∀ k ∈ O.keys, Misread O root kw k → Evaluates O root kw k) ∨
        (kw.ref ≠ none ∧ ∀ k ∈ O.keys, Evaluates O root kw k) := by
  have ha := accepted hev
  cases href : kw.ref with
  | some r =>
    have herrors : unevaluatedErrors O root path kw = some [] := by
      rw [unevaluatedErrors, href]
      rfl
    simp only [Exact, herrors, reduceCtorEq, false_and, ne_eq, not_false_eq_true, true_and,
      false_or]
    constructor
    · rintro ⟨bad, hbad, hiff⟩ k hk
      obtain rfl : bad = [] := by simpa using hbad
      by_contra hno
      exact List.not_mem_nil ((hiff k).mpr ⟨hk, hno⟩)
    · exact fun hall => ⟨[], rfl, fun k => ⟨fun hk => absurd hk List.not_mem_nil,
        fun hk => absurd (hall k hk.1) hk.2⟩⟩
  | none =>
    have herrors : unevaluatedErrors O root path kw =
        some ((O.keys.filter (· ∉ ev)).map (unevaluatedError path)) := by
      rw [unevaluatedErrors, href, hfalse, if_neg (by simp)]
      dsimp only
      rw [hev]
      rfl
    simp only [Exact, herrors, true_and, ne_eq, not_true_eq_false, false_and, or_false]
    constructor
    · rintro ⟨bad, hbad, hiff⟩
      have hsame : O.keys.filter (· ∉ ev) = bad :=
        (List.map_injective_iff.mpr (unevaluatedError_injective path)) (Option.some.inj hbad)
      -- the reported keys are those that are not read, and those the draft does not evaluate
      have hread : ∀ k ∈ O.keys, Counted O root kw k ↔ Evaluates O root kw k := by
        intro k hk
        have hmem : k ∈ bad ↔ ¬ Counted O root kw k := by
          rw [← hsame, List.mem_filter, decide_eq_true_eq, ha.counted k hk, and_iff_right hk]
        exact not_iff_not.mp (hmem.symm.trans ((hiff k).trans (and_iff_right hk)))
      exact ⟨fun k hk hpassed => (hread k hk).mpr (hpassed.evaluates hsat),
        fun k hk hmis => (hread k hk).mp hmis.counted⟩
    · rintro ⟨hpassed, hmis⟩
      refine ⟨_, rfl, fun k => ?_⟩
      rw [List.mem_filter, decide_eq_true_eq]
      refine and_congr_right fun hk => ?_
      rw [ha.counted k hk]
      exact not_congr ⟨fun h => (h.evaluates_or_misread hsat).elim id (hmis k hk),
        fun h => (ha.counted_or_passedOver href h).elim id (hpassed k hk)⟩

/-- An object with these keys that every schema accepts. -/
def accepting (keys : List Text) : Subject where
  sibling := fun _ => none
  keys := keys
  verdict := fun _ _ => some true
  Valid := fun _ _ => True
  patternMatches := fun _ _ => false
  valid_ref := fun _ _ _ => trivial

/-- A validator that is right about everything misjudges nothing. -/
theorem not_misjudged_accepting (keys : List Text) (root : Document) (kw : Keywords Schema)
    (c : Schema) (b : Bool) : ¬ Misjudged (accepting keys) root kw c b := by
  rintro ⟨-, -, hb, hwrong⟩
  cases hb
  exact hwrong ⟨fun _ => trivial, fun _ => rfl⟩

theorem satisfies_accepting (keys : List Text) (root : Document) (kw : Keywords Schema) :
    Satisfies (accepting keys) root kw :=
  ⟨fun _ _ => trivial, fun _ _ _ => trivial, fun _ h => absurd trivial h⟩

/-- A schema that declares one name. -/
def declares (name : Text) : Schema := .node { properties := some [(name, .bool true)] }

/-- The keywords of a node over one declaration. -/
def declaringNode : Keywords Schema :=
  { allOf := some [declares ['a']], unevaluatedProperties := some (.bool false) }

/-- An object with a key that is declared and one that is not. -/
theorem exact_iff_declaring :
    Exact (accepting [['a'], ['b']]) ⟨[]⟩ [] declaringNode ↔
      (declaringNode.ref = none ∧ (∀ k ∈ [['a'], ['b']],
        PassedOver (accepting [['a'], ['b']]) ⟨[]⟩ declaringNode k →
          Counted (accepting [['a'], ['b']]) ⟨[]⟩ declaringNode k) ∧
        ∀ k ∈ [['a'], ['b']], Misread (accepting [['a'], ['b']]) ⟨[]⟩ declaringNode k →
          Evaluates (accepting [['a'], ['b']]) ⟨[]⟩ declaringNode k) ∨
      (declaringNode.ref ≠ none ∧ ∀ k ∈ [['a'], ['b']],
        Evaluates (accepting [['a'], ['b']]) ⟨[]⟩ declaringNode k) :=
  exact_iff [] rfl rfl (satisfies_accepting _ _ _)

/-- A branch with an `if`, which declares what `then` declares. -/
def conditionalBranch : Schema :=
  .node { if_ := some (declares ['k']), then_ := some (declares ['a']) }

/-- The keywords of a node over such a branch. -/
def conditionalNode : Keywords Schema :=
  { allOf := some [conditionalBranch], unevaluatedProperties := some (.bool false) }

/-- A key that the `then` of an `allOf` branch evaluates is reported. -/
theorem reports_evaluated_key :
    evaluatedPropertyKeys (accepting [['a']]) ⟨[]⟩ conditionalNode = some [] ∧
      Satisfies (accepting [['a']]) ⟨[]⟩ conditionalNode ∧
      (∀ c b, ¬ Misjudged (accepting [['a']]) ⟨[]⟩ conditionalNode c b) ∧
      Evaluates (accepting [['a']]) ⟨[]⟩ conditionalNode ['a'] ∧
      unevaluatedErrors (accepting [['a']]) ⟨[]⟩ [] conditionalNode =
        some [unevaluatedError [] ['a']] ∧
      ¬ Exact (accepting [['a']]) ⟨[]⟩ [] conditionalNode := by
  have hev : Evaluates (accepting [['a']]) ⟨[]⟩ conditionalNode ['a'] :=
    .under (.branch (s := conditionalBranch) (by simp [conditionalNode]) trivial)
      (.under (.then_ rfl trivial rfl trivial) (.here (.properties (by simp [Keywords.declared]))))
  have herrors : unevaluatedErrors (accepting [['a']]) ⟨[]⟩ [] conditionalNode =
      some [unevaluatedError [] ['a']] := rfl
  refine ⟨rfl, satisfies_accepting _ _ _, not_misjudged_accepting _ _ _, hev, herrors, ?_⟩
  rintro ⟨bad, hbad, hiff⟩
  rw [herrors, Option.some.injEq] at hbad
  obtain rfl : [['a']] = bad :=
    List.map_injective_iff.mpr (unevaluatedError_injective []) (by simpa using hbad)
  exact ((hiff ['a']).mp List.mem_cons_self).2 hev

end Schema

end CoordinatorCore
