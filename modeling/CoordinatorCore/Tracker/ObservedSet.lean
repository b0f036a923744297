import CoordinatorCore.Tracker.Log

/-!
# What a machine has seen of its peers

`fold_observed_set` writes a marker that says, of each peer, up to which sequence its records were
there, with a digest of their ids. `resolve_observed_set` holds such a claim against the files as
they are now, and answers it or calls it unknown; `compare_observed_set_vectors` compares the
answers for two events.

The digest `digest` is a parameter, and so is what makes an observed set part of a marker's id.
-/

namespace CoordinatorCore

namespace Tracker

/-- What a marker says of one peer. -/
structure Claim (δ : Type) where
  sequence : ℤ
  prefixDigest : δ
  deriving DecidableEq

abbrev ObservedSet (δ : Type) := List (Text × Claim δ)

/-- The body of a record: an observed set in a marker of `fold_observed_set`, or something else. -/
inductive Body (δ γ : Type)
  | observedSetFold (observedSet : ObservedSet δ)
  | other (body : γ)
  deriving DecidableEq

inductive Fault
  | malformedLine
  | missingId
  deriving DecidableEq

/-- What resolving one claim gives: the claim again, or `OBSERVED_SET_UNKNOWN`, which is `none`. -/
abbrev Component (δ : Type) := Option (Claim δ)

/-- What resolving a marker gives. -/
abbrev Vector (δ : Type) := List (Text × Component δ)

variable {β δ γ : Type}

/-! ### The fold -/

/-- The loop of `fold_observed_set` over the lines of a peer: the ids that have a sequence, and the
last sequence. -/
def foldLines : List (Line β) → List Text → ℤ → Except Fault (List Text × ℤ)
  | [], ids, current => .ok (ids, current)
  | .record r :: ls, ids, current =>
    match r.sequence with
    | none => foldLines ls ids current
    | some sequence =>
      if r.id = [] then .error .missingId else foldLines ls (ids ++ [r.id]) sequence
  | _ :: _, _, _ => .error .malformedLine

/-- The claims about some peers; one without records is left out. -/
def observe (digest : List Text → δ) (clone : Text → Shards β) :
    List Text → Except Fault (ObservedSet δ)
  | [] => .ok []
  | peer :: peers => do
    let (ids, current) ← foldLines (clone peer).history [] 0
    let rest ← observe digest clone peers
    return if ids = [] then rest else (peer, ⟨current, digest ids⟩) :: rest

/-- `fold_observed_set`: a marker at the end of the own shard, unless it is there. The machines are
those that have files, in order; the id of a marker has a digest of what it says. -/
def foldObservedSet [DecidableEq δ] [DecidableEq γ] (host : Host) (digest : List Text → δ)
    (setDigest : ObservedSet δ → Text) (machines : List Text) (clone : Text → Shards (Body δ γ))
    (now : ℤ) (observedAt : Text) :
    Except (Fault ⊕ Refusal) (Shards (Body δ γ) × Option (Record (Body δ γ))) :=
  match observe digest clone (machines.filter (· ≠ host.slug)) with
  | .error fault => .error (.inl fault)
  | .ok observedSet =>
    let s := clone host.slug
    let id := host.slug ++ "-fold-".toList ++ setDigest observedSet
    if s.live.any fun l => l.id? = some id then .ok (s, none)
    else
      let marker : Event (Body δ γ) := ⟨id, observedAt, none, none, .observedSetFold observedSet⟩
      match appendEvent host now s marker none with
      | .ok (s', r) => .ok (s', some r)
      | .error .duplicateId => .ok (s, none)
      | .error refusal => .error (.inr refusal)

/-! ### The answer to a claim -/

/-- `_well_formedness`, from a position on: where the sequences first go wrong, and from which
sequence on nothing is known. -/
def wellFormedness (position : ℤ) : List ℤ → Option (ℤ × ℤ)
  | [] => none
  | value :: values =>
    if value ≠ position then some (position, min position value)
    else wellFormedness (position + 1) values

/-- The sequences of a shard, and the ids of the records up to a sequence. -/
def collect (bound : ℤ) : List (Line β) → Except Fault (List ℤ × List Text)
  | [] => .ok ([], [])
  | .record r :: ls =>
    match r.sequence with
    | none => collect bound ls
    | some sequence =>
      if sequence ≤ bound then
        if r.id = [] then .error .missingId
        else (collect bound ls).map fun c => (sequence :: c.1, r.id :: c.2)
      else (collect bound ls).map fun c => (sequence :: c.1, c.2)
  | _ :: _ => .error .malformedLine

/-- The sequence of the last line. -/
def currentMax (ls : List (Line β)) : Except Fault ℤ :=
  match ls.getLast? with
  | none => .ok 0
  | some (.record r) => .ok (r.sequence.getD 0)
  | some _ => .error .malformedLine

/-- What the sequences of a shard and the ids of a prefix make of a claim. -/
def answer [DecidableEq δ] (digest : List Text → δ) (claim : Claim δ)
    (c : List ℤ × List Text) : Component δ :=
  if (wellFormedness 1 c.1).any fun w => w.2 ≤ claim.sequence then none
  else if digest c.2 = claim.prefixDigest then some claim
  else none

/-- One round of `resolve_observed_set`. -/
def resolveComponent [DecidableEq δ] (digest : List Text → δ) (ls : List (Line β))
    (claim : Claim δ) : Except Fault (Component δ) := do
  if (← currentMax ls) < claim.sequence then return none
  return answer digest claim (← collect claim.sequence ls)

/-- `resolve_observed_set`. -/
def resolveObservedSet [DecidableEq δ] (digest : List Text → δ) (clone : Text → Shards β) :
    ObservedSet δ → Except Fault (Vector δ)
  | [] => .ok []
  | (peer, claim) :: rest => do
    let component ← resolveComponent digest (clone peer).history claim
    return (peer, component) :: (← resolveObservedSet digest clone rest)

/-- The scan of `resolve_observed_set_for_event` for the marker in effect, with the best so far. -/
def scanMarker (sequence : ℤ) :
    List (Line (Body δ γ)) → Option (ℤ × Text × ObservedSet δ) →
      Except Fault (Option (ℤ × Text × ObservedSet δ))
  | [], best => .ok best
  | .record r :: ls, best =>
    match r.body, r.sequence with
    | .observedSetFold observedSet, some q =>
      if q ≥ sequence then scanMarker sequence ls best
      else if best.all fun b => b.1 < q ∨ b.1 = q ∧ b.2.1 < r.id then
        scanMarker sequence ls (some (q, r.id, observedSet))
      else scanMarker sequence ls best
    | _, _ => scanMarker sequence ls best
  | _ :: _, _ => .error .malformedLine

/-- The marker in effect for an event. Only the live shard of its machine is read. -/
def markerInEffect (clone : Text → Shards (Body δ γ)) (machine : Text) (sequence : ℤ) :
    Except Fault (Option (ObservedSet δ)) :=
  (scanMarker sequence (clone machine).live none).map fun best => best.map fun b => b.2.2

/-- `resolve_observed_set_for_event`; without a marker nothing was ever said. -/
def resolveObservedSetForEvent [DecidableEq δ] (digest : List Text → δ)
    (clone : Text → Shards (Body δ γ)) (machine : Text) (sequence : ℤ) :
    Except Fault (Option (Vector δ)) := do
  match ← markerInEffect clone machine sequence with
  | none => return none
  | some observedSet => return some (← resolveObservedSet digest clone observedSet)

/-- `_resolve_self_component`. It too reads only the live shard. -/
def resolveSelfComponent (digest : List Text → δ) (clone : Text → Shards β) (machine : Text)
    (sequence : ℤ) : Except Fault (Component δ) := do
  let c ← collect sequence (clone machine).live
  return if (wellFormedness 1 c.1).any fun w => w.2 ≤ sequence then none
    else some ⟨sequence, digest c.2⟩

/-- An entry of a dictionary written. -/
def setEntry (machine : Text) (component : Component δ) (v : Vector δ) : Vector δ :=
  v.filter (fun e => e.1 ≠ machine) ++ [(machine, component)]

/-- `resolve_observed_set_union_for_event`. -/
def resolveObservedSetUnionForEvent [DecidableEq δ] (digest : List Text → δ)
    (clone : Text → Shards (Body δ γ)) (machine : Text) (sequence : ℤ) :
    Except Fault (Option (Vector δ)) := do
  match ← resolveObservedSetForEvent digest clone machine sequence with
  | none => return none
  | some peers =>
    return some (setEntry machine (← resolveSelfComponent digest clone machine sequence) peers)

/-! ### The comparison -/

inductive CausalOrder
  | equal
  | aDominates
  | bDominates
  | concurrent
  | indeterminate
  deriving DecidableEq

inductive Comparison
  | lt
  | gt
  | eq
  | unknown
  deriving DecidableEq

/-- `_compare_observed_set_component`; the outer `none` is an absent entry. -/
def compareComponent [DecidableEq δ] : Option (Component δ) → Option (Component δ) → Comparison
  | some none, _ => .unknown
  | _, some none => .unknown
  | a, b =>
    let seq (c : Option (Component δ)) : ℤ := (c.join.map Claim.sequence).getD 0
    if seq a < seq b then .lt
    else if seq b < seq a then .gt
    else
      match a.join, b.join with
      | some x, some y => if x.prefixDigest = y.prefixDigest then .eq else .unknown
      | _, _ => .eq

/-- `compare_observed_set_vectors`. -/
def compareVectors [DecidableEq δ] : Option (Vector δ) → Option (Vector δ) → CausalOrder
  | some a, some b =>
    let results := (a ++ b).map fun e => compareComponent (a.lookup e.1) (b.lookup e.1)
    if .unknown ∈ results then .indeterminate
    else if .lt ∈ results ∧ .gt ∈ results then .concurrent
    else if .lt ∈ results then .bDominates
    else if .gt ∈ results then .aDominates
    else .equal
  | _, _ => .indeterminate

/-- The order of `_fallback_tiebreak_key`, of the machines and the ids. -/
def tiebreak (a b : Text × Text) : ℤ :=
  if a = b then 0 else if a.1 < b.1 ∨ a.1 = b.1 ∧ a.2 < b.2 then -1 else 1

/-- What `compare_events_causal_order` returns for an outcome and a tiebreak. -/
def CausalOrder.sign (tie : ℤ) : CausalOrder → ℤ
  | .aDominates => 1
  | .bDominates => -1
  | _ => tie

/-- `compare_events_causal_order` of two records, by their machine, their sequence and their id. -/
def compareEventsCausalOrder [DecidableEq δ] (digest : List Text → δ)
    (clone : Text → Shards (Body δ γ)) (a b : Text × ℤ × Text) : Except Fault ℤ := do
  let va ← resolveObservedSetUnionForEvent digest clone a.1 a.2.1
  let vb ← resolveObservedSetUnionForEvent digest clone b.1 b.2.1
  return (compareVectors va vb).sign (tiebreak (a.1, a.2.2) (b.1, b.2.2))

end Tracker

end CoordinatorCore
