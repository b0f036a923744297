import CoordinatorCore.Machine.LastWrite
import CoordinatorCore.Tracker.Clones
import Mathlib.Data.List.Dedup
import Mathlib.Data.List.Sort
import Mathlib.Data.Prod.Lex

/-!
# Completion axes

An item is closed or open by the states of three axes, and these are not stored: they are folded
from transition events, in the order of `read_events`. `tracker_transitions.py` writes the events,
each under an id that is a digest of what it says, so that an observation is stored once.

`snapshot_axis_if_due` writes a snapshot of an axis: the state, and the ids of the events that it
stands for, which the fold skips from there on. The fold takes a snapshot as an entry of its own at
the stamp of the last of these events.

The digests are parameters; all that is used of them here is that they have no `-`.
-/

namespace CoordinatorCore

namespace Tracker

/-! ### Events -/

/-- `TRANSITION_AXES`. -/
inductive Axis
  | manualClose
  | codeComplete
  | qaVerified
  deriving DecidableEq

/-- `TRANSITION_TIERS`. -/
inductive Tier
  | auto
  | suggest
  | direct
  | deferred
  deriving DecidableEq

/-- `transition_event`, with the `sha` of its evidence. -/
structure Payload where
  itemId : Text
  axis : Axis
  fromState : Option Text
  toState : Text
  actor : Text
  sha : Option Text
  tier : Tier
  sourceObservationId : Option Text
  deriving DecidableEq

/-- `build_snapshot_event`. -/
structure Snapshot where
  itemId : Text
  axis : Axis
  foldedEventIds : List Text
  asOfSequence : ℤ
  asOfAppliedAt : Text
  foldedToState : Option Text
  deriving DecidableEq

/-- What an event is about; the generation is stamped on a transition when it is emitted. -/
inductive Entry (γ : Type)
  | transition (payload : Payload) (generation : ℕ)
  | snapshot (snapshot : Snapshot)
  | other (body : γ)
  deriving DecidableEq

variable {β δ γ : Type}

abbrev Stored (δ γ : Type) := Record (Body δ (Entry γ))

/-- The transition that a record holds, with its generation. -/
def transition? (r : Stored δ γ) : Option (Payload × ℕ) :=
  match r.body with
  | .other (.transition p generation) => some (p, generation)
  | _ => none

/-! ### Addresses -/

inductive AddressTail
  | source (sourceObservationId : Text)
  | retract (sourceObservationId : Text) (sha : Option Text)
  | assert (generation : ℕ) (sha : Option Text) (tier : Tier)
  deriving DecidableEq

inductive Address
  | nonce (itemId : Text) (axis : Axis) (toState token : Text)
  | dedup (itemId : Text) (axis : Axis) (toState : Text) (tail : AddressTail)
  deriving DecidableEq

def retracted : Text := "retracted".toList

namespace Payload

/-- `_code_complete_dedup_key`. -/
def codeCompleteDedupKey (p : Payload) (source : Text) (generation : ℕ) : AddressTail :=
  if p.toState = retracted then .retract source p.sha else .assert generation p.sha p.tier

/-- `_mint_address`, with the token that it draws. -/
def mintAddress (p : Payload) (generation : ℕ) (token : Text) : Address :=
  match p.sourceObservationId with
  | none => .nonce p.itemId p.axis p.toState token
  | some source =>
    if p.axis = .codeComplete then
      .dedup p.itemId p.axis p.toState (p.codeCompleteDedupKey source generation)
    else .dedup p.itemId p.axis p.toState (.source source)

/-- `_dedup_check_address`. -/
def dedupCheckAddress (p : Payload) (generation : ℕ) : Option Address :=
  match p.sourceObservationId with
  | none => none
  | some source =>
    if p.axis = .codeComplete then
      some (.dedup p.itemId p.axis p.toState (p.codeCompleteDedupKey source generation))
    else some (.dedup p.itemId p.axis p.toState (.source source))

/-- An event that is looked up is minted under the address that it is looked up by. -/
theorem mintAddress_eq {p : Payload} {generation : ℕ} {a : Address}
    (h : p.dedupCheckAddress generation = some a) (token : Text) :
    p.mintAddress generation token = a := by
  unfold dedupCheckAddress at h
  unfold mintAddress
  cases hs : p.sourceObservationId with
  | none => simp [hs] at h
  | some source =>
    rw [hs] at h
    dsimp only at h ⊢
    split_ifs at h ⊢ <;> exact Option.some.inj h

end Payload

/-- The digests in the ids of the events. -/
structure Digests where
  address : Address → Text
  snapshot : Text → Axis → List Text → Text
  plain : ∀ a, '-' ∉ address a

/-- The id of a transition. -/
def mintId (slug digest : Text) : Text := "evt-".toList ++ slug ++ '-' :: digest

/-- What is behind the last `-` is the digest, and what is before it is the machine. -/
theorem mintId_inj {slug slug' digest digest' : Text} (h : '-' ∉ digest) (h' : '-' ∉ digest')
    (heq : mintId slug digest = mintId slug' digest') : slug = slug' ∧ digest = digest' := by
  rw [mintId, mintId, List.append_assoc, List.append_assoc] at heq
  have heq := List.append_cancel_left heq
  have key : ∀ {slug slug' digest digest' : Text}, '-' ∉ digest → '-' ∉ digest' →
      slug ++ '-' :: digest = slug' ++ '-' :: digest' → digest.length ≤ digest'.length →
        slug = slug' ∧ digest = digest' := by
    intro slug slug' digest digest' _ h' heq hle
    have hdrop := congrArg (List.drop slug'.length) heq
    rw [List.drop_left] at hdrop
    have hlen := congrArg List.length heq
    simp only [List.length_append, List.length_cons] at hlen
    have hsplit : slug'.length ≤ slug.length := by omega
    rw [List.drop_append_of_le_length hsplit] at hdrop
    cases hd : slug.drop slug'.length with
    | nil =>
      rw [hd] at hdrop
      have hdigest : digest = digest' := (List.cons.inj hdrop).2
      rw [hdigest] at heq
      exact ⟨List.append_cancel_right heq, hdigest⟩
    | cons c cs =>
      rw [hd, List.cons_append, List.cons.injEq] at hdrop
      exact absurd (hdrop.2 ▸ List.mem_append_right cs List.mem_cons_self) h'
  rcases le_total digest.length digest'.length with hle | hle
  · exact key h h' heq hle
  · exact (key h' h heq.symm hle).imp Eq.symm Eq.symm

namespace Tier

/-- The tiers that `_NULL_APPLIED_AT_TIERS` leaves out. -/
def applies : Tier → Bool
  | suggest | deferred => false
  | auto | direct => true

end Tier

/-- What is drawn for an event: its stamp, a token, and the time that the store reads. -/
structure Draw where
  observedAt : Text
  token : Text
  now : ℤ

/-- The event that `_emit` and `_emit_batch` build. -/
def transitionEvent (digests : Digests) (slug : Text) (p : Payload) (generation : ℕ)
    (draw : Draw) : Event (Entry γ) where
  id := mintId slug (digests.address (p.mintAddress generation draw.token))
  observedAt := draw.observedAt
  appliedAt := if p.tier.applies then some draw.observedAt else none
  idempotencyKey := none
  body := .transition p generation

/-! ### Reading -/

/-- The months of the files in the monthly folders. -/
def months (machines : List Text) (clone : Text → Shards β) : List Text :=
  ((machines.flatMap fun m => (clone m).rotated.map Prod.fst).dedup).insertionSort (· ≤ ·)

/-- The lines of all files, first the live shards and then month by month. The machines are in the
order of the names of their files. -/
def allLines (machines : List Text) (clone : Text → Shards β) : List (Line β) :=
  (machines.flatMap fun m => (clone m).live) ++
    (months machines clone).flatMap fun month => machines.flatMap fun m => (clone m).partition month

/-- The record in a line. -/
def Line.record? : Line β → Option (Record β)
  | .record r => some r
  | _ => none

def Line.isUnreadable : Line β → Bool
  | .unreadable => true
  | _ => false

/-- `_read_events_for_dedup_scan`; a line that is no object is passed over. -/
def readEventsForDedupScan (machines : List Text) (clone : Text → Shards β) :
    Except Fault (List (Record β)) :=
  if (allLines machines clone).any Line.isUnreadable then .error .malformedLine
  else .ok ((allLines machines clone).filterMap Line.record?)

/-- `(applied_at, observed_at, id)`. -/
def Record.sortKey (r : Record β) : Text ×ₗ Text ×ₗ Text :=
  toLex (r.appliedAt.getD [], toLex (r.observedAt, r.id))

/-- `read_events`. -/
def readEvents (machines : List Text) (clone : Text → Shards β) : Except Fault (List (Record β)) :=
  if (allLines machines clone).any fun l => l.record?.isNone then .error .malformedLine
  else
    .ok ((((allLines machines clone).filterMap Line.record?).filter fun r =>
      r.appliedAt.isSome).insertionSort fun a b => a.sortKey ≤ b.sortKey)

/-! ### The states of an item -/

/-- Whether a record is about an axis of an item. -/
def onAxis (itemId : Text) (axis : Axis) (r : Stored δ γ) : Bool :=
  match r.body with
  | .other (.transition p _) => p.itemId = itemId ∧ p.axis = axis
  | .other (.snapshot s) => s.itemId = itemId ∧ s.axis = axis
  | _ => false

/-- `_sort_key`: a snapshot stands where the last of its events stands. -/
def axisKey (r : Stored δ γ) : Text ×ₗ Text ×ₗ Text ×ₗ ℕ :=
  match r.body with
  | .other (.snapshot s) => toLex (s.asOfAppliedAt, toLex ([], toLex ([], 0)))
  | _ => toLex (r.appliedAt.getD [], toLex (r.observedAt, toLex (r.id, 1)))

/-- What the fold makes of a record: a write, or a summary of writes. -/
def axisEntry (r : Stored δ γ) : Option (LastWrite.Entry Text Text Text) :=
  match r.body with
  | .other (.transition p _) => some (.write r.id (r.appliedAt.getD []) p.toState)
  | .other (.snapshot s) => some (.summary s.asOfAppliedAt s.foldedEventIds s.foldedToState)
  | _ => none

/-- The events of an axis, in the order that they are folded in. -/
def axisEvents (itemId : Text) (axis : Axis) (events : List (Stored δ γ)) : List (Stored δ γ) :=
  (events.filter (onAxis itemId axis)).insertionSort fun a b => axisKey a ≤ axisKey b

/-- What is folded for an axis. -/
def entries (itemId : Text) (axis : Axis) (events : List (Stored δ γ)) :
    List (LastWrite.Entry Text Text Text) :=
  (axisEvents itemId axis events).filterMap axisEntry

/-- One axis of `_fold_axis_states`. -/
def foldAxis (itemId : Text) (axis : Axis) (events : List (Stored δ γ)) : Option Text :=
  LastWrite.replay (entries itemId axis events)

/-- `_fold_axis_states`. -/
def foldAxisStates (itemId : Text) (machines : List Text)
    (clone : Text → Shards (Body δ (Entry γ))) : Except Fault (Axis → Option Text) :=
  (readEvents machines clone).map fun events axis => foldAxis itemId axis events

/-- `render_status`: whether the item is closed. -/
def closed (states : Axis → Option Text) : Bool :=
  states .manualClose = some "closed".toList ∨
    states .codeComplete = some "asserted".toList ∧ states .qaVerified = some "verified".toList

/-! ### Snapshots -/

/-- The walk of `_events_for_axis_since_last_snapshot`, with the events and the snapshot so far. -/
def sinceLastSnapshot (itemId : Text) (axis : Axis) :
    List (Stored δ γ) → List (Stored δ γ) → Option Snapshot → List (Stored δ γ) × Option Snapshot
  | [], since, last => (since, last)
  | r :: rs, since, last =>
    if onAxis itemId axis r then
      match r.body with
      | .other (.snapshot s) => sinceLastSnapshot itemId axis rs [] (some s)
      | _ => sinceLastSnapshot itemId axis rs (since ++ [r]) last
    else sinceLastSnapshot itemId axis rs since last

/-- `_SNAPSHOT_RESNAPSHOT_THRESHOLD`. -/
def resnapshotThreshold : ℕ := 200

/-- `snapshot_axis_if_due`, up to the payload. -/
def dueSnapshot (itemId : Text) (axis : Axis) (events : List (Stored δ γ)) : Option Snapshot :=
  let (since, last) := sinceLastSnapshot itemId axis events [] none
  match since.getLast? with
  | none => none
  | some final =>
    if last.isSome ∧ since.length < resnapshotThreshold then none
    else
      some
        { itemId, axis
          foldedEventIds := since.map fun r => r.id
          asOfSequence := final.sequence.getD 0
          asOfAppliedAt := final.appliedAt.getD []
          foldedToState := since.foldl
            (fun state r => ((transition? r).map fun t => t.1.toState).or state)
            (last.bind Snapshot.foldedToState) }

/-- The event that `emit_snapshot_event` builds. -/
def snapshotEvent (digests : Digests) (slug : Text) (s : Snapshot) (observedAt : Text) :
    Event (Entry γ) where
  id := "evt-".toList ++ slug ++ "-snap-".toList ++
    digests.snapshot s.itemId s.axis s.foldedEventIds
  observedAt
  appliedAt := some observedAt
  idempotencyKey := none
  body := .snapshot s

/-! ### Emitting -/

/-- `_code_complete_retract_generation`. -/
def retractGeneration (itemId : Text) (events : List (Stored δ γ)) : ℕ :=
  events.countP fun r => (transition? r).any fun t =>
    t.1.axis = .codeComplete ∧ t.1.toState = retracted ∧ t.1.itemId = itemId

/-- `_find_existing_by_address`. -/
def findExistingByAddress (a : Address) (events : List (Stored δ γ)) : Option (Stored δ γ) :=
  events.find? fun r => (transition? r).any fun t => t.1.dedupCheckAddress t.2 = some a

/-- The event that is there already for a payload. -/
def existing (p : Payload) (generation : ℕ) (events : List (Stored δ γ)) : Option (Stored δ γ) :=
  (p.dedupCheckAddress generation).bind fun a => findExistingByAddress a events

/-- `_emit`, by the machine of the host: the event that is there, or a new one. -/
def emit [DecidableEq δ] [DecidableEq γ] (host : Host) (digests : Digests) (machines : List Text)
    (clone : Text → Shards (Body δ (Entry γ))) (p : Payload) (draw : Draw) :
    Except (Fault ⊕ Refusal) (Shards (Body δ (Entry γ)) × Stored δ γ) :=
  match readEventsForDedupScan machines clone with
  | .error fault => .error (.inl fault)
  | .ok events =>
    let generation := retractGeneration p.itemId events
    match existing p generation events with
    | some r => .ok (clone host.slug, r)
    | none =>
      let event := (transitionEvent digests host.slug p generation draw).other
      match appendEvent host draw.now (clone host.slug) event none with
      | .ok result => .ok result
      | .error refusal => .error (.inr refusal)

/-- The walk of `_emit_batch` over its payloads: for each of them the event that is there already,
or a new one, with the time that the store reads. The generation of an item goes up with each
retract that is new. -/
def prepareBatch (digests : Digests) (slug : Text) (events : List (Stored δ γ)) :
    (Text → ℕ) → List (Payload × Draw) → List (Stored δ γ ⊕ Event (Entry γ) × ℤ)
  | _, [] => []
  | generation, (p, draw) :: rest =>
    match existing p (generation p.itemId) events with
    | some r => .inl r :: prepareBatch digests slug events generation rest
    | none =>
      .inr (transitionEvent digests slug p (generation p.itemId) draw, draw.now) ::
        prepareBatch digests slug events
          (if p.axis = .codeComplete ∧ p.toState = retracted then
            Function.update generation p.itemId (generation p.itemId + 1)
          else generation) rest

/-- The events that are new among those of a batch. -/
def newEvents (prepared : List (Stored δ γ ⊕ Event (Entry γ) × ℤ)) : List (Event (Entry γ) × ℤ) :=
  prepared.filterMap Sum.getRight?

/-- The stored events in the place of those that were new. -/
def putBack : List (Stored δ γ ⊕ Event (Entry γ) × ℤ) → List (Stored δ γ) → List (Stored δ γ)
  | .inl r :: prepared, appended => r :: putBack prepared appended
  | .inr _ :: prepared, r :: appended => r :: putBack prepared appended
  | _, _ => []

/-- `_emit_batch`. -/
def emitBatch (host : Host) (digests : Digests) (machines : List Text)
    (clone : Text → Shards (Body δ (Entry γ))) (payloads : List (Payload × Draw)) :
    Except (Fault ⊕ Refusal) (Shards (Body δ (Entry γ)) × List (Stored δ γ)) :=
  match readEventsForDedupScan machines clone with
  | .error fault => .error (.inl fault)
  | .ok events =>
    let prepared :=
      prepareBatch digests host.slug events (fun itemId => retractGeneration itemId events) payloads
    match appendEvents host (clone host.slug)
        ((newEvents prepared).map fun e => (e.1.other, e.2)) with
    | .ok (s, appended) => .ok (s, putBack prepared appended)
    | .error refusal => .error (.inr refusal)

/-- `_build_reopen_cascade`. -/
def buildReopenCascade (itemId actor : Text) (states : Axis → Option Text) : List Payload :=
  let payload (axis : Axis) (fromState : Option Text) (toState : Text) : Payload :=
    { itemId, axis, fromState, toState, actor
      sha := none, tier := .direct, sourceObservationId := none }
  payload .manualClose none "reopened".toList ::
    ((if states .codeComplete = some "asserted".toList then
        [payload .codeComplete (states .codeComplete) retracted] else []) ++
      if states .qaVerified = some "verified".toList then
        [payload .qaVerified (states .qaVerified) retracted] else [])

/-- `reopen_cascade`; it writes at most one event on an axis. -/
def reopenCascade (host : Host) (digests : Digests) (machines : List Text)
    (clone : Text → Shards (Body δ (Entry γ))) (itemId actor : Text)
    (draw : Axis → Draw) :
    Except (Fault ⊕ Refusal) (Shards (Body δ (Entry γ)) × List (Stored δ γ)) :=
  match foldAxisStates itemId machines clone with
  | .error fault => .error (.inl fault)
  | .ok states =>
    emitBatch host digests machines clone
      ((buildReopenCascade itemId actor states).map fun p => (p, draw p.axis))

end Tracker

end CoordinatorCore
