import CoordinatorCore.Machine.Table
import CoordinatorCore.Touch.Record

/-!
# Folding a sink

What the events of a sink say: `_last_verb_wins` keeps the last event on each path, `_held_kind` the
strongest kind of hold since the last release of a path. A sink is a family of files, read in order;
`readStream` folds the whole family.
-/

namespace CoordinatorCore

namespace Touch

/-! ### The two folds -/

/-- The last event on each path. -/
def latest (events : List TouchEvent) : Table PyStr TouchEvent :=
  Table.ofPairs (events.map fun e => (e.path, e))

/-- `_last_verb_wins`. -/
def lastVerbWins (events : List TouchEvent) : List TouchEvent := (latest events).values

/-- The claim map of a fold. -/
def claimsOf (events : List TouchEvent) : Table PyStr TouchEvent := latest (lastVerbWins events)

/-- One event in the loop of `_held_kind`. -/
def addHold (since : Table PyStr (List (Option Kind))) (e : TouchEvent) :
    Table PyStr (List (Option Kind)) :=
  match e.verb with
  | .release => since.erase e.path
  | .touch => since.set e.path ((since.get e.path).getD [] ++ [e.kind])

/-- The kind a path is held with, from the kinds of its touches. -/
def strongest (kinds : List (Option Kind)) : Option Kind :=
  if some Kind.write ∈ kinds then some .write
  else if kinds.any (· != some .read) then none
  else some .read

/-- `_held_kind`. -/
def heldKind (events : List TouchEvent) : Table PyStr (Option Kind) :=
  (events.foldl addHold ∅).mapValues strongest

/-- The last event on a path. -/
def lastOn (p : PyStr) (events : List TouchEvent) : Option TouchEvent :=
  events.reverse.find? fun e => e.path = p

/-- The fold keeps the last event of a path. -/
theorem get_latest (events : List TouchEvent) (p : PyStr) :
    (latest events).get p = lastOn p events := by
  rw [latest, Table.get_ofPairs, ← List.map_reverse, List.find?_map, Option.map_map, lastOn]
  exact Option.map_id' ..

/-- The last event is in the later events, if they have one. -/
theorem lastOn_append (p : PyStr) (a b : List TouchEvent) :
    lastOn p (a ++ b) = (lastOn p b).or (lastOn p a) := by
  rw [lastOn, List.reverse_append, List.find?_append]
  rfl

/-- A path without an event has no last one. -/
theorem lastOn_eq_none_iff {p : PyStr} {events : List TouchEvent} :
    lastOn p events = none ↔ ∀ e ∈ events, e.path ≠ p := by
  simp [lastOn]

/-- The last event of a path is on it. -/
theorem path_of_lastOn {p : PyStr} {events : List TouchEvent} {e : TouchEvent}
    (h : lastOn p events = some e) : e.path = p := by
  simpa using List.find?_some h

/-- The last event is one of the events. -/
theorem mem_of_lastOn {p : PyStr} {events : List TouchEvent} {e : TouchEvent}
    (h : lastOn p events = some e) : e ∈ events :=
  List.mem_reverse.mp (List.mem_of_find?_eq_some h)

/-- Among events on different paths the last one of a path is its only one. -/
theorem lastOn_eq_some_iff {p : PyStr} {events : List TouchEvent}
    (h : (events.map TouchEvent.path).Nodup) {e : TouchEvent} :
    lastOn p events = some e ↔ e ∈ events ∧ e.path = p := by
  constructor
  · exact fun he => ⟨mem_of_lastOn he, path_of_lastOn he⟩
  · rintro ⟨hmem, hp⟩
    cases hlast : lastOn p events with
    | none => exact absurd hp (lastOn_eq_none_iff.mp hlast e hmem)
    | some d =>
      exact congrArg some (List.inj_on_of_nodup_map h (mem_of_lastOn hlast) hmem
        ((path_of_lastOn hlast).trans hp.symm))

/-- An event wins when it is the last of its path. -/
theorem mem_lastVerbWins {events : List TouchEvent} {e : TouchEvent} :
    e ∈ lastVerbWins events ↔ lastOn e.path events = some e := by
  rw [lastVerbWins, Table.values, List.mem_map]
  constructor
  · rintro ⟨⟨p, e⟩, hmem, rfl⟩
    rw [← Table.get_eq_some_iff, get_latest] at hmem
    rwa [path_of_lastOn hmem]
  · exact fun h => ⟨(e.path, e), by rwa [← Table.get_eq_some_iff, get_latest], rfl⟩

/-- One event wins for each path. -/
theorem nodup_lastVerbWins (events : List TouchEvent) :
    ((lastVerbWins events).map TouchEvent.path).Nodup := by
  have hpaths : (lastVerbWins events).map TouchEvent.path = (latest events).keys := by
    rw [lastVerbWins, Table.values, Table.keys, List.map_map]
    refine List.map_congr_left fun x hx => ?_
    rw [← Prod.eta x, ← Table.get_eq_some_iff, get_latest] at hx
    exact path_of_lastOn hx
  rw [hpaths]
  exact (latest events).nodup

/-- The projection keeps the last event on each path. -/
theorem lastOn_lastVerbWins (p : PyStr) (events : List TouchEvent) :
    lastOn p (lastVerbWins events) = lastOn p events := by
  refine Option.ext fun e => ?_
  rw [lastOn_eq_some_iff (nodup_lastVerbWins events), mem_lastVerbWins]
  constructor
  · rintro ⟨h, rfl⟩
    exact h
  · intro h
    obtain rfl := path_of_lastOn h
    exact ⟨h, rfl⟩

/-- The claims are the last events. -/
theorem get_claimsOf (events : List TouchEvent) (p : PyStr) :
    (claimsOf events).get p = lastOn p events := by
  rw [claimsOf, get_latest, lastOn_lastVerbWins]

/-! ### Reading -/

/-- `_MAX_SINK_BYTES`. -/
def maxSinkBytes : Nat := 64 * 1024 * 1024

/-- A file of a family. -/
structure Member where
  name : Text
  raw : Bytes

/-- Why a read is degraded. -/
inductive Reason
  | unreadable (member : Text)
  | malformed (member : Text)
  deriving DecidableEq

/-- The lines of one file, decoded one after the other; a malformed line is noted. -/
def decodeLines (name : Text) : List Bytes → Except DecodeError (List TouchEvent × List Reason)
  | [] => .ok ([], [])
  | line :: lines =>
    match decodeLine line with
    | .error .uncaught => .error .uncaught
    | .error .malformed =>
      (decodeLines name lines).map fun (events, reasons) => (events, .malformed name :: reasons)
    | .ok e => (decodeLines name lines).map fun (events, reasons) => (e :: events, reasons)

/-- One file of a family. -/
def readMember (m : Member) : Except DecodeError (List TouchEvent × List Reason) :=
  if maxSinkBytes < m.raw.length then .ok ([], [.unreadable m.name])
  else decodeLines m.name (iterCompleteLines m.raw)

/-- The files of a family, one after the other. -/
def readMembers : List Member → Except DecodeError (List TouchEvent × List Reason)
  | [] => .ok ([], [])
  | m :: ms =>
    (readMember m).bind fun (events, reasons) =>
      (readMembers ms).map fun (events', reasons') => (events ++ events', reasons ++ reasons')

/-- Lines are decoded one behind the other. -/
theorem decodeLines_append (name : Text) (a b : List Bytes) :
    decodeLines name (a ++ b) = (decodeLines name a).bind fun x =>
      (decodeLines name b).map fun y => (x.1 ++ y.1, x.2 ++ y.2) := by
  induction a with
  | nil =>
    change decodeLines name b = _
    cases decodeLines name b <;> rfl
  | cons line a ih =>
    rw [List.cons_append, decodeLines, decodeLines, ih]
    cases decodeLine line with
    | error e =>
      cases e with
      | malformed => cases decodeLines name a <;> cases decodeLines name b <;> rfl
      | uncaught => rfl
    | ok e => cases decodeLines name a <;> cases decodeLines name b <;> rfl

/-- Lines that all decode are read as they are. -/
theorem decodeLines_of_mapM_ok (name : Text) {lines : List Bytes} {events : List TouchEvent}
    (h : lines.mapM decodeLine = .ok events) : decodeLines name lines = .ok (events, []) := by
  induction lines generalizing events with
  | nil =>
    obtain rfl := Except.ok.inj h
    rfl
  | cons line lines ih =>
    rw [List.mapM_cons] at h
    rw [decodeLines]
    cases hline : decodeLine line with
    | error e =>
      rw [hline] at h
      cases h
    | ok e =>
      cases hrest : lines.mapM decodeLine with
      | error e' =>
        rw [hline, hrest] at h
        cases h
      | ok es =>
        rw [hline, hrest] at h
        obtain rfl := Except.ok.inj h
        dsimp only
        rw [ih hrest]
        rfl

/-- A line that raises makes every read raise. -/
theorem decodeLines_of_mapM_uncaught (name : Text) {lines : List Bytes}
    (h : lines.mapM decodeLine = .error .uncaught) :
    decodeLines name lines = .error .uncaught := by
  induction lines with
  | nil => cases h
  | cons line lines ih =>
    rw [List.mapM_cons] at h
    rw [decodeLines]
    cases hline : decodeLine line with
    | error e =>
      rw [hline] at h
      obtain rfl := Except.error.inj h
      rfl
    | ok e =>
      cases hrest : lines.mapM decodeLine with
      | error e' =>
        rw [hline, hrest] at h
        obtain rfl := Except.error.inj h
        dsimp only
        rw [ih hrest]
        rfl
      | ok es =>
        rw [hline, hrest] at h
        cases h

/-- Members are read one behind the other. -/
theorem readMembers_append (a b : List Member) :
    readMembers (a ++ b) = (readMembers a).bind fun x =>
      (readMembers b).map fun y => (x.1 ++ y.1, x.2 ++ y.2) := by
  induction a with
  | nil =>
    change readMembers b = _
    cases readMembers b <;> rfl
  | cons m a ih =>
    rw [List.cons_append, readMembers, readMembers, ih]
    cases readMember m <;> cases readMembers a <;> cases readMembers b <;>
      simp [Except.bind, Except.map]

theorem readMembers_singleton (m : Member) : readMembers [m] = readMember m := by
  rw [readMembers, readMembers]
  cases readMember m <;> simp [Except.bind, Except.map]

/-- What a read of a sink returns. -/
structure StreamRead where
  claims : Table PyStr TouchEvent
  held : Table PyStr (Option Kind)
  degraded : Bool
  reasons : List Reason

/-- The result of a read that met these events. -/
def foldResult (events : List TouchEvent) (reasons : List Reason) : StreamRead where
  claims := claimsOf events
  held := heldKind events
  degraded := !reasons.isEmpty
  reasons := reasons

/-- `read_stream_claims_and_held_kind` on a family that no fold of is remembered. -/
def readStream (family : List Member) : Except DecodeError StreamRead :=
  (readMembers family).map fun (events, reasons) => foldResult events reasons

end Touch

end CoordinatorCore
