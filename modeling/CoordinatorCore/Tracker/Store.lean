import CoordinatorCore.Text.Basic
import CoordinatorCore.Machine.Run
import Mathlib.Data.Char
import Mathlib.Data.List.Lex
import Mathlib.Data.List.Nodup
import Mathlib.Data.List.Perm.Basic

/-!
# The shards of one machine in the tracker store

`tracker_store.py` keeps the events of the tracker in one file a machine, and only that machine
writes it: `append_event` and `append_events` put records at the end of the live shard, and
`rotate_month` moves the records of a month out of it into a file of their own. The history of a
machine is what is in its monthly files, in the order of the months, and then the live shard.

Each of the three runs under the lock of the live shard, so here each is one step. A rotation writes
two files, and it may stop between them.
-/

namespace CoordinatorCore

open Machine Text

namespace Tracker

/-! ### Records -/

/-- An event as a caller hands it over. Empty texts stand for fields that are missing. -/
structure Event (β : Type) where
  id : Text
  observedAt : Text
  appliedAt : Option Text
  idempotencyKey : Option Text
  body : β
  deriving DecidableEq

/-- A stored event. A sequence that is missing or is no integer is `none`. -/
structure Record (β : Type) extends Event β where
  machine : Text
  sequence : Option ℤ
  wallMs : ℤ
  counter : ℤ
  deriving DecidableEq

/-- A line of a shard: not JSON, JSON but no object, or a record. -/
inductive Line (β : Type)
  | unreadable
  | notObject
  | record (r : Record β)
  deriving DecidableEq

variable {β : Type}

/-- `_stable_payload`: the event without the fields that are stamped on it. -/
def Event.stablePayload (e : Event β) : Option Text × β := (e.idempotencyKey, e.body)

/-- `_event_month`. -/
def Line.eventMonth : Line β → Option Text
  | .record r => if r.observedAt.length < 7 then none else some (r.observedAt.take 7)
  | _ => none

/-- The id that a line gives, if it gives one. -/
def Line.id? : Line β → Option Text
  | .record r => if r.id = [] then none else some r.id
  | _ => none

/-- The machine that runs the code, and which characters `str.isdigit` takes. -/
structure Host where
  slug : Text
  digit : Char → Bool

/-- The files of one machine: the monthly ones, in the order of the months, and the live one. -/
structure Shards (β : Type) where
  rotated : List (Text × List (Line β))
  live : List (Line β)
  sorted : (rotated.map Prod.fst).Pairwise (· < ·)

inductive Refusal
  | missingId
  | missingObservedAt
  | bareDigits
  | duplicateId
  | keyMisuse (boundId : Text)
  | malformedTail
  deriving DecidableEq

namespace Shards

/-- `_peer_shard_paths`, read: every line of the machine, the oldest file first. -/
def history (s : Shards β) : List (Line β) := s.rotated.flatMap Prod.snd ++ s.live

/-- The lines of a monthly file; there are none where there is no file. -/
def partition (s : Shards β) (month : Text) : List (Line β) :=
  ((s.rotated.find? fun p => p.1 = month).map Prod.snd).getD []

/-- A machine that has written nothing. -/
def empty : Shards β := ⟨[], [], List.Pairwise.nil⟩

/-- Lines at the end of the live shard. -/
def push (s : Shards β) (ls : List (Line β)) : Shards β := { s with live := s.live ++ ls }

end Shards

/-! ### The appends -/

/-- `_next_clock`. -/
def nextClock (priorWallMs priorCounter now : ℤ) : ℤ × ℤ :=
  let wallMs := max now priorWallMs
  (wallMs, if wallMs = priorWallMs then priorCounter + 1 else 0)

/-- `_id_not_bare_digit_string`. -/
def idNotBareDigitString (host : Host) (id : Text) : Bool :=
  !(strip id).isEmpty && !(strip id).all host.digit

/-- `_validate_event_fields`. -/
def validateEventFields (host : Host) (e : Event β) : Except Refusal Unit :=
  if e.id = [] then .error .missingId
  else if e.observedAt = [] then .error .missingObservedAt
  else if idNotBareDigitString host e.id then .ok ()
  else .error .bareDigits

/-- The scan of `append_event` for an id or a key that is taken; what it returns is the record that
the key is bound to. -/
def scan [DecidableEq β] (e : Event β) (key : Option Text) :
    List (Line β) → Except Refusal (Option (Record β))
  | [] => .ok none
  | .record r :: ls =>
    if r.id = e.id then .error .duplicateId
    else if key ≠ none ∧ r.idempotencyKey = key then
      if r.stablePayload = e.stablePayload then .ok (some r) else .error (.keyMisuse r.id)
    else scan e key ls
  | _ :: ls => scan e key ls

/-- The sequence and the clock of the last line of the live shard. -/
def tail (live : List (Line β)) : Except Refusal (ℤ × ℤ × ℤ) :=
  match live.getLast? with
  | none => .ok (0, 0, 0)
  | some (.record r) => .ok (r.sequence.getD 0, r.wallMs, r.counter)
  | some _ => .error .malformedTail

def stamp (host : Host) (e : Event β) (sequence wallMs counter : ℤ) : Record β :=
  { e with machine := host.slug, sequence := some sequence, wallMs, counter }

/-- `append_event`, with the time that it reads. -/
def appendEvent [DecidableEq β] (host : Host) (now : ℤ) (s : Shards β) (e : Event β)
    (key : Option Text) : Except Refusal (Shards β × Record β) := do
  validateEventFields host e
  match ← scan e key s.history with
  | some bound => return (s, bound)
  | none =>
    let (sequence, wallMs, counter) ← tail s.live
    let (wallMs, counter) := nextClock wallMs counter now
    let r := stamp host e (sequence + 1) wallMs counter
    return (s.push [.record r], r)

/-- The records of a batch, each behind the one before it. -/
def stampAll (host : Host) (sequence wallMs counter : ℤ) : List (Event β × ℤ) → List (Record β)
  | [] => []
  | (e, now) :: batch =>
    let clock := nextClock wallMs counter now
    stamp host e (sequence + 1) clock.1 clock.2 ::
      stampAll host (sequence + 1) clock.1 clock.2 batch

/-- `append_events`, with the time that it reads for each event. -/
def appendEvents (host : Host) (s : Shards β) (batch : List (Event β × ℤ)) :
    Except Refusal (Shards β × List (Record β)) :=
  if batch = [] then .ok (s, [])
  else
    (forM batch fun b => validateEventFields host b.1).bind fun _ =>
      let ids := batch.map fun b => b.1.id
      if ¬ ids.Nodup then .error .duplicateId
      -- only the live shard is looked at, and not the monthly files
      else if s.live.any fun l => l.id?.any (· ∈ ids) then .error .duplicateId
      else
        (tail s.live).bind fun t =>
          let rs := stampAll host t.1 t.2.1 t.2.2 batch
          .ok (s.push (rs.map .record), rs)

/-! ### The rotation -/

/-- A monthly file written, among files in the order of the months. -/
def putPartition (month : Text) (ls : List (Line β)) :
    List (Text × List (Line β)) → List (Text × List (Line β))
  | [] => [(month, ls)]
  | (k, old) :: rest =>
    if month < k then (month, ls) :: (k, old) :: rest
    else if k = month then (k, ls) :: rest
    else (k, old) :: putPartition month ls rest

/-- A partition is the one that was put, or an old one. -/
theorem eq_or_mem_of_mem_putPartition {month : Text} {ls : List (Line β)}
    {files : List (Text × List (Line β))} {p : Text × List (Line β)}
    (h : p ∈ putPartition month ls files) : p = (month, ls) ∨ p ∈ files := by
  induction files with
  | nil => exact .inl (by simpa [putPartition] using h)
  | cons q rest ih =>
    rw [putPartition] at h
    split_ifs at h with hlt heq
    · exact (List.mem_cons.mp h).imp_right id
    · subst heq
      exact (List.mem_cons.mp h).imp_right (List.mem_cons_of_mem _)
    · rcases List.mem_cons.mp h with rfl | h
      · exact .inr List.mem_cons_self
      · exact (ih h).imp_right (List.mem_cons_of_mem _)

/-- The partitions stay sorted by month. -/
theorem sorted_putPartition (month : Text) (ls : List (Line β))
    {files : List (Text × List (Line β))} (h : (files.map Prod.fst).Pairwise (· < ·)) :
    ((putPartition month ls files).map Prod.fst).Pairwise (· < ·) := by
  induction files with
  | nil => simp [putPartition]
  | cons p rest ih =>
    rw [List.map_cons, List.pairwise_cons] at h
    rw [putPartition]
    split_ifs with hlt heq
    · refine List.pairwise_cons.mpr ⟨fun k hk => ?_, List.pairwise_cons.mpr h⟩
      rcases List.mem_cons.mp hk with rfl | hk
      · exact hlt
      · exact hlt.trans (h.1 k hk)
    · exact List.pairwise_cons.mpr h
    · refine List.pairwise_cons.mpr ⟨fun k hk => ?_, ih h.2⟩
      obtain ⟨q, hq, rfl⟩ := List.mem_map.mp hk
      rcases eq_or_mem_of_mem_putPartition hq with rfl | hq
      · exact lt_of_le_of_ne (not_lt.mp hlt) heq
      · exact h.1 q.1 (List.mem_map_of_mem hq)

namespace Shards

/-- The lines that a rotation moves. -/
def candidates (s : Shards β) (month : Text) : List (Line β) :=
  s.live.filter fun l => l.eventMonth = some month

/-- Those of them whose id is not in the monthly file already. -/
def fresh (s : Shards β) (month : Text) : List (Line β) :=
  (s.candidates month).filter fun l =>
    !l.id?.any (· ∈ (s.partition month).filterMap Line.id?)

/-- The first write of `rotate_month`: the monthly file. -/
def copied (s : Shards β) (month : Text) : Shards β :=
  if s.fresh month = [] then s
  else
    { rotated := putPartition month (s.partition month ++ s.fresh month) s.rotated
      live := s.live
      sorted := sorted_putPartition _ _ s.sorted }

/-- `rotate_month`, and how many lines it says it moved. -/
def rotateMonth (s : Shards β) (month : Text) : Shards β × ℕ :=
  if s.candidates month = [] then (s, 0)
  else
    ({ s.copied month with live := s.live.filter fun l => l.eventMonth ≠ some month },
      (s.candidates month).length)

end Shards

/-! ### Runs -/

/-- What a machine does to its shards. `interrupt` is a rotation that stops behind its first
write. -/
inductive Action (β : Type)
  | append (event : Event β) (key : Option Text) (now : ℤ)
  | batch (events : List (Event β × ℤ))
  | rotate (month : Text)
  | interrupt (month : Text)

/-- One call; a call that is refused changes nothing. -/
def step [DecidableEq β] (host : Host) (s : Shards β) : Action β → Option (Shards β)
  | .append e key now =>
    match appendEvent host now s e key with
    | .ok (s', _) => some s'
    | .error _ => some s
  | .batch events =>
    match appendEvents host s events with
    | .ok (s', _) => some s'
    | .error _ => some s
  | .rotate month => some (s.rotateMonth month).1
  | .interrupt month => some (s.copied month)

/-! ### What a call does -/

/-- The scan passes when no record has the id or the key. -/
theorem scan_eq_none [DecidableEq β] {e : Event β} {key : Option Text} {ls : List (Line β)}
    (h : scan e key ls = .ok none) :
    ∀ r, .record r ∈ ls → r.id ≠ e.id ∧ (key = none ∨ r.idempotencyKey ≠ key) := by
  induction ls with
  | nil => simp
  | cons l ls ih =>
    intro r hr
    cases l with
    | record r' =>
      rw [scan] at h
      split_ifs at h with hid hkey
      · cases h
      · rcases List.mem_cons.mp hr with heq | hr
        · obtain rfl := Line.record.inj heq
          exact ⟨hid, by tauto⟩
        · exact ih h r hr
    | _ => exact ih h r (by simpa using hr)

/-- The scan finds a record with the key and the same payload. -/
theorem scan_eq_some [DecidableEq β] {e : Event β} {key : Option Text} {ls : List (Line β)}
    {r : Record β} (h : scan e key ls = .ok (some r)) :
    .record r ∈ ls ∧ key ≠ none ∧ r.idempotencyKey = key ∧ r.stablePayload = e.stablePayload := by
  induction ls with
  | nil => cases h
  | cons l ls ih =>
    cases l with
    | record r' =>
      rw [scan] at h
      split_ifs at h with hid hkey hsame
      · cases h
        exact ⟨List.mem_cons_self, hkey.1, hkey.2, hsame⟩
      · exact (ih h).imp_left (List.mem_cons_of_mem _)
    | _ => exact (ih h).imp_left (List.mem_cons_of_mem _)

/-- An append either finds its key bound to the same payload and writes nothing, or it writes one
record, under an id and a key that the machine never wrote before. -/
theorem appendEvent_cases [DecidableEq β] {host : Host} {now : ℤ} {s s' : Shards β} {e : Event β}
    {key : Option Text} {r : Record β} (h : appendEvent host now s e key = .ok (s', r)) :
    (s' = s ∧ .record r ∈ s.history ∧ key ≠ none ∧ r.idempotencyKey = key ∧
        r.stablePayload = e.stablePayload) ∨
      (s' = s.push [.record r] ∧ e.id ≠ [] ∧
        (∀ r', .record r' ∈ s.history → r'.id ≠ e.id ∧ (key = none ∨ r'.idempotencyKey ≠ key)) ∧
        ∃ sequence wallMs counter, tail s.live = .ok (sequence, wallMs, counter) ∧
          r = stamp host e (sequence + 1) (nextClock wallMs counter now).1
            (nextClock wallMs counter now).2) := by
  unfold appendEvent at h
  cases hv : validateEventFields host e with
  | error => rw [hv] at h; cases h
  | ok =>
    have hid : e.id ≠ [] := by
      unfold validateEventFields at hv
      split_ifs at hv with hid
      exact hid
    rw [hv] at h
    cases hscan : scan e key s.history with
    | error => simp [hscan, bind, Except.bind] at h
    | ok found =>
      cases found with
      | some bound =>
        simp only [hscan, bind, Except.bind, pure, Except.pure, Except.ok.injEq, Prod.mk.injEq] at h
        obtain ⟨rfl, rfl⟩ := h
        exact .inl ⟨rfl, scan_eq_some hscan⟩
      | none =>
        cases htail : tail s.live with
        | error => simp [hscan, htail, bind, Except.bind] at h
        | ok t =>
          simp only [hscan, htail, bind, Except.bind, pure, Except.pure, Except.ok.injEq,
            Prod.mk.injEq] at h
          obtain ⟨rfl, rfl⟩ := h
          exact .inr ⟨rfl, hid, scan_eq_none hscan, _, _, _, rfl, rfl⟩

/-- Events that pass the field checks have an id. -/
theorem id_ne_nil_of_forM {host : Host} {batch : List (Event β × ℤ)}
    (h : (forM batch fun b => validateEventFields host b.1) = .ok ()) :
    ∀ b ∈ batch, b.1.id ≠ [] := by
  induction batch with
  | nil => simp
  | cons b batch ih =>
    rw [List.forM_cons] at h
    cases hv : validateEventFields host b.1 with
    | error => rw [hv] at h; cases h
    | ok =>
      rw [hv] at h
      intro b' hb'
      rcases List.mem_cons.mp hb' with rfl | hb'
      · unfold validateEventFields at hv
        split_ifs at hv with hid
        exact hid
      · exact ih h b' hb'

/-- A batch is written whole, under ids that differ and that the live shard does not have. -/
theorem appendEvents_cases {host : Host} {s s' : Shards β} {batch : List (Event β × ℤ)}
    {rs : List (Record β)} (h : appendEvents host s batch = .ok (s', rs)) :
    (batch = [] ∧ s' = s ∧ rs = []) ∨
      ((∀ b ∈ batch, b.1.id ≠ []) ∧ (batch.map fun b => b.1.id).Nodup ∧
        (∀ l ∈ s.live, ∀ b ∈ batch, l.id? ≠ some b.1.id) ∧ s' = s.push (rs.map .record) ∧
        ∃ sequence wallMs counter, tail s.live = .ok (sequence, wallMs, counter) ∧
          rs = stampAll host sequence wallMs counter batch) := by
  unfold appendEvents at h
  split_ifs at h with hnil
  · cases h
    exact .inl ⟨hnil, rfl, rfl⟩
  cases hv : forM batch fun b => validateEventFields host b.1 with
  | error => rw [hv] at h; cases h
  | ok =>
    rw [hv, Except.bind] at h
    dsimp only at h
    split_ifs at h with hnodup hlive
    cases htail : tail s.live with
    | error => rw [htail] at h; cases h
    | ok t =>
      rw [htail] at h
      cases h
      refine .inr ⟨id_ne_nil_of_forM hv, hnodup, fun l hl b hb hid => hlive ?_, rfl, _,
        _, _, rfl, rfl⟩
      refine List.any_eq_true.mpr ⟨l, hl, ?_⟩
      rw [hid]
      simpa using ⟨b.1, ⟨b.2, hb⟩, rfl⟩

/-- A batch is stamped event by event. -/
theorem map_toEvent_stampAll (host : Host) (q w c : ℤ) (batch : List (Event β × ℤ)) :
    (stampAll host q w c batch).map Record.toEvent = batch.map Prod.fst := by
  induction batch generalizing q w c with
  | nil => rfl
  | cons b batch ih => rw [stampAll, List.map_cons, List.map_cons, ih]; rfl

/-- Stamping leaves the ids. -/
theorem map_id_stampAll (host : Host) (q w c : ℤ) (batch : List (Event β × ℤ)) :
    ((stampAll host q w c batch).map fun r => r.id) = batch.map fun b => b.1.id := by
  simpa only [List.map_map, Function.comp_def] using
    congrArg (List.map Event.id) (map_toEvent_stampAll host q w c batch)

namespace Shards

/-- A line of the history is rotated or live. -/
theorem mem_history_iff {s : Shards β} {l : Line β} :
    l ∈ s.history ↔ (∃ p ∈ s.rotated, l ∈ p.2) ∨ l ∈ s.live := by
  rw [history, List.mem_append, List.mem_flatMap]

/-- The lines of a month's partition. -/
theorem mem_partition_iff {s : Shards β} {month : Text} {l : Line β} :
    l ∈ s.partition month ↔ ∃ p ∈ s.rotated, p.1 = month ∧ l ∈ p.2 := by
  have hkeys : (s.rotated.map Prod.fst).Nodup := s.sorted.imp fun h => ne_of_lt h
  unfold partition
  constructor
  · intro h
    cases hf : s.rotated.find? fun p => p.1 = month with
    | none => simp [hf] at h
    | some p =>
      rw [hf] at h
      exact ⟨p, List.mem_of_find?_eq_some hf, by simpa using List.find?_some hf, h⟩
  · rintro ⟨p, hp, rfl, hl⟩
    cases hf : s.rotated.find? fun q => q.1 = p.1 with
    | none => exact absurd (List.find?_eq_none.mp hf p hp) (by simp)
    | some q =>
      have hq : q.1 = p.1 := by simpa using List.find?_some hf
      rwa [← List.inj_on_of_nodup_map hkeys (List.mem_of_find?_eq_some hf) hp hq] at hl

/-- The lines behind putting a partition. -/
theorem mem_putPartition_iff {month : Text} {ls : List (Line β)}
    {files : List (Text × List (Line β))} (hs : (files.map Prod.fst).Pairwise (· < ·))
    {l : Line β} :
    (∃ p ∈ putPartition month ls files, l ∈ p.2) ↔
      l ∈ ls ∨ ∃ p ∈ files, p.1 ≠ month ∧ l ∈ p.2 := by
  induction files with
  | nil => simp [putPartition]
  | cons p rest ih =>
    rw [List.map_cons, List.pairwise_cons] at hs
    have hrest : month ≤ p.1 → ∀ q ∈ rest, q.1 ≠ month := fun hle q hq =>
      (hle.trans_lt (hs.1 q.1 (List.mem_map_of_mem hq))).ne'
    have hdrop : month ≤ p.1 →
        ((∃ q ∈ rest, q.1 ≠ month ∧ l ∈ q.2) ↔ ∃ q ∈ rest, l ∈ q.2) := fun hle =>
      ⟨fun ⟨q, hq, _, hl⟩ => ⟨q, hq, hl⟩, fun ⟨q, hq, hl⟩ => ⟨q, hq, hrest hle q hq, hl⟩⟩
    rw [putPartition]
    split_ifs with hlt heq
    · simp only [List.mem_cons, or_and_right, exists_or, exists_eq_left, hdrop hlt.le, ne_eq,
        hlt.ne', not_false_eq_true, true_and]
    · simp only [List.mem_cons, or_and_right, exists_or, exists_eq_left, hdrop heq.ge, ne_eq, heq,
        not_true_eq_false, false_and, false_or]
    · simp only [List.mem_cons, or_and_right, exists_or, exists_eq_left, ih hs.2, ne_eq, heq,
        not_false_eq_true, true_and]
      exact or_left_comm

/-- What is fresh for a month is live. -/
theorem mem_of_mem_fresh {s : Shards β} {month : Text} {l : Line β} (h : l ∈ s.fresh month) :
    l ∈ s.live :=
  List.mem_of_mem_filter (List.mem_of_mem_filter h)

/-- Copying a month adds its fresh lines. -/
theorem mem_rotated_copied {s : Shards β} {month : Text} {l : Line β} :
    (∃ p ∈ (s.copied month).rotated, l ∈ p.2) ↔
      (∃ p ∈ s.rotated, l ∈ p.2) ∨ l ∈ s.fresh month := by
  unfold copied
  split_ifs with hnil
  · simp [hnil]
  · rw [mem_putPartition_iff s.sorted, List.mem_append, mem_partition_iff]
    constructor
    · rintro ((⟨p, hp, -, hl⟩ | hl) | ⟨p, hp, -, hl⟩)
      · exact .inl ⟨p, hp, hl⟩
      · exact .inr hl
      · exact .inl ⟨p, hp, hl⟩
    · rintro (⟨p, hp, hl⟩ | hl)
      · by_cases hm : p.1 = month
        · exact .inl (.inl ⟨p, hp, hm, hl⟩)
        · exact .inr ⟨p, hp, hm, hl⟩
      · exact .inl (.inr hl)

@[simp] theorem live_copied (s : Shards β) (month : Text) : (s.copied month).live = s.live := by
  unfold copied
  split_ifs <;> rfl

/-- Copying a month adds no line to the history, and takes none away. -/
theorem mem_history_copied {s : Shards β} {month : Text} {l : Line β} :
    l ∈ (s.copied month).history ↔ l ∈ s.history := by
  rw [mem_history_iff, mem_history_iff, mem_rotated_copied, live_copied]
  constructor
  · rintro ((h | h) | h)
    · exact .inl h
    · exact .inr (mem_of_mem_fresh h)
    · exact .inr h
  · exact Or.imp_left .inl

/-- A rotation drops the month's lines from the live file. -/
theorem live_rotateMonth (s : Shards β) (month : Text) :
    (s.rotateMonth month).1.live = s.live.filter fun l => l.eventMonth ≠ some month := by
  unfold rotateMonth
  split_ifs with hnil
  · refine (List.filter_eq_self.mpr fun l hl => ?_).symm
    simpa using List.filter_eq_nil_iff.mp hnil l hl
  · rfl

/-- A rotation puts the month's fresh lines behind its partition. -/
theorem rotated_rotateMonth {s : Shards β} {month : Text} (h : s.fresh month ≠ []) :
    (s.rotateMonth month).1.rotated =
      putPartition month (s.partition month ++ s.fresh month) s.rotated := by
  have hcand : s.candidates month ≠ [] := by
    intro hnil
    exact h (by rw [fresh, hnil, List.filter_nil])
  rw [rotateMonth, if_neg hcand, copied, if_neg h]

/-- The rotated lines behind a rotation. -/
theorem mem_rotated_rotateMonth {s : Shards β} {month : Text} {l : Line β} :
    (∃ p ∈ (s.rotateMonth month).1.rotated, l ∈ p.2) ↔
      (∃ p ∈ s.rotated, l ∈ p.2) ∨ l ∈ s.fresh month := by
  unfold rotateMonth
  split_ifs with hnil
  · simp [fresh, hnil]
  · exact mem_rotated_copied

end Shards

end Tracker

end CoordinatorCore
