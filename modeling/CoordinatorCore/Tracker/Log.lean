import CoordinatorCore.Tracker.Retention
import Mathlib.Algebra.Order.Group.Int
import Mathlib.Data.List.Chain

/-!
# The history of a machine is a log

What the readers of a peer count on: read over all its files, the records of a machine stand in the
order in which they were appended, and their sequences are 1, 2, 3, and so on. Moving lines between
files can break this in two ways. A month that is rotated before an earlier one is read in front of
it, and once the live shard is empty the next append starts again at 1.

Neither happens if events are dated in order and only the earliest month of the live shard is
rotated, when it is closed (`Orderly`). Then the files are an implementation of a log, where an
append is an append and a rotation does nothing (`IsLog`).
-/

namespace CoordinatorCore

open Machine Text

namespace Tracker

variable {β : Type}

def Record.month (r : Record β) : Text := r.observedAt.take 7

theorem eventMonth_record {r : Record β} (h : 7 ≤ r.observedAt.length) :
    (Line.record r).eventMonth = some r.month := if_neg (not_lt.mpr h)

/-- The logical clock of one record is before that of another. -/
def Record.Earlier (a b : Record β) : Prop :=
  a.wallMs < b.wallMs ∨ a.wallMs = b.wallMs ∧ a.counter < b.counter

/-- `max_sequence`. -/
def maxSequence (live : List (Line β)) : Except Refusal ℤ := (tail live).map Prod.fst

/-- The files of a machine hold a log. -/
structure Shards.IsLog (s : Shards β) (log : List (Record β)) : Prop where
  history : s.history = log.map .record
  numbered : log.map Record.sequence = (List.range log.length).map fun n : ℕ => some (n + 1 : ℤ)
  clock : log.IsChain Record.Earlier
  ids : (log.map fun r => r.id).Nodup
  named : ∀ r ∈ log, r.id ≠ []
  dated : ∀ r ∈ log, 7 ≤ r.observedAt.length
  months : log.Pairwise fun a b => a.month ≤ b.month
  files : ∀ p ∈ s.rotated, p.2 ≠ [] ∧ ∀ l ∈ p.2, l.eventMonth = some p.1
  live : log ≠ [] → s.live ≠ []

/-- The month of an event, which has to be there and not before those of the live shard. -/
def DatedAfter (live : List (Line β)) (e : Event β) : Prop :=
  7 ≤ e.observedAt.length ∧ ∀ l ∈ live, ∀ m ∈ l.eventMonth, m ≤ e.observedAt.take 7

/-- Events are dated in order, and the month that is rotated is the earliest one of the live shard
and not the one of its last line. -/
def Orderly (s : Shards β) : Action β → Prop
  | .append e _ _ => DatedAfter s.live e
  | .batch events =>
    NewToRotated s (.batch events) ∧ (∀ b ∈ events, DatedAfter s.live b.1) ∧
      events.Pairwise fun a b => a.1.observedAt.take 7 ≤ b.1.observedAt.take 7
  | .rotate month =>
    (∀ l ∈ s.live, ∀ m ∈ l.eventMonth, month ≤ m) ∧
      ∀ l ∈ s.live.getLast?, ∀ m ∈ l.eventMonth, month < m
  | .interrupt _ => False

instance (live : List (Line β)) (e : Event β) : Decidable (DatedAfter live e) :=
  inferInstanceAs (Decidable (_ ∧ ∀ l ∈ live, ∀ m ∈ l.eventMonth, m ≤ e.observedAt.take 7))

instance (s : Shards β) : (a : Action β) → Decidable (Orderly s a)
  | .append e _ _ => inferInstanceAs (Decidable (DatedAfter s.live e))
  | .batch events =>
    inferInstanceAs (Decidable (NewToRotated s (.batch events) ∧
      (∀ b ∈ events, DatedAfter s.live b.1) ∧
        events.Pairwise fun a b => a.1.observedAt.take 7 ≤ b.1.observedAt.take 7))
  | .rotate month =>
    inferInstanceAs (Decidable ((∀ l ∈ s.live, ∀ m ∈ l.eventMonth, month ≤ m) ∧
      ∀ l ∈ s.live.getLast?, ∀ m ∈ l.eventMonth, month < m))
  | .interrupt _ => inferInstanceAs (Decidable False)

namespace Shards

theorem isLog_empty : (empty : Shards β).IsLog [] where
  history := rfl
  numbered := rfl
  clock := List.isChain_nil
  ids := List.nodup_nil
  named := by simp
  dated := by simp
  months := List.Pairwise.nil
  files := by simp [empty]
  live := by simp

namespace IsLog

variable {s : Shards β} {log : List (Record β)}

/-- The last record is the last line of the live shard. -/
theorem getLast?_live (h : s.IsLog log) : s.live.getLast? = log.getLast?.map .record := by
  rw [← List.getLast?_map, ← h.history, Shards.history]
  by_cases hlog : log = []
  · have hnil : s.live = [] := by
      have := h.history
      rw [hlog, Shards.history, List.map_nil, List.append_eq_nil_iff] at this
      exact this.2
    have hrot : s.rotated.flatMap Prod.snd = [] := by
      have := h.history
      rw [hlog, Shards.history, List.map_nil, List.append_eq_nil_iff] at this
      exact this.1
    rw [hnil, hrot]
    rfl
  · rw [List.getLast?_append_of_ne_nil _ (h.live hlog)]

/-- The last sequence is the length of the log. -/
theorem tail_live (h : s.IsLog log) :
    ∃ wallMs counter, tail s.live = .ok (log.length, wallMs, counter) ∧
      ∀ r ∈ log.getLast?, wallMs = r.wallMs ∧ counter = r.counter := by
  rw [tail, h.getLast?_live]
  cases hl : log.getLast? with
  | none =>
    rw [List.getLast?_eq_none_iff.mp hl]
    exact ⟨0, 0, rfl, by simp⟩
  | some r =>
    obtain ⟨init, rfl⟩ := List.getLast?_eq_some_iff.mp hl
    have hseq : r.sequence = some (init.length + 1 : ℤ) := by
      have := congrArg List.getLast? h.numbered
      simpa [List.range_succ] using this
    refine ⟨r.wallMs, r.counter, ?_, by simp⟩
    simp [hseq]

/-- A record behind the last one. -/
theorem push (h : s.IsLog log) {r : Record β} {wallMs counter now : ℤ}
    (htail : tail s.live = .ok (log.length, wallMs, counter))
    (hseq : r.sequence = some (log.length + 1 : ℤ))
    (hclock : (r.wallMs, r.counter) = nextClock wallMs counter now) (hid : r.id ≠ [])
    (hnew : ∀ a ∈ log, a.id ≠ r.id) (hdated : DatedAfter s.live r.toEvent) :
    (s.push [.record r]).IsLog (log ++ [r]) where
  history := by
    have : (s.push [.record r]).history = s.history ++ [.record r] := by
      rw [Shards.history, Shards.history, Shards.push, List.append_assoc]
    rw [this, h.history, List.map_append]
    rfl
  numbered := by
    rw [List.map_append, h.numbered, List.length_append, List.length_singleton, List.range_succ,
      List.map_append]
    simp [hseq]
  clock := by
    refine List.isChain_append.mpr ⟨h.clock, List.isChain_singleton r, fun a ha b hb => ?_⟩
    obtain rfl : r = b := by simpa using hb
    obtain ⟨w, c, ht, hlast⟩ := h.tail_live
    rw [htail] at ht
    cases ht
    obtain ⟨rfl, rfl⟩ := hlast a ha
    simp only [nextClock, Prod.mk.injEq] at hclock
    obtain ⟨hw, hc⟩ := hclock
    rcases lt_or_ge a.wallMs now with hlt | hle
    · exact .inl (by omega)
    · have hmax : max now a.wallMs = a.wallMs := max_eq_right hle
      rw [hmax] at hw hc
      rw [if_pos rfl] at hc
      exact .inr ⟨hw.symm, by omega⟩
  ids := by
    rw [List.map_append, List.nodup_append]
    refine ⟨h.ids, List.nodup_singleton _, ?_⟩
    intro x hx y hy
    obtain ⟨a, ha, rfl⟩ := List.mem_map.mp hx
    rw [List.mem_singleton.mp hy]
    exact hnew a ha
  named := by
    simpa [or_imp, forall_and] using ⟨h.named, hid⟩
  dated := by
    simpa [or_imp, forall_and] using ⟨h.dated, hdated.1⟩
  months := by
    refine List.pairwise_append.mpr ⟨h.months, List.pairwise_singleton _ _, fun a ha b hb => ?_⟩
    obtain rfl := List.mem_singleton.mp hb
    -- the last line of the live shard is the last of the log, and no record is dated behind it
    obtain ⟨z, hz⟩ : ∃ z, log.getLast? = some z :=
      ⟨_, List.getLast?_eq_some_getLast (List.ne_nil_of_mem ha)⟩
    have hle : a.month ≤ z.month := by
      obtain ⟨init, rfl⟩ := List.getLast?_eq_some_iff.mp hz
      rcases List.mem_append.mp ha with ha | ha
      · exact (List.pairwise_append.mp h.months).2.2 a ha z (List.mem_singleton_self z)
      · rw [List.mem_singleton.mp ha]
    refine hle.trans (hdated.2 (.record z) (List.mem_of_getLast? ?_) _
      (eventMonth_record (h.dated z (List.mem_of_getLast? hz))))
    rw [h.getLast?_live, hz]
    rfl
  files := h.files
  live := fun _ => by simp [Shards.push]

/-- A batch behind the last record. -/
theorem pushAll {host : Host} {batch : List (Event β × ℤ)} (h : s.IsLog log) {wallMs counter : ℤ}
    (htail : tail s.live = .ok (log.length, wallMs, counter)) (hids : ∀ b ∈ batch, b.1.id ≠ [])
    (hnodup : (batch.map fun b => b.1.id).Nodup)
    (hnew : ∀ b ∈ batch, ∀ a ∈ log, a.id ≠ b.1.id) (hdated : ∀ b ∈ batch, DatedAfter s.live b.1)
    (hmonths : batch.Pairwise fun a b => a.1.observedAt.take 7 ≤ b.1.observedAt.take 7) :
    (s.push ((stampAll host log.length wallMs counter batch).map .record)).IsLog
      (log ++ stampAll host log.length wallMs counter batch) := by
  -- each event goes behind those in front of it, which are older or of the same month
  induction batch generalizing s log wallMs counter with
  | nil => simpa [stampAll, Shards.push] using h
  | cons b batch ih =>
    rw [List.map_cons, List.nodup_cons] at hnodup
    rw [List.pairwise_cons] at hmonths
    set clock := nextClock wallMs counter b.2 with hclock
    set r := stamp host b.1 (log.length + 1) clock.1 clock.2 with hr
    have hpush := h.push (r := r) htail rfl hclock.symm (hids b List.mem_cons_self)
      (hnew b List.mem_cons_self) (hdated b List.mem_cons_self)
    have htail' : tail (s.push [.record r]).live =
        .ok ((log ++ [r]).length, clock.1, clock.2) := by
      simp [tail, Shards.push, hr, stamp]
    have hrest := ih hpush htail' (fun b' hb' => hids b' (List.mem_cons_of_mem b hb')) hnodup.2
      ?_ ?_ hmonths.2
    · have hlen : ((log ++ [r]).length : ℤ) = log.length + 1 := by simp
      rw [hlen, List.append_assoc, List.singleton_append] at hrest
      have hlive : (s.push [.record r]).push ((stampAll host (log.length + 1) clock.1 clock.2
          batch).map .record) = s.push ((r :: stampAll host (log.length + 1) clock.1 clock.2
          batch).map .record) := by
        simp [Shards.push]
      rw [hlive] at hrest
      exact hrest
    · intro b' hb' a ha
      rcases List.mem_append.mp ha with ha | ha
      · exact hnew b' (List.mem_cons_of_mem b hb') a ha
      · rw [List.mem_singleton.mp ha]
        exact fun heq => hnodup.1 (heq ▸ List.mem_map_of_mem (f := fun b => b.1.id) hb')
    · intro b' hb'
      refine ⟨(hdated b' (List.mem_cons_of_mem b hb')).1, fun l hl m hm => ?_⟩
      rcases List.mem_append.mp hl with hl | hl
      · exact (hdated b' (List.mem_cons_of_mem b hb')).2 l hl m hm
      · have hdate : 7 ≤ r.observedAt.length := (hdated b List.mem_cons_self).1
        rw [List.mem_singleton.mp hl, eventMonth_record hdate] at hm
        rw [← Option.some.inj hm]
        exact hmonths.1 b' hb'

end IsLog

/-! ### The rotation of a closed month -/

/-- What a monthly file gains, the history gains at the end of the months. -/
theorem flatMap_putPartition {month : Text} {new : List (Line β)}
    {files : List (Text × List (Line β))} (hs : (files.map Prod.fst).Pairwise (· < ·))
    (hle : ∀ p ∈ files, p.1 ≤ month) :
    (putPartition month (((files.find? fun p => p.1 = month).map Prod.snd).getD [] ++ new)
        files).flatMap Prod.snd = files.flatMap Prod.snd ++ new := by
  induction files with
  | nil => simp [putPartition]
  | cons p rest ih =>
    rw [List.map_cons, List.pairwise_cons] at hs
    rw [putPartition, if_neg (not_lt.mpr (hle p List.mem_cons_self))]
    split_ifs with heq
    · -- a later file would be of a later month
      have hrest : rest = [] := by
        refine List.eq_nil_iff_forall_not_mem.mpr fun q hq => ?_
        have hlt := hs.1 q.1 (List.mem_map_of_mem hq)
        exact absurd (hle q (List.mem_cons_of_mem p hq)) (not_le.mpr (heq ▸ hlt))
      simp [hrest, heq]
    · rw [List.find?_cons_of_neg (by simpa using heq), List.flatMap_cons, List.flatMap_cons,
        ih hs.2 fun q hq => hle q (List.mem_cons_of_mem p hq), List.append_assoc]

/-- Of lines in the order of their months, those of the first month stand in front. -/
theorem filter_append_filter {month : Text} {log : List (Record β)}
    (hdated : ∀ r ∈ log, 7 ≤ r.observedAt.length)
    (hmonths : log.Pairwise fun a b => a.month ≤ b.month) (hle : ∀ r ∈ log, month ≤ r.month) :
    ((log.map Line.record).filter fun l => l.eventMonth = some month) ++
      ((log.map Line.record).filter fun l => l.eventMonth ≠ some month) = log.map .record := by
  induction log with
  | nil => rfl
  | cons r log ih =>
    rw [List.pairwise_cons] at hmonths
    have hmonth := eventMonth_record (hdated r List.mem_cons_self)
    have ih := ih (fun a ha => hdated a (List.mem_cons_of_mem r ha)) hmonths.2
      fun a ha => hle a (List.mem_cons_of_mem r ha)
    by_cases heq : r.month = month
    · simp only [List.map_cons, List.filter_cons, hmonth, heq, decide_true, if_true, ne_eq,
        not_true_eq_false, decide_false, Bool.false_eq_true, if_false, List.cons_append]
      exact congrArg _ ih
    · have hlt : month < r.month := lt_of_le_of_ne (hle r List.mem_cons_self) (Ne.symm heq)
      have hnone : (List.map Line.record (r :: log)).filter (fun l => l.eventMonth = some month) =
          [] := by
        refine List.filter_eq_nil_iff.mpr fun l hl => ?_
        obtain ⟨a, ha, rfl⟩ := List.mem_map.mp hl
        have hra : month < a.month := by
          rcases List.mem_cons.mp ha with rfl | ha
          · exact hlt
          · exact hlt.trans_le (hmonths.1 a ha)
        simp [eventMonth_record (hdated a ha), hra.ne']
      have hall : (List.map Line.record (r :: log)).filter (fun l => l.eventMonth ≠ some month) =
          List.map Line.record (r :: log) := by
        refine List.filter_eq_self.mpr fun l hl => ?_
        simpa using List.filter_eq_nil_iff.mp hnone l hl
      rw [hnone, hall, List.nil_append]

namespace IsLog

variable {s : Shards β} {log : List (Record β)}

/-- The live shard holds the last records. -/
theorem exists_live (h : s.IsLog log) :
    ∃ before behind, log = before ++ behind ∧ s.rotated.flatMap Prod.snd = before.map .record ∧
      s.live = behind.map .record := by
  obtain ⟨before, behind, hlog, hb, hl⟩ := List.map_eq_append_iff.mp h.history.symm
  exact ⟨before, behind, hlog, hb.symm, hl.symm⟩

/-- Rotating the earliest month of the live shard does nothing to the log. -/
theorem rotateMonth (h : s.IsLog log) {month : Text}
    (hle : ∀ l ∈ s.live, ∀ m ∈ l.eventMonth, month ≤ m)
    (hlast : ∀ l ∈ s.live.getLast?, ∀ m ∈ l.eventMonth, month < m) :
    (s.rotateMonth month).1.IsLog log := by
  obtain ⟨before, behind, rfl, hbefore, hlive⟩ := h.exists_live
  by_cases hnil : s.candidates month = []
  · rw [Shards.rotateMonth, if_pos hnil]
    exact h
  have hsplit := filter_append_filter (fun r hr => h.dated r (List.mem_append_right _ hr))
    (List.pairwise_append.mp h.months).2.1
    fun r hr => hle (.record r) (hlive ▸ List.mem_map_of_mem hr) _
      (eventMonth_record (h.dated r (List.mem_append_right _ hr)))
  -- no id of the live shard is in a monthly file
  have hfresh : s.fresh month = s.candidates month := by
    refine List.filter_eq_self.mpr fun l hl => ?_
    have hl : l ∈ s.live := List.mem_of_mem_filter hl
    rw [hlive] at hl
    obtain ⟨r, hr, rfl⟩ := List.mem_map.mp hl
    simp only [Bool.not_eq_true', Option.any_eq_false, decide_eq_false_iff_not, List.mem_filterMap,
      not_exists, not_and]
    intro id hid l' hl' hid'
    obtain ⟨p, hp, -, hmem⟩ := mem_partition_iff.mp hl'
    have hmem : l' ∈ before.map Line.record := hbefore ▸ List.mem_flatMap.mpr ⟨p, hp, hmem⟩
    obtain ⟨r', hr', rfl⟩ := List.mem_map.mp hmem
    have hids := h.ids
    rw [List.map_append, List.nodup_append] at hids
    rw [Line.id?] at hid hid'
    split_ifs at hid hid'
    exact hids.2.2 r'.id (List.mem_map_of_mem (f := fun r => r.id) hr') r.id
      (List.mem_map_of_mem (f := fun r => r.id) hr)
      ((Option.some.inj hid').trans (Option.some.inj hid).symm)
  obtain ⟨c, hc⟩ := List.exists_mem_of_ne_nil _ hnil
  -- the monthly files that are there are of no later month
  have hmonths : ∀ p ∈ s.rotated, p.1 ≤ month := by
    intro p hp
    obtain ⟨hne, hmonth⟩ := h.files p hp
    obtain ⟨l, hl⟩ := List.exists_mem_of_ne_nil _ hne
    obtain ⟨a, ha, rfl⟩ := List.mem_map.mp (hbefore ▸ List.mem_flatMap.mpr ⟨p, hp, hl⟩)
    have hcm : c.eventMonth = some month := by simpa using (List.mem_filter.mp hc).2
    obtain ⟨b, hb, rfl⟩ := List.mem_map.mp (hlive ▸ List.mem_of_mem_filter hc)
    have hab := (List.pairwise_append.mp h.months).2.2 a ha b hb
    rw [eventMonth_record (h.dated b (List.mem_append_right _ hb))] at hcm
    have ham := hmonth _ hl
    rw [eventMonth_record (h.dated a (List.mem_append_left _ ha))] at ham
    rw [← Option.some.inj ham, ← Option.some.inj hcm]
    exact hab
  have hrot : (s.rotateMonth month).1.rotated =
      putPartition month (s.partition month ++ s.candidates month) s.rotated := by
    rw [rotated_rotateMonth (hfresh ▸ hnil), hfresh]
  have hhistory : (s.rotateMonth month).1.history = s.history := by
    rw [Shards.history, hrot, live_rotateMonth, partition, flatMap_putPartition s.sorted hmonths,
      List.append_assoc, candidates, hlive, hsplit, ← hlive, Shards.history]
  exact
    { history := hhistory.trans h.history
      numbered := h.numbered
      clock := h.clock
      ids := h.ids
      named := h.named
      dated := h.dated
      months := h.months
      files := by
        intro p hp
        rw [hrot] at hp
        rcases eq_or_mem_of_mem_putPartition hp with rfl | hp
        · refine ⟨List.append_ne_nil_of_right_ne_nil _ hnil, fun l hl => ?_⟩
          rcases List.mem_append.mp hl with hl | hl
          · obtain ⟨q, hq, rfl, hmem⟩ := mem_partition_iff.mp hl
            exact (h.files q hq).2 l hmem
          · simpa using (List.mem_filter.mp hl).2
        · exact h.files p hp
      live := by
        intro hne hno
        rw [live_rotateMonth] at hno
        -- the last line stays, which is of a later month
        obtain ⟨l, hl⟩ : ∃ l, s.live.getLast? = some l :=
          ⟨_, List.getLast?_eq_some_getLast (h.live hne)⟩
        obtain ⟨r, hr, rfl⟩ := List.mem_map.mp (hlive ▸ List.mem_of_getLast? hl)
        have hmonth := eventMonth_record (h.dated r (List.mem_append_right _ hr))
        refine List.filter_eq_nil_iff.mp hno _ (List.mem_of_getLast? hl) ?_
        simp [hmonth, (hlast _ hl _ hmonth).ne'] }

end IsLog

end Shards

/-! ### Runs -/

theorem Shards.IsLog.mem_history {s : Shards β} {log : List (Record β)} (h : s.IsLog log)
    {a : Record β} (ha : a ∈ log) : .record a ∈ s.history := h.history ▸ List.mem_map_of_mem ha

/-- A call that is orderly appends to the log, or leaves it. -/
theorem step_isLog [DecidableEq β] {host : Host} {s s' : Shards β} {a : Action β}
    {log : List (Record β)} (h : s.IsLog log) (hord : Orderly s a)
    (hstep : step host s a = some s') : ∃ new, s'.IsLog (log ++ new) := by
  have hself : ∃ new, s.IsLog (log ++ new) := ⟨[], by rwa [List.append_nil]⟩
  obtain ⟨w, c, htail, -⟩ := h.tail_live
  cases a with
  | append e key now =>
    rw [step] at hstep
    split at hstep
    case h_2 => cases hstep; exact hself
    case h_1 s₁ r happend =>
      cases hstep
      rcases appendEvent_cases happend with ⟨rfl, -⟩ | ⟨rfl, hid, hnew, _, _, _, ht, rfl⟩
      · exact hself
      · rw [htail] at ht
        cases ht
        exact ⟨_, h.push htail rfl rfl hid (fun a ha => (hnew a (h.mem_history ha)).1) hord⟩
  | batch events =>
    rw [step] at hstep
    split at hstep
    case h_2 => cases hstep; exact hself
    case h_1 s₁ rs happend =>
      cases hstep
      rcases appendEvents_cases happend with
        ⟨-, rfl, -⟩ | ⟨hids, hnodup, hlive, rfl, _, _, _, ht, rfl⟩
      · exact hself
      · rw [htail] at ht
        cases ht
        refine ⟨_, h.pushAll htail hids hnodup (fun b hb a ha => ?_) hord.2.1
          hord.2.2⟩
        refine id_ne_of_id? (hids b hb) ?_
        rcases Shards.mem_history_iff.mp (h.mem_history ha) with ⟨p, hp, hl⟩ | hl
        · exact hord.1 b hb p hp _ hl
        · exact hlive _ hl b hb
  | rotate month =>
    cases hstep
    exact ⟨[], by rw [List.append_nil]; exact h.rotateMonth hord.1 hord.2⟩
  | interrupt month => exact hord.elim

/-- In an orderly run the history of a machine is a log, which only grows at its end. -/
theorem run_isLog [DecidableEq β] {host : Host} {s s' : Shards β} {log : List (Record β)}
    {as : List (Action β)} (h : s.IsLog log) (hord : Along (step host) Orderly s as)
    (hrun : run (step host) s as = some s') : ∃ new, s'.IsLog (log ++ new) := by
  induction as generalizing s log with
  | nil => cases hrun; exact ⟨[], by rwa [List.append_nil]⟩
  | cons a as ih =>
    obtain ⟨t, ht, hrun⟩ := run_cons_eq_some.mp hrun
    obtain ⟨new, hnew⟩ := step_isLog h hord.1 ht
    obtain ⟨rest, hrest⟩ := ih hnew (hord.2 t ht) hrun
    exact ⟨new ++ rest, by rwa [← List.append_assoc]⟩

theorem Shards.IsLog.maxSequence_live {s : Shards β} {log : List (Record β)} (h : s.IsLog log) :
    maxSequence s.live = .ok log.length := by
  obtain ⟨w, c, htail, -⟩ := h.tail_live
  rw [maxSequence, htail]
  rfl

/-- From the first append on, an orderly run leaves a history of records with the sequences
1, 2, 3, …, with clocks that go up and ids that differ, whatever was rotated in between; what was
there before is the beginning of it, and `max_sequence` is its length. -/
theorem history_append_only [DecidableEq β] {host : Host} {as bs : List (Action β)}
    {s s' : Shards β} (hord : Along (step host) Orderly Shards.empty (as ++ bs))
    (hrun : run (step host) Shards.empty as = some s) (hrun' : run (step host) s bs = some s') :
    ∃ log new : List (Record β), s.history = log.map .record ∧
      s'.history = (log ++ new).map .record ∧
      (log ++ new).map Record.sequence =
        (List.range (log ++ new).length).map (fun n : ℕ => some (n + 1 : ℤ)) ∧
      (log ++ new).IsChain Record.Earlier ∧ ((log ++ new).map fun r => r.id).Nodup ∧
      maxSequence s'.live = .ok (log ++ new).length := by
  obtain ⟨log, hlog⟩ := run_isLog Shards.isLog_empty hord.of_prefix hrun
  obtain ⟨new, hnew⟩ := run_isLog hlog (hord.of_append hrun) hrun'
  exact ⟨log, new, hlog.history, hnew.history, hnew.numbered, hnew.clock, hnew.ids,
    hnew.maxSequence_live⟩

/-- A machine appends in January and in February, rotates January, and appends a batch. -/
theorem history_append_only_rotated :
    let host : Host := ⟨['m'], isDigit⟩
    let event (id : Char) (month : Char) : Event Unit :=
      ⟨[id], "2026-0".toList ++ [month], none, none, ()⟩
    ∃ s s' : Shards Unit, ∃ log new : List (Record Unit),
      run (step host) Shards.empty [.append (event 'a' '1') none 7, .append (event 'b' '2') none 7,
        .rotate "2026-01".toList] = some s ∧
      run (step host) s [.batch [(event 'c' '2', 3), (event 'd' '2', 9)]] = some s' ∧
      s.history = log.map .record ∧ s'.history = (log ++ new).map .record ∧
      (log ++ new).map Record.sequence =
        (List.range (log ++ new).length).map (fun n : ℕ => some (n + 1 : ℤ)) ∧
      (log ++ new).IsChain Record.Earlier ∧ ((log ++ new).map fun r => r.id).Nodup ∧
      maxSequence s'.live = .ok (log ++ new).length := by
  intro host event
  obtain ⟨log, new, h⟩ := @history_append_only Unit _ host
    [.append (event 'a' '1') none 7, .append (event 'b' '2') none 7, .rotate "2026-01".toList]
    [.batch [(event 'c' '2', 3), (event 'd' '2', 9)]] _ _ (by decide) rfl rfl
  exact ⟨_, _, log, new, rfl, rfl, h⟩

end Tracker

end CoordinatorCore
