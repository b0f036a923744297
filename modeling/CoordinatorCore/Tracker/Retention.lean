import CoordinatorCore.Tracker.Store

/-!
# Nothing that was written is lost

A rotation leaves out what the monthly file has already, and it knows a record by its id alone. So
it loses nothing as long as an id stands for one record (`Shards.UniqueIds`), also where it is
interrupted between its two writes. `append_event` keeps the ids apart, since it looks through the
whole history. `append_events` looks at the live shard alone: there the ids of a batch have to be
new to the monthly files too (`NewToRotated`).
-/

namespace CoordinatorCore

open Machine Text

namespace Tracker

variable {β : Type}

namespace Shards

/-- No two records have the same id. A record may stand in two files. -/
def UniqueIds (s : Shards β) : Prop :=
  ∀ r r', .record r ∈ s.history → .record r' ∈ s.history → r.id ≠ [] → r.id = r'.id → r = r'

theorem uniqueIds_empty : (empty : Shards β).UniqueIds := by
  intro r _ hr
  cases hr

theorem UniqueIds.of_subset {s s' : Shards β} (h : s.UniqueIds)
    (hsub : ∀ l ∈ s'.history, l ∈ s.history) : s'.UniqueIds :=
  fun r r' hr hr' => h r r' (hsub _ hr) (hsub _ hr')

theorem mem_history_push {s : Shards β} {ls : List (Line β)} {l : Line β} :
    l ∈ (s.push ls).history ↔ l ∈ s.history ∨ l ∈ ls := by
  simp only [history, push, List.mem_append, or_assoc]

/-- A rotation adds no line. -/
theorem mem_of_mem_rotateMonth {s : Shards β} {month : Text} {l : Line β}
    (h : l ∈ (s.rotateMonth month).1.history) : l ∈ s.history := by
  rw [mem_history_iff, mem_rotated_rotateMonth, live_rotateMonth] at h
  rw [mem_history_iff]
  rcases h with (h | h) | h
  · exact .inl h
  · exact .inr (mem_of_mem_fresh h)
  · exact .inr (List.mem_of_mem_filter h)

/-- A rotation loses no line. -/
theorem UniqueIds.mem_rotateMonth {s : Shards β} (hu : s.UniqueIds) {month : Text} {l : Line β}
    (h : l ∈ s.history) : l ∈ (s.rotateMonth month).1.history := by
  rw [mem_history_iff, mem_rotated_rotateMonth, live_rotateMonth]
  rcases mem_history_iff.mp h with hrot | hlive
  · exact .inl (.inl hrot)
  by_cases hm : l.eventMonth = some month
  · by_cases hfresh : l ∈ s.fresh month
    · exact .inl (.inr hfresh)
    -- its id is in the monthly file, and there it stands for the same record
    · have hcand : l ∈ s.candidates month := List.mem_filter.mpr ⟨hlive, by simpa using hm⟩
      have hany : l.id?.any (· ∈ (s.partition month).filterMap Line.id?) = true := by
        by_contra hno
        exact hfresh (List.mem_filter.mpr ⟨hcand, by simpa using hno⟩)
      obtain ⟨id, hid, l', hl', hid'⟩ : ∃ id, l.id? = some id ∧
          ∃ l' ∈ s.partition month, l'.id? = some id := by
        simpa [Option.any_eq_true] using hany
      obtain ⟨p, hp, -, hmem⟩ := mem_partition_iff.mp hl'
      have heq : l = l' := by
        cases l with
        | record r =>
          cases l' with
          | record r' =>
            rw [Line.id?] at hid hid'
            split_ifs at hid hid' with hr hr'
            have hr := hu r r' h (mem_history_iff.mpr (.inl ⟨p, hp, hmem⟩)) hr
              ((Option.some.inj hid).trans (Option.some.inj hid').symm)
            rw [hr]
          | _ => cases hid'
        | _ => cases hid
      exact .inl (.inl ⟨p, hp, heq ▸ hmem⟩)
  · exact .inr (List.mem_filter.mpr ⟨hlive, by simpa using hm⟩)

/-- Records with new ids of their own. -/
theorem UniqueIds.push {s : Shards β} (hu : s.UniqueIds) (rs : List (Record β))
    (hnodup : (rs.map fun r => r.id).Nodup)
    (hnew : ∀ r ∈ rs, ∀ r', .record r' ∈ s.history → r'.id ≠ r.id) :
    (s.push (rs.map .record)).UniqueIds := by
  have hmem : ∀ {r}, .record r ∈ (s.push (rs.map .record)).history ↔
      .record r ∈ s.history ∨ r ∈ rs := by
    intro r
    rw [mem_history_push, List.mem_map]
    simp
  intro r r' hr hr' hid heq
  rcases hmem.mp hr with hr | hr <;> rcases hmem.mp hr' with hr' | hr'
  · exact hu r r' hr hr' hid heq
  · exact absurd heq (hnew r' hr' r hr)
  · exact absurd heq.symm (hnew r hr r' hr')
  · exact List.inj_on_of_nodup_map hnodup hr hr' heq

end Shards

/-- The ids of a batch are new to the monthly files. -/
def NewToRotated (s : Shards β) : Action β → Prop
  | .batch events => ∀ b ∈ events, ∀ p ∈ s.rotated, ∀ l ∈ p.2, l.id? ≠ some b.1.id
  | _ => True

instance (s : Shards β) : (a : Action β) → Decidable (NewToRotated s a)
  | .batch events =>
    inferInstanceAs (Decidable (∀ b ∈ events, ∀ p ∈ s.rotated, ∀ l ∈ p.2, l.id? ≠ some b.1.id))
  | .append .. | .rotate _ | .interrupt _ => inferInstanceAs (Decidable True)

theorem id_ne_of_id? {r : Record β} {id : Text} (hid : id ≠ [])
    (h : (Line.record r).id? ≠ some id) : r.id ≠ id := by
  rintro rfl
  exact h (if_neg hid)

theorem appendEvent_uniqueIds [DecidableEq β] {host : Host} {now : ℤ} {s s' : Shards β}
    {e : Event β} {key : Option Text} {r : Record β} (hu : s.UniqueIds)
    (h : appendEvent host now s e key = .ok (s', r)) : s'.UniqueIds := by
  rcases appendEvent_cases h with ⟨rfl, -⟩ | ⟨rfl, -, hnew, _, _, _, -, rfl⟩
  · exact hu
  · refine hu.push [_] (List.nodup_singleton _) fun r hr r' hr' => ?_
    rw [List.mem_singleton.mp hr]
    exact (hnew r' hr').1

theorem appendEvents_uniqueIds {host : Host} {s s' : Shards β} {batch : List (Event β × ℤ)}
    {rs : List (Record β)} (hu : s.UniqueIds)
    (hnew : ∀ b ∈ batch, ∀ p ∈ s.rotated, ∀ l ∈ p.2, l.id? ≠ some b.1.id)
    (h : appendEvents host s batch = .ok (s', rs)) : s'.UniqueIds := by
  rcases appendEvents_cases h with ⟨-, rfl, -⟩ | ⟨hids, hnodup, hlive, rfl, _, _, _, -, rfl⟩
  · exact hu
  · refine hu.push _ (by rw [map_id_stampAll]; exact hnodup) fun r hr r' hr' => ?_
    obtain ⟨b, hb, hbid⟩ := List.mem_map.mp
      (map_id_stampAll .. ▸ List.mem_map_of_mem (f := fun r : Record β => r.id) hr)
    rw [← hbid]
    refine id_ne_of_id? (hids b hb) ?_
    rcases Shards.mem_history_iff.mp hr' with ⟨p, hp, hl⟩ | hl
    · exact hnew b hb p hp _ hl
    · exact hlive _ hl b hb

/-- One call keeps the ids apart, and keeps what was written. -/
theorem step_keeps [DecidableEq β] {host : Host} {s s' : Shards β} {a : Action β}
    (hnew : NewToRotated s a) (hu : s.UniqueIds) (h : step host s a = some s') :
    s'.UniqueIds ∧ ∀ l ∈ s.history, l ∈ s'.history := by
  cases a with
  | append e key now =>
    rw [step] at h
    split at h
    case h_2 => cases h; exact ⟨hu, fun l hl => hl⟩
    case h_1 s₁ r happend =>
      cases h
      refine ⟨appendEvent_uniqueIds hu happend, ?_⟩
      rcases appendEvent_cases happend with ⟨rfl, -⟩ | ⟨rfl, -⟩
      · exact fun l hl => hl
      · exact fun l hl => Shards.mem_history_push.mpr (.inl hl)
  | batch events =>
    rw [step] at h
    split at h
    case h_2 => cases h; exact ⟨hu, fun l hl => hl⟩
    case h_1 s₁ rs happend =>
      cases h
      refine ⟨appendEvents_uniqueIds hu hnew happend, ?_⟩
      rcases appendEvents_cases happend with ⟨-, rfl, -⟩ | ⟨-, -, -, rfl, -⟩
      · exact fun l hl => hl
      · exact fun l hl => Shards.mem_history_push.mpr (.inl hl)
  | rotate month =>
    cases h
    exact ⟨hu.of_subset fun l => Shards.mem_of_mem_rotateMonth, fun l => hu.mem_rotateMonth⟩
  | interrupt month =>
    cases h
    exact ⟨hu.of_subset fun l => Shards.mem_history_copied.mp,
      fun l => Shards.mem_history_copied.mpr⟩

/-- Whatever a machine appends, rotates and leaves half rotated, no line is ever lost. -/
theorem history_kept [DecidableEq β] {host : Host} {s s' : Shards β} {as : List (Action β)}
    (hu : s.UniqueIds) (hnew : Along (step host) NewToRotated s as)
    (hrun : run (step host) s as = some s') :
    s'.UniqueIds ∧ ∀ l ∈ s.history, l ∈ s'.history := by
  induction as generalizing s with
  | nil => cases hrun; exact ⟨hu, fun l hl => hl⟩
  | cons a as ih =>
    obtain ⟨t, ht, hrun⟩ := run_cons_eq_some.mp hrun
    obtain ⟨hut, hkept⟩ := step_keeps hnew.1 hu ht
    obtain ⟨hus, hrest⟩ := ih hut (hnew.2 t ht) hrun
    exact ⟨hus, fun l hl => hrest l (hkept l hl)⟩

/-- A machine appends in January and in February and rotates January; then a rotation of February is
interrupted, a batch comes in, and February is rotated again. -/
theorem history_kept_interrupted :
    let host : Host := ⟨['m'], isDigit⟩
    let event (id : Char) (month : Char) : Event Unit :=
      ⟨[id], "2026-0".toList ++ [month], none, none, ()⟩
    ∃ s s' : Shards Unit,
      run (step host) Shards.empty [.append (event 'a' '1') none 7, .append (event 'b' '2') none 7,
        .rotate "2026-01".toList] = some s ∧
      run (step host) s [.interrupt "2026-02".toList,
        .batch [(event 'c' '2', 3), (event 'd' '3', 9)], .rotate "2026-02".toList] = some s' ∧
      s'.UniqueIds ∧ ∀ l ∈ s.history, l ∈ s'.history := by
  intro host event
  have hstart := @history_kept Unit _ host Shards.empty _
    [.append (event 'a' '1') none 7, .append (event 'b' '2') none 7, .rotate "2026-01".toList]
    Shards.uniqueIds_empty (by decide) rfl
  exact ⟨_, _, rfl, rfl, @history_kept Unit _ host _ _ [.interrupt "2026-02".toList,
    .batch [(event 'c' '2', 3), (event 'd' '3', 9)], .rotate "2026-02".toList]
    hstart.1 (by decide) rfl⟩

/-- A batch whose id is in a monthly file already: the next rotation drops its record. -/
example :
    let host : Host := ⟨['m'], isDigit⟩
    let event (body : Bool) : Event Bool := ⟨['a'], "2026-01".toList, none, none, body⟩
    ((run (step host) Shards.empty [.append (event true) none 7, .rotate "2026-01".toList,
      .batch [(event false, 9)]]).map fun s =>
        (s.history.length, (s.rotateMonth "2026-01".toList).1.history.length)) = some (2, 1) := by
  decide

end Tracker

end CoordinatorCore
