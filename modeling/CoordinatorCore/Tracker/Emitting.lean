import CoordinatorCore.Tracker.Axes

/-!
# Emitting twice

A transition that comes from an observation is looked up under its address before it is written.
The read is not of one piece with the write, so two processes of a machine may both find nothing.
What the read misses, the id catches: it is minted from the same address, and a machine writes no id
twice.
-/

namespace CoordinatorCore

open Machine Text

namespace Tracker

variable {β γ δ : Type}

/-! ### One record for an address -/

/-- A machine stores a transition once under an address, whatever is read before it is written. -/
theorem observed_once [DecidableEq δ] [DecidableEq γ] {site : Site δ} {digests : Digests}
    {deeds : List (Deed γ)} {f : Fleet δ γ}
    (hrun : run (Fleet.act site digests) Fleet.empty deeds = some f) {m q : Text}
    {r r' : Stored δ γ} {p p' : Payload} {g g' : ℕ} {a : Address}
    (hr : .record r ∈ (f.clones m q).live) (hr' : .record r' ∈ (f.clones m q).live)
    (hp : transition? r = some (p, g)) (hp' : transition? r' = some (p', g'))
    (ha : p.dedupCheckAddress g = some a) (ha' : p'.dedupCheckAddress g' = some a) : r = r' := by
  have h := Sound.of_run hrun
  obtain ⟨token, hid⟩ := h.transition_minted hr hp
  obtain ⟨token', hid'⟩ := h.transition_minted hr' hp'
  rw [Payload.mintAddress_eq ha] at hid
  rw [Payload.mintAddress_eq ha'] at hid'
  exact h.transition_unique ⟨q, hr⟩ ⟨q, hr'⟩ hp hp' (hid.trans hid'.symm)

/-! ### More records -/

section

variable {machines : List Text} {clone : Text → Shards β} {slug : Text} {rs : List (Record β)}

/-- The lines of a clone in which a machine has written some more records. -/
theorem allLines_push :
    allLines machines (Function.update clone slug ((clone slug).push (rs.map .record))) =
      (machines.flatMap fun m => (clone m).live ++ if m = slug then rs.map .record else []) ++
        (months machines clone).flatMap fun month =>
          machines.flatMap fun m => (clone m).partition month := by
  have hrotated (m : Text) :
      (Function.update clone slug ((clone slug).push (rs.map .record)) m).rotated =
        (clone m).rotated := by
    by_cases hm : m = slug
    · subst hm
      rw [Function.update_self, Shards.push]
    · rw [Function.update_of_ne hm]
  have hlive (m : Text) :
      (Function.update clone slug ((clone slug).push (rs.map .record)) m).live =
        (clone m).live ++ if m = slug then rs.map .record else [] := by
    by_cases hm : m = slug
    · subst hm
      rw [Function.update_self, Shards.push, if_pos rfl]
    · rw [Function.update_of_ne hm, if_neg hm, List.append_nil]
  simp only [allLines, months, Shards.partition, hrotated, hlive]

theorem mem_allLines_push {l : Line β} :
    l ∈ allLines machines (Function.update clone slug ((clone slug).push (rs.map .record))) ↔
      l ∈ allLines machines clone ∨ slug ∈ machines ∧ ∃ r ∈ rs, .record r = l := by
  rw [allLines_push, allLines]
  simp only [List.mem_append, List.mem_flatMap]
  constructor
  · rintro (⟨m, hm, hl | hl⟩ | hl)
    · exact .inl (.inl ⟨m, hm, hl⟩)
    · split_ifs at hl with heq
      · exact .inr ⟨heq ▸ hm, List.mem_map.mp hl⟩
      · cases hl
    · exact .inl (.inr hl)
  · rintro ((⟨m, hm, hl⟩ | hl) | ⟨hm, hl⟩)
    · exact .inl ⟨m, hm, .inl hl⟩
    · exact .inr hl
    · exact .inl ⟨slug, hm, .inr (by rwa [if_pos rfl, List.mem_map])⟩

theorem holds_push {r : Record β} :
    Holds (Function.update clone slug ((clone slug).push (rs.map .record))) r ↔
      Holds clone r ∨ r ∈ rs := by
  constructor
  · rintro ⟨p, hp⟩
    by_cases hpslug : p = slug
    · subst hpslug
      rw [Function.update_self] at hp
      rcases List.mem_append.mp hp with hp | hp
      · exact .inl ⟨p, hp⟩
      · obtain ⟨r', hr', heq⟩ := List.mem_map.mp hp
        exact .inr (Line.record.inj heq ▸ hr')
    · rw [Function.update_of_ne hpslug] at hp
      exact .inl ⟨p, hp⟩
  · rintro (⟨p, hp⟩ | hr)
    · refine ⟨p, ?_⟩
      by_cases hpslug : p = slug
      · subst hpslug
        rw [Function.update_self]
        exact List.mem_append_left _ hp
      · rwa [Function.update_of_ne hpslug]
    · refine ⟨slug, ?_⟩
      rw [Function.update_self]
      exact List.mem_append_right _ (List.mem_map_of_mem hr)

/-- What leaves the new records out does not see them. -/
theorem filterMap_allLines_push {α : Type} {g : Line β → Option α}
    (h : ∀ r ∈ rs, g (.record r) = none) :
    (allLines machines
        (Function.update clone slug ((clone slug).push (rs.map .record)))).filterMap g =
      (allLines machines clone).filterMap g := by
  have hnew : (rs.map Line.record).filterMap g = [] :=
    List.filterMap_eq_nil_iff.mpr (List.forall_mem_map.mpr h)
  have hsame (m : Text) :
      ((clone m).live ++ if m = slug then rs.map Line.record else []).filterMap g =
        (clone m).live.filterMap g := by
    split_ifs <;> simp only [List.filterMap_append, hnew, List.append_nil]
  rw [allLines_push, allLines]
  simp only [List.filterMap_append, List.filterMap_flatMap, hsame]

/-- The scan of a clone with more records: it has these too, and what leaves them out is as it
was. -/
theorem readEventsForDedupScan_push (slug : Text) (rs : List (Record β)) {events : List (Record β)}
    (h : readEventsForDedupScan machines clone = .ok events) :
    ∃ events', readEventsForDedupScan machines
        (Function.update clone slug ((clone slug).push (rs.map .record))) = .ok events' ∧
      (∀ x, x ∈ events' ↔ x ∈ events ∨ slug ∈ machines ∧ x ∈ rs) ∧
      ∀ P : Record β → Bool, (∀ r ∈ rs, P r = false) → events'.countP P = events.countP P := by
  unfold readEventsForDedupScan at h
  split_ifs at h with hread
  obtain rfl := Except.ok.inj h
  refine ⟨_, if_neg fun hread' => hread ?_, fun x => ?_, fun P hP => ?_⟩
  · obtain ⟨l, hl, hunreadable⟩ := List.any_eq_true.mp hread'
    rcases mem_allLines_push.mp hl with hl | ⟨-, r, -, rfl⟩
    · exact List.any_eq_true.mpr ⟨l, hl, hunreadable⟩
    · cases hunreadable
  · simp only [List.mem_filterMap, Line.record?_eq_some, exists_eq_right, mem_allLines_push,
      Line.record.injEq]
  · rw [List.countP_eq_length_filter, List.countP_eq_length_filter, List.filter_filterMap,
      List.filter_filterMap, filterMap_allLines_push]
    intro r hr
    simp [Line.record?, hP r hr]

end

/-! ### Emitting again -/

/-- An address depends on the generation only where something is asserted. -/
theorem Payload.dedupCheckAddress_congr {p : Payload} {g g' : ℕ}
    (h : ¬ (p.axis = .codeComplete ∧ p.toState = retracted) → g = g') :
    p.dedupCheckAddress g = p.dedupCheckAddress g' := by
  by_cases hr : p.axis = .codeComplete ∧ p.toState = retracted
  · unfold dedupCheckAddress codeCompleteDedupKey
    simp only [if_pos hr.2]
  · rw [h hr]

theorem findExistingByAddress_eq_some {a : Address} {events : List (Stored δ γ)} {r : Stored δ γ}
    (hr : r ∈ events) (ha : (transition? r).any (fun t => t.1.dedupCheckAddress t.2 = some a))
    (hunique : ∀ x ∈ events,
      (transition? x).any (fun t => t.1.dedupCheckAddress t.2 = some a) → x = r) :
    findExistingByAddress a events = some r := by
  rw [findExistingByAddress]
  cases hfind : events.find? fun x =>
      (transition? x).any fun t => t.1.dedupCheckAddress t.2 = some a with
  | none => exact absurd ha (List.find?_eq_none.mp hfind r hr)
  | some x =>
    have hx := List.find?_some hfind
    rw [hunique x (List.mem_of_find?_eq_some hfind) hx]

/-- What was emitted for an observation is found when it is emitted again: nothing is written, and
the record that is there is returned. -/
theorem emit_again [DecidableEq δ] [DecidableEq γ] {host : Host} {digests : Digests}
    {machines : List Text} {clone : Text → Shards (Body δ (Entry γ))} {p : Payload}
    {draw draw' : Draw} {s : Shards (Body δ (Entry γ))} {r : Stored δ γ}
    (hslug : host.slug ∈ machines) (hsource : p.sourceObservationId.isSome)
    (hemit : emit host digests machines clone p draw = .ok (s, r)) :
    emit host digests machines (Function.update clone host.slug s) p draw' = .ok (s, r) := by
  unfold emit at hemit
  cases hread : readEventsForDedupScan machines clone with
  | error fault =>
    rw [hread] at hemit
    cases hemit
  | ok events =>
    rw [hread] at hemit
    dsimp only at hemit
    cases hexisting : existing p (retractGeneration p.itemId events) events with
    | some bound =>
      rw [hexisting] at hemit
      cases hemit
      rw [Function.update_eq_self, emit, hread]
      dsimp only
      rw [hexisting]
    | none =>
      rw [hexisting] at hemit
      dsimp only at hemit
      cases happend : appendEvent host draw.now (clone host.slug)
          (transitionEvent digests host.slug p (retractGeneration p.itemId events) draw).other
          none with
      | error => rw [happend] at hemit; cases hemit
      | ok result =>
        rw [happend] at hemit
        obtain rfl := Except.ok.inj hemit
        rcases appendEvent_cases happend with ⟨-, -, hkey, -⟩ | ⟨rfl, -, -, q, w, c, -, hstamp⟩
        · exact absurd rfl hkey
        have htransition : transition? r = some (p, retractGeneration p.itemId events) := by
          rw [hstamp]
          rfl
        obtain ⟨events', hread', hmem, hcount⟩ :=
          readEventsForDedupScan_push host.slug [r] hread
        obtain ⟨a, ha⟩ : ∃ a, p.dedupCheckAddress (retractGeneration p.itemId events) = some a := by
          obtain ⟨source, hs⟩ := Option.isSome_iff_exists.mp hsource
          rw [Payload.dedupCheckAddress, hs]
          dsimp only
          split_ifs <;> exact ⟨_, rfl⟩
        -- only a retract counts, and its address has no generation
        have ha' : p.dedupCheckAddress (retractGeneration p.itemId events') = some a := by
          rw [← ha]
          refine Payload.dedupCheckAddress_congr fun hno => hcount _ fun x hx => ?_
          rw [List.mem_singleton.mp hx, htransition]
          simpa using fun haxis hretract => absurd ⟨haxis, hretract⟩ hno
        have hfind : findExistingByAddress a events' = some r := by
          have hr : r ∈ events' := (hmem r).mpr (.inr ⟨hslug, List.mem_singleton_self r⟩)
          refine findExistingByAddress_eq_some hr ?_ ?_
          · rw [htransition]
            simpa using ha
          · intro x hx hxa
            refine ((hmem x).mp hx).elim (fun hx => ?_) fun h => List.mem_singleton.mp h.2
            rw [existing, ha, Option.bind_some, findExistingByAddress] at hexisting
            exact absurd hxa (List.find?_eq_none.mp hexisting x hx)
        rw [List.map_singleton] at hread'
        rw [emit, hread']
        dsimp only
        rw [existing, ha', Option.bind_some, hfind, Function.update_self]

/-! ### A small store -/

/-- What a machine writes for an observation. -/
def observation : Payload :=
  ⟨['i'], .codeComplete, none, "asserted".toList, ['u'], some ['c'], .auto, some ['o']⟩

/-- Two processes of machine `a` emit at the same time, and machine `b` takes over the shard. -/
def racedRun : List (Deed Unit) :=
  [.emit ['a'] observation 0 ⟨['1'], ['x'], 1⟩, .emit ['a'] observation 0 ⟨['2'], ['y'], 2⟩,
    .merge ['b'] ['a']]

theorem observed_once_raced :
    let live := ((reachedFleet (smallSite [['a'], ['b']]) racedRun).clones ['b'] ['a']).live
    ∃ r r', live.head? = some (.record r) ∧ live.getLast? = some (.record r') ∧ r = r' := by
  have hlive : ((reachedFleet (smallSite [['a'], ['b']]) racedRun).clones ['b'] ['a']).live =
      [.record (stamp ⟨['a'], isDigit⟩
        (transitionEvent smallDigests ['a'] observation 0 ⟨['1'], ['x'], 1⟩).other 1 1 0)] := by
    decide
  intro live
  refine ⟨_, _, congrArg List.head? hlive, congrArg List.getLast? hlive, ?_⟩
  have hmem := hlive ▸ List.mem_singleton_self _
  exact observed_once (run_reachedFleet (by decide)) hmem hmem rfl rfl rfl rfl

theorem emit_again_observation :
    let host : Host := ⟨['a'], isDigit⟩
    let clone : Text → Shards (Body (List Text) (Entry Unit)) := fun _ => Shards.empty
    ∃ s r, emit host smallDigests [['a']] clone observation ⟨['1'], ['x'], 1⟩ = .ok (s, r) ∧
      emit host smallDigests [['a']] (Function.update clone ['a'] s) observation
        ⟨['2'], ['y'], 2⟩ = .ok (s, r) := by
  intro host clone
  have hok : (emit host smallDigests [['a']] clone observation ⟨['1'], ['x'], 1⟩).isOk := rfl
  cases hemit : emit host smallDigests [['a']] clone observation ⟨['1'], ['x'], 1⟩ with
  | error =>
    rw [hemit] at hok
    cases hok
  | ok result => exact ⟨result.1, result.2, rfl, emit_again (List.mem_singleton_self _) rfl hemit⟩

end Tracker

end CoordinatorCore
