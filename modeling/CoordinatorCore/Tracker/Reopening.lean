import CoordinatorCore.Tracker.Emitting

/-!
# Reopening

`reopen_cascade` takes back all that closes an item, in one batch. What it takes back it reads off
the axes as its machine has them, so behind it the item is open there, unless an event is stamped
later than those of the cascade. An axis that the cascade leaves out keeps its state: `read_events`
sorts, and a stable sort does not move what is left when the new events are left out.
-/

namespace CoordinatorCore

open Machine Text

namespace Tracker

variable {β γ δ : Type}

/-! ### What a sort leaves -/

/-- Filtering commutes with insertion into a sorted list. -/
theorem filter_orderedInsert {α : Type} {r : α → α → Prop} [DecidableRel r] [IsTrans α r]
    (P : α → Bool) (a : α) {l : List α} (hl : l.Pairwise r) :
    (l.orderedInsert r a).filter P =
      if P a then (l.filter P).orderedInsert r a else l.filter P := by
  induction l with
  | nil => cases h : P a <;> simp [h]
  | cons b l ih =>
    obtain ⟨hb, hl⟩ := List.pairwise_cons.mp hl
    by_cases hab : r a b
    · have hfront : ∀ l' : List α, (∀ c ∈ l', r a c) → l'.orderedInsert r a = a :: l' := by
        intro l' h
        cases l' with
        | nil => rfl
        | cons c l' => exact List.orderedInsert_cons_of_le _ _ (h c List.mem_cons_self)
      rw [List.orderedInsert_cons_of_le _ _ hab, List.filter_cons, hfront]
      intro c hc
      rcases List.mem_cons.mp (List.mem_filter.mp hc).1 with rfl | hc
      · exact hab
      · exact IsTrans.trans _ _ _ hab (hb c hc)
    · rw [List.orderedInsert_of_not_le _ _ hab, List.filter_cons, List.filter_cons, ih hl]
      split_ifs
      · rw [List.orderedInsert_of_not_le _ _ hab]
      · rfl
      · rfl
      · rfl

/-- What a property leaves of a sorted list is what it leaves of the list, sorted. -/
theorem filter_insertionSort {α : Type} {r : α → α → Prop} [DecidableRel r] [Std.Total r]
    [IsTrans α r] (P : α → Bool) (l : List α) :
    (l.insertionSort r).filter P = (l.filter P).insertionSort r := by
  induction l with
  | nil => rfl
  | cons a l ih =>
    rw [List.insertionSort_cons, filter_orderedInsert P a (List.pairwise_insertionSort _ _), ih,
      List.filter_cons]
    split_ifs <;> rfl

/-- Filtering commutes with sorting by a key. -/
theorem filter_insertionSort_key {α κ : Type} [LinearOrder κ] (key : α → κ) (P : α → Bool)
    (l : List α) :
    (l.insertionSort fun a b => key a ≤ key b).filter P =
      (l.filter P).insertionSort fun a b => key a ≤ key b := by
  have : Std.Total fun a b : α => key a ≤ key b := ⟨fun a b => le_total _ _⟩
  have : IsTrans α fun a b => key a ≤ key b := ⟨fun _ _ _ => le_trans⟩
  exact filter_insertionSort P l

/-- Pushed records that a filter drops are not read. -/
theorem filter_readEvents_push {machines : List Text} {clone : Text → Shards β} {slug : Text}
    {rs events events' : List (Record β)} (hread : readEvents machines clone = .ok events)
    (hread' : readEvents machines
      (Function.update clone slug ((clone slug).push (rs.map .record))) = .ok events')
    {P : Record β → Bool} (h : ∀ r ∈ rs, P r = false) : events'.filter P = events.filter P := by
  unfold readEvents at hread hread'
  split_ifs at hread hread'
  obtain rfl := Except.ok.inj hread
  obtain rfl := Except.ok.inj hread'
  rw [filter_insertionSort_key, filter_insertionSort_key, List.filter_filter, List.filter_filter,
    List.filter_filterMap, List.filter_filterMap, filterMap_allLines_push]
  intro r hr
  simp [Line.record?, h r hr]

/-! ### Reopening -/

/-- The state that the cascade gives an axis, if it gives it one. -/
def reopenState : Axis → Text
  | .manualClose => "reopened".toList
  | _ => retracted

/-- The payloads of the cascade reopen their axes. -/
theorem mem_buildReopenCascade {itemId actor : Text} {states : Axis → Option Text} {p : Payload}
    (h : p ∈ buildReopenCascade itemId actor states) :
    p.itemId = itemId ∧ p.toState = reopenState p.axis ∧ p.tier = .direct ∧
      p.sourceObservationId = none := by
  simp only [buildReopenCascade, List.mem_cons, List.mem_append, List.mem_ite_nil_right,
    List.not_mem_nil, or_false] at h
  rcases h with rfl | ⟨-, rfl⟩ | ⟨-, rfl⟩ <;> exact ⟨rfl, rfl, rfl, rfl⟩

/-- A batch of transitions that come from no observation is written whole. -/
theorem prepareBatch_eq (digests : Digests) (slug : Text) (events : List (Stored δ γ))
    {payloads : List (Payload × Draw)} (h : ∀ b ∈ payloads, b.1.sourceObservationId = none)
    (generation : Text → ℕ) :
    ∃ new : List (Payload × ℕ × Draw), (new.map fun b => (b.1, b.2.2)) = payloads ∧
      newEvents (prepareBatch digests slug events generation payloads) =
        new.map fun b => (transitionEvent digests slug b.1 b.2.1 b.2.2, b.2.2.now) := by
  induction payloads generalizing generation with
  | nil => exact ⟨[], rfl, rfl⟩
  | cons b rest ih =>
    obtain ⟨p, draw⟩ := b
    have hp : existing p (generation p.itemId) events = none := by
      rw [existing, Payload.dedupCheckAddress, h _ List.mem_cons_self]
      rfl
    obtain ⟨new, hnew, hevents⟩ := ih (fun b hb => h b (List.mem_cons_of_mem _ hb))
      (if p.axis = .codeComplete ∧ p.toState = retracted then
        Function.update generation p.itemId (generation p.itemId + 1)
      else generation)
    refine ⟨(p, generation p.itemId, draw) :: new, by rw [List.map_cons, hnew], ?_⟩
    rw [prepareBatch, hp, List.map_cons, ← hevents]
    rfl

/-- A batch that is emitted is appended, each payload as its event. -/
theorem emitBatch_eq_ok {host : Host} {digests : Digests} {machines : List Text}
    {clone : Text → Shards (Body δ (Entry γ))} {payloads : List (Payload × Draw)}
    {s : Shards (Body δ (Entry γ))} {rs : List (Stored δ γ)}
    (hnone : ∀ b ∈ payloads, b.1.sourceObservationId = none)
    (h : emitBatch host digests machines clone payloads = .ok (s, rs)) :
    ∃ (new : List (Payload × ℕ × Draw)) (appended : List (Stored δ γ)),
      (new.map fun b => (b.1, b.2.2)) = payloads ∧
      appendEvents host (clone host.slug) (new.map fun b =>
        ((transitionEvent digests host.slug b.1 b.2.1 b.2.2 : Event (Entry γ)).other,
          b.2.2.now)) = .ok (s, appended) := by
  unfold emitBatch at h
  split at h
  · cases h
  · next events hread =>
    obtain ⟨new, hnew, hevents⟩ := prepareBatch_eq digests host.slug events hnone
      fun itemId => retractGeneration itemId events
    dsimp only at h
    rw [hevents, List.map_map] at h
    split at h
    · next s' appended happend =>
      cases h
      exact ⟨new, appended, hnew, happend⟩
    · cases h

/-- An append pushes the records of its events. -/
theorem appendEvents_push_eq {host : Host} {s s' : Shards β} {batch : List (Event β × ℤ)}
    {rs : List (Record β)} (h : appendEvents host s batch = .ok (s', rs)) :
    s' = s.push (rs.map .record) ∧ rs.map Record.toEvent = batch.map Prod.fst := by
  rcases appendEvents_cases h with ⟨rfl, rfl, rfl⟩ | ⟨-, -, -, rfl, q, w, c, -, rfl⟩
  · simp [Shards.push]
  · exact ⟨rfl, map_toEvent_stampAll _ _ _ _ _⟩

/-- What closes an axis is taken back. -/
theorem exists_mem_buildReopenCascade (itemId actor : Text) (states : Axis → Option Text)
    {axis : Axis}
    (h : axis = .manualClose ∨ axis = .codeComplete ∧ states axis = some "asserted".toList ∨
      axis = .qaVerified ∧ states axis = some "verified".toList) :
    ∃ p ∈ buildReopenCascade itemId actor states, p.axis = axis := by
  rcases h with rfl | ⟨rfl, h⟩ | ⟨rfl, h⟩
  · exact ⟨_, List.mem_cons_self, rfl⟩
  · refine ⟨⟨itemId, .codeComplete, states .codeComplete, retracted, actor, none, .direct, none⟩,
      List.mem_cons_of_mem _ (List.mem_append_left _ ?_), rfl⟩
    rw [if_pos h]
    exact List.mem_singleton_self _
  · refine ⟨⟨itemId, .qaVerified, states .qaVerified, retracted, actor, none, .direct, none⟩,
      List.mem_cons_of_mem _ (List.mem_append_right _ ?_), rfl⟩
    rw [if_pos h]
    exact List.mem_singleton_self _

/-- The record of a transition moves its axis. -/
theorem moves_iff_of_toEvent {digests : Digests} {slug itemId v t : Text} {axis : Axis}
    {r : Stored δ γ} {p : Payload} {g : ℕ} {draw : Draw} (htier : p.tier = .direct)
    (h : r.toEvent = (transitionEvent digests slug p g draw).other) :
    Moves itemId axis r t v ↔
      (p.itemId = itemId ∧ p.axis = axis ∧ p.toState = v) ∧ draw.observedAt = t := by
  have hbody : transition? r = some (p, g) := transition?_eq_some.mpr (congrArg Event.body h)
  have happlied : r.appliedAt = some draw.observedAt := by
    refine (congrArg Event.appliedAt h).trans ?_
    rw [Event.other, transitionEvent, htier]
    rfl
  rw [Moves, stateOn_eq_some, hbody, happlied, Option.some.injEq]
  refine and_congr_left fun _ => ⟨?_, fun hp => ⟨p, g, rfl, hp⟩⟩
  rintro ⟨p', g', heq, hp⟩
  cases heq
  exact hp

section

variable {site : Site δ} {digests : Digests} {f : Fleet δ γ}
  {deeds : List (Deed γ)} {slug itemId : Text} {new : List (Payload × ℕ × Draw)}
  {s : Shards (Body δ (Entry γ))} {appended : List (Stored δ γ)} {states : Axis → Option Text}
  (happend : appendEvents ⟨slug, site.digit⟩ (f.clones slug slug) (new.map fun b =>
    ((transitionEvent digests slug b.1 b.2.1 b.2.2 : Event (Entry γ)).other, b.2.2.now)) =
      .ok (s, appended))

include happend

/-- The records of a batch are those of its transitions. -/
theorem toEvent_appended :
    (∀ r ∈ appended, ∃ b ∈ new,
        r.toEvent = (transitionEvent digests slug b.1 b.2.1 b.2.2 : Event (Entry γ)).other) ∧
      ∀ b ∈ new, ∃ r ∈ appended,
        r.toEvent = (transitionEvent digests slug b.1 b.2.1 b.2.2 : Event (Entry γ)).other := by
  have hevents := (appendEvents_push_eq happend).2
  rw [List.map_map] at hevents
  refine ⟨fun r hr => ?_, fun b hb => ?_⟩
  · have hr' : r.toEvent ∈ appended.map Record.toEvent := List.mem_map_of_mem hr
    rw [hevents] at hr'
    obtain ⟨b, hb, heq⟩ := List.mem_map.mp hr'
    exact ⟨b, hb, heq.symm⟩
  · have hb' : (transitionEvent digests slug b.1 b.2.1 b.2.2 : Event (Entry γ)).other ∈
        appended.map Record.toEvent := hevents ▸ List.mem_map_of_mem hb
    exact List.mem_map.mp hb'

/-- An axis without an event in the batch keeps its state. -/
theorem foldAxisStates_kept {events : List (Stored δ γ)} {axis : Axis}
    (hread : readEvents site.machines (f.clones slug) = .ok events)
    (hfold : foldAxisStates itemId site.machines (Function.update (f.clones slug) slug s) =
      .ok states)
    (hno : ∀ b ∈ new, b.1.axis ≠ axis) : states axis = foldAxis itemId axis events := by
  rw [foldAxisStates, (appendEvents_push_eq happend).1] at hfold
  cases hread' : readEvents site.machines
      (Function.update (f.clones slug) slug ((f.clones slug slug).push (appended.map .record))) with
  | error fault =>
    rw [hread'] at hfold
    cases hfold
  | ok events' =>
    rw [hread'] at hfold
    cases hfold
    have hsame : events'.filter (onAxis itemId axis) = events.filter (onAxis itemId axis) := by
      refine filter_readEvents_push hread hread' fun r hr => ?_
      obtain ⟨b, hb, he⟩ := (toEvent_appended happend).1 r hr
      rw [onAxis, show r.body = _ from congrArg Event.body he]
      simpa [Event.other, transitionEvent] using fun _ => hno b hb
    change foldAxis itemId axis events' = _
    rw [foldAxis, foldAxis, entries, entries, axisEvents, axisEvents, hsame]

variable [DecidableEq δ] [DecidableEq γ]

/-- A batch that is written is a deed of the fleet. -/
theorem run_emitBatch (hrun : run (Fleet.act site digests) Fleet.empty deeds = some f)
    (hslug : slug ∈ site.machines) :
    ∃ f', run (Fleet.act site digests) Fleet.empty (deeds ++ [.emitBatch slug new]) = some f' ∧
      f'.clones slug = Function.update (f.clones slug) slug s := by
  refine ⟨⟨f.clones.write slug s, f.pending⟩, run_append_eq_some.mpr ⟨f, hrun, ?_⟩,
    Function.update_self ..⟩
  simp only [run_cons, run_nil, Fleet.act, Deed.move, Site.step, Move.machine, hslug, if_pos,
    Site.call, List.map_map, Function.comp_def, Option.bind_some, Option.map_some]
  rw [happend]

/-- A transition that is stamped later than all others gives the axis its state. -/
theorem foldAxisStates_given (hrun : run (Fleet.act site digests) Fleet.empty deeds = some f)
    (hslug : slug ∈ site.machines)
    (hfold : foldAxisStates itemId site.machines (Function.update (f.clones slug) slug s) =
      .ok states)
    (htier : ∀ b ∈ new, b.1.tier = .direct) {b : Payload × ℕ × Draw} (hb : b ∈ new)
    (hitem : b.1.itemId = itemId)
    (hlate : ∀ r t, Holds (f.clones slug) r → r.appliedAt = some t → t < b.2.2.observedAt)
    (hsame : ∀ b' ∈ new, b'.1.axis = b.1.axis → b'.1.toState = b.1.toState) :
    states b.1.axis = some b.1.toState := by
  obtain ⟨f', hrun', hclone⟩ := run_emitBatch happend hrun hslug
  obtain ⟨states', hfold', hstates⟩ := foldAxisStates_latest hrun' slug itemId
  rw [hclone] at hfold' hstates
  obtain rfl := Except.ok.inj (hfold.symm.trans hfold')
  obtain ⟨hfrom, hto⟩ := toEvent_appended happend
  have hholds (r : Stored δ γ) : Holds (Function.update (f.clones slug) slug s) r ↔
      Holds (f.clones slug) r ∨ r ∈ appended := by
    rw [(appendEvents_push_eq happend).1]
    exact holds_push
  obtain ⟨r, hr, he⟩ := hto b hb
  have hmoves := (moves_iff_of_toEvent (htier b hb) he).mpr ⟨⟨hitem, rfl, rfl⟩, rfl⟩
  cases hv : states b.1.axis with
  | none => exact absurd hmoves ((hstates _).1.mp hv r _ _ ((hholds r).mpr (.inr hr)))
  | some v =>
    obtain ⟨r', t, hr', hmoves', hmax⟩ := (hstates _).2 v hv
    have hle := hmax r _ _ ((hholds r).mpr (.inr hr)) hmoves
    rcases (hholds r').mp hr' with hr' | hr'
    · exact absurd (hlate r' t hr' hmoves'.2) (not_lt.mpr hle)
    · obtain ⟨b', hb', he'⟩ := hfrom r' hr'
      obtain ⟨⟨-, haxis, hv'⟩, -⟩ := (moves_iff_of_toEvent (htier b' hb') he').mp hmoves'
      rw [← hv', hsame b' hb' haxis]

end

/-- The item is open in the clone of a machine that has reopened it, if the events of the cascade
are stamped later than what the clone has. -/
theorem reopenCascade_opens [DecidableEq δ] [DecidableEq γ] {site : Site δ} {digests : Digests}
    {deeds : List (Deed γ)} {f : Fleet δ γ}
    (hrun : run (Fleet.act site digests) Fleet.empty deeds = some f) {slug itemId actor : Text}
    (hslug : slug ∈ site.machines) {draw : Axis → Draw}
    (hlate : ∀ r t axis, Holds (f.clones slug) r → r.appliedAt = some t →
      t < (draw axis).observedAt)
    {s : Shards (Body δ (Entry γ))} {rs : List (Stored δ γ)}
    (h : reopenCascade ⟨slug, site.digit⟩ digests site.machines (f.clones slug) itemId actor draw =
      .ok (s, rs)) :
    ∃ states, foldAxisStates itemId site.machines (Function.update (f.clones slug) slug s) =
        .ok states ∧
      states .manualClose = some "reopened".toList ∧
      states .codeComplete ≠ some "asserted".toList ∧
      states .qaVerified ≠ some "verified".toList ∧ closed states = false := by
  obtain ⟨events, hread, -, -⟩ := (Sound.of_run hrun).consistent.readEvents slug
  rw [reopenCascade, foldAxisStates, hread] at h
  dsimp only [Except.map] at h
  -- the cascade is one batch, appended in one call
  obtain ⟨new, appended, hnew, happend⟩ := emitBatch_eq_ok (fun b hb => by
    obtain ⟨p, hp, rfl⟩ := List.mem_map.mp hb
    exact (mem_buildReopenCascade hp).2.2.2) h
  have hmem : ∀ b ∈ new, b.1 ∈ buildReopenCascade itemId actor
      (fun axis => foldAxis itemId axis events) ∧ b.2.2 = draw b.1.axis := by
    rintro ⟨p, g, d⟩ hb
    have hb' : (p, d) ∈ new.map fun b => (b.1, b.2.2) := List.mem_map_of_mem hb
    rw [hnew] at hb'
    obtain ⟨p', hp, heq⟩ := List.mem_map.mp hb'
    cases heq
    exact ⟨hp, rfl⟩
  obtain ⟨f', hrun', hclone⟩ := run_emitBatch happend hrun hslug
  obtain ⟨states, hfold, -⟩ := foldAxisStates_latest hrun' slug itemId
  rw [hclone] at hfold
  -- each axis of the batch folds to the state the batch gives it
  have hgiven : ∀ b ∈ new, states b.1.axis = some (reopenState b.1.axis) := by
    intro b hb
    obtain ⟨hitem, hto, -, -⟩ := mem_buildReopenCascade (hmem b hb).1
    rw [← hto]
    refine foldAxisStates_given happend hrun hslug hfold
      (fun b hb => (mem_buildReopenCascade (hmem b hb).1).2.2.1) hb hitem ?_ ?_
    · rw [(hmem b hb).2]
      exact fun r t => hlate r t b.1.axis
    · intro b' hb' haxis
      rw [hto, (mem_buildReopenCascade (hmem b' hb').1).2.1, haxis]
  -- and each payload of the cascade is in the batch
  have hpayload : ∀ p ∈ buildReopenCascade itemId actor
      (fun axis => foldAxis itemId axis events), ∃ b ∈ new, b.1.axis = p.axis := by
    intro p hp
    have hp' : (p, draw p.axis) ∈ (buildReopenCascade itemId actor
        (fun axis => foldAxis itemId axis events)).map fun p => (p, draw p.axis) :=
      List.mem_map_of_mem hp
    rw [← hnew] at hp'
    obtain ⟨b, hb, heq⟩ := List.mem_map.mp hp'
    exact ⟨b, hb, congrArg Payload.axis (Prod.mk.inj heq).1⟩
  have hmanual : states .manualClose = some "reopened".toList := by
    obtain ⟨p, hp, haxis⟩ := exists_mem_buildReopenCascade itemId actor
      (fun axis => foldAxis itemId axis events) (.inl rfl)
    obtain ⟨b, hb, haxis'⟩ := hpayload p hp
    have hb := hgiven b hb
    rwa [haxis', haxis] at hb
  -- a closing axis is in the batch; one that is not keeps a state that does not close
  have htaken {axis : Axis} {v : Text} (hv : reopenState axis ≠ v)
      (hclose : axis = .codeComplete ∧ v = "asserted".toList ∨
        axis = .qaVerified ∧ v = "verified".toList) : states axis ≠ some v := by
    intro hstate
    by_cases hb : ∃ b ∈ new, b.1.axis = axis
    · obtain ⟨b, hb, rfl⟩ := hb
      rw [hgiven b hb] at hstate
      exact hv (Option.some.inj hstate)
    · push Not at hb
      rw [foldAxisStates_kept happend hread hfold hb] at hstate
      have hclosing : axis = .codeComplete ∧ foldAxis itemId axis events = some "asserted".toList ∨
          axis = .qaVerified ∧ foldAxis itemId axis events = some "verified".toList := by
        rcases hclose with ⟨haxis, rfl⟩ | ⟨haxis, rfl⟩
        · exact .inl ⟨haxis, hstate⟩
        · exact .inr ⟨haxis, hstate⟩
      obtain ⟨p, hp, rfl⟩ := exists_mem_buildReopenCascade itemId actor
        (fun axis => foldAxis itemId axis events) (.inr hclosing)
      obtain ⟨b, hb', haxis⟩ := hpayload p hp
      exact hb b hb' haxis
  have hcode : states .codeComplete ≠ some "asserted".toList :=
    htaken (by decide) (.inl ⟨rfl, rfl⟩)
  have hqa : states .qaVerified ≠ some "verified".toList := htaken (by decide) (.inr ⟨rfl, rfl⟩)
  refine ⟨states, hfold, hmanual, hcode, hqa, ?_⟩
  rw [closed, hmanual]
  simp only [hcode, false_and, or_false]
  decide


/-! ### A small store -/

/-- Machine `b` closes the item, and machine `a` takes that over. -/
def closedRun : List (Deed Unit) :=
  [.emit ['b'] (smallTransition "asserted".toList) 0 ⟨['1'], ['x'], 1⟩,
    .emit ['b'] ⟨['i'], .qaVerified, none, "verified".toList, ['u'], none, .direct, none⟩ 0
      ⟨['2'], ['y'], 2⟩,
    .merge ['a'] ['b']]

def smallDraw (axis : Axis) : Draw := ⟨['9'], [if axis = .codeComplete then 'c' else 'z'], 9⟩

theorem late_closedRun (r : Stored (List Text) Unit) (t : Text) (axis : Axis)
    (hr : Holds ((reachedFleet (smallSite [['a'], ['b']]) closedRun).clones ['a']) r)
    (ht : r.appliedAt = some t) : t < (smallDraw axis).observedAt := by
  obtain ⟨p, hp⟩ := hr
  by_cases hm : p ∈ [['a'], ['b']]
  · have hall : ∀ p ∈ [['a'], ['b']],
        ∀ l ∈ ((reachedFleet (smallSite [['a'], ['b']]) closedRun).clones ['a'] p).live,
          ((l.record?.bind fun r => r.appliedAt).all fun t => decide (t < ['9'])) = true := by
      decide +kernel
    have hlt := hall p hm _ hp
    rw [Line.record?, Option.bind_some, ht] at hlt
    exact of_decide_eq_true hlt
  · have hrun : run (Fleet.act (smallSite [['a'], ['b']]) smallDigests) Fleet.empty closedRun =
        some (reachedFleet (smallSite [['a'], ['b']]) closedRun) :=
      run_reachedFleet (by decide +kernel)
    have h := (Sound.of_run hrun).consistent
    have hpre := h.copy ['a'] p
    rw [h.alone p hm, List.prefix_nil] at hpre
    rw [hpre] at hp
    cases hp

theorem reopenCascade_opens_closed :
    let site := smallSite [['a'], ['b']]
    let clone := (reachedFleet site closedRun).clones ['a']
    ∃ s rs states, reopenCascade ⟨['a'], isDigit⟩ smallDigests site.machines clone ['i'] ['u']
        smallDraw = .ok (s, rs) ∧
      foldAxisStates ['i'] site.machines (Function.update clone ['a'] s) = .ok states ∧
      states .manualClose = some "reopened".toList ∧
      states .codeComplete ≠ some "asserted".toList ∧
      states .qaVerified ≠ some "verified".toList ∧ closed states = false := by
  intro site clone
  have hok : (reopenCascade ⟨['a'], isDigit⟩ smallDigests site.machines clone ['i'] ['u']
      smallDraw).isOk := by decide +kernel
  cases h : reopenCascade ⟨['a'], isDigit⟩ smallDigests site.machines clone ['i'] ['u']
      smallDraw with
  | error =>
    rw [h] at hok
    cases hok
  | ok result =>
    obtain ⟨states, hstates⟩ := reopenCascade_opens (run_reachedFleet (by decide +kernel))
      List.mem_cons_self late_closedRun h
    exact ⟨result.1, result.2, states, rfl, hstates⟩

example :
    (foldAxisStates ['i'] [['a'], ['b']]
      ((reachedFleet (smallSite [['a'], ['b']]) closedRun).clones ['a'])).toOption.map closed =
        some true := by decide +kernel

end Tracker

end CoordinatorCore
