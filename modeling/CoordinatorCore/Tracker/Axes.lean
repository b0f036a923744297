import CoordinatorCore.Tracker.Fleet

/-!
# What the axes of an item say

Whatever machines emit, snapshot and merge, and in whatever order, the state that a clone folds for
an axis is that of one of the latest transitions that it has. So the snapshots change nothing,
unless transitions to different states have the same stamp.
-/

namespace CoordinatorCore

open Machine

namespace Tracker

variable {δ γ : Type}

/-! ### Reading -/

section

variable {β : Type}

/-- A sort by a key is in the order of the key. -/
theorem pairwise_insertionSort_key {α κ : Type} [LinearOrder κ] (key : α → κ) (l : List α) :
    (l.insertionSort fun a b => key a ≤ key b).Pairwise fun a b => key a ≤ key b := by
  have : Std.Total fun a b : α => key a ≤ key b := ⟨fun a b => le_total _ _⟩
  have : IsTrans α fun a b => key a ≤ key b := ⟨fun _ _ _ => le_trans⟩
  exact List.pairwise_insertionSort _ l

/-- Without rotations the lines of all shards are their live lines. -/
theorem mem_allLines {machines : List Text} {clone : Text → Shards β}
    (hflat : ∀ m ∈ machines, (clone m).rotated = []) {l : Line β} :
    l ∈ allLines machines clone ↔ ∃ m ∈ machines, l ∈ (clone m).live := by
  have hpart : ∀ month, (machines.flatMap fun m => (clone m).partition month) = [] := by
    intro month
    refine List.flatMap_eq_nil_iff.mpr fun m hm => ?_
    rw [Shards.partition, hflat m hm]
    rfl
  simp [allLines, hpart]

/-- The record of a line, where the line is one. -/
theorem Line.record?_eq_some {l : Line β} {r : Record β} : l.record? = some r ↔ l = .record r := by
  cases l <;> simp [record?]

/-- Records in order of their sort key are applied in order. -/
theorem Record.appliedAt_le {a b : Record β} (h : a.sortKey ≤ b.sortKey) :
    a.appliedAt.getD [] ≤ b.appliedAt.getD [] :=
  Prod.Lex.monotone_fst _ _ h

end

/-- A clone is read without a fault, and what is read are its records that apply, in order. -/
theorem Consistent.readEvents {site : Site δ} {s : Clones (Body δ γ)} (h : Consistent site s)
    (m : Text) :
    ∃ events, Tracker.readEvents site.machines (s m) = .ok events ∧
      (events.Pairwise fun a b => a.sortKey ≤ b.sortKey) ∧
      ∀ r, r ∈ events ↔ Holds (s m) r ∧ r.appliedAt.isSome := by
  have hmem {l : Line (Body δ γ)} :
      l ∈ allLines site.machines (s m) ↔ ∃ p ∈ site.machines, l ∈ (s m p).live :=
    mem_allLines fun p _ => h.flat m p
  have hread : ¬ (allLines site.machines (s m)).any (fun l => l.record?.isNone) = true := by
    simp only [List.any_eq_true, hmem, not_exists, not_and]
    rintro l ⟨p, -, hl⟩
    obtain ⟨r, rfl, -⟩ := (h.whole_copy m p).readable l hl
    simp [Line.record?]
  refine ⟨_, if_neg hread, pairwise_insertionSort_key _ _, fun r => ?_⟩
  simp only [List.mem_insertionSort, List.mem_filter, List.mem_filterMap, Line.record?_eq_some,
    exists_eq_right, hmem, Holds]
  refine and_congr_left fun _ => ⟨Exists.imp fun p hp => hp.2, Exists.imp fun p hr => ⟨?_, hr⟩⟩
  -- a machine that is not one of the site has no records
  by_contra hp
  have hpre := h.copy m p
  rw [h.alone p hp, List.prefix_nil] at hpre
  rw [hpre] at hr
  cases hr

/-! ### Snapshots -/

/-- An event on an axis is a transition of the item or a snapshot of it. -/
theorem transition?_of_onAxis {itemId : Text} {axis : Axis} {r : Stored δ γ}
    (h : onAxis itemId axis r = true) :
    (∃ p generation, transition? r = some (p, generation) ∧ p.itemId = itemId ∧ p.axis = axis) ∨
      ∃ s, r.body = .other (.snapshot s) ∧ s.itemId = itemId ∧ s.axis = axis := by
  unfold onAxis at h
  split at h
  · exact .inl ⟨_, _, transition?_eq_some.mpr ‹_›, by simpa using h⟩
  · exact .inr ⟨_, ‹_›, by simpa using h⟩
  · cases h

/-- The events behind the last snapshot are a part of the events, and transitions of the axis. -/
theorem sinceLastSnapshot_spec (itemId : Text) (axis : Axis) (events since : List (Stored δ γ))
    (last : Option Snapshot) :
    (sinceLastSnapshot itemId axis events since last).1.Sublist (since ++ events) ∧
      ∀ r ∈ (sinceLastSnapshot itemId axis events since last).1, r ∈ since ∨
        ∃ p g, transition? r = some (p, g) ∧ p.itemId = itemId ∧ p.axis = axis := by
  induction events generalizing since last with
  | nil => exact ⟨by simp [sinceLastSnapshot], fun r hr => .inl hr⟩
  | cons e events ih =>
    have hskip : (since ++ events).Sublist (since ++ e :: events) :=
      (List.sublist_cons_self e events).append_left since
    rw [sinceLastSnapshot]
    split_ifs with haxis
    · split
      case h_1 s hs =>
        obtain ⟨hsub, hmem⟩ := ih [] (some s)
        refine ⟨hsub.trans ?_, fun r hr => .inr ((hmem r hr).resolve_left (by simp))⟩
        exact (List.sublist_cons_self e events).trans (List.sublist_append_right _ _)
      case h_2 hno =>
        obtain ⟨hsub, hmem⟩ := ih (since ++ [e]) last
        rw [List.append_assoc, List.singleton_append] at hsub
        refine ⟨hsub, fun r hr => ?_⟩
        rcases hmem r hr with hr | hr
        · rcases List.mem_append.mp hr with hr | hr
          · exact .inl hr
          · rw [List.mem_singleton.mp hr]
            rcases transition?_of_onAxis haxis with h | ⟨s, hs, -⟩
            · exact .inr h
            · exact absurd hs (hno s)
        · exact .inr hr
    · obtain ⟨hsub, hmem⟩ := ih since last
      exact ⟨hsub.trans hskip, hmem⟩

/-- What `snapshot_axis_if_due` computes is faithful to what it read. -/
theorem faithful_dueSnapshot {clone : Text → Shards (Body δ (Entry γ))} {itemId : Text}
    {axis : Axis} {events : List (Stored δ γ)} {s : Snapshot}
    (hsorted : events.Pairwise fun a b => a.sortKey ≤ b.sortKey)
    (hholds : ∀ r ∈ events, Holds clone r ∧ r.appliedAt.isSome)
    (h : dueSnapshot itemId axis events = some s) : Faithful clone s := by
  obtain ⟨hsub, hmem⟩ := sinceLastSnapshot_spec itemId axis events [] none
  rw [List.nil_append] at hsub
  unfold dueSnapshot at h
  set found := sinceLastSnapshot itemId axis events [] none with hfound
  obtain ⟨since, last⟩ := found
  dsimp only at h hsub hmem
  cases hfinal : since.getLast? with
  | none => simp [hfinal] at h
  | some final =>
    rw [hfinal] at h
    dsimp only at h
    split_ifs at h
    obtain rfl := Option.some.inj h
    obtain ⟨init, rfl⟩ := List.getLast?_eq_some_iff.mp hfinal
    have hin : ∀ r ∈ init ++ [final], Holds clone r ∧ ∃ appliedAt, r.appliedAt = some appliedAt :=
      fun r hr => (hholds r (hsub.subset hr)).imp_right Option.isSome_iff_exists.mp
    obtain ⟨hfinalHolds, appliedAt, happlied⟩ := hin final (by simp)
    obtain ⟨p, g, hp, hitem, haxis⟩ := (hmem final (by simp)).resolve_left (by simp)
    refine ⟨⟨final, p, g, hfinalHolds, hp, hitem, haxis, by rw [happlied]; rfl, ?_⟩,
      fun id hid => ?_⟩
    · rw [List.foldl_append, List.foldl_cons, List.foldl_nil, hp]
      rfl
    · obtain ⟨r, hr, rfl⟩ := List.mem_map.mp hid
      obtain ⟨hrHolds, t, ht⟩ := hin r hr
      obtain ⟨q, k, hq, -⟩ := (hmem r hr).resolve_left (by simp)
      refine ⟨r, q, k, t, hrHolds, hq, rfl, ht, ?_⟩
      have hle : r.sortKey ≤ final.sortKey := by
        rcases List.mem_append.mp hr with hr | hr
        · exact (List.pairwise_append.mp (hsorted.sublist hsub)).2.2 r hr final (by simp)
        · rw [List.mem_singleton.mp hr]
      have := Record.appliedAt_le hle
      rwa [ht, Option.getD_some] at this

/-! ### Runs -/

/-- An event of a transition is minted for it. -/
theorem minted_transitionEvent (digests : Digests) (m : Text) (p : Payload) (generation : ℕ)
    (draw : Draw) :
    Minted digests m (transitionEvent digests m p generation draw : Event (Entry γ)) := by
  intro q g h
  cases h
  exact ⟨draw.token, rfl⟩

namespace Sound

variable {site : Site δ} {digests : Digests} {f f' : Fleet δ γ}

/-- Every deed keeps the fleet sound. -/
theorem act [DecidableEq δ] [DecidableEq γ] (h : Sound site digests f) {deed : Deed γ}
    (hact : f.act site digests deed = some f') : Sound site digests f' := by
  -- the deeds that are one step of the clones
  have hmove {move : Move (Entry γ)} (hm : deed.move digests = some move)
      (hmint : ∀ e ∈ move.events, Minted digests move.machine e)
      (hplain : ∀ e ∈ move.events, ∀ s, e.body ≠ .snapshot s)
      (hact : ((deed.move digests).bind fun move =>
        (site.step f.clones move).map fun clones => { f with clones }) = some f') :
      Sound site digests f' := by
    rw [hm, Option.bind_some] at hact
    obtain ⟨clones, hstep, rfl⟩ := Option.map_eq_some_iff.mp hact
    exact h.step hstep hmint (fun e he s hs => absurd hs (hplain e he s)) fun e he => h.pending he
  cases deed with
  | emit m p generation draw =>
    refine hmove rfl ?_ ?_ hact
    · intro e he
      rw [List.mem_singleton.mp he]
      exact minted_transitionEvent digests m p generation draw
    · rintro e he s hs
      rw [List.mem_singleton.mp he] at hs
      cases hs
  | emitBatch m payloads =>
    have hmem : ∀ e ∈ (payloads.map fun b =>
        ((transitionEvent digests m b.1 b.2.1 b.2.2 : Event (Entry γ)), b.2.2.now)).map Prod.fst,
        ∃ b ∈ payloads, e = transitionEvent digests m b.1 b.2.1 b.2.2 := by
      intro e he
      rw [List.map_map] at he
      obtain ⟨b, hb, rfl⟩ := List.mem_map.mp he
      exact ⟨b, hb, rfl⟩
    refine hmove rfl ?_ ?_ hact
    · intro e he
      obtain ⟨b, -, rfl⟩ := hmem e he
      exact minted_transitionEvent digests m b.1 b.2.1 b.2.2
    · intro e he s hs
      obtain ⟨b, -, rfl⟩ := hmem e he
      cases hs
  | entity m e key now =>
    refine hmove rfl ?_ ?_ hact
    · intro e' he p g hp
      rw [List.mem_singleton.mp he] at hp
      cases hp
    · intro e' he s hs
      rw [List.mem_singleton.mp he] at hs
      cases hs
  | fold m now observedAt => exact hmove rfl (by simp [Move.events]) (by simp [Move.events]) hact
  | merge m source => exact hmove rfl (by simp [Move.events]) (by simp [Move.events]) hact
  -- a snapshot due is faithful when it is taken, and only waits
  | snapshot m itemId axis =>
    obtain ⟨events, hread, hsorted, hmem⟩ := h.consistent.readEvents m
    rw [Fleet.act, hread] at hact
    obtain rfl := Option.some.inj hact
    refine ⟨h.consistent, h.unique, h.minted, h.written, fun {e} he => ?_⟩
    rcases List.mem_append.mp he with he | he
    · obtain ⟨s, hs, rfl⟩ := List.mem_map.mp he
      exact faithful_dueSnapshot hsorted (fun r hr => (hmem r).mp hr) (Option.mem_toList.mp hs)
    · exact h.pending he
  -- it is written as it waited
  | write i observedAt now =>
    obtain ⟨⟨m, s⟩, hget, hact⟩ := Option.bind_eq_some_iff.mp hact
    obtain ⟨clones, hstep, rfl⟩ := Option.map_eq_some_iff.mp hact
    have hfaithful : Faithful (f.clones m) s := h.pending (List.mem_of_getElem? hget)
    refine h.step hstep ?_ ?_ fun e he => h.pending (List.mem_of_mem_eraseIdx he)
    · intro e he p g hp
      rw [List.mem_singleton.mp he] at hp
      cases hp
    · intro e he s' hs
      rw [List.mem_singleton.mp he] at hs
      obtain rfl := Entry.snapshot.inj hs
      exact hfaithful

/-- A fleet reached by deeds is sound. -/
theorem of_run [DecidableEq δ] [DecidableEq γ] {deeds : List (Deed γ)}
    (hrun : run (Fleet.act site digests) (Fleet.empty : Fleet δ γ) deeds = some f) :
    Sound site digests f :=
  run_invariant (fun _ _ _ h hact => h.act hact) empty hrun

/-- The id of a transition is minted for the machine whose shard it is in. -/
theorem transition_minted (h : Sound site digests f) {m q : Text} {r : Stored δ γ} {p : Payload}
    {g : ℕ} (hr : .record r ∈ (f.clones m q).live) (hp : transition? r = some (p, g)) :
    ∃ token, r.id = mintId q (digests.address (p.mintAddress g token)) := by
  have he : r.toEvent =
      (⟨r.id, r.observedAt, r.appliedAt, r.idempotencyKey, .transition p g⟩ :
        Event (Entry γ)).other := by
    rw [Event.other, ← transition?_eq_some.mp hp]
  exact h.minted ((h.consistent.copy m q).subset hr) he p g rfl

/-- Transitions that a clone has under one id are the same. -/
theorem transition_unique (h : Sound site digests f) {m : Text} {r r' : Stored δ γ}
    {p p' : Payload} {g g' : ℕ} (hr : Holds (f.clones m) r) (hr' : Holds (f.clones m) r')
    (hp : transition? r = some (p, g)) (hp' : transition? r' = some (p', g')) (hid : r.id = r'.id) :
    r = r' := by
  obtain ⟨q, hr⟩ := hr
  obtain ⟨q', hr'⟩ := hr'
  obtain ⟨token, heq⟩ := h.transition_minted hr hp
  obtain ⟨token', heq'⟩ := h.transition_minted hr' hp'
  have hown := (h.consistent.copy m q).subset hr
  have hown' := (h.consistent.copy m q').subset hr'
  rw [heq, heq'] at hid
  obtain ⟨rfl, -⟩ := mintId_inj (digests.plain _) (digests.plain _) hid
  refine h.unique q r r' ?_ ?_ ?_ ?_
  · rw [h.consistent.history_eq]
    exact hown
  · rw [h.consistent.history_eq]
    exact hown'
  · rw [heq, mintId]
    simp
  · rw [heq, heq', hid]

end Sound

/-! ### The state of an axis -/

/-- The state that a transition gives to the axis. -/
def stateOn (itemId : Text) (axis : Axis) (r : Stored δ γ) : Option Text :=
  (transition? r).bind fun t =>
    if t.1.itemId = itemId ∧ t.1.axis = axis then some t.1.toState else none

/-- The state an event sets on an axis. -/
theorem stateOn_eq_some {itemId : Text} {axis : Axis} {r : Stored δ γ} {v : Text} :
    stateOn itemId axis r = some v ↔ ∃ p generation, transition? r = some (p, generation) ∧
      p.itemId = itemId ∧ p.axis = axis ∧ p.toState = v := by
  simp only [stateOn, Option.bind_eq_some_iff, Option.ite_none_right_eq_some, Option.some.injEq,
    Prod.exists, and_assoc]

/-- A transition that gives the axis a state, under a stamp. -/
def Moves (itemId : Text) (axis : Axis) (r : Stored δ γ) (stamp toState : Text) : Prop :=
  stateOn itemId axis r = some toState ∧ r.appliedAt = some stamp

/-- The entries of an axis are in the order of their times. -/
theorem ordered_entries (itemId : Text) (axis : Axis) (events : List (Stored δ γ)) :
    LastWrite.Ordered (entries itemId axis events) := by
  have hstamp : ∀ {r : Stored δ γ} {e}, axisEntry r = some e → e.stamp = (ofLex (axisKey r)).1 := by
    intro r e h
    unfold axisEntry at h
    unfold axisKey
    split at h
    · rename_i hbody
      obtain rfl := Option.some.inj h
      rw [hbody]
      rfl
    · rename_i hbody
      obtain rfl := Option.some.inj h
      rw [hbody]
      rfl
    · cases h
  refine List.Pairwise.filterMap axisEntry (fun a b hab e he e' he' => ?_)
    (pairwise_insertionSort_key axisKey _)
  rw [hstamp he, hstamp he']
  exact Prod.Lex.monotone_fst _ _ hab

/-- The writes among the entries are the applied transitions. -/
theorem write_mem_entries {itemId : Text} {axis : Axis} {events : List (Stored δ γ)}
    (happlied : ∀ r ∈ events, r.appliedAt.isSome) {id t v : Text} :
    .write id t v ∈ entries itemId axis events ↔
      ∃ r ∈ events, r.id = id ∧ Moves itemId axis r t v := by
  simp only [entries, axisEvents, List.mem_filterMap, List.mem_insertionSort, List.mem_filter]
  constructor
  · rintro ⟨r, ⟨hr, haxis⟩, he⟩
    obtain ⟨t', ht⟩ := Option.isSome_iff_exists.mp (happlied r hr)
    rcases transition?_of_onAxis haxis with ⟨p, g, hp, hitem, hax⟩ | ⟨s, hs, -⟩
    · rw [axisEntry, transition?_eq_some.mp hp, ht] at he
      cases he
      exact ⟨r, hr, rfl, stateOn_eq_some.mpr ⟨p, g, hp, hitem, hax, rfl⟩, ht⟩
    · rw [axisEntry, hs] at he
      cases he
  · rintro ⟨r, hr, rfl, hstate, ht⟩
    obtain ⟨p, g, hp, hitem, hax, rfl⟩ := stateOn_eq_some.mp hstate
    have hbody := transition?_eq_some.mp hp
    refine ⟨r, ⟨hr, ?_⟩, ?_⟩
    · rw [onAxis, hbody]
      simpa using ⟨hitem, hax⟩
    · rw [axisEntry, hbody, ht]
      rfl

namespace Sound

variable {site : Site δ} {digests : Digests} {f : Fleet δ γ}

/-- The snapshots of an axis are backed by the transitions that stand beside them. -/
theorem backed_entries (h : Sound site digests f) {m : Text} {events : List (Stored δ γ)}
    (hmem : ∀ r, r ∈ events ↔ Holds (f.clones m) r ∧ r.appliedAt.isSome) (itemId : Text)
    (axis : Axis) : LastWrite.Backed (entries itemId axis events) := by
  have hwrite {id t v : Text} : .write id t v ∈ entries itemId axis events ↔
      ∃ r ∈ events, r.id = id ∧ Moves itemId axis r t v :=
    write_mem_entries fun r hr => ((hmem r).mp hr).2
  intro t ids value hsummary
  simp only [entries, axisEvents, List.mem_filterMap, List.mem_insertionSort, List.mem_filter]
    at hsummary
  obtain ⟨r, ⟨hr, haxis⟩, he⟩ := hsummary
  rcases transition?_of_onAxis haxis with ⟨p, g, hp, -⟩ | ⟨s, hs, hitem, hax⟩
  · rw [axisEntry, transition?_eq_some.mp hp] at he
    cases he
  rw [axisEntry, hs] at he
  cases he
  have hfaithful := h.written ((hmem r).mp hr).1 hs
  constructor
  · obtain ⟨r', p, g, hr', hp, hitem', hax', ht, hstate⟩ := hfaithful.last
    have hin : r' ∈ events := (hmem r').mpr ⟨hr', by rw [ht]; rfl⟩
    refine ⟨r'.id, p.toState, hwrite.mpr ⟨r', hin, rfl, ?_⟩, hstate⟩
    exact ⟨stateOn_eq_some.mpr ⟨p, g, hp, hitem'.trans hitem, hax'.trans hax, rfl⟩, ht⟩
  · intro id hid t v hw
    obtain ⟨r₁, hr₁, rfl, hstate, ht₁⟩ := hwrite.mp hw
    obtain ⟨p₁, g₁, hp₁, -⟩ := stateOn_eq_some.mp hstate
    obtain ⟨r₂, p₂, g₂, t₂, hr₂, hp₂, hid₂, ht₂, hle⟩ := hfaithful.folded _ hid
    -- the transition that was folded under this id is the one that is there
    obtain rfl := h.transition_unique hr₂ ((hmem r₁).mp hr₁).1 hp₂ hp₁ hid₂
    rw [ht₁] at ht₂
    exact Option.some.inj ht₂ ▸ hle

/-- The state of an axis is that of a transition with the latest stamp. -/
theorem foldAxis_latest (h : Sound site digests f) {m : Text} {events : List (Stored δ γ)}
    (hmem : ∀ r, r ∈ events ↔ Holds (f.clones m) r ∧ r.appliedAt.isSome) (itemId : Text)
    (axis : Axis) :
    (foldAxis itemId axis events = none ↔
        ∀ r t v, Holds (f.clones m) r → ¬ Moves itemId axis r t v) ∧
      ∀ v, foldAxis itemId axis events = some v → ∃ r t, Holds (f.clones m) r ∧
        Moves itemId axis r t v ∧
          ∀ r' t' v', Holds (f.clones m) r' → Moves itemId axis r' t' v' → t' ≤ t := by
  have hwrite {id t v : Text} : .write id t v ∈ entries itemId axis events ↔
      ∃ r, Holds (f.clones m) r ∧ r.id = id ∧ Moves itemId axis r t v := by
    rw [write_mem_entries fun r hr => ((hmem r).mp hr).2]
    refine exists_congr fun r => ⟨fun hr => ⟨((hmem r).mp hr.1).1, hr.2⟩, fun hr => ?_⟩
    exact ⟨(hmem r).mpr ⟨hr.1, by rw [hr.2.2.2]; rfl⟩, hr.2⟩
  by_cases hnil : entries itemId axis events = []
  · have hnone : foldAxis itemId axis events = none := by
      rw [foldAxis, hnil]
      rfl
    refine ⟨⟨fun _ r t v hr hmoves => ?_, fun _ => hnone⟩, fun v hv => ?_⟩
    · have := hwrite.mpr ⟨r, hr, rfl, hmoves⟩
      rw [hnil] at this
      cases this
    · rw [hnone] at hv
      cases hv
  · obtain ⟨id, t, v, hw, htop, hval⟩ := LastWrite.replay_latest
      (ordered_entries itemId axis events) (h.backed_entries hmem itemId axis) hnil
    obtain ⟨r, hr, -, hmoves⟩ := hwrite.mp hw
    have hval : foldAxis itemId axis events = some v := hval
    refine ⟨⟨fun hnone => ?_, fun hno => absurd hmoves (hno r t v hr)⟩, fun w hw => ?_⟩
    · rw [hnone] at hval
      cases hval
    · rw [hval] at hw
      cases hw
      exact ⟨r, t, hr, hmoves, fun r' t' v' hr' hm => htop _ (hwrite.mpr ⟨r', hr', rfl, hm⟩)⟩

end Sound

/-- Whatever machines emit, snapshot and merge, a clone folds for an axis the state of one of the
latest transitions that it has. -/
theorem foldAxisStates_latest [DecidableEq δ] [DecidableEq γ] {site : Site δ} {digests : Digests}
    {deeds : List (Deed γ)} {f : Fleet δ γ}
    (hrun : run (Fleet.act site digests) Fleet.empty deeds = some f) (m itemId : Text) :
    ∃ states, foldAxisStates itemId site.machines (f.clones m) = .ok states ∧ ∀ axis,
      (states axis = none ↔ ∀ r t v, Holds (f.clones m) r → ¬ Moves itemId axis r t v) ∧
        ∀ v, states axis = some v → ∃ r t, Holds (f.clones m) r ∧ Moves itemId axis r t v ∧
          ∀ r' t' v', Holds (f.clones m) r' → Moves itemId axis r' t' v' → t' ≤ t := by
  have hsound := Sound.of_run hrun
  obtain ⟨events, hread, -, hmem⟩ := hsound.consistent.readEvents m
  refine ⟨fun axis => foldAxis itemId axis events, ?_, fun axis =>
    hsound.foldAxis_latest hmem itemId axis⟩
  rw [foldAxisStates, hread]
  rfl

/-- Clones that have the same transitions of an axis fold the same state for it, and it is the state
that the transitions alone give, whatever snapshots there are; unless transitions to different
states have the same stamp. -/
theorem foldAxisStates_eq_replay [DecidableEq δ] [DecidableEq γ] {site : Site δ}
    {digests : Digests} {deeds : List (Deed γ)} {f : Fleet δ γ}
    (hrun : run (Fleet.act site digests) Fleet.empty deeds = some f) {m m' itemId : Text}
    {axis : Axis} {events events' : List (Stored δ γ)}
    (hread : readEvents site.machines (f.clones m) = .ok events)
    (hread' : readEvents site.machines (f.clones m') = .ok events')
    (hsame : ∀ r, stateOn itemId axis r ≠ none → (r ∈ events ↔ r ∈ events'))
    (hagree : ∀ r ∈ events, ∀ r' ∈ events, stateOn itemId axis r ≠ none →
      stateOn itemId axis r' ≠ none → r.appliedAt = r'.appliedAt →
        stateOn itemId axis r = stateOn itemId axis r') :
    ∃ states states', foldAxisStates itemId site.machines (f.clones m) = .ok states ∧
      foldAxisStates itemId site.machines (f.clones m') = .ok states' ∧
      states axis = states' axis ∧
      states axis = foldAxis itemId axis (events.filter fun r => (transition? r).isSome) := by
  have hsound := Sound.of_run hrun
  obtain ⟨_, hok, -, hmem⟩ := hsound.consistent.readEvents m
  cases hread.symm.trans hok
  obtain ⟨_, hok', -, hmem'⟩ := hsound.consistent.readEvents m'
  cases hread'.symm.trans hok'
  have happlied : ∀ r ∈ events, r.appliedAt.isSome := fun r hr => ((hmem r).mp hr).2
  have happlied' : ∀ r ∈ events', r.appliedAt.isSome := fun r hr => ((hmem' r).mp hr).2
  have hfilter : ∀ r ∈ events.filter fun r => (transition? r).isSome, r.appliedAt.isSome :=
    fun r hr => happlied r (List.mem_filter.mp hr).1
  have hne : ∀ {r : Stored δ γ} {t v}, Moves itemId axis r t v → stateOn itemId axis r ≠ none :=
    fun hm => by simp [hm.1]
  have hvalues : ∀ i j t v w, .write i t v ∈ entries itemId axis events →
      .write j t w ∈ entries itemId axis events → v = w := by
    intro i j t v w hv hw
    obtain ⟨r, hr, -, hm⟩ := (write_mem_entries happlied).mp hv
    obtain ⟨r', hr', -, hm'⟩ := (write_mem_entries happlied).mp hw
    have := hagree r hr r' hr' (hne hm) (hne hm') (hm.2.trans hm'.2.symm)
    rw [hm.1, hm'.1] at this
    exact Option.some.inj this
  refine ⟨fun axis => foldAxis itemId axis events, fun axis => foldAxis itemId axis events',
    by rw [foldAxisStates, hread]; rfl, by rw [foldAxisStates, hread']; rfl, ?_, ?_⟩
  · refine LastWrite.replay_eq_of_writes (ordered_entries ..) (ordered_entries ..)
      (hsound.backed_entries hmem itemId axis) (hsound.backed_entries hmem' itemId axis)
      (fun id t v => ?_) hvalues
    rw [write_mem_entries happlied, write_mem_entries happlied']
    exact exists_congr fun r => and_congr_left fun hm => hsame r (hne hm.2)
  · refine LastWrite.replay_eq_of_writes (ordered_entries ..) (ordered_entries ..)
      (hsound.backed_entries hmem itemId axis) ?_ (fun id t v => ?_) hvalues
    · -- no snapshot is left
      intro t ids value hsummary
      simp only [entries, axisEvents, List.mem_filterMap, List.mem_insertionSort, List.mem_filter]
        at hsummary
      obtain ⟨r, ⟨⟨-, htransition⟩, -⟩, he⟩ := hsummary
      obtain ⟨⟨p, g⟩, hp⟩ := Option.isSome_iff_exists.mp htransition
      rw [axisEntry, transition?_eq_some.mp hp] at he
      cases he
    · rw [write_mem_entries happlied, write_mem_entries hfilter]
      refine exists_congr fun r => and_congr_left fun hm => ?_
      obtain ⟨p, g, hp, -⟩ := stateOn_eq_some.mp hm.2.1
      simp [hp]

/-! ### A small store -/

/-- The item, the state and the token of an address. -/
def smallAddress : Address → Text
  | .nonce itemId _ toState token => (itemId ++ toState ++ token).filter (· ≠ '-')
  | .dedup itemId _ toState _ => (itemId ++ toState).filter (· ≠ '-')

theorem dash_notMem_smallAddress (a : Address) : '-' ∉ smallAddress a := by
  cases a <;> simp [smallAddress]

def smallDigests : Digests :=
  ⟨smallAddress, fun itemId _ ids => itemId ++ ids.flatten, dash_notMem_smallAddress⟩

def smallTransition (toState : Text) : Payload :=
  ⟨['i'], .codeComplete, none, toState, ['u'], none, .direct, none⟩

/-- Machine `a` asserts, and computes a snapshot; before the snapshot is written it retracts.
Machine `b` takes that over and asserts, and `a` takes over that. -/
def snapshotRun : List (Deed Unit) :=
  [.emit ['a'] (smallTransition "asserted".toList) 0 ⟨['1'], ['x'], 1⟩,
    .snapshot ['a'] ['i'] .codeComplete,
    .emit ['a'] (smallTransition retracted) 0 ⟨['2'], ['y'], 2⟩, .write 0 ['3'] 3,
    .merge ['b'] ['a'],
    .emit ['b'] (smallTransition "asserted".toList) 1 ⟨['4'], ['z'], 4⟩, .merge ['a'] ['b']]

def reachedFleet (site : Site (List Text)) (deeds : List (Deed Unit)) : Fleet (List Text) Unit :=
  (run (Fleet.act site smallDigests) Fleet.empty deeds).getD Fleet.empty

/-- A run that succeeds reaches its fleet. -/
theorem run_reachedFleet {site : Site (List Text)} {deeds : List (Deed Unit)}
    (h : (run (Fleet.act site smallDigests) Fleet.empty deeds).isSome) :
    run (Fleet.act site smallDigests) Fleet.empty deeds = some (reachedFleet site deeds) := by
  obtain ⟨f, hf⟩ := Option.isSome_iff_exists.mp h
  rw [reachedFleet, hf, Option.getD_some]

/-- Machine `a` folds the state that it gave the axis last, though the snapshot came behind it. -/
theorem foldAxisStates_latest_snapshot :
    let site := smallSite [['a'], ['b']]
    let f := reachedFleet site (snapshotRun.take 4)
    ∃ states, foldAxisStates ['i'] site.machines (f.clones ['a']) = .ok states ∧ ∀ axis,
      (states axis = none ↔ ∀ r t v, Holds (f.clones ['a']) r → ¬ Moves ['i'] axis r t v) ∧
        ∀ v, states axis = some v → ∃ r t, Holds (f.clones ['a']) r ∧ Moves ['i'] axis r t v ∧
          ∀ r' t' v', Holds (f.clones ['a']) r' → Moves ['i'] axis r' t' v' → t' ≤ t :=
  foldAxisStates_latest (run_reachedFleet (by decide)) ['a'] ['i']

/-- The events that a machine reads. -/
def smallEvents (m : Text) : List (Stored (List Text) Unit) :=
  ((readEvents [['a'], ['b']]
    ((reachedFleet (smallSite [['a'], ['b']]) snapshotRun).clones m)).toOption).getD []

/-- A result that is one has its value. -/
theorem eq_ok_of_isOk {ε α : Type} {x : Except ε α} {d : α} (h : x.isOk) :
    x = .ok (x.toOption.getD d) := by
  cases x with
  | ok => rfl
  | error => cases h

theorem readEvents_small {m : Text}
    (h : (readEvents [['a'], ['b']]
      ((reachedFleet (smallSite [['a'], ['b']]) snapshotRun).clones m)).isOk) :
    readEvents [['a'], ['b']] ((reachedFleet (smallSite [['a'], ['b']]) snapshotRun).clones m) =
      .ok (smallEvents m) :=
  eq_ok_of_isOk h

theorem foldAxisStates_eq_replay_snapshot :
    let site := smallSite [['a'], ['b']]
    let f := reachedFleet site snapshotRun
    ∃ states states', foldAxisStates ['i'] site.machines (f.clones ['a']) = .ok states ∧
      foldAxisStates ['i'] site.machines (f.clones ['b']) = .ok states' ∧
      states .codeComplete = states' .codeComplete ∧
      states .codeComplete = foldAxis ['i'] .codeComplete
        ((smallEvents ['a']).filter fun r => (transition? r).isSome) := by
  have hsame : smallEvents ['a'] = smallEvents ['b'] := by decide
  exact foldAxisStates_eq_replay (run_reachedFleet (by decide))
    (readEvents_small (by decide)) (readEvents_small (by decide))
    (fun r _ => by rw [hsame]) (by decide)

example :
    (foldAxisStates ['i'] [['a'], ['b']]
      ((reachedFleet (smallSite [['a'], ['b']]) snapshotRun).clones ['a'])).toOption.map
        (fun states => states .codeComplete) = some (some "asserted".toList) := by decide

end Tracker

end CoordinatorCore
