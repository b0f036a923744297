import CoordinatorCore.Tracker.Transitions

/-!
# Machines that close and reopen items

The machines of `Clones` emit transitions, one by one and in batches, and snapshots of axes. What a
machine reads before it emits a transition only makes the payload and the generation, so here both
are arbitrary. A snapshot is what the machine read: it is computed in one step and written in a
later one, and anything may come between the two.

What holds in every state is `Sound`. A snapshot is faithful to the clone that has it: the event
that gave its state is there, and nothing that it stands for came later (`Faithful`).
-/

namespace CoordinatorCore

open Machine

namespace Tracker

variable {δ γ : Type}

/-- The clones, and the snapshots that machines have computed and not written yet. -/
structure Fleet (δ γ : Type) where
  clones : Clones (Body δ (Entry γ))
  pending : List (Text × Snapshot)

def Fleet.empty : Fleet δ γ := ⟨fun _ _ => Shards.empty, []⟩

inductive Deed (γ : Type)
  | emit (machine : Text) (payload : Payload) (generation : ℕ) (draw : Draw)
  | emitBatch (machine : Text) (payloads : List (Payload × ℕ × Draw))
  | entity (machine : Text) (event : Event γ) (key : Option Text) (now : ℤ)
  | fold (machine : Text) (now : ℤ) (observedAt : Text)
  | merge (machine source : Text)
  | snapshot (machine itemId : Text) (axis : Axis)
  | write (i : ℕ) (observedAt : Text) (now : ℤ)

/-- An event about something else than an axis. -/
def Event.entity (e : Event γ) : Event (Entry γ) :=
  ⟨e.id, e.observedAt, e.appliedAt, e.idempotencyKey, .other e.body⟩

/-- What is done to the clones, where no snapshot is involved. -/
def Deed.move (digests : Digests) : Deed γ → Option (Move (Entry γ))
  | .emit m p generation draw =>
    some (.append m (transitionEvent digests m p generation draw) none draw.now)
  | .emitBatch m payloads =>
    some (.batch m (payloads.map fun b => (transitionEvent digests m b.1 b.2.1 b.2.2, b.2.2.now)))
  | .entity m e key now => some (.append m e.entity key now)
  | .fold m now observedAt => some (.fold m now observedAt)
  | .merge m source => some (.merge m source)
  | .snapshot .. | .write .. => none

namespace Fleet

variable [DecidableEq δ] [DecidableEq γ] (site : Site δ) (digests : Digests)

def act (f : Fleet δ γ) (deed : Deed γ) : Option (Fleet δ γ) :=
  match deed with
  | .snapshot m itemId axis =>
    match readEvents site.machines (f.clones m) with
    | .ok events =>
      some { f with pending := (dueSnapshot itemId axis events).toList.map (m, ·) ++ f.pending }
    | .error _ => some f
  | .write i observedAt now =>
    f.pending[i]?.bind fun (m, s) =>
      (site.step f.clones (.append m (snapshotEvent digests m s observedAt) none now)).map
        fun clones => ⟨clones, f.pending.eraseIdx i⟩
  | _ =>
    (deed.move digests).bind fun move =>
      (site.step f.clones move).map fun clones => { f with clones }

end Fleet

/-! ### Records of a clone -/

section

variable {β : Type}

/-- Some shard of the clone has the record. -/
def Holds (clone : Text → Shards β) (r : Record β) : Prop := ∃ p, .record r ∈ (clone p).live

end

theorem transition?_eq_some {r : Stored δ γ} {p : Payload} {generation : ℕ} :
    transition? r = some (p, generation) ↔ r.body = .other (.transition p generation) := by
  unfold transition?
  split <;> simp_all

/-- What happens to the records of the clones in one step. -/
theorem Consistent.step_holds [DecidableEq δ] [DecidableEq γ] {site : Site δ}
    {s s' : Clones (Body δ γ)} (h : Consistent site s) {move : Move γ}
    (hstep : site.step s move = some s') :
    ∃ (rs : List (Record (Body δ γ))) (source : Text),
      (∀ r ∈ rs, (∃ os, r.body = .observedSetFold os) ∨ ∃ e ∈ move.events, r.toEvent = e.other) ∧
      (∀ p r, .record r ∈ (s' p p).live → .record r ∈ (s p p).live ∨ p = move.machine ∧ r ∈ rs) ∧
      (∀ c r, Holds (s' c) r → Holds (s c) r ∨ c = move.machine ∧ (r ∈ rs ∨ Holds (s source) r)) ∧
      (∀ c r, Holds (s c) r → Holds (s' c) r) ∧
      ∀ r, Holds (s source) r → Holds (s' move.machine) r := by
  -- a call appends to the machine's own shard in its own clone
  have hcall (hs : (if move.machine ∈ site.machines then
      some (s.write move.machine (site.call s move)) else none) = some s') :
      ∃ (rs : List (Record (Body δ γ))) (source : Text),
        (∀ r ∈ rs, (∃ os, r.body = .observedSetFold os) ∨ ∃ e ∈ move.events, r.toEvent = e.other) ∧
        (∀ p r, .record r ∈ (s' p p).live → .record r ∈ (s p p).live ∨ p = move.machine ∧ r ∈ rs) ∧
        (∀ c r, Holds (s' c) r →
          Holds (s c) r ∨ c = move.machine ∧ (r ∈ rs ∨ Holds (s source) r)) ∧
        (∀ c r, Holds (s c) r → Holds (s' c) r) ∧
        ∀ r, Holds (s source) r → Holds (s' move.machine) r := by
    split_ifs at hs with hm
    cases hs
    obtain ⟨rs, hown, -, hnew⟩ := h.call_push move
    -- nothing else comes into a live shard
    have hfrom : ∀ c p r, .record r ∈ (s.write move.machine (site.call s move) c p).live →
        .record r ∈ (s c p).live ∨ (c = move.machine ∧ p = move.machine) ∧ r ∈ rs := by
      intro c p r hr
      rw [Clones.write_apply, hown] at hr
      split_ifs at hr with hcp
      · rcases List.mem_append.mp hr with hr | hr
        · rw [hcp.1, hcp.2]
          exact .inl hr
        · obtain ⟨r', hr', heq⟩ := List.mem_map.mp hr
          exact .inr ⟨hcp, Line.record.inj heq ▸ hr'⟩
      · exact .inl hr
    -- nothing leaves one
    have hto : ∀ c r, Holds (s c) r → Holds (s.write move.machine (site.call s move) c) r := by
      rintro c r ⟨p, hp⟩
      refine ⟨p, ?_⟩
      rw [Clones.write_apply, hown]
      split_ifs with hcp
      · rw [hcp.1, hcp.2] at hp
        exact List.mem_append_left _ hp
      · exact hp
    refine ⟨rs, move.machine, fun r hr => (hnew r hr).imp_left fun hb => ⟨_, hb⟩,
      fun p r hr => (hfrom p p r hr).imp_right fun hp => ⟨hp.1.1, hp.2⟩, ?_, hto, fun r => hto _ r⟩
    rintro c r ⟨p, hp⟩
    exact (hfrom c p r hp).imp (fun hr => ⟨p, hr⟩) fun hr => ⟨hr.1.1, .inl hr.2⟩
  cases move with
  | merge m source =>
    cases hstep
    -- of two copies of a shard one is a prefix of the other, so the longer holds both
    have hlonger : ∀ p r, .record r ∈ (longer (s m p) (s source p)).live ↔
        .record r ∈ (s m p).live ∨ .record r ∈ (s source p).live := by
      intro p r
      rw [longer]
      split_ifs with hlt
      · have hpre := List.prefix_of_prefix_length_le (h.copy m p) (h.copy source p) hlt.le
        exact ⟨.inr, fun hr => hr.elim (hpre.subset ·) id⟩
      · have hpre := List.prefix_of_prefix_length_le (h.copy source p) (h.copy m p) (not_lt.mp hlt)
        exact ⟨.inl, fun hr => hr.elim id (hpre.subset ·)⟩
    have hother : ∀ c, c ≠ m →
        Function.update s m (fun p => longer (s m p) (s source p)) c = s c := fun c hc => by
      rw [Function.update_of_ne hc]
    refine ⟨[], source, by simp, fun p r hr => .inl ?_, fun c r hr => ?_, fun c r hr => ?_,
      fun r hr => ?_⟩
    · by_cases hp : p = m
      · subst hp
        rw [Function.update_self, hlonger] at hr
        exact hr.elim id ((h.copy source p).subset ·)
      · rwa [hother p hp] at hr
    · obtain ⟨p, hr⟩ := hr
      by_cases hc : c = m
      · subst hc
        rw [Function.update_self, hlonger] at hr
        exact hr.imp (fun hr => ⟨p, hr⟩) fun hr => ⟨rfl, .inr ⟨p, hr⟩⟩
      · rw [hother c hc] at hr
        exact .inl ⟨p, hr⟩
    · obtain ⟨p, hr⟩ := hr
      by_cases hc : c = m
      · subst hc
        rw [Function.update_self]
        exact ⟨p, (hlonger p r).mpr (.inl hr)⟩
      · rw [hother c hc]
        exact ⟨p, hr⟩
    · obtain ⟨p, hr⟩ := hr
      rw [Move.machine, Function.update_self]
      exact ⟨p, (hlonger p r).mpr (.inr hr)⟩
  | _ => exact hcall hstep

theorem Consistent.uniqueIds_step [DecidableEq δ] [DecidableEq γ] {site : Site δ}
    {s s' : Clones (Body δ γ)} (h : Consistent site s) (hu : ∀ p, (s p p).UniqueIds) {move : Move γ}
    (hstep : site.step s move = some s') (p : Text) : (s' p p).UniqueIds := by
  have hcall (hs : (if move.machine ∈ site.machines then
      some (s.write move.machine (site.call s move)) else none) = some s') :
      (s' p p).UniqueIds := by
    split_ifs at hs with hm
    cases hs
    rw [Clones.write_apply]
    split_ifs with hp
    · exact h.uniqueIds_call _ (hu _)
    · exact hu p
  cases move with
  | merge m source =>
    cases hstep
    by_cases hp : p = m
    · subst hp
      rw [Function.update_self, longer, if_neg (not_lt.mpr (h.copy source p).length_le)]
      exact hu p
    · rw [Function.update_of_ne hp]
      exact hu p
  | _ => exact hcall hstep

/-! ### What holds in every state -/

/-- A snapshot, in a clone that has its events: it gives the state of one of them, and none of them
came later. -/
structure Faithful (clone : Text → Shards (Body δ (Entry γ))) (s : Snapshot) : Prop where
  last : ∃ r p generation, Holds clone r ∧ transition? r = some (p, generation) ∧
    p.itemId = s.itemId ∧ p.axis = s.axis ∧ r.appliedAt = some s.asOfAppliedAt ∧
      s.foldedToState = some p.toState
  folded : ∀ id ∈ s.foldedEventIds, ∃ r p generation appliedAt, Holds clone r ∧
    transition? r = some (p, generation) ∧ r.id = id ∧ r.appliedAt = some appliedAt ∧
      appliedAt ≤ s.asOfAppliedAt

theorem Faithful.mono {clone clone' : Text → Shards (Body δ (Entry γ))} {s : Snapshot}
    (h : Faithful clone s) (hsub : ∀ r, Holds clone r → Holds clone' r) : Faithful clone' s where
  last := by
    obtain ⟨r, p, g, hr, hlast⟩ := h.last
    exact ⟨r, p, g, hsub r hr, hlast⟩
  folded id hid := by
    obtain ⟨r, p, g, t, hr, hfolded⟩ := h.folded id hid
    exact ⟨r, p, g, t, hsub r hr, hfolded⟩

/-- The id of a transition is minted for its machine. -/
def Minted (digests : Digests) (machine : Text) (e : Event (Entry γ)) : Prop :=
  ∀ p generation, e.body = .transition p generation →
    ∃ token, e.id = mintId machine (digests.address (p.mintAddress generation token))

structure Sound (site : Site δ) (digests : Digests) (f : Fleet δ γ) : Prop where
  consistent : Consistent site f.clones
  unique : ∀ p, (f.clones p p).UniqueIds
  minted {p : Text} {r : Stored δ γ} {e : Event (Entry γ)} :
    .record r ∈ (f.clones p p).live → r.toEvent = e.other → Minted digests p e
  written {m : Text} {r : Stored δ γ} {s : Snapshot} :
    Holds (f.clones m) r → r.body = .other (.snapshot s) → Faithful (f.clones m) s
  pending {e : Text × Snapshot} : e ∈ f.pending → Faithful (f.clones e.1) e.2

namespace Sound

variable {site : Site δ} {digests : Digests} {f : Fleet δ γ}

theorem empty : Sound site digests (Fleet.empty : Fleet δ γ) where
  consistent := consistent_empty site
  unique _ := Shards.uniqueIds_empty
  minted h := by cases h
  written h := by
    obtain ⟨p, hp⟩ := h
    cases hp
  pending h := by cases h

theorem event_other_inj {e e' : Event γ} (h : (e.other : Event (Body δ γ)) = e'.other) :
    e = e' := by
  cases e
  cases e'
  simpa [Event.other] using h

/-- A move of the clones, with snapshots that are faithful. -/
theorem step [DecidableEq δ] [DecidableEq γ] (h : Sound site digests f) {move : Move (Entry γ)}
    {clones : Clones (Body δ (Entry γ))} (hstep : site.step f.clones move = some clones)
    (hmint : ∀ e ∈ move.events, Minted digests move.machine e)
    (hfaithful : ∀ e ∈ move.events, ∀ s, e.body = .snapshot s →
      Faithful (f.clones move.machine) s) {pending : List (Text × Snapshot)}
    (hpending : ∀ e ∈ pending, Faithful (f.clones e.1) e.2) :
    Sound site digests ⟨clones, pending⟩ := by
  obtain ⟨rs, source, hnew, hown, hfrom, hto, hsource⟩ := h.consistent.step_holds hstep
  refine
    { consistent := h.consistent.step hstep
      unique := h.consistent.uniqueIds_step h.unique hstep
      minted := fun {p r e} hr he => ?_
      written := fun {m r s} hr hs => ?_
      pending := fun {e} he => (hpending e he).mono (hto e.1) }
  · rcases hown p r hr with hr | ⟨rfl, hrs⟩
    · exact h.minted hr he
    · rcases hnew r hrs with ⟨os, hos⟩ | ⟨e', he', heq⟩
      · cases hos.symm.trans (congrArg Event.body he)
      · exact event_other_inj (heq.symm.trans he) ▸ hmint e' he'
  · rcases hfrom m r hr with hr | ⟨rfl, hr | hr⟩
    · exact (h.written hr hs).mono (hto m)
    · rcases hnew r hr with ⟨os, hos⟩ | ⟨e, he, heq⟩
      · cases hos.symm.trans hs
      · refine (hfaithful e he s ?_).mono (hto _)
        exact Body.other.inj ((congrArg Event.body heq).symm.trans hs)
    · exact (h.written hr hs).mono hsource

end Sound

end Tracker

end CoordinatorCore
