import CoordinatorCore.Machine.VectorClock
import CoordinatorCore.Tracker.Claims

/-!
# Clones of the tracker store

Every machine has a clone of the store, with a copy of the shard of each machine. It writes to its
own shard only, and a merge brings it the shards of another clone: as only the owner of a shard
writes it, of two copies the one is a beginning of the other, and git takes the longer. Nothing is
rotated here.

What holds in every state that is reached so is `Consistent`. Its core is that a clone that has a
marker has everything that the marker says was there (`Consistent.known`), which is what makes the
markers of all machines a vector clock (`Consistent.closed`).
-/

namespace CoordinatorCore

open Machine Text

namespace Tracker

variable {β δ γ : Type}

/-! ### The machines -/

/-- The clones: the first machine has the second one's shard so. -/
abbrev Clones (β : Type) := Text → Text → Shards β

/-- What the machines share: who they are, and the digests. -/
structure Site (δ : Type) where
  machines : List Text
  digit : Char → Bool
  digest : List Text → δ
  setDigest : ObservedSet δ → Text

/-- An event of a caller, which is no marker. -/
def Event.other (e : Event γ) : Event (Body δ γ) :=
  ⟨e.id, e.observedAt, e.appliedAt, e.idempotencyKey, .other e.body⟩

inductive Move (γ : Type)
  | append (machine : Text) (event : Event γ) (key : Option Text) (now : ℤ)
  | batch (machine : Text) (events : List (Event γ × ℤ))
  | fold (machine : Text) (now : ℤ) (observedAt : Text)
  | merge (machine source : Text)

/-- Who moves. -/
def Move.machine : Move γ → Text
  | .append m _ _ _ | .batch m _ | .fold m _ _ | .merge m _ => m

/-- What a caller appends. -/
def Move.events : Move γ → List (Event γ)
  | .append _ e _ _ => [e]
  | .batch _ events => events.map Prod.fst
  | .fold .. | .merge .. => []

/-- The own shard of a machine written. -/
def Clones.write (s : Clones β) (m : Text) (own : Shards β) : Clones β :=
  Function.update s m (Function.update (s m) m own)

/-- A write is to one copy only. -/
theorem Clones.write_apply (s : Clones β) (m : Text) (own : Shards β) (c p : Text) :
    s.write m own c p = if c = m ∧ p = m then own else s c p := by
  by_cases hc : c = m
  · subst hc
    by_cases hp : p = c
    · subst hp
      simp [write]
    · simp [write, hp]
  · simp [write, hc]

/-- What a merge makes of two copies of a shard. -/
def longer (a b : Shards β) : Shards β := if a.live.length < b.live.length then b else a

namespace Site

variable [DecidableEq δ] [DecidableEq γ] (site : Site δ)

/-- The own shard behind a call of the machine; a call that is refused changes nothing. -/
def call (s : Clones (Body δ γ)) : Move γ → Shards (Body δ γ)
  | .append m e key now =>
    match appendEvent ⟨m, site.digit⟩ now (s m m) e.other key with
    | .ok (own, _) => own
    | .error _ => s m m
  | .batch m events =>
    match appendEvents ⟨m, site.digit⟩ (s m m) (events.map fun b => (b.1.other, b.2)) with
    | .ok (own, _) => own
    | .error _ => s m m
  | .fold m now observedAt =>
    match foldObservedSet ⟨m, site.digit⟩ site.digest site.setDigest site.machines (s m) now
      observedAt with
    | .ok (own, _) => own
    | .error _ => s m m
  | .merge m _ => s m m

def step (s : Clones (Body δ γ)) (move : Move γ) : Option (Clones (Body δ γ)) :=
  match move with
  | .merge m source => some (Function.update s m fun p => longer (s m p) (s source p))
  | _ =>
    if move.machine ∈ site.machines then some (s.write move.machine (site.call s move)) else none

end Site

/-! ### Whole shards -/

/-- A shard as its owner wrote it: records with the sequences 1, 2, 3, … -/
def Whole (ls : List (Line β)) : Prop :=
  ∃ log : List (Record β), ls = log.map .record ∧
    log.map Record.sequence = (List.range log.length).map (fun n : ℕ => some (1 + n : ℤ)) ∧
      ∀ r ∈ log, r.id ≠ []

theorem whole_nil : Whole ([] : List (Line β)) := ⟨[], rfl, rfl, by simp⟩

/-- A beginning of a whole shard is whole. -/
theorem Whole.of_beginning {ls ms : List (Line β)} (h : Whole ms) (hpre : ls <+: ms) :
    Whole ls := by
  obtain ⟨log, rfl, hseq, hid⟩ := h
  obtain ⟨rest, hrest⟩ := hpre
  obtain ⟨before, behind, rfl, rfl, -⟩ := List.map_eq_append_iff.mp hrest.symm
  refine ⟨before, rfl, ?_, fun r hr => hid r (List.mem_append_left _ hr)⟩
  have := congrArg (List.take before.length) hseq
  simpa [← List.map_take, List.take_range] using this

namespace Whole

variable {ls : List (Line β)}

/-- A whole shard is readable. -/
theorem readable (h : Whole ls) : Readable ls := by
  obtain ⟨log, rfl, -, hid⟩ := h
  intro l hl
  obtain ⟨r, hr, rfl⟩ := List.mem_map.mp hl
  exact ⟨r, rfl, fun _ => hid r hr⟩

/-- The line at a place is a record with the next number. -/
theorem exists_record (h : Whole ls) {k : ℕ} (hk : k < ls.length) :
    ∃ r, ls[k] = .record r ∧ r.sequence = some (1 + k : ℤ) ∧ r.id ≠ [] := by
  obtain ⟨log, rfl, hseq, hid⟩ := h
  rw [List.length_map] at hk
  refine ⟨log[k], by simp, ?_, hid _ (List.getElem_mem hk)⟩
  have := congrArg (fun l => l[k]?) hseq
  simpa [hk] using this

/-- Where a record stands is said by its sequence. -/
theorem getElem_of_mem (h : Whole ls) {r : Record β} (hr : .record r ∈ ls) {q : ℤ}
    (hq : r.sequence = some q) : 0 < q ∧ q ≤ ls.length ∧ ls[(q - 1).toNat]? = some (.record r) := by
  obtain ⟨k, hk, hget⟩ := List.mem_iff_getElem.mp hr
  obtain ⟨r', hr', hseq, -⟩ := h.exists_record hk
  rw [hget] at hr'
  cases hr'
  rw [hq] at hseq
  obtain rfl := Option.some.inj hseq
  refine ⟨by omega, by omega, ?_⟩
  have : (1 + (k : ℤ) - 1).toNat = k := by omega
  rw [this, List.getElem?_eq_getElem hk, hget]

/-- A record of a shard is in every beginning that is long enough. -/
theorem mem_beginning {ms : List (Line β)} (h : Whole ms) (hpre : ls <+: ms) {r : Record β}
    (hr : .record r ∈ ms) {q : ℤ} (hq : r.sequence = some q) (hle : q ≤ ls.length) :
    .record r ∈ ls := by
  obtain ⟨hpos, -, hget⟩ := h.getElem_of_mem hr hq
  obtain ⟨rest, rfl⟩ := hpre
  rw [List.getElem?_append_left (by omega)] at hget
  exact List.mem_of_getElem? hget

/-- Every record of a whole shard is numbered. -/
theorem sequence_ne_none (h : Whole ls) {r : Record β} (hr : .record r ∈ ls) :
    ∃ q, r.sequence = some q := by
  obtain ⟨k, hk, hget⟩ := List.mem_iff_getElem.mp hr
  obtain ⟨r', hr', hseq, -⟩ := h.exists_record hk
  rw [hget] at hr'
  cases hr'
  exact ⟨_, hseq⟩

/-- The numbered places of a whole shard are those of its lines. -/
theorem sequenced_eq (h : Whole ls) :
    sequenced ls = ls.map fun l => l.place.getD (0, []) := by
  have hplace : ∀ l ∈ ls, l.place = some (l.place.getD (0, [])) := by
    intro l hl
    obtain ⟨r, rfl, -⟩ := h.readable l hl
    obtain ⟨q, hq⟩ := h.sequence_ne_none hl
    rw [Line.place, hq]
    rfl
  rw [sequenced, List.filterMap_congr hplace, ← List.filterMap_eq_map]
  rfl

theorem length_sequenced (h : Whole ls) : (sequenced ls).length = ls.length := by
  rw [h.sequenced_eq, List.length_map]

/-- The places of a whole shard are numbered from one. -/
theorem numbered (h : Whole ls) : Numbered (sequenced ls) := by
  rw [Numbered, h.length_sequenced, h.sequenced_eq, List.map_map]
  obtain ⟨log, rfl, hseq, -⟩ := h
  have := congrArg (List.map fun q : Option ℤ => q.getD 0) hseq
  rw [List.map_map, List.map_map] at this
  rw [List.map_map, List.length_map]
  refine (List.map_congr_left fun r _ => ?_).trans this
  cases hq : r.sequence <;> simp [Line.place, hq]

theorem sequenced_take (h : Whole ls) (n : ℕ) : sequenced (ls.take n) = (sequenced ls).take n := by
  rw [(h.of_beginning (List.take_prefix n ls)).sequenced_eq, h.sequenced_eq, List.map_take]

/-- The places of a beginning are the first of the places. -/
theorem sequenced_beginning {ms : List (Line β)} (h : Whole ms) (hpre : ls <+: ms) :
    sequenced ls = (sequenced ms).take ls.length := by
  rw [← h.sequenced_take, ← List.prefix_iff_eq_take.mp hpre]

/-- The largest number of a whole shard is its length. -/
theorem currentMax (h : Whole ls) : currentMax ls = .ok ls.length := by
  rw [Tracker.currentMax]
  cases hl : ls.getLast? with
  | none => rw [List.getLast?_eq_none_iff.mp hl]; rfl
  | some l =>
    obtain ⟨init, rfl⟩ := List.getLast?_eq_some_iff.mp hl
    obtain ⟨r, hr, hseq, -⟩ := h.exists_record (k := init.length) (by simp)
    have hlr : l = .record r := by simpa using hr
    rw [hlr]
    simp [hseq, add_comm]

/-- The tail of a whole shard is its last line's stamp. -/
theorem tail (h : Whole ls) : ∃ wallMs counter, tail ls = .ok (ls.length, wallMs, counter) := by
  rw [Tracker.tail]
  cases hl : ls.getLast? with
  | none =>
    rw [List.getLast?_eq_none_iff.mp hl]
    exact ⟨0, 0, rfl⟩
  | some l =>
    obtain ⟨init, rfl⟩ := List.getLast?_eq_some_iff.mp hl
    obtain ⟨r, hr, hseq, -⟩ := h.exists_record (k := init.length) (by simp)
    have hlr : l = .record r := by simpa using hr
    rw [hlr]
    exact ⟨r.wallMs, r.counter, by simp [hseq, add_comm]⟩

/-- A record with the next number leaves the shard whole. -/
theorem push (h : Whole ls) {r : Record β} (hseq : r.sequence = some (ls.length + 1 : ℤ))
    (hid : r.id ≠ []) : Whole (ls ++ [.record r]) := by
  obtain ⟨log, rfl, hlog, hids⟩ := h
  refine ⟨log ++ [r], by simp, ?_, ?_⟩
  · rw [List.map_append, hlog, List.length_append, List.length_singleton, List.range_succ,
      List.map_append]
    simp [hseq, add_comm]
  · simpa [or_imp, forall_and] using ⟨hids, hid⟩

/-- A stamped batch leaves the shard whole; by induction on the batch. -/
theorem pushAll (host : Host) {batch : List (Event β × ℤ)} (h : Whole ls) (wallMs counter : ℤ)
    (hids : ∀ b ∈ batch, b.1.id ≠ []) :
    Whole (ls ++ (stampAll host ls.length wallMs counter batch).map .record) := by
  induction batch generalizing ls wallMs counter with
  | nil => simpa [stampAll] using h
  | cons b batch ih =>
    have hpush := h.push (r := stamp host b.1 (ls.length + 1) (nextClock wallMs counter b.2).1
      (nextClock wallMs counter b.2).2) rfl (hids b List.mem_cons_self)
    have hrest := ih hpush (nextClock wallMs counter b.2).1 (nextClock wallMs counter b.2).2
      fun b' hb' => hids b' (List.mem_cons_of_mem b hb')
    rw [List.length_append, List.length_singleton, Int.natCast_add, Int.natCast_one,
      List.append_assoc] at hrest
    exact hrest

end Whole

/-! ### What a call writes -/

/-- The record at the end of a shard that an append writes. -/
theorem appendEvent_push {host : Host} {now : ℤ} {s s' : Shards β} [DecidableEq β] {e : Event β}
    {key : Option Text} {r : Record β} (hs : Whole s.live)
    (h : appendEvent host now s e key = .ok (s', r)) :
    ∃ rs : List (Record β), s' = s.push (rs.map .record) ∧ Whole s'.live ∧
      ∀ r ∈ rs, r.toEvent = e := by
  rcases appendEvent_cases h with ⟨rfl, -⟩ | ⟨rfl, hid, -, q, w, c, ht, rfl⟩
  · exact ⟨[], by simp [Shards.push], hs, by simp⟩
  · obtain ⟨w', c', ht'⟩ := hs.tail
    rw [ht] at ht'
    cases ht'
    exact ⟨[_], rfl, hs.push rfl hid, by simp [stamp]⟩

/-- An append pushes its records, and they carry the given events. -/
theorem appendEvents_push {host : Host} {s s' : Shards β} {batch : List (Event β × ℤ)}
    {rs : List (Record β)} (hs : Whole s.live) (h : appendEvents host s batch = .ok (s', rs)) :
    s' = s.push (rs.map .record) ∧ Whole s'.live ∧ ∀ r ∈ rs, r.toEvent ∈ batch.map Prod.fst := by
  rcases appendEvents_cases h with ⟨-, rfl, rfl⟩ | ⟨hids, -, -, rfl, q, w, c, ht, rfl⟩
  · exact ⟨by simp [Shards.push], hs, by simp⟩
  · obtain ⟨w', c', ht'⟩ := hs.tail
    rw [ht] at ht'
    cases ht'
    exact ⟨rfl, hs.pushAll host w c hids, fun r hr =>
      map_toEvent_stampAll .. ▸ List.mem_map_of_mem hr⟩

/-- The digest of the first ids of a shard. -/
def prefixDigest (digest : List Text → δ) (ls : List (Line β)) (n : ℕ) : δ :=
  digest (((sequenced ls).take n).map Prod.snd)

/-- How much of a shard an observed set says was there. -/
def ObservedSet.count (os : ObservedSet δ) (x : Text) : ℤ :=
  ((os.lookup x).map Claim.sequence).getD 0

/-- What a fold finds. -/
theorem observe_eq (digest : List Text → δ) {clone : Text → Shards β} {peers : List Text}
    (h : ∀ p ∈ peers, Whole (clone p).history) :
    observe digest clone peers = .ok ((peers.filter fun p => (clone p).history ≠ []).map fun p =>
      (p, ⟨(clone p).history.length,
        prefixDigest digest (clone p).history (clone p).history.length⟩)) := by
  induction peers with
  | nil => rfl
  | cons p peers ih =>
    have hp := h p List.mem_cons_self
    have ih := ih fun q hq => h q (List.mem_cons_of_mem p hq)
    have hids : (sequenced (clone p).history).map Prod.snd = [] ↔ (clone p).history = [] := by
      rw [List.map_eq_nil_iff, ← List.length_eq_zero_iff, hp.length_sequenced,
        List.length_eq_zero_iff]
    have hdigest : prefixDigest digest (clone p).history (clone p).history.length =
        digest ((sequenced (clone p).history).map Prod.snd) := by
      rw [prefixDigest, List.take_of_length_le hp.length_sequenced.le]
    rw [observe, foldLines_eq hp.readable, List.nil_append, List.filter_cons]
    simp only [bind, Except.bind, pure, Except.pure, ih, hids]
    by_cases hnil : (clone p).history = []
    · simp [hnil]
    · obtain ⟨k, hk⟩ : ∃ k, (sequenced (clone p).history).getLast? = some k :=
        ⟨_, List.getLast?_eq_some_getLast (by rw [Ne, ← List.map_eq_nil_iff, hids]; exact hnil)⟩
      -- the last sequence is the number of records
      have hlast : k.1 = (clone p).history.length := by
        rw [List.getLast?_eq_getElem?, hp.length_sequenced] at hk
        obtain ⟨hlt, hget⟩ := List.getElem?_eq_some_iff.mp hk
        have := hp.numbered.fst_getElem hlt
        rw [hget] at this
        rw [hp.length_sequenced] at hlt
        omega
      simp [hnil, hk, hlast, hdigest]

/-! ### What holds in every state -/

/-- What a fold of the machine writes. -/
def observed (site : Site δ) (s : Clones β) (m : Text) : ObservedSet δ :=
  ((site.machines.filter (· ≠ m)).filter fun p => (s m p).history ≠ []).map fun p =>
    (p, ⟨(s m p).history.length, prefixDigest site.digest (s m p).history (s m p).history.length⟩)

/-- The records of folds, as the marks of a vector clock. -/
def Mark (s : Clones (Body δ γ)) (p : Text) (k : ℤ) (v : Text → ℤ) : Prop :=
  ∃ r os, .record r ∈ (s p p).live ∧ r.sequence = some k ∧ r.body = .observedSetFold os ∧
    v = os.count

/-- The claims are about beginnings of the shards of others. -/
def Backed (site : Site δ) (s : Clones (Body δ γ)) (p : Text) (os : ObservedSet δ) : Prop :=
  ∀ e ∈ os, e.1 ≠ p ∧ ∃ n : ℕ, 0 < n ∧ n ≤ (s e.1 e.1).live.length ∧
    e.2 = ⟨n, prefixDigest site.digest (s e.1 e.1).live n⟩

structure Consistent (site : Site δ) (s : Clones (Body δ γ)) : Prop where
  flat : ∀ m p, (s m p).rotated = []
  copy : ∀ m p, (s m p).live <+: (s p p).live
  whole : ∀ p, Whole (s p p).live
  alone : ∀ p, p ∉ site.machines → (s p p).live = []
  backed {p : Text} {r : Record (Body δ γ)} {os : ObservedSet δ} :
    .record r ∈ (s p p).live → r.body = .observedSetFold os → Backed site s p os
  known {m p : Text} {r : Record (Body δ γ)} {os : ObservedSet δ} :
    .record r ∈ (s m p).live → r.body = .observedSetFold os →
      ∀ e ∈ os, e.2.sequence ≤ (s m e.1).live.length
  closed : VectorClock.Closed (Mark s)

/-- Empty clones are consistent. -/
theorem consistent_empty (site : Site δ) :
    Consistent site fun _ _ => (Shards.empty : Shards (Body δ γ)) where
  flat _ _ := rfl
  copy _ _ := List.prefix_rfl
  whole _ := whole_nil
  alone _ _ := rfl
  backed h := by cases h
  known h := by cases h
  closed :=
    { mono := by rintro _ _ _ _ _ _ ⟨_, _, h, -⟩; cases h
      own := by rintro _ _ _ _ _ _ ⟨_, _, h, -⟩; cases h
      trans := by rintro _ _ _ _ _ _ _ ⟨_, _, h, -⟩; cases h }

/-- A count that is not zero comes from an entry. -/
theorem ObservedSet.exists_of_count_ne {os : ObservedSet δ} {x : Text} (h : os.count x ≠ 0) :
    ∃ e ∈ os, e.1 = x ∧ os.count x = e.2.sequence := by
  unfold ObservedSet.count at h ⊢
  cases hl : os.lookup x with
  | none => simp [hl] at h
  | some c =>
    obtain ⟨l₁, l₂, rfl, -⟩ := List.lookup_eq_some_iff.mp hl
    exact ⟨(x, c), by simp, rfl, rfl⟩

theorem lookup_map_self {γ : Type} {ps : List Text} {f : Text → γ} {x : Text} :
    (ps.map fun p => (p, f p)).lookup x = if x ∈ ps then some (f x) else none := by
  induction ps with
  | nil => rfl
  | cons p ps ih =>
    rw [List.map_cons, List.lookup_cons, ih]
    by_cases hx : x = p
    · simp [hx]
    · have : (x == p) = false := by simpa using hx
      simp [this, hx]

namespace Consistent

variable {site : Site δ} {s : Clones (Body δ γ)}

/-- Nothing is rotated away: the history of a copy is its live file. -/
theorem history_eq (h : Consistent site s) (m p : Text) : (s m p).history = (s m p).live := by
  rw [Shards.history, h.flat, List.flatMap_nil, List.nil_append]

/-- Every copy of a shard is whole. -/
theorem whole_copy (h : Consistent site s) (m p : Text) : Whole (s m p).live :=
  (h.whole p).of_beginning (h.copy m p)

/-- A fold says of each peer how much of its shard is there. -/
theorem count_observed (h : Consistent site s) (m x : Text) :
    (observed site s m).count x = if x = m then 0 else ((s m x).live.length : ℤ) := by
  rw [observed, ObservedSet.count, lookup_map_self]
  simp only [List.mem_filter, decide_eq_true_eq, h.history_eq]
  by_cases hxm : x = m
  · simp [hxm]
  by_cases hx : (s m x).live = []
  · simp [hx, hxm]
  by_cases hmem : x ∈ site.machines
  · simp [hxm, hx, hmem]
  · have := h.copy m x
    rw [h.alone x hmem, List.prefix_nil] at this
    exact absurd this hx

/-- What a machine has observed is backed by records. -/
theorem backed_observed (h : Consistent site s) (m : Text) :
    Backed site s m (observed site s m) := by
  intro e he
  obtain ⟨p, hp, rfl⟩ := List.mem_map.mp he
  simp only [List.mem_filter, decide_eq_true_eq, h.history_eq] at hp ⊢
  refine ⟨hp.1.2, _, List.length_pos_iff.mpr hp.2, (h.copy m p).length_le, ?_⟩
  rw [prefixDigest, prefixDigest, (h.whole p).sequenced_beginning (h.copy m p), List.take_take,
    min_self]

/-- A call puts records at the end of the own shard: what the caller appends, or a marker, which
says what the machine has. -/
theorem call_push [DecidableEq δ] [DecidableEq γ] (h : Consistent site s) (move : Move γ) :
    ∃ rs : List (Record (Body δ γ)),
      site.call s move = (s move.machine move.machine).push (rs.map .record) ∧
        Whole (site.call s move).live ∧
          ∀ r ∈ rs, r.body = .observedSetFold (observed site s move.machine) ∨
            ∃ e ∈ move.events, r.toEvent = e.other := by
  -- a call that fails appends nothing
  have hself : ∀ m, ∃ rs : List (Record (Body δ γ)), s m m = (s m m).push (rs.map .record) ∧
      Whole (s m m).live ∧ ∀ r ∈ rs, r.body = .observedSetFold (observed site s m) ∨
        ∃ e ∈ move.events, r.toEvent = e.other :=
    fun m => ⟨[], by simp [Shards.push], h.whole m, by simp⟩
  cases move with
  | append m e key now =>
    rw [Site.call]
    split
    case h_2 => exact hself m
    case h_1 own r happend =>
      obtain ⟨rs, hown, hwhole, hevent⟩ := appendEvent_push (h.whole m) happend
      exact ⟨rs, hown, hwhole, fun r hr => .inr ⟨e, List.mem_singleton_self e, hevent r hr⟩⟩
  | batch m events =>
    rw [Site.call]
    split
    case h_2 => exact hself m
    case h_1 own rs happend =>
      obtain ⟨hown, hwhole, hevent⟩ := appendEvents_push (h.whole m) happend
      refine ⟨rs, hown, hwhole, fun r hr => .inr ?_⟩
      have hr := hevent r hr
      rw [List.map_map] at hr
      obtain ⟨b, hb, heq⟩ := List.mem_map.mp hr
      exact ⟨b.1, List.mem_map_of_mem hb, heq.symm⟩
  | fold m now observedAt =>
    -- the other shards can be observed, as they are whole
    have hobserve : observe site.digest (s m) (site.machines.filter (· ≠ m)) =
        .ok (observed site s m) :=
      observe_eq site.digest fun p _ => by rw [h.history_eq]; exact h.whole_copy m p
    rw [Site.call, foldObservedSet, hobserve]
    dsimp only
    split_ifs
    · exact hself m
    · split
      case h_2 => exact hself m
      case h_1 own r hfold =>
        split at hfold
        case h_1 s' r' happend =>
          cases hfold
          obtain ⟨rs, hown, hwhole, hevent⟩ := appendEvent_push (h.whole m) happend
          exact ⟨rs, hown, hwhole, fun r hr => .inl (congrArg Event.body (hevent r hr))⟩
        case h_2 => cases hfold; exact hself m
        case h_3 => cases hfold
  | merge m source => exact hself m

/-- A call keeps the ids of the own shard apart. -/
theorem uniqueIds_call [DecidableEq δ] [DecidableEq γ] (h : Consistent site s) (move : Move γ)
    (hu : (s move.machine move.machine).UniqueIds) : (site.call s move).UniqueIds := by
  cases move with
  | append m e key now =>
    rw [Site.call]
    split
    case h_2 => exact hu
    case h_1 own r happend => exact appendEvent_uniqueIds hu happend
  | batch m events =>
    rw [Site.call]
    split
    case h_2 => exact hu
    case h_1 own rs happend =>
      refine appendEvents_uniqueIds hu (fun b _ p hp => ?_) happend
      rw [Move.machine, h.flat m m] at hp
      cases hp
  | fold m now observedAt =>
    rw [Site.call, foldObservedSet]
    split
    case h_2 => exact hu
    case h_1 own r hfold =>
      split at hfold
      case h_1 => cases hfold
      case h_2 =>
        dsimp only at hfold
        split_ifs at hfold
        · cases hfold
          exact hu
        · split at hfold
          case h_1 s' r' happend =>
            cases hfold
            exact appendEvent_uniqueIds hu happend
          case h_2 => cases hfold; exact hu
          case h_3 => cases hfold
  | merge m source => exact hu

/-- A mark is on a line that its own machine has written. -/
theorem le_length_of_mark (h : Consistent site s) {p : Text} {k : ℤ} {v : Text → ℤ}
    (hv : Mark s p k v) : k ≤ (s p p).live.length := by
  obtain ⟨r, os, hr, hk, -⟩ := hv
  exact ((h.whole p).getElem_of_mem hr hk).2.1

/-- A marker that a clone has says nothing that the clone does not have. -/
theorem known_of_mark (h : Consistent site s) {m p : Text} {k : ℤ} {v : Text → ℤ}
    (hv : Mark s p k v) (hk : k ≤ (s m p).live.length) (x : Text) : v x ≤ (s m x).live.length := by
  obtain ⟨r, os, hr, hseq, hbody, rfl⟩ := hv
  by_cases hx : os.count x = 0
  · omega
  · obtain ⟨e, he, rfl, hcount⟩ := ObservedSet.exists_of_count_ne hx
    rw [hcount]
    exact h.known ((h.whole p).mem_beginning (h.copy m p) hr hseq hk) hbody e he

/-- New records of a machine, behind its own ones. -/
theorem write (h : Consistent site s) {m : Text} (hm : m ∈ site.machines)
    {rs : List (Record (Body δ γ))} (hwhole : Whole ((s m m).push (rs.map .record)).live)
    (hnew : ∀ r ∈ rs, ∀ os, r.body = .observedSetFold os → os = observed site s m) :
    Consistent site (s.write m ((s m m).push (rs.map .record))) := by
  set own := (s m m).push (rs.map .record) with hown
  have hext : ∀ c p, (s c p).live <+: (s.write m own c p).live := by
    intro c p
    rw [Clones.write_apply]
    split_ifs with hcp
    · rw [hcp.1, hcp.2]
      exact List.prefix_append _ _
    · exact List.prefix_rfl
  have hself : s.write m own m m = own := by rw [Clones.write_apply, if_pos ⟨rfl, rfl⟩]
  have hwholes : ∀ p, Whole (s.write m own p p).live := by
    intro p
    rw [Clones.write_apply]
    split_ifs
    · exact hwhole
    · exact h.whole p
  -- a new marker stands behind everything that the machine had, and says it
  have hmark : ∀ {p k v}, Mark (s.write m own) p k v → Mark s p k v ∨
      (p = m ∧ ((s m m).live.length : ℤ) < k ∧ v = (observed site s m).count) := by
    rintro p k v ⟨r, os, hr, hk, hbody, rfl⟩
    by_cases hle : k ≤ (s p p).live.length
    · exact .inl ⟨r, os, (hwholes p).mem_beginning (hext p p) hr hk hle, hk, hbody, rfl⟩
    · rw [Clones.write_apply] at hr
      split_ifs at hr with hpm
      · obtain rfl := hpm.1
        rcases List.mem_append.mp hr with hr | hr
        · exact .inl ⟨r, os, hr, hk, hbody, rfl⟩
        · obtain ⟨r', hr', heq⟩ := List.mem_map.mp hr
          cases heq
          exact .inr ⟨rfl, not_le.mp hle, by rw [hnew r hr' os hbody]⟩
      · exact .inl ⟨r, os, hr, hk, hbody, rfl⟩
  have hcount : ∀ x, x ≠ m → (observed site s m).count x = (s m x).live.length := fun x hx => by
    rw [h.count_observed, if_neg hx]
  exact
    { flat := by
        intro c p
        rw [Clones.write_apply]
        split_ifs
        · exact h.flat m m
        · exact h.flat c p
      copy := by
        intro c p
        by_cases hcp : c = m ∧ p = m
        · simp only [hcp.1, hcp.2, List.prefix_rfl]
        · have : s.write m own c p = s c p := by rw [Clones.write_apply, if_neg hcp]
          rw [this]
          exact (h.copy c p).trans (hext p p)
      whole := hwholes
      alone := by
        intro p hp
        have hpm : p ≠ m := fun heq => hp (heq ▸ hm)
        rw [Clones.write_apply, if_neg fun hpp => hpm hpp.1]
        exact h.alone p hp
      backed := by
        intro p r os hr hbody
        have hback : Backed site s p os := by
          rw [Clones.write_apply] at hr
          split_ifs at hr with hpm
          · obtain rfl := hpm.1
            rcases List.mem_append.mp hr with hr | hr
            · exact h.backed hr hbody
            · obtain ⟨r', hr', heq⟩ := List.mem_map.mp hr
              cases heq
              rw [hnew r hr' os hbody]
              exact h.backed_observed p
          · exact h.backed hr hbody
        intro e he
        obtain ⟨hne, n, hpos, hn, heq⟩ := hback e he
        refine ⟨hne, n, hpos, hn.trans (hext e.1 e.1).length_le, ?_⟩
        rw [heq, prefixDigest, prefixDigest, (hwholes e.1).sequenced_beginning (hext e.1 e.1),
          List.take_take, min_eq_left hn]
      known := by
        intro c p r os hr hbody e he
        have hold : e.2.sequence ≤ (s c e.1).live.length := by
          rw [Clones.write_apply] at hr
          split_ifs at hr with hcp
          · obtain ⟨rfl, rfl⟩ := hcp
            rcases List.mem_append.mp hr with hr | hr
            · exact h.known hr hbody e he
            · obtain ⟨r', hr', heq⟩ := List.mem_map.mp hr
              cases heq
              rw [hnew r hr' os hbody] at he
              obtain ⟨x, -, rfl⟩ := List.mem_map.mp he
              rw [h.history_eq]
          · exact h.known hr hbody e he
        have := (hext c e.1).length_le
        omega
      closed :=
        { mono := by
            intro p x j k v w hvs hws hjk hx
            rcases hmark hvs with hv | ⟨rfl, hj, rfl⟩ <;>
              rcases hmark hws with hw | ⟨hpm, hk, rfl⟩
            · exact h.closed.mono hv hw hjk hx
            · subst hpm
              rw [hcount x hx]
              exact h.known_of_mark hv (h.le_length_of_mark hv) x
            · exact absurd (h.le_length_of_mark hw) (by omega)
            · exact le_rfl
          own := by
            intro m' q j k v w hws hvs hq hle
            rcases hmark hws with hw | ⟨rfl, hk, rfl⟩ <;>
              rcases hmark hvs with hv | ⟨hqm, hj, rfl⟩
            · exact h.closed.own hw hv hq hle
            · subst hqm
              have := h.known_of_mark hw (h.le_length_of_mark hw) q
              have := (h.copy m' q).length_le
              omega
            · rw [hcount q hq] at hle
              have := h.known_of_mark hv hle m'
              omega
            · exact absurd hqm hq
          trans := by
            intro m' q x j k v w hws hvs hq hle hxq hxm
            rcases hmark hws with hw | ⟨rfl, hk, rfl⟩ <;>
              rcases hmark hvs with hv | ⟨hqm, hj, rfl⟩
            · exact h.closed.trans hw hv hq hle hxq hxm
            · subst hqm
              have := h.known_of_mark hw (h.le_length_of_mark hw) q
              have := (h.copy m' q).length_le
              omega
            · rw [hcount q hq] at hle
              rw [hcount x hxm]
              exact h.known_of_mark hv hle x
            · exact absurd hqm hq } }

/-- A clone that takes over the longer shards of another one. -/
theorem merge (h : Consistent site s) (m source : Text) :
    Consistent site (Function.update s m fun p => longer (s m p) (s source p)) := by
  set s' : Clones (Body δ γ) := Function.update s m fun p => longer (s m p) (s source p) with hs'
  have hlonger : ∀ p, longer (s m p) (s source p) = s m p ∨
      longer (s m p) (s source p) = s source p := by
    intro p
    unfold longer
    split_ifs
    · exact .inr rfl
    · exact .inl rfl
  -- what a clone has now, one of the clones had before
  have hfrom : ∀ c p, ∃ c', (c' = c ∨ c = m ∧ c' = source) ∧ s' c p = s c' p := by
    intro c p
    by_cases hc : c = m
    · subst hc
      rw [hs', Function.update_self]
      rcases hlonger p with heq | heq
      · exact ⟨c, .inl rfl, heq⟩
      · exact ⟨source, .inr ⟨rfl, rfl⟩, heq⟩
    · exact ⟨c, .inl rfl, by rw [hs', Function.update_of_ne hc]⟩
  have hle : ∀ c c' p, (c' = c ∨ c = m ∧ c' = source) →
      (s c' p).live.length ≤ (s' c p).live.length := by
    intro c c' p hc
    by_cases hcm : c = m
    · subst hcm
      rw [hs', Function.update_self, longer]
      rcases hc with rfl | ⟨-, rfl⟩ <;> split_ifs <;> omega
    · rcases hc with rfl | ⟨hc, -⟩
      · rw [hs', Function.update_of_ne hcm]
      · exact absurd hc hcm
  have hself : ∀ p, s' p p = s p p := by
    intro p
    by_cases hp : p = m
    · subst hp
      rw [hs', Function.update_self, longer, if_neg (not_lt.mpr (h.copy source p).length_le)]
    · rw [hs', Function.update_of_ne hp]
  have hmark : Mark s' = Mark s := by
    funext p k v
    simp only [Mark, hself]
  exact
    { flat := by
        intro c p
        obtain ⟨c', -, heq⟩ := hfrom c p
        rw [heq]
        exact h.flat c' p
      copy := by
        intro c p
        obtain ⟨c', -, heq⟩ := hfrom c p
        rw [heq, hself]
        exact h.copy c' p
      whole := fun p => (hself p).symm ▸ h.whole p
      alone := fun p hp => (hself p).symm ▸ h.alone p hp
      backed := by
        intro p r os hr hbody e he
        rw [hself] at hr ⊢
        exact h.backed hr hbody e he
      known := by
        intro c p r os hr hbody e he
        obtain ⟨c', hc', heq⟩ := hfrom c p
        rw [heq] at hr
        exact (h.known hr hbody e he).trans (Int.ofNat_le.mpr (hle c c' e.1 hc'))
      closed := hmark ▸ h.closed }

/-- Every move keeps clones consistent; one case for each move. -/
theorem step [DecidableEq δ] [DecidableEq γ] (h : Consistent site s) {move : Move γ}
    {s' : Clones (Body δ γ)} (hstep : site.step s move = some s') : Consistent site s' := by
  have hcall (hs : (if move.machine ∈ site.machines then
      some (s.write move.machine (site.call s move)) else none) = some s') :
      Consistent site s' := by
    split_ifs at hs with hm
    cases hs
    obtain ⟨rs, hown, hwhole, hnew⟩ := h.call_push move
    rw [hown] at hwhole ⊢
    refine h.write hm hwhole fun r hr os hos => ?_
    rcases hnew r hr with hmarker | ⟨e, -, heq⟩
    · exact Body.observedSetFold.inj (hos.symm.trans hmarker)
    · cases hos.symm.trans (congrArg Event.body heq)
  cases move with
  | merge m source =>
    cases hstep
    exact h.merge m source
  | _ => exact hcall hstep

end Consistent

/-- Whatever the machines write, fold and merge, and in whatever order. -/
theorem consistent_of_run [DecidableEq δ] [DecidableEq γ] {site : Site δ} {s : Clones (Body δ γ)}
    {moves : List (Move γ)} (hrun : run site.step (fun _ _ => Shards.empty) moves = some s) :
    Consistent site s :=
  run_invariant (fun _ _ _ h hstep => h.step hstep) (consistent_empty site) hrun

/-- Machines where the digest of ids is the list of them. -/
def smallSite (machines : List Text) : Site (List Text) :=
  ⟨machines, isDigit, id,
    fun os => os.flatMap fun e => e.1 ++ List.replicate e.2.sequence.toNat '.'⟩

end Tracker

end CoordinatorCore
