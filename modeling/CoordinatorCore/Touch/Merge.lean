import CoordinatorCore.Touch.Fold
import Mathlib.Algebra.Order.Ring.Unbundled.Rat
import Mathlib.Data.List.MinMax
import Mathlib.Data.Prod.Lex

/-!
# Claims across sinks

`project_live_claims` reads several sinks. Inside a sink the order of the lines decides; between two
sinks there is only the time of the events, and `mergeAcrossStreams` takes the later one, a touch
before a release at one time. What is left is filtered by the sessions that are alive.

So a path is claimed exactly when the event that wins it across the sinks is a touch by a session
that is alive (`mem_projectLiveClaims`). The merge comes first: an event of a dead session can win
against the touch of a live one.
-/

namespace CoordinatorCore

open Text

namespace Touch

/-! ### The order of floats -/

/-- The value of a float; `nan` has none. -/
def floatValue (r : Text) : Option (WithBot (WithTop ℚ)) :=
  if r = ['n', 'a', 'n'] then none
  else if r = ['i', 'n', 'f'] then some ⊤
  else if r = ['-', 'i', 'n', 'f'] then some ⊥
  else
    (parseDecimal r).bind fun x =>
      let (n, d) := scaleFraction x.digits 1 10 x.exp
      (toBinary64 n d).map fun (m, e) =>
        let (a, b) := scaleFraction m 1 2 e
        ((if x.neg then -(a / b : ℚ) else (a / b : ℚ) : ℚ) : WithTop ℚ)

/-- `a < b`. -/
def floatLt (a b : Text) : Bool :=
  match floatValue a, floatValue b with
  | some x, some y => x < y
  | _, _ => false

/-- `a == b`. -/
def floatEq (a b : Text) : Bool :=
  match floatValue a, floatValue b with
  | some x, some y => x = y
  | _, _ => false

/-! ### The merge -/

/-- The event takes the place of the one that is there. -/
def beats (event current : TouchEvent) : Bool :=
  floatLt current.timestamp event.timestamp ||
    (floatEq event.timestamp current.timestamp && event.verb = .touch && current.verb = .release)

/-- One claim of one stream. -/
def mergeInto (merged : Table PyStr TouchEvent) (claim : PyStr × TouchEvent) :
    Table PyStr TouchEvent :=
  match merged.get claim.1 with
  | none => merged.set claim.1 claim.2
  | some current => if beats claim.2 current then merged.set claim.1 claim.2 else merged

/-- `_merge_across_streams`. -/
def mergeAcrossStreams (streams : List (Table PyStr TouchEvent)) : Table PyStr TouchEvent :=
  streams.foldl (fun merged claims => claims.entries.foldl mergeInto merged) ∅

/-- `TouchProjection`. -/
structure TouchProjection where
  claims : Table PyStr TouchEvent
  degraded : Bool
  reasons : List Reason

/-- The projection of what was read of the sinks. -/
def projectReads (sessionLive : PyStr → Bool) (reads : List StreamRead) : TouchProjection where
  claims := (mergeAcrossStreams (reads.map StreamRead.claims)).filter fun e =>
    e.2.verb = .touch && sessionLive e.2.sessionId
  degraded := reads.any StreamRead.degraded
  reasons := reads.flatMap StreamRead.reasons

/-- `project_live_claims`, for the sinks' families and the sessions that are alive. -/
def projectLiveClaims (sessionLive : PyStr → Bool) (sinks : List (List Member)) :
    Except DecodeError TouchProjection :=
  (sinks.mapM readStream).map (projectReads sessionLive)

/-! ### Who wins -/

/-- The place of an event: its time, a touch above a release. -/
def rank (e : TouchEvent) : WithBot (WithTop ℚ) ×ₗ Bool :=
  toLex ((floatValue e.timestamp).getD ⊥, decide (e.verb = .touch))

/-- The event has a time. -/
def Timed (e : TouchEvent) : Prop := (floatValue e.timestamp).isSome

instance (e : TouchEvent) : Decidable (Timed e) := inferInstanceAs (Decidable (_ = true))

theorem beats_iff {d e : TouchEvent} (hd : Timed d) (he : Timed e) :
    beats e d = true ↔ rank d < rank e := by
  obtain ⟨x, hx⟩ := Option.isSome_iff_exists.mp hd
  obtain ⟨y, hy⟩ := Option.isSome_iff_exists.mp he
  rw [rank, rank, Prod.Lex.toLex_lt_toLex, beats, floatLt, floatEq, hx, hy]
  cases d.verb <;> cases e.verb <;> simp [eq_comm (a := x)]

/-- The event that stays when one more comes. -/
def stay (current : Option TouchEvent) (event : TouchEvent) : TouchEvent :=
  match current with
  | none => event
  | some c => if beats event c then event else c

private theorem get_mergeInto (merged : Table PyStr TouchEvent) (claim : PyStr × TouchEvent)
    (p : PyStr) : (mergeInto merged claim).get p =
      if claim.1 = p then some (stay (merged.get p) claim.2) else merged.get p := by
  unfold mergeInto stay
  by_cases hp : claim.1 = p
  · subst hp
    cases hget : merged.get claim.1 with
    | none => simp [Table.get_set]
    | some c =>
      dsimp only
      rw [if_pos rfl]
      split_ifs
      · exact Table.get_set_self ..
      · exact hget
  · have hp' : p ≠ claim.1 := Ne.symm hp
    split
    · simp [Table.get_set, hp, hp']
    · split_ifs <;> simp [Table.get_set, hp']

private theorem get_foldl_mergeInto {es : List (PyStr × TouchEvent)}
    (h : (es.map Prod.fst).Nodup) (merged : Table PyStr TouchEvent) (p : PyStr) :
    (es.foldl mergeInto merged).get p =
      match (es.find? fun e => e.1 = p).map Prod.snd with
      | none => merged.get p
      | some e => some (stay (merged.get p) e) := by
  induction es generalizing merged with
  | nil => rfl
  | cons e es ih =>
    rw [List.map_cons, List.nodup_cons] at h
    rw [List.foldl_cons, ih h.2, get_mergeInto]
    by_cases hp : e.1 = p
    · have hnone : es.find? (fun e => e.1 = p) = none := by
        rw [List.find?_eq_none]
        intro x hx hxp
        refine h.1 (List.mem_map.mpr ⟨x, hx, ?_⟩)
        rw [hp]
        simpa using hxp
      rw [List.find?_cons_of_pos (by simpa using hp), hnone, if_pos hp]
      rfl
    · rw [List.find?_cons_of_neg (by simpa using hp), if_neg hp]

/-- The last events of the streams on a path. -/
def lastEvents (p : PyStr) (streams : List (List TouchEvent)) : List TouchEvent :=
  streams.filterMap (lastOn p)

/-- The merge keeps the first of the events with the highest place. -/
theorem get_mergeAcrossStreams {streams : List (List TouchEvent)}
    (h : ∀ events ∈ streams, ∀ e ∈ events, Timed e) (p : PyStr) :
    (mergeAcrossStreams (streams.map claimsOf)).get p =
      (lastEvents p streams).argmax rank := by
  induction streams using List.reverseRecOn with
  | nil => rfl
  | append_singleton streams events ih =>
    have hold := fun es hes => h es (List.mem_append_left _ hes)
    rw [mergeAcrossStreams, List.map_append, List.foldl_append, List.map_singleton,
      List.foldl_cons, List.foldl_nil, ← mergeAcrossStreams, get_foldl_mergeInto (claimsOf _).nodup,
      lastEvents, List.filterMap_append, ih hold]
    change (match (claimsOf events).get p with | none => _ | some e => _) = _
    rw [get_claimsOf]
    cases hlast : lastOn p events with
    | none =>
      rw [List.filterMap_cons, hlast]
      exact congrArg _ (List.append_nil _).symm
    | some e =>
      have he : Timed e := h events (by simp) e (mem_of_lastOn hlast)
      rw [List.filterMap_cons, hlast]
      change some (stay _ e) = ((lastEvents p streams) ++ [e]).argmax rank
      rw [List.argmax_concat]
      cases hmax : (lastEvents p streams).argmax rank with
      | none => rfl
      | some c =>
        obtain ⟨es, hes, hc⟩ := List.mem_filterMap.mp (List.argmax_mem hmax)
        have hiff := beats_iff (hold es hes c (mem_of_lastOn hc)) he
        rw [stay]
        dsimp only
        split_ifs with hbeats hrank hrank
        · rfl
        · exact absurd (hiff.mp hbeats) hrank
        · exact absurd (hiff.mpr hrank) hbeats
        · rfl

/-! ### The projection -/

/-- The sinks hold these streams: every file is read, every line decodes, every event has a
time. -/
def WellFormed (sinks : List (List Member)) (streams : List (List TouchEvent)) : Prop :=
  List.Forall₂ (fun family events =>
    readMembers family = .ok (events, []) ∧ ∀ e ∈ events, Timed e) sinks streams

/-- The event is the latest among the last events of the streams on a path, a touch before a release
at one time, and the first of several such events. -/
def Wins (p : PyStr) (streams : List (List TouchEvent)) (e : TouchEvent) : Prop :=
  e ∈ lastEvents p streams ∧ (∀ d ∈ lastEvents p streams, rank d ≤ rank e) ∧
    ∀ d ∈ lastEvents p streams, rank e ≤ rank d →
      (lastEvents p streams).idxOf e ≤ (lastEvents p streams).idxOf d

private theorem WellFormed.mapM {sinks : List (List Member)} {streams : List (List TouchEvent)}
    (h : WellFormed sinks streams) :
    sinks.mapM readStream = .ok (streams.map fun events => foldResult events []) := by
  induction h with
  | nil => rfl
  | cons hread _ ih =>
    rw [List.mapM_cons, readStream, hread.1, ih]
    rfl

private theorem WellFormed.timed {sinks : List (List Member)} {streams : List (List TouchEvent)}
    (h : WellFormed sinks streams) : ∀ events ∈ streams, ∀ e ∈ events, Timed e := by
  induction h with
  | nil => exact fun events he => nomatch he
  | cons hread _ ih => exact List.forall_mem_cons.mpr ⟨hread.2, ih⟩

/-- A path is claimed exactly when the event that wins it is a touch by a live session. -/
theorem mem_projectLiveClaims {sinks : List (List Member)} {streams : List (List TouchEvent)}
    (h : WellFormed sinks streams) (sessionLive : PyStr → Bool) (p : PyStr) :
    ∃ r, projectLiveClaims sessionLive sinks = .ok r ∧ r.degraded = false ∧
      (p ∈ r.claims.keys ↔
        ∃ e, Wins p streams e ∧ e.verb = .touch ∧ sessionLive e.sessionId = true) := by
  have hclaims : (streams.map fun events => foldResult events []).map StreamRead.claims =
      streams.map claimsOf := by
    rw [List.map_map]
    rfl
  rw [projectLiveClaims, h.mapM]
  refine ⟨_, rfl, ?_, ?_⟩
  · rw [projectReads, List.any_map]
    exact List.any_eq_false.mpr fun events _ => by simp [foldResult]
  · rw [projectReads, hclaims, Table.mem_keys_iff]
    refine exists_congr fun e => ?_
    rw [Table.get_filter_eq_some_iff, get_mergeAcrossStreams h.timed, List.argmax_eq_some_iff,
      Bool.and_eq_true, decide_eq_true_eq]
    rfl

/-! ### A hidden hold -/

/-- The last event of a session on a path by time, in whatever stream it stands. -/
def IsOwnLatest (sid p : PyStr) (streams : List (List TouchEvent)) (e : TouchEvent) : Prop :=
  e ∈ streams.flatten ∧ e.sessionId = sid ∧ e.path = p ∧
    ∀ d ∈ streams.flatten, d.sessionId = sid → d.path = p → rank d ≤ rank e

/-- A touch of the path `p`. -/
def touchOfP (sid : CodePoint) (timestamp : Text) : TouchEvent :=
  ⟨1, .touch, timestamp, [sid], none, [0x70], none, none, none⟩

/-- A sink with one touch of the path `p`. -/
def sinkOfP (sid : CodePoint) (timestamp : Text) : List Member :=
  [⟨['s'], lineOf (recordOf [sid] none Verb.touch.code [0x70] timestamp none none none)⟩]

/-- The session `a` touches `p` in one sink, and the session `b` touches it later in another. -/
def touchedSinks : List (List Member) :=
  [sinkOfP 0x61 ['1', '.', '0'], sinkOfP 0x62 ['2', '.', '0']]

/-- The events of these sinks. -/
def touchedStreams : List (List TouchEvent) :=
  [[touchOfP 0x61 ['1', '.', '0']], [touchOfP 0x62 ['2', '.', '0']]]

private theorem wellFormed_touched : WellFormed touchedSinks touchedStreams := by
  refine .cons ⟨?_, List.forall_mem_singleton.mpr ?_⟩
    (.cons ⟨?_, List.forall_mem_singleton.mpr ?_⟩ .nil)
  · decide +kernel
  · decide +kernel
  · decide +kernel
  · decide +kernel

theorem mem_projectLiveClaims_touched : ∃ r,
    projectLiveClaims (fun _ => true) touchedSinks = .ok r ∧ r.degraded = false ∧
      ([0x70] ∈ r.claims.keys ↔
        ∃ e, Wins [0x70] touchedStreams e ∧ e.verb = .touch ∧ true = true) :=
  mem_projectLiveClaims wellFormed_touched (fun _ => true) [0x70]

/-- The session `a` is alive and its own last event on `p` is a touch, but the later touch of the
dead session `b` wins the path, and nothing is claimed. -/
theorem live_hold_hidden :
    WellFormed touchedSinks touchedStreams ∧
    (projectLiveClaims (fun sid => sid = [0x61]) touchedSinks).toOption.map
      (fun r => r.claims.keys) = some [] ∧
    IsOwnLatest [0x61] [0x70] touchedStreams (touchOfP 0x61 ['1', '.', '0']) ∧
    (touchOfP 0x61 ['1', '.', '0']).verb = .touch := by
  refine ⟨wellFormed_touched, by decide +kernel, ⟨by decide, rfl, rfl, ?_⟩, rfl⟩
  intro d hd hsid _
  rcases List.mem_cons.mp hd with rfl | hd
  · exact le_refl _
  · obtain rfl := List.mem_singleton.mp hd
    exact absurd hsid (by decide)

end Touch

end CoordinatorCore
