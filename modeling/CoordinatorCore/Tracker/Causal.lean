import CoordinatorCore.Tracker.Clones
import Mathlib.Algebra.Ring.Int.Defs

/-!
# The comparison of vectors is the order in which things happened

`compare_events_causal_order` promises an order that extends what happened before what. The vector
of an event is made of the last marker in front of it, held against the files of whoever asks, and
of its own place. In a store where nothing was rotated such vectors are clocks
(`Exact`), whoever asks, and the comparison decides exactly what the records of the folds say
(`compareVectors_iff_happensBefore`).
-/

namespace CoordinatorCore

open Machine Text

namespace Tracker

variable {β δ γ : Type}

/-! ### The marker in effect -/

/-- The scan keeps a marker in front of the sequence, and none of those that it passes is behind
it. -/
theorem scanMarker_eq {q : ℤ} {ls : List (Line (Body δ γ))} (hread : Readable ls)
    (best : Option (ℤ × Text × ObservedSet δ)) :
    ∃ found, scanMarker q ls best = .ok found ∧
      (∀ b ∈ found, b ∈ best ∨ b.1 < q ∧ ∃ r, .record r ∈ ls ∧ r.sequence = some b.1 ∧
        r.body = .observedSetFold b.2.2) ∧
      (∀ b ∈ best, ∃ b' ∈ found, b.1 ≤ b'.1) ∧
      ∀ r k os, .record r ∈ ls → r.sequence = some k → r.body = .observedSetFold os → k < q →
        ∃ b ∈ found, k ≤ b.1 := by
  induction ls generalizing best with
  | nil => exact ⟨best, rfl, fun b hb => .inl hb, fun b hb => ⟨b, hb, le_rfl⟩, by simp⟩
  | cons l ls ih =>
    obtain ⟨r, rfl, -⟩ := hread l List.mem_cons_self
    have ih := ih fun l hl => hread l (List.mem_cons_of_mem _ hl)
    -- a line that the scan leaves out
    have hskip : ∀ next, (∀ b ∈ next, b ∈ best ∨ b.1 < q ∧ r.sequence = some b.1 ∧
        r.body = .observedSetFold b.2.2) → (∀ b ∈ best, ∃ b' ∈ next, b.1 ≤ b'.1) →
        (∀ k os, r.sequence = some k → r.body = .observedSetFold os → k < q →
          ∃ b ∈ next, k ≤ b.1) →
        ∃ found, scanMarker q ls next = .ok found ∧
          (∀ b ∈ found, b ∈ best ∨ b.1 < q ∧ ∃ r', .record r' ∈ Line.record r :: ls ∧
            r'.sequence = some b.1 ∧ r'.body = .observedSetFold b.2.2) ∧
          (∀ b ∈ best, ∃ b' ∈ found, b.1 ≤ b'.1) ∧
          ∀ r' k os, .record r' ∈ Line.record r :: ls → r'.sequence = some k →
            r'.body = .observedSetFold os → k < q → ∃ b ∈ found, k ≤ b.1 := by
      intro next hfrom hkeep hpass
      obtain ⟨found, heq, hfound, hup, hall⟩ := ih next
      refine ⟨found, heq, fun b hb => ?_, fun b hb => ?_, fun r' k os hr' hk hbody hlt => ?_⟩
      · rcases hfound b hb with hb | ⟨hlt, r', hr', hseq, hbody⟩
        · rcases hfrom b hb with hb | ⟨hlt, hseq, hbody⟩
          · exact .inl hb
          · exact .inr ⟨hlt, r, List.mem_cons_self, hseq, hbody⟩
        · exact .inr ⟨hlt, r', List.mem_cons_of_mem _ hr', hseq, hbody⟩
      · obtain ⟨b', hb', hle⟩ := hkeep b hb
        obtain ⟨b'', hb'', hle'⟩ := hup b' hb'
        exact ⟨b'', hb'', hle.trans hle'⟩
      · rcases List.mem_cons.mp hr' with heq | hr'
        · cases heq
          obtain ⟨b, hb, hle⟩ := hpass k os hk hbody hlt
          obtain ⟨b', hb', hle'⟩ := hup b hb
          exact ⟨b', hb', hle.trans hle'⟩
        · exact hall r' k os hr' hk hbody hlt
    have hsame : (∀ k os, r.sequence = some k → r.body = .observedSetFold os → k < q →
        ∃ b ∈ best, k ≤ b.1) → _ :=
      hskip best (fun b hb => .inl hb) fun b hb => ⟨b, hb, le_rfl⟩
    cases hbody : r.body with
    | other body =>
      rw [scanMarker, hbody]
      exact hsame fun k os _ hos => by rw [hbody] at hos; cases hos
    | observedSetFold os =>
      cases hseq : r.sequence with
      | none =>
        rw [scanMarker, hbody, hseq]
        exact hsame fun k os hk => by rw [hseq] at hk; cases hk
      | some k =>
        rw [scanMarker, hbody, hseq]
        dsimp only
        split_ifs with hge hbest
        · refine hsame fun k' os' hk' _ hlt => ?_
          rw [hseq] at hk'
          cases hk'
          omega
        · refine hskip (some (k, r.id, os)) (fun b hb => ?_) (fun b hb => ?_)
            fun k' os' hk' _ _ => ?_
          · cases hb
            exact .inr ⟨not_le.mp hge, hseq, hbody⟩
          · refine ⟨_, rfl, ?_⟩
            rw [Option.mem_def.mp hb, Option.all_some, decide_eq_true_eq] at hbest
            rcases hbest with hlt | ⟨heq, -⟩
            · exact hlt.le
            · exact heq.le
          · rw [hseq] at hk'
            cases hk'
            exact ⟨_, rfl, le_rfl⟩
        · refine hsame fun k' os' hk' _ _ => ?_
          rw [hseq] at hk'
          cases hk'
          cases best with
          | none => exact absurd rfl hbest
          | some b =>
            rw [Option.all_some, decide_eq_true_eq] at hbest
            exact ⟨b, rfl, by omega⟩

/-! ### What a clone answers -/

/-- The digest of the first ids of the shard of a machine. -/
def digestAt (site : Site δ) (s : Clones β) (p : Text) (k : ℤ) : δ :=
  prefixDigest site.digest (s p p).live k.toNat

/-- A vector that says of each machine what the clock does. -/
def Exact (site : Site δ) (s : Clones β) (v : Vector δ) (clock : Text → ℤ) : Prop :=
  ∀ x, 0 ≤ clock x ∧
    v.lookup x = if clock x = 0 then none else some (some ⟨clock x, digestAt site s x (clock x)⟩)

/-- The places up to a number are the first ones. -/
theorem Numbered.filter_le_eq_take {ps : List (ℤ × Text)} (h : Numbered ps) {n : ℕ}
    (hn : n ≤ ps.length) : (ps.filter fun p => p.1 ≤ (n : ℤ)) = ps.take n := by
  have hnum : Numbered (ps.take n) := by
    rw [Numbered, List.map_take, h, ← List.map_take, List.take_range, List.length_take]
  rw [filter_le_eq hn hnum, List.filter_eq_nil_iff.mpr, List.append_nil]
  intro p hp
  obtain ⟨i, hi, rfl⟩ := List.mem_iff_getElem.mp hp
  rw [List.length_drop] at hi
  rw [List.getElem_drop, h.fst_getElem (by omega), decide_eq_true_eq]
  omega

/-- Setting a component leaves the others. -/
theorem lookup_setEntry {v : Vector δ} {p x : Text} {c : Component δ} :
    (setEntry p c v).lookup x = if x = p then some c else v.lookup x := by
  rw [setEntry]
  induction v with
  | nil =>
    by_cases hx : x = p
    · simp [hx]
    · have : (x == p) = false := by simpa using hx
      simp [List.lookup_cons, this, hx]
  | cons e v ih =>
    rw [List.filter_cons]
    by_cases he : e.1 = p
    · have hxe : x ≠ p → (x == e.1) = false := fun hx => by simpa [he] using hx
      rw [if_neg (by simpa using he), ih]
      split_ifs with hx
      · rfl
      · rw [List.lookup_cons, hxe hx]
    · rw [if_pos (by simpa using he), List.cons_append, List.lookup_cons, List.lookup_cons, ih]
      by_cases hx : x = e.1
      · simp [hx, he]
      · have : (x == e.1) = false := by simpa using hx
        rw [this]

/-- A component of a mapped vector. -/
theorem lookup_map_snd {ε : Type} {v : List (Text × δ)} {f : δ → ε} {x : Text} :
    (v.map fun e => (e.1, f e.2)).lookup x = (v.lookup x).map f := by
  induction v with
  | nil => rfl
  | cons e v ih =>
    rw [List.map_cons, List.lookup_cons, List.lookup_cons, ih]
    cases x == e.1 <;> rfl

namespace Consistent

variable {site : Site δ} {s : Clones (Body δ γ)}

section Answers

variable [DecidableEq δ]

/-- In any clone that has them, the first `n` records of a shard are answered for. -/
theorem resolveComponent (h : Consistent site s) {c x : Text} {n : ℕ}
    (hn : n ≤ (s c x).live.length) :
    Tracker.resolveComponent site.digest (s c x).history ⟨n, digestAt site s x n⟩ =
      .ok (some ⟨n, digestAt site s x n⟩) := by
  have hw := h.whole_copy c x
  have hlen : ((sequenced (s c x).live).take n).length = n := by
    rw [List.length_take, hw.length_sequenced, min_eq_left hn]
  have hdigest : digestAt site s x n =
      site.digest (((sequenced (s c x).live).take n).map Prod.snd) := by
    rw [digestAt, prefixDigest, Int.toNat_natCast, (h.whole x).sequenced_beginning (h.copy c x),
      List.take_take, min_eq_left hn]
  have hnum : Numbered ((sequenced (s c x).live).take n) := by
    rw [← hw.sequenced_take]
    exact (hw.of_beginning (List.take_prefix n _)).numbered
  have hres := @resolveComponent_of_take _ _ _ site.digest _ hw.readable _ hnum
    (by rw [hlen]) ?_ _ hw.currentMax ?_
  · rw [hlen] at hres
    rw [h.history_eq, hdigest]
    exact hres
  · intro p hp
    rw [hlen] at hp ⊢
    obtain ⟨i, hi, rfl⟩ := List.mem_iff_getElem.mp hp
    rw [List.length_drop] at hi
    rw [List.getElem_drop, hw.numbered.fst_getElem (by omega)]
    omega
  · rw [hlen]
    exact Int.ofNat_le.mpr hn

/-- Every claim of a marker that a clone has is answered there. -/
theorem resolveObservedSet (h : Consistent site s) {c p : Text} {r : Record (Body δ γ)}
    {os : ObservedSet δ} (hr : .record r ∈ (s c p).live) (hbody : r.body = .observedSetFold os) :
    Tracker.resolveObservedSet site.digest (s c) os = .ok (os.map fun e => (e.1, some e.2)) := by
  have hback := h.backed ((h.copy c p).subset hr) hbody
  have hknown := h.known hr hbody
  clear hr hbody
  induction os with
  | nil => rfl
  | cons e os ih =>
    have ih := ih (fun e he => hback e (List.mem_cons_of_mem _ he))
      fun e he => hknown e (List.mem_cons_of_mem _ he)
    obtain ⟨x, claim⟩ := e
    obtain ⟨-, n, -, -, hclaim⟩ := hback (x, claim) List.mem_cons_self
    dsimp only at hclaim
    subst hclaim
    have hres := h.resolveComponent (Int.ofNat_le.mp (hknown (x, _) List.mem_cons_self))
    rw [digestAt, Int.toNat_natCast] at hres
    rw [Tracker.resolveObservedSet, hres, ih]
    rfl

end Answers

/-- The own place of an event is answered for. -/
theorem resolveSelfComponent (h : Consistent site s) {c p : Text} {k : ℤ} (hk : 0 ≤ k)
    (hle : k ≤ (s c p).live.length) :
    Tracker.resolveSelfComponent site.digest (s c) p k = .ok (some ⟨k, digestAt site s p k⟩) := by
  have hw := h.whole_copy c p
  obtain ⟨n, rfl⟩ : ∃ n : ℕ, k = n := ⟨k.toNat, by omega⟩
  have hn : n ≤ (s c p).live.length := Int.ofNat_le.mp hle
  have hwell : ∀ w ∈ wellFormedness 1 ((sequenced (s c p).live).map Prod.fst), (n : ℤ) < w.2 := by
    have htake : (sequenced (s c p).live).take (s c p).live.length = sequenced (s c p).live :=
      List.take_of_length_le hw.length_sequenced.le
    intro w hwf
    have := lt_of_wellFormedness (n := (s c p).live.length) (htake.symm ▸ hw.numbered)
      (by rw [List.drop_of_length_le hw.length_sequenced.le]; simp) w hwf
    omega
  have hany : ((wellFormedness 1 ((sequenced (s c p).live).map Prod.fst)).any
      fun w => w.2 ≤ (n : ℤ)) = false := by
    rw [Option.any_eq_false]
    intro w hwf
    simpa using hwell w hwf
  simp only [Tracker.resolveSelfComponent, collect_eq hw.readable, bind, Except.bind, pure,
    Except.pure, hany, Bool.false_eq_true, if_false]
  rw [hw.numbered.filter_le_eq_take (by rw [hw.length_sequenced]; exact hn), digestAt,
    prefixDigest, Int.toNat_natCast, (h.whole p).sequenced_beginning (h.copy c p), List.take_take,
    min_eq_left hn]

/-- Without a marker in front of it an event has no vector; with one, its vector is a clock. -/
theorem resolveUnion [DecidableEq δ] (h : Consistent site s) {c p : Text} {k : ℤ} (hpos : 0 < k)
    (hle : k ≤ (s c p).live.length) :
    ∃ v, resolveObservedSetUnionForEvent site.digest (s c) p k = .ok v ∧
      (v = none ↔ ∀ j w, Mark s p j w → ¬j < k) ∧
      ∀ vector ∈ v, ∃ clock, Exact site s vector clock ∧
        VectorClock.IsClock (Mark s) (p, k) clock := by
  obtain ⟨best, hbest, hfrom, -, hall⟩ :=
    scanMarker_eq (q := k) (h.whole_copy c p).readable none
  -- what stands in front of the event is in the clone
  have hmark : ∀ j w, Mark s p j w → j < k → ∃ b ∈ best, j ≤ b.1 := by
    rintro j w ⟨r, os, hr, hj, hbody, -⟩ hlt
    exact hall r j os ((h.whole p).mem_beginning (h.copy c p) hr hj (by omega)) hj hbody hlt
  cases best with
  | none =>
    refine ⟨none, ?_, iff_of_true rfl fun j w hw hlt => ?_, by simp⟩
    · rw [resolveObservedSetUnionForEvent, resolveObservedSetForEvent, markerInEffect, hbest]
      rfl
    · obtain ⟨b, hb, -⟩ := hmark j w hw hlt
      cases hb
  | some b =>
    obtain ⟨j, id, os⟩ := b
    obtain ⟨hlt, r, hr, hj, hbody⟩ := (hfrom _ rfl).resolve_left (by simp)
    dsimp only at hlt hj hbody
    have hown : Mark s p j os.count := ⟨r, os, (h.copy c p).subset hr, hj, hbody, rfl⟩
    refine ⟨some (setEntry p (some ⟨k, digestAt site s p k⟩) (os.map fun e => (e.1, some e.2))),
      ?_, iff_of_false (by simp) fun hno => hno j _ hown hlt, ?_⟩
    · rw [resolveObservedSetUnionForEvent, resolveObservedSetForEvent, markerInEffect, hbest]
      simp only [Except.map, Option.map_some, bind, Except.bind, pure, Except.pure,
        h.resolveObservedSet hr hbody, h.resolveSelfComponent hpos.le hle]
    · intro vector hvector
      cases hvector
      have hback := h.backed ((h.copy c p).subset hr) hbody
      refine ⟨fun x => if x = p then k else os.count x, fun x => ?_, ?_⟩
      · rw [lookup_setEntry]
        by_cases hx : x = p
        · simp only [hx, if_true, hpos.ne', if_false]
          exact ⟨hpos.le, trivial⟩
        · simp only [hx, if_false]
          rw [lookup_map_snd, ObservedSet.count]
          cases hl : os.lookup x with
          | none => simp
          | some claim =>
            obtain ⟨l₁, l₂, heq, -⟩ := List.lookup_eq_some_iff.mp hl
            obtain ⟨-, n, hn, -, hclaim⟩ := hback (x, claim) (by rw [heq]; simp)
            dsimp only at hclaim
            subst hclaim
            simp [hn.ne', digestAt]
      · refine ⟨if_pos rfl,
          .inl ⟨j, os.count, hlt, hown, fun i w hw hi => ?_, fun x hx => if_neg hx⟩⟩
        obtain ⟨b, hb, hle⟩ := hmark i w hw hi
        cases hb
        exact hle

end Consistent

/-! ### The comparison -/

section Compare

variable {site : Site δ} {s : Clones β} [DecidableEq δ]

/-- Exact vectors are compared by their clocks. -/
theorem Exact.compareComponent {v w : Vector δ} {c d : Text → ℤ} (hv : Exact site s v c)
    (hw : Exact site s w d) (x : Text) :
    Tracker.compareComponent (v.lookup x) (w.lookup x) =
      if c x < d x then .lt else if d x < c x then .gt else .eq := by
  obtain ⟨hc, hlv⟩ := hv x
  obtain ⟨hd, hlw⟩ := hw x
  rw [hlv, hlw]
  by_cases hcz : c x = 0 <;> by_cases hdz : d x = 0
  · simp [Tracker.compareComponent, hcz, hdz]
  · simp [Tracker.compareComponent, hcz, hdz]
  · simp [Tracker.compareComponent, hcz, hdz]
  · rcases lt_trichotomy (c x) (d x) with hlt | heq | hgt
    · simp [Tracker.compareComponent, hcz, hdz, hlt]
    · simp [Tracker.compareComponent, hdz, heq]
    · simp [Tracker.compareComponent, hcz, hdz, hgt]

omit [DecidableEq δ] in
/-- A vector is exact for one count. -/
theorem Exact.unique {v : Vector δ} {c d : Text → ℤ} (hc : Exact site s v c)
    (hd : Exact site s v d) : c = d := by
  funext x
  have hlookup := (hc x).2
  rw [(hd x).2] at hlookup
  by_cases hcx : c x = 0 <;> by_cases hdx : d x = 0
  · rw [hcx, hdx]
  · simp [hcx, hdx] at hlookup
  · simp [hcx, hdx] at hlookup
  · rw [if_neg hcx, if_neg hdx, Option.some.injEq, Option.some.injEq, Claim.mk.injEq] at hlookup
    exact hlookup.1.symm

/-- The answers for the components are those for the counts. -/
theorem Exact.mem_results {v w : Vector δ} {c d : Text → ℤ} (hv : Exact site s v c)
    (hw : Exact site s w d) {r : Comparison} :
    r ∈ (v ++ w).map (fun e => Tracker.compareComponent (v.lookup e.1) (w.lookup e.1)) ↔
      ∃ x, (c x ≠ 0 ∨ d x ≠ 0) ∧
        (if c x < d x then .lt else if d x < c x then .gt else .eq) = r := by
  have hkey : ∀ {v : Vector δ} {c : Text → ℤ}, Exact site s v c → ∀ x,
      (∃ e ∈ v, e.1 = x) ↔ c x ≠ 0 := by
    intro v c hv x
    have hlookup := (hv x).2
    rw [← not_iff_not, not_not]
    constructor
    · intro hno
      by_contra hne
      rw [if_neg hne] at hlookup
      obtain ⟨l₁, l₂, rfl, -⟩ := List.lookup_eq_some_iff.mp hlookup
      exact hno ⟨_, List.mem_append_right _ List.mem_cons_self, rfl⟩
    · rintro hzero ⟨e, he, rfl⟩
      rw [if_pos hzero, List.lookup_eq_none_iff] at hlookup
      simpa using hlookup e he
  simp only [List.mem_map, List.mem_append]
  constructor
  · rintro ⟨e, he, rfl⟩
    refine ⟨e.1, ?_, (hv.compareComponent hw e.1).symm⟩
    rcases he with he | he
    · exact .inl ((hkey hv e.1).mp ⟨e, he, rfl⟩)
    · exact .inr ((hkey hw e.1).mp ⟨e, he, rfl⟩)
  · rintro ⟨x, hx, rfl⟩
    rcases hx with hx | hx
    · obtain ⟨e, he, rfl⟩ := (hkey hv x).mpr hx
      exact ⟨e, .inl he, hv.compareComponent hw e.1⟩
    · obtain ⟨e, he, rfl⟩ := (hkey hw x).mpr hx
      exact ⟨e, .inr he, hv.compareComponent hw e.1⟩

open Classical in
/-- Exact vectors are compared as their counts are. -/
theorem Exact.compareVectors {v w : Vector δ} {c d : Text → ℤ} (hv : Exact site s v c)
    (hw : Exact site s w d) :
    Tracker.compareVectors (some v) (some w) =
      if (∃ x, c x < d x) ∧ ∃ x, d x < c x then .concurrent
      else if ∃ x, c x < d x then .bDominates
      else if ∃ x, d x < c x then .aDominates
      else .equal := by
  have hlt : Comparison.lt ∈ (v ++ w).map (fun e =>
      Tracker.compareComponent (v.lookup e.1) (w.lookup e.1)) ↔ ∃ x, c x < d x := by
    rw [hv.mem_results hw]
    refine exists_congr fun x => ⟨fun h => ?_, fun h => ⟨.inr ?_, if_pos h⟩⟩
    · by_contra hno
      rw [if_neg hno] at h
      split_ifs at h <;> cases h.2
    · have := (hv x).1
      omega
  have hgt : Comparison.gt ∈ (v ++ w).map (fun e =>
      Tracker.compareComponent (v.lookup e.1) (w.lookup e.1)) ↔ ∃ x, d x < c x := by
    rw [hv.mem_results hw]
    refine exists_congr fun x => ⟨fun h => ?_, fun h => ⟨.inl ?_, ?_⟩⟩
    · by_contra hno
      rw [if_neg hno] at h
      split_ifs at h <;> cases h.2
    · have := (hw x).1
      omega
    · rw [if_neg (by omega), if_pos h]
  have hunknown : Comparison.unknown ∉ (v ++ w).map (fun e =>
      Tracker.compareComponent (v.lookup e.1) (w.lookup e.1)) := by
    rw [hv.mem_results hw]
    rintro ⟨x, -, h⟩
    split_ifs at h
  simp only [Tracker.compareVectors, hunknown, hlt, hgt, if_false]

open Classical in
/-- The four outcomes, where the vectors of different places differ. -/
theorem outcome_iff {E L G : Prop} (hsame : E → ¬L ∧ ¬G) (hdiff : ¬E → L ∨ G) {o : CausalOrder}
    (ho : o = if L ∧ G then .concurrent else if L then .bDominates else if G then .aDominates
      else .equal) :
    (o = .equal ↔ E) ∧ (o = .bDominates ↔ ¬E ∧ ¬G) ∧ (o = .aDominates ↔ ¬E ∧ ¬L) ∧
      o ≠ .indeterminate := by
  subst ho
  by_cases hL : L <;> by_cases hG : G <;> by_cases hE : E <;> simp_all

end Compare

/-- A marker stands in front of the place. -/
def Marked (s : Clones (Body δ γ)) (p : Text) (k : ℤ) : Prop := ∃ j v, Mark s p j v ∧ j < k

/-- The vectors of two events, which are no markers, are compared as the events happened. -/
theorem Consistent.compareVectors [DecidableEq δ] {site : Site δ} {s : Clones (Body δ γ)}
    (h : Consistent site s) (c : Text) {a b : Record (Body δ γ)} {i j : ℤ}
    (ha : .record a ∈ (s c a.machine).live) (hb : .record b ∈ (s c b.machine).live)
    (hi : a.sequence = some i) (hj : b.sequence = some j)
    (hamark : ∀ os, a.body ≠ .observedSetFold os) (hbmark : ∀ os, b.body ≠ .observedSetFold os) :
    ∃ v w, resolveObservedSetUnionForEvent site.digest (s c) a.machine i = .ok v ∧
      resolveObservedSetUnionForEvent site.digest (s c) b.machine j = .ok w ∧
      (¬(Marked s a.machine i ∧ Marked s b.machine j) → compareVectors v w = .indeterminate) ∧
      (Marked s a.machine i → Marked s b.machine j →
        (compareVectors v w = .equal ↔ (a.machine, i) = (b.machine, j)) ∧
        (compareVectors v w = .bDominates ↔
          VectorClock.HappensBefore (Mark s) (a.machine, i) (b.machine, j)) ∧
        (compareVectors v w = .aDominates ↔
          VectorClock.HappensBefore (Mark s) (b.machine, j) (a.machine, i)) ∧
        compareVectors v w ≠ .indeterminate) := by
  obtain ⟨hipos, hile, -⟩ := (h.whole_copy c _).getElem_of_mem ha hi
  obtain ⟨hjpos, hjle, -⟩ := (h.whole_copy c _).getElem_of_mem hb hj
  obtain ⟨v, hv, hvnone, hvclock⟩ := h.resolveUnion hipos hile
  obtain ⟨w, hw, hwnone, hwclock⟩ := h.resolveUnion hjpos hjle
  have hsome : ∀ {v : Option (Vector δ)} {p : Text} {k : ℤ},
      (v = none ↔ ∀ j m, Mark s p j m → ¬j < k) → (Marked s p k ↔ v ≠ none) := by
    intro v p k hvnone
    rw [Ne, hvnone, Marked]
    push Not
    rfl
  rw [hsome hvnone, hsome hwnone]
  refine ⟨v, w, hv, hw, fun hno => ?_, fun hvne hwne => ?_⟩
  · cases v with
    | none => rfl
    | some v =>
      cases w with
      | none => rfl
      | some w => exact absurd ⟨by simp, by simp⟩ hno
  obtain ⟨v, rfl⟩ := Option.ne_none_iff_exists'.mp hvne
  obtain ⟨w, rfl⟩ := Option.ne_none_iff_exists'.mp hwne
  obtain ⟨clock, hvexact, hvclock⟩ := hvclock v rfl
  obtain ⟨clock', hwexact, hwclock⟩ := hwclock w rfl
  have hnonneg : ∀ p k m x, Mark s p k m → x ≠ p → 0 ≤ m x := by
    rintro p k m x ⟨r, os, hr, -, hbody, rfl⟩ -
    by_cases hx : os.count x = 0
    · omega
    · obtain ⟨e, he, rfl, hcount⟩ := ObservedSet.exists_of_count_ne hx
      obtain ⟨-, n, -, -, heq⟩ := h.backed hr hbody e he
      rw [hcount, heq]
      exact Int.natCast_nonneg n
  -- there is one record at a place, so there is no marker
  have hunmarked : ∀ {r : Record (Body δ γ)} {k : ℤ}, .record r ∈ (s c r.machine).live →
      r.sequence = some k → (∀ os, r.body ≠ .observedSetFold os) →
      ∀ m, ¬Mark s r.machine k m := by
    rintro r k hr hk hno m ⟨r', os, hr', hk', hbody, -⟩
    have hget := ((h.whole _).getElem_of_mem ((h.copy c _).subset hr) hk).2.2
    rw [((h.whole _).getElem_of_mem hr' hk').2.2, Option.some.injEq] at hget
    cases hget
    exact hno os hbody
  have hab := h.closed.happensBefore_iff_le hnonneg hvclock hwclock hipos hjpos
    (hunmarked hb hj hbmark)
  have hba := h.closed.happensBefore_iff_le hnonneg hwclock hvclock hjpos hipos
    (hunmarked ha hi hamark)
  have hle : (∀ x, clock x ≤ clock' x) ↔ ¬∃ x, clock' x < clock x := by push Not; rfl
  have hge : (∀ x, clock' x ≤ clock x) ↔ ¬∃ x, clock x < clock' x := by push Not; rfl
  rw [hle] at hab
  rw [hge] at hba
  have hsame : (a.machine, i) = (b.machine, j) →
      (¬∃ x, clock x < clock' x) ∧ ¬∃ x, clock' x < clock x := by
    intro heq
    have hvw : v = w := by
      rw [Prod.mk.injEq] at heq
      rw [heq.1, heq.2, hw] at hv
      cases hv
      rfl
    have hclock := (hvw ▸ hvexact).unique hwexact
    simp [hclock]
  -- different places have different clocks, as none is in front of itself
  have hdiff : (a.machine, i) ≠ (b.machine, j) →
      (∃ x, clock x < clock' x) ∨ ∃ x, clock' x < clock x := by
    intro hne
    by_contra hno
    push Not at hno
    refine h.closed.irrefl (a.machine, i) ((hab.mpr ⟨hne, ?_⟩).trans (hba.mpr ⟨hne.symm, ?_⟩))
    · push Not
      exact hno.2
    · push Not
      exact hno.1
  rw [hab, hba, ne_comm (a := (b.machine, j))]
  exact outcome_iff hsame hdiff (hvexact.compareVectors hwexact)

/-- In every state that machines reach by writing, folding and merging, and in any clone, the
vectors of two events are compared as the events happened, unless no marker stands in front of one
of them. -/
theorem compareVectors_iff_happensBefore [DecidableEq δ] [DecidableEq γ] {site : Site δ}
    {s : Clones (Body δ γ)} {moves : List (Move γ)}
    (hrun : run site.step (fun _ _ => Shards.empty) moves = some s) (c : Text)
    {a b : Record (Body δ γ)} {i j : ℤ} (ha : .record a ∈ (s c a.machine).live)
    (hb : .record b ∈ (s c b.machine).live) (hi : a.sequence = some i) (hj : b.sequence = some j)
    (hamark : ∀ os, a.body ≠ .observedSetFold os) (hbmark : ∀ os, b.body ≠ .observedSetFold os) :
    ∃ v w, resolveObservedSetUnionForEvent site.digest (s c) a.machine i = .ok v ∧
      resolveObservedSetUnionForEvent site.digest (s c) b.machine j = .ok w ∧
      (¬(Marked s a.machine i ∧ Marked s b.machine j) → compareVectors v w = .indeterminate) ∧
      (Marked s a.machine i → Marked s b.machine j →
        (compareVectors v w = .equal ↔ (a.machine, i) = (b.machine, j)) ∧
        (compareVectors v w = .bDominates ↔
          VectorClock.HappensBefore (Mark s) (a.machine, i) (b.machine, j)) ∧
        (compareVectors v w = .aDominates ↔
          VectorClock.HappensBefore (Mark s) (b.machine, j) (a.machine, i)) ∧
        compareVectors v w ≠ .indeterminate) :=
  (consistent_of_run hrun).compareVectors c ha hb hi hj hamark hbmark

/-- `compare_events_causal_order` puts an event in front of those that it happened before, whatever
the names of the machines are; only where neither is known to have happened first do the machines
and the ids decide. -/
theorem compareEventsCausalOrder_extends [DecidableEq δ] [DecidableEq γ] {site : Site δ}
    {s : Clones (Body δ γ)} {moves : List (Move γ)}
    (hrun : run site.step (fun _ _ => Shards.empty) moves = some s) (c : Text)
    {a b : Record (Body δ γ)} {i j : ℤ} (ha : .record a ∈ (s c a.machine).live)
    (hb : .record b ∈ (s c b.machine).live) (hi : a.sequence = some i) (hj : b.sequence = some j)
    (hamark : ∀ os, a.body ≠ .observedSetFold os) (hbmark : ∀ os, b.body ≠ .observedSetFold os) :
    ∃ o, compareEventsCausalOrder site.digest (s c) (a.machine, i, a.id) (b.machine, j, b.id) =
        .ok o ∧
      (Marked s a.machine i → Marked s b.machine j →
        (VectorClock.HappensBefore (Mark s) (a.machine, i) (b.machine, j) → o = -1) ∧
        (VectorClock.HappensBefore (Mark s) (b.machine, j) (a.machine, i) → o = 1)) ∧
      (¬(Marked s a.machine i ∧ Marked s b.machine j ∧
          (VectorClock.HappensBefore (Mark s) (a.machine, i) (b.machine, j) ∨
            VectorClock.HappensBefore (Mark s) (b.machine, j) (a.machine, i))) →
        o = tiebreak (a.machine, a.id) (b.machine, b.id)) := by
  obtain ⟨v, w, hv, hw, hno, hboth⟩ :=
    (consistent_of_run hrun).compareVectors c ha hb hi hj hamark hbmark
  refine ⟨(compareVectors v w).sign (tiebreak (a.machine, a.id) (b.machine, b.id)), ?_,
    fun hma hmb => ?_, fun hundecided => ?_⟩
  · simp only [compareEventsCausalOrder, hv, hw, bind, Except.bind]
    rfl
  · obtain ⟨-, hlt, hgt, -⟩ := hboth hma hmb
    refine ⟨fun h => ?_, fun h => ?_⟩
    · rw [hlt.mpr h]
      rfl
    · rw [hgt.mpr h]
      rfl
  · by_cases hmarked : Marked s a.machine i ∧ Marked s b.machine j
    · obtain ⟨-, hlt, hgt, -⟩ := hboth hmarked.1 hmarked.2
      have hne : compareVectors v w ≠ .bDominates ∧ compareVectors v w ≠ .aDominates :=
        ⟨fun h => hundecided ⟨hmarked.1, hmarked.2, .inl (hlt.mp h)⟩,
          fun h => hundecided ⟨hmarked.1, hmarked.2, .inr (hgt.mp h)⟩⟩
      cases ho : compareVectors v w with
      | aDominates => exact absurd ho hne.2
      | bDominates => exact absurd ho hne.1
      | _ => rfl
    · rw [hno hmarked]
      rfl

/-! ### A small store -/

def reached (site : Site (List Text)) (moves : List (Move Unit)) : Clones (Body (List Text) Unit) :=
  (run site.step (fun _ _ => Shards.empty) moves).getD fun _ _ => Shards.empty

def smallEvent {γ : Type} (id : Char) (body : γ) : Event γ := ⟨[id], ['t'], none, none, body⟩

/-- Machine `a` folds and appends; machine `b` merges that, folds and appends. -/
def foldedRun : List (Move Unit) :=
  [.fold ['a'] 1 ['t'], .append ['a'] (smallEvent 'x' ()) none 1, .merge ['b'] ['a'],
    .fold ['b'] 1 ['t'], .append ['b'] (smallEvent 'y' ()) none 1]

/-- The marker that a line holds, with its place. -/
def markerOf : Line (Body δ γ) → Option (ℤ × ObservedSet δ)
  | .record r =>
    match r.body with
    | .observedSetFold os => r.sequence.map fun k => (k, os)
    | .other _ => none
  | _ => none

/-- The marker of a line marks its place. -/
theorem mark_of_markerOf {s : Clones (Body δ γ)} {p : Text} {k : ℤ} {os : ObservedSet δ}
    (h : some (k, os) ∈ (s p p).live.map markerOf) : Mark s p k os.count := by
  obtain ⟨l, hl, hmarker⟩ := List.mem_map.mp h
  cases l with
  | unreadable => cases hmarker
  | notObject => cases hmarker
  | record r =>
    rw [markerOf] at hmarker
    cases hbody : r.body with
    | other body =>
      rw [hbody] at hmarker
      cases hmarker
    | observedSetFold os' =>
      rw [hbody] at hmarker
      obtain ⟨k', hk', heq⟩ := Option.map_eq_some_iff.mp hmarker
      cases heq
      exact ⟨r, os, hl, hk', hbody, rfl⟩

/-- Both events stand behind a marker, and the marker of `b` has read the event of `a`. -/
theorem happensBefore_foldedRun :
    let s := reached (smallSite [['a'], ['b']]) foldedRun
    Marked s ['a'] 2 ∧ Marked s ['b'] 2 ∧
      VectorClock.HappensBefore (Mark s) (['a'], 2) (['b'], 2) := by
  intro s
  have ha : Mark s ['a'] 1 (ObservedSet.count []) := mark_of_markerOf (by decide)
  have hb : Mark s ['b'] 1 (ObservedSet.count [(['a'], ⟨2, ["a-fold-".toList, ['x']]⟩)]) :=
    mark_of_markerOf (by decide)
  refine ⟨⟨1, _, ha, by decide⟩, ⟨1, _, hb, by decide⟩, ?_⟩
  exact VectorClock.happensBefore_of_seen (.inr ⟨by decide, 1, _, by decide, hb, by decide⟩)

theorem compareVectors_iff_happensBefore_folded :
    let site := smallSite [['a'], ['b']]
    let s := reached site foldedRun
    ∃ v w, resolveObservedSetUnionForEvent site.digest (s ['b']) ['a'] 2 = .ok v ∧
      resolveObservedSetUnionForEvent site.digest (s ['b']) ['b'] 2 = .ok w ∧
      compareVectors v w = .bDominates := by
  intro site s
  obtain ⟨v, w, hv, hw, -, h⟩ := @compareVectors_iff_happensBefore (List Text) Unit _ _ site s
    foldedRun rfl ['b'] (stamp ⟨['a'], isDigit⟩ (smallEvent 'x' (.other ())) 2 1 1)
    (stamp ⟨['b'], isDigit⟩ (smallEvent 'y' (.other ())) 2 1 1) 2 2 (by decide) (by decide) rfl rfl
    (fun _ h => by cases h) fun _ h => by cases h
  obtain ⟨hmarka, hmarkb, hbefore⟩ := happensBefore_foldedRun
  exact ⟨v, w, hv, hw, (h hmarka hmarkb).2.1.mpr hbefore⟩

theorem compareEventsCausalOrder_extends_folded :
    let site := smallSite [['a'], ['b']]
    compareEventsCausalOrder site.digest (reached site foldedRun ['b']) (['a'], 2, ['x'])
      (['b'], 2, ['y']) = .ok (-1) := by
  intro site
  obtain ⟨o, ho, h, -⟩ := @compareEventsCausalOrder_extends (List Text) Unit _ _ site
    (reached site foldedRun) foldedRun rfl ['b']
    (stamp ⟨['a'], isDigit⟩ (smallEvent 'x' (.other ())) 2 1 1)
    (stamp ⟨['b'], isDigit⟩ (smallEvent 'y' (.other ())) 2 1 1) 2 2 (by decide) (by decide) rfl rfl
    (fun _ h => by cases h) fun _ h => by cases h
  obtain ⟨hmarka, hmarkb, hbefore⟩ := happensBefore_foldedRun
  exact ho.trans (congrArg Except.ok ((h hmarka hmarkb).1 hbefore))

/-- Machine `z` folds and appends, and machine `a` reads that and appends; machine `m` folds and
appends without having read anything. -/
def threeRun : List (Move Unit) :=
  [.fold ['z'] 1 ['t'], .append ['z'] (smallEvent 'x' ()) none 1, .merge ['a'] ['z'],
    .fold ['a'] 1 ['t'], .append ['a'] (smallEvent 'y' ()) none 1, .fold ['m'] 1 ['t'],
    .append ['m'] (smallEvent 'w' ()) none 1, .merge ['m'] ['a']]

/-- The order is no total order: the names of the machines close a cycle. -/
example :
    let site := smallSite [['a'], ['m'], ['z']]
    let compare := compareEventsCausalOrder site.digest (reached site threeRun ['m'])
    compare (['z'], 2, ['x']) (['a'], 2, ['y']) = .ok (-1) ∧
      compare (['a'], 2, ['y']) (['m'], 2, ['w']) = .ok (-1) ∧
        compare (['m'], 2, ['w']) (['z'], 2, ['x']) = .ok (-1) := by decide

end Tracker

end CoordinatorCore
