import CoordinatorCore.Tracker.ObservedSet

/-!
# A claim is bound to what was seen

A claim about a peer is answered exactly as long as the records that were there when it was made
still are the first ones of the shard and no later record has a sequence among theirs
(`resolveComponent_eq_claim_iff`). Nothing is said about who changes the files of a peer or how: the
lines that the claim is held against are any lines.
-/

namespace CoordinatorCore

namespace Tracker

variable {β δ : Type}

/-! ### The records with a sequence -/

/-- What a line gives to a digest: its sequence and its id. -/
def Line.place : Line β → Option (ℤ × Text)
  | .record r => r.sequence.map fun q => (q, r.id)
  | _ => none

/-- The sequences and ids of a shard, in the order of the file. -/
def sequenced (ls : List (Line β)) : List (ℤ × Text) := ls.filterMap Line.place

theorem sequenced_cons (l : Line β) (ls : List (Line β)) :
    sequenced (l :: ls) = l.place.toList ++ sequenced ls := by
  rw [sequenced, List.filterMap_cons]
  cases l.place <;> rfl

/-- Every line is a record, and those with a sequence have an id. -/
def Readable (ls : List (Line β)) : Prop :=
  ∀ l ∈ ls, ∃ r, l = .record r ∧ (r.sequence ≠ none → r.id ≠ [])

/-- The sequences 1, 2, 3, … -/
def Numbered (ps : List (ℤ × Text)) : Prop :=
  ps.map Prod.fst = (List.range ps.length).map fun n : ℕ => (1 + n : ℤ)

/-- The fold over a readable shard collects its ids and its last number. -/
theorem foldLines_eq {ls : List (Line β)} (h : Readable ls) (ids : List Text) (current : ℤ) :
    foldLines ls ids current = .ok (ids ++ (sequenced ls).map Prod.snd,
      ((sequenced ls).getLast?.map Prod.fst).getD current) := by
  induction ls generalizing ids current with
  | nil => simp [foldLines, sequenced]
  | cons l ls ih =>
    obtain ⟨r, rfl, hid⟩ := h l List.mem_cons_self
    have ih := ih fun l hl => h l (List.mem_cons_of_mem _ hl)
    rw [foldLines, sequenced_cons, Line.place]
    cases hq : r.sequence with
    | none => exact ih ids current
    | some q =>
      dsimp only
      rw [if_neg (hid (by simp [hq])), ih]
      cases hl : (sequenced ls).getLast? <;> simp [List.getLast?_cons, hl]

/-- The scan of a readable shard collects its numbers and the ids up to a bound. -/
theorem collect_eq {ls : List (Line β)} (h : Readable ls) (bound : ℤ) :
    collect bound ls = .ok ((sequenced ls).map Prod.fst,
      ((sequenced ls).filter fun p => p.1 ≤ bound).map Prod.snd) := by
  induction ls with
  | nil => rfl
  | cons l ls ih =>
    obtain ⟨r, rfl, hid⟩ := h l List.mem_cons_self
    have ih := ih fun l hl => h l (List.mem_cons_of_mem _ hl)
    rw [collect, sequenced_cons, Line.place]
    cases hq : r.sequence with
    | none => exact ih
    | some q =>
      dsimp only
      split_ifs with hle hnil
      · exact absurd hnil (hid (by simp [hq]))
      · simp [ih, hle, Except.map]
      · simp [ih, hle, Except.map]

/-- The largest number of a readable shard is on its last numbered line. -/
theorem currentMax_eq {ls : List (Line β)} (h : Readable ls) :
    ∃ q, currentMax ls = .ok q ∧ (1 ≤ q → (sequenced ls).getLast?.map Prod.fst = some q) := by
  unfold currentMax
  cases hl : ls.getLast? with
  | none => exact ⟨0, rfl, fun h => by omega⟩
  | some l =>
    obtain ⟨init, rfl⟩ := List.getLast?_eq_some_iff.mp hl
    obtain ⟨r, rfl, -⟩ := h l (by simp)
    refine ⟨r.sequence.getD 0, rfl, fun hone => ?_⟩
    cases hq : r.sequence with
    | none => simp [hq] at hone
    | some q => simp [sequenced, Line.place, hq, List.filterMap_append]

/-! ### Well-formed sequences -/

/-- Numbers without a gap count up. -/
theorem wellFormedness_eq_none {position : ℤ} {vs : List ℤ}
    (h : wellFormedness position vs = none) :
    vs = (List.range vs.length).map fun n : ℕ => position + n := by
  induction vs generalizing position with
  | nil => rfl
  | cons v vs ih =>
    rw [wellFormedness] at h
    split_ifs at h with hv
    rw [List.length_cons, List.range_succ_eq_map, List.map_cons, List.map_map,
      not_not.mp hv]
    refine congrArg₂ List.cons (by simp) ((ih h).trans (List.map_congr_left fun n _ => ?_))
    simp only [Function.comp_apply]
    omega

/-- Up to the first defect the sequences are right. -/
theorem wellFormedness_eq_some {position p u : ℤ} {vs : List ℤ}
    (h : wellFormedness position vs = some (p, u)) :
    ∃ k, ∃ hk : k < vs.length, p = position + k ∧ vs[k] ≠ p ∧ u = min p vs[k] ∧
      vs.take k = (List.range k).map fun n : ℕ => position + n := by
  induction vs generalizing position with
  | nil => cases h
  | cons v vs ih =>
    rw [wellFormedness] at h
    split_ifs at h with hv
    · cases h
      exact ⟨0, by simp, by simp, hv, by simp, rfl⟩
    · obtain ⟨k, hk, hp, hne, hu, htake⟩ := ih h
      refine ⟨k + 1, by simpa using hk, by omega, by simpa using hne, by simpa using hu, ?_⟩
      rw [List.take_succ_cons, List.range_succ_eq_map, List.map_cons, List.map_map, htake,
        not_not.mp hv]
      refine congrArg₂ List.cons (by simp) (List.map_congr_left fun n _ => ?_)
      simp only [Function.comp_apply]
      omega

/-- The number at a place. -/
theorem Numbered.fst_getElem {ps : List (ℤ × Text)} (h : Numbered ps) {k : ℕ}
    (hk : k < ps.length) : ps[k].1 = 1 + k := by
  have := congrArg (fun l => l[k]?) h
  simpa [hk] using this

/-- Behind a numbered beginning, and with only later sequences there, nothing of the beginning is
unknown. -/
theorem lt_of_wellFormedness {ps : List (ℤ × Text)} {n : ℕ} (hnum : Numbered (ps.take n))
    (hlater : ∀ p ∈ ps.drop n, (n : ℤ) < p.1) :
    ∀ w ∈ wellFormedness 1 (ps.map Prod.fst), (n : ℤ) < w.2 := by
  rintro ⟨p, u⟩ hw
  obtain ⟨k, hk, rfl, hne, rfl, -⟩ := wellFormedness_eq_some hw
  rw [List.length_map] at hk
  rw [List.getElem_map] at hne ⊢
  by_cases hkn : k < n
  · -- in the beginning no sequence is wrong
    have hlen : k < (ps.take n).length := by simpa using ⟨hkn, hk⟩
    have := hnum.fst_getElem hlen
    rw [List.getElem_take] at this
    exact absurd this hne
  · have hmem : ps[k] ∈ ps.drop n := by
      rw [List.mem_iff_getElem]
      exact ⟨k - n, by simp; omega, by simp [Nat.add_sub_cancel' (not_lt.mp hkn)]⟩
    exact lt_min (by omega) (hlater _ hmem)

/-- When nothing up to `n` is unknown and the last sequence is `n` or more, the shard begins with
the sequences 1 to `n`. -/
theorem numbered_take {ps : List (ℤ × Text)} {n : ℕ} {q : ℤ} (hq : (n : ℤ) ≤ q)
    (hlast : 1 ≤ q → ps.getLast?.map Prod.fst = some q)
    (hw : ∀ w ∈ wellFormedness 1 (ps.map Prod.fst), (n : ℤ) < w.2) :
    n ≤ ps.length ∧ Numbered (ps.take n) := by
  have key : ∀ m, n ≤ m → m ≤ ps.length →
      (ps.map Prod.fst).take m = (List.range m).map (fun i : ℕ => (1 + i : ℤ)) →
      n ≤ ps.length ∧ Numbered (ps.take n) := by
    intro m hnm hmp htake
    refine ⟨hnm.trans hmp, ?_⟩
    have := congrArg (List.take n) htake
    rw [List.take_take, min_eq_left hnm, ← List.map_take, ← List.map_take, List.take_range,
      min_eq_left hnm] at this
    rw [Numbered, List.length_take, min_eq_left (hnm.trans hmp)]
    exact this
  cases hwf : wellFormedness 1 (ps.map Prod.fst) with
  | none =>
    have hall := wellFormedness_eq_none hwf
    rw [List.length_map] at hall
    refine key ps.length ?_ le_rfl (by rw [List.take_of_length_le (by simp)]; exact hall)
    rcases Nat.eq_zero_or_pos n with rfl | hpos
    · exact Nat.zero_le _
    -- the last sequence is the number of records
    have hsome := hlast (by omega)
    rw [← List.getLast?_map, hall, List.getLast?_map] at hsome
    obtain ⟨k, hk, rfl⟩ := Option.map_eq_some_iff.mp hsome
    have := List.mem_range.mp (List.mem_of_getLast? hk)
    omega
  | some w =>
    obtain ⟨k, hk, hp, hne, hu, htake⟩ := wellFormedness_eq_some (p := w.1) (u := w.2) hwf
    have hlt := hw w hwf
    rw [List.length_map] at hk
    exact key k (by omega) hk.le htake

/-! ### What an answer says -/

theorem eq_of_fst_eq_of_snd_eq {α γ : Type} {ps qs : List (α × γ)}
    (hfst : ps.map Prod.fst = qs.map Prod.fst) (hsnd : ps.map Prod.snd = qs.map Prod.snd) :
    ps = qs := by
  rw [← List.zip_unzip ps, ← List.zip_unzip qs, List.unzip_fst, List.unzip_fst, List.unzip_snd,
    List.unzip_snd, hfst, hsnd]

theorem Numbered.filter_le {ps : List (ℤ × Text)} (h : Numbered ps) :
    (ps.filter fun p => p.1 ≤ (ps.length : ℤ)) = ps := by
  refine List.filter_eq_self.mpr fun p hp => ?_
  obtain ⟨k, hk, rfl⟩ := List.mem_iff_getElem.mp hp
  rw [h.fst_getElem hk, decide_eq_true_eq]
  omega

/-- The records up to `n` of a shard that begins with the sequences 1 to `n`. -/
theorem filter_le_eq {ps : List (ℤ × Text)} {n : ℕ} (hlen : n ≤ ps.length)
    (hnum : Numbered (ps.take n)) :
    (ps.filter fun p => p.1 ≤ (n : ℤ)) =
      ps.take n ++ (ps.drop n).filter fun p => p.1 ≤ (n : ℤ) := by
  have htake := hnum.filter_le
  rw [List.length_take, min_eq_left hlen] at htake
  conv_lhs => rw [← List.take_append_drop n ps, List.filter_append, htake]

/-- Numbered places are told by their ids. -/
theorem Numbered.eq_of_snd_eq {ps qs : List (ℤ × Text)} (hp : Numbered ps) (hq : Numbered qs)
    (h : ps.map Prod.snd = qs.map Prod.snd) : ps = qs := by
  have hlen : ps.length = qs.length := by simpa using congrArg List.length h
  refine eq_of_fst_eq_of_snd_eq ?_ h
  rw [hp, hq, hlen]

/-- Once the last sequence is read, a claim is answered from the sequences and the ids. -/
theorem resolveComponent_eq [DecidableEq δ] {digest : List Text → δ} {ls : List (Line β)}
    (hread : Readable ls) {q : ℤ} (hq : currentMax ls = .ok q) (claim : Claim δ) :
    resolveComponent digest ls claim = .ok (some claim) ↔
      claim.sequence ≤ q ∧
        (∀ w ∈ wellFormedness 1 ((sequenced ls).map Prod.fst), claim.sequence < w.2) ∧
          digest (((sequenced ls).filter fun p => p.1 ≤ claim.sequence).map Prod.snd) =
            claim.prefixDigest := by
  simp only [resolveComponent, hq, bind, Except.bind, pure, Except.pure,
    collect_eq hread claim.sequence]
  split_ifs with hlt
  · simp [hlt]
  · simp only [Except.ok.injEq, answer, not_lt.mp hlt, true_and, ← not_le]
    split_ifs with hany hdigest
    · obtain ⟨w, hw, hle⟩ := (Option.any_eq_true _ _).mp hany
      exact iff_of_false (by simp) fun h => h.1 w hw (of_decide_eq_true hle)
    · refine iff_of_true rfl ⟨fun w hw hle => hany ?_, hdigest⟩
      exact (Option.any_eq_true _ _).mpr ⟨w, hw, decide_eq_true hle⟩
    · exact iff_of_false (by simp) fun h => hdigest h.2

/-- What was seen and is still there is answered. -/
theorem resolveComponent_of_take [DecidableEq δ] {digest : List Text → δ} {ls : List (Line β)}
    (hread : Readable ls) {seen : List (ℤ × Text)} (hseen : Numbered seen)
    (htake : (sequenced ls).take seen.length = seen)
    (hlater : ∀ p ∈ (sequenced ls).drop seen.length, (seen.length : ℤ) < p.1) {q : ℤ}
    (hq : currentMax ls = .ok q) (hle : (seen.length : ℤ) ≤ q) :
    resolveComponent digest ls ⟨seen.length, digest (seen.map Prod.snd)⟩ =
      .ok (some ⟨seen.length, digest (seen.map Prod.snd)⟩) := by
  have hlen : seen.length ≤ (sequenced ls).length := by
    have := congrArg List.length htake
    rw [List.length_take] at this
    omega
  have hnum : Numbered ((sequenced ls).take seen.length) := htake.symm ▸ hseen
  refine (resolveComponent_eq hread hq _).mpr ⟨hle, lt_of_wellFormedness hnum hlater, ?_⟩
  rw [filter_le_eq hlen hnum, htake, List.filter_eq_nil_iff.mpr fun p hp => ?_, List.append_nil]
  simpa using hlater p hp

/-- A claim that was made when the records `seen` were there is answered exactly as long as the
shard begins with these records, has no later one with a sequence among theirs, and ends with a
sequence that is no smaller. -/
theorem resolveComponent_eq_claim_iff [DecidableEq δ] {digest : List Text → δ}
    (hinj : Function.Injective digest) {ls : List (Line β)} (hread : Readable ls)
    {seen : List (ℤ × Text)} (hseen : Numbered seen) :
    resolveComponent digest ls ⟨seen.length, digest (seen.map Prod.snd)⟩ =
        .ok (some ⟨seen.length, digest (seen.map Prod.snd)⟩) ↔
      (sequenced ls).take seen.length = seen ∧
        (∀ p ∈ (sequenced ls).drop seen.length, (seen.length : ℤ) < p.1) ∧
          ∃ q, currentMax ls = .ok q ∧ (seen.length : ℤ) ≤ q := by
  constructor
  · intro h
    obtain ⟨q, hq, hlast⟩ := currentMax_eq hread
    obtain ⟨hle, hw, hdigest⟩ := (resolveComponent_eq hread hq _).mp h
    obtain ⟨hlen, hnum⟩ := numbered_take hle hlast hw
    have hids := hinj hdigest
    rw [filter_le_eq hlen hnum, List.map_append] at hids
    -- the ids of the beginning are as many as those that were seen
    have hnil : (((sequenced ls).drop seen.length).filter
        fun p => p.1 ≤ (seen.length : ℤ)) = [] := by
      have := congrArg List.length hids
      simp only [List.length_append, List.length_map, List.length_take, min_eq_left hlen] at this
      exact List.length_eq_zero_iff.mp (by omega)
    rw [hnil, List.map_nil, List.append_nil] at hids
    refine ⟨hnum.eq_of_snd_eq hseen hids, fun p hp => ?_, q, hq, hle⟩
    simpa using List.filter_eq_nil_iff.mp hnil p hp
  · rintro ⟨htake, hlater, q, hq, hle⟩
    exact resolveComponent_of_take hread hseen htake hlater hq hle

/-- Two records were seen, and a third one is there by now. -/
theorem resolveComponent_eq_claim_iff_appended :
    let line (id : Char) (q : ℤ) : Line Unit :=
      .record ⟨⟨[id], "2026-01".toList, none, none, ()⟩, ['m'], some q, 0, 0⟩
    resolveComponent id [line 'a' 1, line 'b' 2, line 'c' 3] ⟨2, [['a'], ['b']]⟩ =
      .ok (some ⟨2, [['a'], ['b']]⟩) := by
  intro line
  have hread : Readable [line 'a' 1, line 'b' 2, line 'c' 3] := by
    intro l hl
    simp only [List.mem_cons, List.not_mem_nil, or_false] at hl
    rcases hl with rfl | rfl | rfl <;> exact ⟨_, rfl, fun _ => by simp⟩
  refine (@resolveComponent_eq_claim_iff Unit (List Text) _ id Function.injective_id _ hread
    [(1, ['a']), (2, ['b'])] rfl).mpr ⟨rfl, ?_, 3, rfl, by decide⟩
  decide

end Tracker

end CoordinatorCore
