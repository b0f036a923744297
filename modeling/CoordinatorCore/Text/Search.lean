import CoordinatorCore.Text.Basic

/-!
# Occurrences and blanked spans

Two facts about searching in a concatenation, and what follows for blanking spans.

An occurrence of `p` in `a ++ b` lies in `a`, lies in `b`, or straddles the seam. When none
straddles (`NoStraddle`), the first occurrence in `a ++ b` is the first one in `a`, or else the
first one in `b`.

`blankSpans o c` overwrites every span from an opener `o` to the next closer `c` with spaces, as
a length-preserving substitution of the pattern `o.*?c` does. Its behaviour on a concatenation,
`blankSpans_append` and `blankSpans_append_of_unclosed`, is decided by one question at the seam:
whether `a` leaves an opener unclosed that `b` closes.
-/

namespace CoordinatorCore

namespace Text

/-! ### Occurrences in a concatenation -/

/-- No occurrence of `p` in `a ++ b` straddles the seam. -/
def NoStraddle (p a b : Text) : Prop :=
  ∀ v w, v ≠ [] → w ≠ [] → p = v ++ w → v <:+ a → ¬ w <+: b

/-- A pattern that straddles no cut straddles none further on. -/
theorem NoStraddle.of_cons {p a b : Text} {c : Char} (h : NoStraddle p (c :: a) b) :
    NoStraddle p a b :=
  fun v w hv hw hp hsuff => h v w hv hw hp (hsuff.trans (List.suffix_cons c a))

/-- A pattern that straddles no cut straddles none behind a front that is dropped. -/
theorem NoStraddle.of_append {p x a b : Text} (h : NoStraddle p (x ++ a) b) : NoStraddle p a b :=
  fun v w hv hw hp hsuff => h v w hv hw hp (hsuff.trans (List.suffix_append x a))

/-- A left side that is empty or ends in a character the front of `p` does not hold is a seam
without straddling. -/
theorem noStraddle_left {p a b : Text} {d : Char} (hp : d ∉ p.dropLast)
    (ha : ∀ h : a ≠ [], a.getLast h = d) : NoStraddle p a b := by
  rintro v w hv hw rfl hsuff -
  have hane : a ≠ [] := fun e => hv (List.suffix_nil.mp (e ▸ hsuff))
  have hlast : v.getLast hv = d := by
    obtain ⟨x, rfl⟩ := hsuff
    rw [← ha hane, List.getLast_append_of_ne_nil _ hv]
  refine hp ?_
  rw [List.dropLast_append_of_ne_nil hw, ← hlast]
  exact List.mem_append_left _ (List.getLast_mem hv)

/-- A right side that starts with a character the rear of `p` does not hold is a seam without
straddling. -/
theorem noStraddle_right {p a b : Text} {d : Char} (hp : d ∉ p.tail) (hb : b.head? = some d) :
    NoStraddle p a b := by
  rintro v w hv hw rfl - hpre
  obtain ⟨c, v, rfl⟩ := List.exists_cons_of_ne_nil hv
  obtain ⟨e, w, rfl⟩ := List.exists_cons_of_ne_nil hw
  obtain ⟨t, rfl⟩ := hpre
  obtain rfl : e = d := by simpa using hb
  exact hp (by simp)

/-- At a position in front of the seam, the prefix is found in `a` or not at all. -/
theorem stripPrefix?_append_of_noStraddle {p a b : Text} (h : NoStraddle p a b) (ha : a ≠ []) :
    stripPrefix? p (a ++ b) = (stripPrefix? p a).map (· ++ b) := by
  rcases hr : stripPrefix? p a with _ | r
  · rw [Option.map_none, Option.eq_none_iff_forall_not_mem]
    intro r hr'
    rcases List.append_eq_append_iff.mp (stripPrefix?_eq_some.mp hr') with
      ⟨x, hx, hb⟩ | ⟨x, hx, hb⟩
    · rcases eq_or_ne x [] with rfl | hxne
      · have hap : a = p ++ [] := by rw [hx, List.append_nil, List.append_nil]
        simp [stripPrefix?_eq_some.mpr hap] at hr
      · exact h a x ha hxne hx (List.suffix_refl a) ⟨r, hb.symm⟩
    · rw [stripPrefix?_eq_some.mpr hx] at hr
      cases hr
  · rw [stripPrefix?_eq_some.mp hr, List.append_assoc, stripPrefix?_append]
    rfl

/-- The first occurrence in `a` is the first one in `a ++ b`. -/
theorem cutAt_append_left {p a b x y : Text} (h : cutAt p a = some (x, y)) :
    cutAt p (a ++ b) = some (x, y ++ b) := by
  induction a generalizing x with
  | nil =>
    have hxy := eq_of_cutAt h
    obtain ⟨rfl, rfl, rfl⟩ : x = [] ∧ p = [] ∧ y = [] := by simpa using hxy.symm
    cases b <;> rfl
  | cons c a ih =>
    rw [cutAt] at h
    rw [List.cons_append, cutAt]
    split at h
    · next r hr =>
      cases h
      have : stripPrefix? p (c :: (a ++ b)) = some (y ++ b) := by
        rw [stripPrefix?_eq_some, ← List.cons_append, stripPrefix?_eq_some.mp hr,
          List.append_assoc]
      rw [this]
    · next hnone =>
      obtain ⟨m, hm, he⟩ := Option.map_eq_some_iff.mp h
      cases he
      have hlong : p.length ≤ (c :: a).length := by
        have := congrArg List.length (eq_of_cutAt hm)
        simp only [List.length_append, List.length_cons] at this ⊢
        omega
      have : stripPrefix? p (c :: (a ++ b)) = none := by
        rw [Option.eq_none_iff_forall_not_mem]
        intro r hr
        have hpre : p <+: c :: a :=
          List.prefix_of_prefix_length_le ⟨r, (stripPrefix?_eq_some.mp hr).symm⟩
            ⟨b, rfl⟩ hlong
        obtain ⟨t, ht⟩ := hpre
        rw [stripPrefix?_eq_some.mpr ht.symm] at hnone
        cases hnone
      rw [this, ih hm]
      rfl

/-- Without an occurrence in `a`, the first one in `a ++ b` is the first one in `b`. -/
theorem cutAt_append_right {p a b : Text} (hs : NoStraddle p a b) (ha : cutAt p a = none) :
    cutAt p (a ++ b) = (cutAt p b).map fun m => (a ++ m.1, m.2) := by
  induction a with
  | nil => cases h : cutAt p b <;> simp [h]
  | cons c a ih =>
    rw [cutAt] at ha
    split at ha
    · cases ha
    · next hnone =>
      have hstrip := stripPrefix?_append_of_noStraddle hs (List.cons_ne_nil c a)
      rw [hnone, Option.map_none, List.cons_append] at hstrip
      rw [List.cons_append, cutAt, hstrip, ih hs.of_cons (Option.map_eq_none_iff.mp ha),
        Option.map_map]
      rfl

/-- Whether an occurrence is the first one does not depend on what follows it. -/
theorem cutAt_append_self {p x : Text} (y : Text) :
    cutAt p (x ++ p ++ y) = some (x, y) ↔ cutAt p (x ++ p) = some (x, []) := by
  constructor
  · intro h
    obtain ⟨m, hm, -⟩ := exists_cutAt_append p x []
    rw [List.append_nil] at hm
    have h' := cutAt_append_left (b := y) hm
    rw [h] at h'
    obtain ⟨rfl, -⟩ := Prod.mk.inj (Option.some.inj h')
    have := eq_of_cutAt hm
    rw [hm, ← List.self_eq_append_right.mp this]
  · intro h
    simpa using cutAt_append_left (b := y) h

/-- Without a straddling match, a match is in one of the halves. -/
theorem contains_append {p a b : Text} (hs : NoStraddle p a b) :
    contains p (a ++ b) = (contains p a || contains p b) := by
  rcases h : cutAt p a with _ | ⟨x, y⟩
  · simp [contains, cutAt_append_right hs h, h]
  · simp [contains, cutAt_append_left h, h]

/-- A text that occurs in a part occurs in the whole. -/
theorem contains_of_infix {p a b : Text} (h : a <:+: b) (ha : contains p a = true) :
    contains p b = true :=
  contains_iff.mpr ((contains_iff.mp ha).trans h)

/-! ### Blanked spans -/

/-- The length of the span that starts at the front of `s`: an opener, up to the next closer. -/
def spanLength (o c s : Text) : Option Nat :=
  (stripPrefix? o s).bind fun r => (cutAt c r).map fun m => o.length + m.1.length + c.length

/-- Overwrite the next `k` characters and every later span with spaces. -/
def blankFrom (o c : Text) : Nat → Text → Text
  | _, [] => []
  | k + 1, _ :: s => ' ' :: blankFrom o c k s
  | 0, d :: s =>
    match spanLength o c (d :: s) with
    | some n => ' ' :: blankFrom o c (n - 1) s
    | none => d :: blankFrom o c 0 s

/-- Overwrite every span `o.*?c` with spaces. -/
def blankSpans (o c s : Text) : Text := blankFrom o c 0 s

/-- An opener is left unclosed: it survives the blanking. -/
def unclosed (o c s : Text) : Bool := contains o (blankSpans o c s)

section Blank

variable {o c : Text}

@[simp] theorem blankSpans_nil : blankSpans o c [] = [] := rfl

private theorem length_blankFrom (k : Nat) (s : Text) : (blankFrom o c k s).length = s.length := by
  fun_induction blankFrom o c k s with
  | case1 => rfl
  | case2 k d s ih => simp [ih]
  | case3 d s n h ih => simp [ih]
  | case4 d s h ih => simp [ih]

/-- Blanking preserves the length. -/
@[simp] theorem length_blankSpans (s : Text) : (blankSpans o c s).length = s.length :=
  length_blankFrom 0 s

private theorem forall₂_blankFrom (k : Nat) (s : Text) :
    List.Forall₂ (fun x y => x = y ∨ x = ' ') (blankFrom o c k s) s := by
  fun_induction blankFrom o c k s with
  | case1 => exact .nil
  | case2 k d s ih => exact .cons (.inr rfl) ih
  | case3 d s n h ih => exact .cons (.inr rfl) ih
  | case4 d s h ih => exact .cons (.inl rfl) ih

/-- Blanking keeps each character or overwrites it with a space. -/
theorem forall₂_blankSpans (s : Text) :
    List.Forall₂ (fun x y => x = y ∨ x = ' ') (blankSpans o c s) s := forall₂_blankFrom 0 s

private theorem blankFrom_append_of_length (x s : Text) :
    blankFrom o c x.length (x ++ s) = List.replicate x.length ' ' ++ blankSpans o c s := by
  induction x with
  | nil => rfl
  | cons d x ih =>
    rw [List.length_cons, List.cons_append, blankFrom, ih, List.replicate_succ, List.cons_append]

/-- The shape of a text in front of its first decision: it is empty, starts with a closed span,
starts with an opener that nothing closes, or starts with a character of its own. -/
theorem span_cases (o c s : Text) :
    s = [] ∨
    (∃ i r, s = o ++ (i ++ c) ++ r ∧ cutAt c (i ++ c ++ r) = some (i, r)) ∨
    (∃ r, s = o ++ r ∧ cutAt c r = none) ∨
    (∃ d r, s = d :: r ∧ stripPrefix? o s = none) := by
  rcases hs : stripPrefix? o s with _ | r
  · cases s with
    | nil => exact .inl rfl
    | cons d r => exact .inr (.inr (.inr ⟨d, r, rfl, rfl⟩))
  · obtain rfl := stripPrefix?_eq_some.mp hs
    rcases hc : cutAt c r with _ | ⟨i, r'⟩
    · exact .inr (.inr (.inl ⟨r, rfl, hc⟩))
    · obtain rfl := eq_of_cutAt hc
      exact .inr (.inl ⟨i, r', by simp, hc⟩)

variable (ho : o ≠ [])
include ho

/-- A span is blanked and the rest goes on. -/
theorem blankSpans_span {i r : Text} (h : cutAt c (i ++ c ++ r) = some (i, r)) :
    blankSpans o c (o ++ (i ++ c) ++ r) =
      List.replicate (o ++ (i ++ c)).length ' ' ++ blankSpans o c r := by
  obtain ⟨d, o', rfl⟩ := List.exists_cons_of_ne_nil ho
  have hlen : spanLength (d :: o') c (d :: (o' ++ (i ++ c) ++ r)) =
      some ((o' ++ (i ++ c)).length + 1) := by
    have hp : stripPrefix? (d :: o') (d :: (o' ++ (i ++ c) ++ r)) = some (i ++ c ++ r) :=
      stripPrefix?_eq_some.mpr (by simp)
    rw [spanLength, hp, Option.bind_some, h]
    simp only [Option.map_some, List.length_append, List.length_cons, Option.some_inj]
    omega
  rw [blankSpans, List.cons_append, List.cons_append, blankFrom, hlen]
  dsimp only
  rw [Nat.add_sub_cancel, blankFrom_append_of_length, List.length_cons, List.replicate_succ,
    List.cons_append]

omit ho in
/-- A character that opens no span stays. -/
theorem blankSpans_cons {d : Char} {r : Text} (h : stripPrefix? o (d :: r) = none) :
    blankSpans o c (d :: r) = d :: blankSpans o c r := by
  rw [blankSpans, blankFrom, spanLength, h]
  rfl

omit ho in
/-- Without a closer nothing is blanked. -/
theorem blankSpans_of_cutAt_none {s : Text} (h : cutAt c s = none) : blankSpans o c s = s := by
  induction s with
  | nil => rfl
  | cons d s ih =>
    have hs : cutAt c s = none := by
      rw [cutAt] at h
      split at h
      · cases h
      · exact Option.map_eq_none_iff.mp h
    have hlen : spanLength o c (d :: s) = none := by
      rw [spanLength, Option.bind_eq_none_iff]
      intro r hr
      rw [Option.map_eq_none_iff, cutAt_eq_none_iff]
      intro hc
      refine cutAt_eq_none_iff.mp h (hc.trans ?_)
      exact ⟨o, [], by rw [stripPrefix?_eq_some.mp hr, List.append_nil]⟩
    rw [blankSpans, blankFrom, hlen]
    exact congrArg (d :: ·) (ih hs)

omit ho in
/-- What holds no space survives blanking only where it stood before. -/
private theorem prefix_of_forall₂ {p u v : Text} (hp : ' ' ∉ p)
    (h : List.Forall₂ (fun x y => x = y ∨ x = ' ') u v) (hpre : p <+: u) : p <+: v := by
  induction h generalizing p with
  | nil => exact hpre
  | @cons x y u v hxy _ ih =>
    cases p with
    | nil => exact List.nil_prefix
    | cons d p =>
      obtain ⟨rfl, hpre'⟩ := List.cons_prefix_cons.mp hpre
      obtain rfl : d = y := hxy.resolve_right fun e => hp (by simp [e])
      exact List.cons_prefix_cons.mpr ⟨rfl, ih (fun hm => hp (by simp [hm])) hpre'⟩

omit ho in
private theorem blankSpans_append_short {x r : Text} (hx : x.length ≤ o.length)
    (h : cutAt c r = none) : blankSpans o c (x ++ r) = x ++ r := by
  induction x with
  | nil => exact blankSpans_of_cutAt_none h
  | cons d x ih =>
    have hlen : spanLength o c (d :: (x ++ r)) = none := by
      rw [spanLength, Option.bind_eq_none_iff]
      intro r' hr
      have he := stripPrefix?_eq_some.mp hr
      rw [Option.map_eq_none_iff, cutAt_eq_none_iff]
      intro hc
      refine cutAt_eq_none_iff.mp h (hc.trans (List.IsSuffix.isInfix ?_))
      refine List.suffix_of_suffix_length_le ⟨o, he.symm⟩ ⟨d :: x, rfl⟩ ?_
      have := congrArg List.length he
      simp only [List.length_cons, List.length_append] at this hx
      omega
    rw [List.cons_append, blankSpans, blankFrom, hlen]
    exact congrArg (d :: ·) (ih (by simp only [List.length_cons] at hx; omega))

omit ho in
/-- An opener that nothing closes is left alone, with everything behind it. -/
theorem blankSpans_opener {r : Text} (h : cutAt c r = none) :
    blankSpans o c (o ++ r) = o ++ r := blankSpans_append_short le_rfl h

/-- When `b` closes nothing that `a` leaves open, blanking works on the two sides apart. -/
theorem blankSpans_append {a b : Text} (hso : NoStraddle o a b) (hsc : NoStraddle c a b)
    (h : unclosed o c a = true → contains c b = false) :
    blankSpans o c (a ++ b) = blankSpans o c a ++ blankSpans o c b := by
  induction hn : a.length using Nat.strong_induction_on generalizing a with
  | _ n ih =>
  rcases span_cases o c a with rfl | ⟨i, r, rfl, hcut⟩ | ⟨r, rfl, hcut⟩ | ⟨d, r, rfl, hcut⟩
  · rfl
  · have hu : unclosed o c r = true → unclosed o c (o ++ (i ++ c) ++ r) = true := by
      rw [unclosed, unclosed, blankSpans_span ho hcut]
      exact contains_of_infix (List.suffix_append _ _).isInfix
    have hlen : r.length < n := by
      have := List.length_pos_iff.mpr ho
      simp only [List.length_append] at hn
      omega
    have hcut' := cutAt_append_left (b := b) hcut
    rw [List.append_assoc] at hcut'
    rw [List.append_assoc, blankSpans_span ho hcut', blankSpans_span ho hcut,
      ih r.length hlen hso.of_append hsc.of_append (fun hr => h (hu hr)) rfl, List.append_assoc]
  · have hu : unclosed o c (o ++ r) = true := by
      rw [unclosed, blankSpans_opener hcut]
      exact contains_iff.mpr (List.prefix_append o r).isInfix
    have hb : cutAt c b = none := Option.not_isSome_iff_eq_none.mp (by simpa [contains] using h hu)
    have hrb : cutAt c (r ++ b) = none := by
      rw [cutAt_append_right hsc.of_append hcut, hb]
      rfl
    rw [blankSpans_opener hcut, blankSpans_of_cutAt_none hb, List.append_assoc,
      blankSpans_opener hrb]
  · have hcut' := stripPrefix?_append_of_noStraddle hso (List.cons_ne_nil d r)
    rw [hcut, Option.map_none, List.cons_append] at hcut'
    have hu : unclosed o c r = true → unclosed o c (d :: r) = true := by
      rw [unclosed, unclosed, blankSpans_cons hcut]
      exact contains_of_infix (List.suffix_cons _ _).isInfix
    have hlen : r.length < n := by
      simp only [List.length_cons] at hn
      omega
    rw [List.cons_append, blankSpans_cons hcut', blankSpans_cons hcut,
      ih r.length hlen hso.of_cons hsc.of_cons (fun hr => h (hu hr)) rfl, List.cons_append]

/-- When `b` closes what `a` leaves open, both sides of the seam are blanked. -/
theorem blankSpans_append_of_unclosed {a b : Text} (hsp : ' ' ∉ o) (hcne : c ≠ [])
    (hso : NoStraddle o a b) (hsc : NoStraddle c a b) (hu : unclosed o c a = true)
    (hb : contains c b = true) :
    a ≠ [] ∧ (blankSpans o c (a ++ b))[a.length - 1]? = some ' ' ∧
      (blankSpans o c (a ++ b))[a.length]? = some ' ' := by
  induction hn : a.length using Nat.strong_induction_on generalizing a with
  | _ n ih =>
  have hopos := List.length_pos_iff.mpr ho
  rcases span_cases o c a with rfl | ⟨i, r, rfl, hcut⟩ | ⟨r, rfl, hcut⟩ | ⟨d, r, rfl, hcut⟩
  · rw [unclosed, blankSpans_nil, contains_iff, List.infix_nil] at hu
    exact absurd hu ho
  · have hur : unclosed o c r = true := by
      have hst : NoStraddle o (List.replicate (o ++ (i ++ c)).length ' ') (blankSpans o c r) :=
        noStraddle_left (fun h => hsp (List.dropLast_subset _ h)) fun _ => List.getLast_replicate _
      rw [unclosed, blankSpans_span ho hcut, contains_append hst, Bool.or_eq_true] at hu
      refine hu.resolve_left fun h => ?_
      obtain ⟨e, o', rfl⟩ := List.exists_cons_of_ne_nil ho
      have := (contains_iff.mp h).subset (List.mem_cons_self ..)
      exact hsp (List.eq_of_mem_replicate this ▸ List.mem_cons_self ..)
    have hlen : r.length < n := by
      simp only [List.length_append] at hn
      omega
    obtain ⟨hr, h1, h2⟩ := ih r.length hlen hso.of_append hsc.of_append hur rfl
    have hcut' := cutAt_append_left (b := b) hcut
    rw [List.append_assoc] at hcut'
    have hrpos := List.length_pos_iff.mpr hr
    have hk : n = (o ++ (i ++ c)).length + r.length := by rw [← hn, List.length_append]
    rw [List.append_assoc _ r b, blankSpans_span ho hcut', hk]
    refine ⟨by simp [hr], ?_, ?_⟩
    · rw [List.getElem?_append_right (by rw [List.length_replicate]; omega), List.length_replicate,
        ← h1]
      congr 1
      omega
    · rw [List.getElem?_append_right (by rw [List.length_replicate]; omega), List.length_replicate,
        ← h2]
      congr 1
      omega
  · obtain ⟨⟨u, v⟩, huv⟩ := Option.isSome_iff_exists.mp hb
    have hcb := eq_of_cutAt huv
    have hrb : cutAt c (r ++ u ++ c ++ v) = some (r ++ u, v) := by
      have := cutAt_append_right hsc.of_append hcut
      rw [huv, hcb] at this
      simpa using this
    have hcpos := List.length_pos_iff.mpr hcne
    have hshape : o ++ r ++ b = o ++ (r ++ u ++ c) ++ v := by rw [hcb]; simp
    rw [hshape, blankSpans_span ho hrb]
    simp only [List.length_append] at hn
    refine ⟨by simp [ho], ?_, ?_⟩ <;>
    · rw [List.getElem?_append_left (by simp only [List.length_replicate, List.length_append]; omega),
        List.getElem?_replicate_of_lt (by simp only [List.length_append]; omega)]
  · have hcut' := stripPrefix?_append_of_noStraddle hso (List.cons_ne_nil d r)
    rw [hcut, Option.map_none, List.cons_append] at hcut'
    have hur : unclosed o c r = true := by
      rw [unclosed, blankSpans_cons hcut, contains_iff, List.infix_cons_iff] at hu
      rcases hu with hpre | hin
      · have hall : List.Forall₂ (fun x y => x = y ∨ x = ' ') (d :: blankSpans o c r) (d :: r) :=
          .cons (.inl rfl) (forall₂_blankSpans r)
        obtain ⟨t, ht⟩ := prefix_of_forall₂ hsp hall hpre
        rw [stripPrefix?_eq_some.mpr ht.symm] at hcut
        cases hcut
      · exact contains_iff.mpr hin
    have hlen : r.length < n := by
      simp only [List.length_cons] at hn
      omega
    obtain ⟨hr, h1, h2⟩ := ih r.length hlen hso.of_cons hsc.of_cons hur rfl
    have hrpos := List.length_pos_iff.mpr hr
    obtain ⟨k, rfl⟩ : ∃ k, n = k + 1 := ⟨r.length, hn.symm⟩
    obtain rfl : r.length = k := by simpa using hn
    rw [List.cons_append, blankSpans_cons hcut']
    refine ⟨by simp, ?_, by simpa using h2⟩
    obtain ⟨m, hm⟩ : ∃ m, r.length = m + 1 := ⟨r.length - 1, by omega⟩
    rw [hm] at h1 ⊢
    simpa using h1

end Blank

end Text

end CoordinatorCore
