import CoordinatorCore.BodyBlocks
import Mathlib.Data.List.Forall2

/-!
# Splicing a body into a located fence

A writer replaces the located body `source[start:stop]` and leaves every other character alone.
Whether the next reader finds the new body where it was put is decided by `SpliceSafe`, a
question about three texts: the one in front of the body, the new body, and the one behind it.

The scan sees the comment-blanked copy, and comments are the only way in which the three texts
interact. If the text in front leaves a comment open that the body closes, the opener of the
fence is blanked; if the body leaves a comment open that the prose behind it closes, the closer
is. The third condition is about a document with a broken earlier opener, whose match ends at
the backticks of the real one: there a literal opener inside the body counts as a second fence.
-/

namespace CoordinatorCore

open Text

namespace BodyBlocks

/-- The text leaves a comment open. -/
def leavesCommentOpen (t : Text) : Bool := unclosed commentOpen commentClose t

/-- The text closes a comment. -/
def closesComment (t : Text) : Bool := contains commentClose t

/-- The source `pre ++ body ++ post` is located with `body` as its fence body. -/
structure FencedIn (pre body post : Text) : Prop where
  pre_closed : leavesCommentOpen pre = true → closesComment (body ++ post) = false
  body_closed : leavesCommentOpen body = true → closesComment post = false
  fence : ∃ upto before tail, blankComments pre = upto ++ before ++ fenceOpen ∧
    blankComments post = fenceClose ++ tail ∧
    Fence (blankComments pre ++ (blankComments body ++ blankComments post)) upto before
      (blankComments body) tail

/-! ### Seams -/

private theorem noStraddle_of_left {a b p : Text} (hp : p = commentOpen ∨ p = commentClose)
    (ha : a.getLast? = some '\n') : NoStraddle p a b := by
  have hne : a ≠ [] := fun e => by simp [e] at ha
  have hlast : ∀ h : a ≠ [], a.getLast h = '\n' := fun h => by
    rwa [List.getLast?_eq_some_getLast h, Option.some_inj] at ha
  rcases hp with rfl | rfl
  · exact noStraddle_left (by decide) hlast
  · exact noStraddle_left (by decide) hlast

private theorem noStraddle_of_right {a b p : Text} (hp : p = commentOpen ∨ p = commentClose)
    (hb : b.head? = some '\n') : NoStraddle p a b := by
  rcases hp with rfl | rfl
  · exact noStraddle_right (by decide) hb
  · exact noStraddle_right (by decide) hb

/-- A line feed of the blanked copy is a line feed of the source. -/
private theorem head?_of_forall₂ {u v : Text}
    (h : List.Forall₂ (fun x y => x = y ∨ x = ' ') u v) (hu : u.head? = some '\n') :
    v.head? = some '\n' := by
  rcases h with _ | ⟨hxy, -⟩
  · cases hu
  · obtain rfl := Option.some.inj hu
    exact congrArg some (hxy.resolve_right (by decide)).symm

private theorem getLast?_of_forall₂ {u v : Text}
    (h : List.Forall₂ (fun x y => x = y ∨ x = ' ') u v) (hu : u.getLast? = some '\n') :
    v.getLast? = some '\n' := by
  rw [List.getLast?_eq_head?_reverse] at hu ⊢
  exact head?_of_forall₂ (List.rel_reverse h) hu

/-- Behind an opener and in front of a closer, blanking works on the three texts apart unless one
of them closes a comment that an earlier one leaves open. -/
private theorem blankComments_append {pre body post : Text} (hpre : pre.getLast? = some '\n')
    (hpost : post.head? = some '\n')
    (h1 : leavesCommentOpen pre = true → closesComment (body ++ post) = false)
    (h2 : leavesCommentOpen body = true → closesComment post = false) :
    blankComments (pre ++ (body ++ post)) =
      blankComments pre ++ (blankComments body ++ blankComments post) := by
  have hne : commentOpen ≠ [] := by decide
  rw [blankComments, blankSpans_append hne (noStraddle_of_left (.inl rfl) hpre)
    (noStraddle_of_left (.inr rfl) hpre) h1,
    blankSpans_append hne (noStraddle_of_right (.inl rfl) hpost)
      (noStraddle_of_right (.inr rfl) hpost) h2]
  rfl

private theorem length_blankComments (t : Text) : (blankComments t).length = t.length :=
  length_blankSpans t

/-! ### Located sources -/

private theorem FencedIn.pre_last {pre body post : Text} (h : FencedIn pre body post) :
    pre.getLast? = some '\n' := by
  obtain ⟨upto, before, tail, hpre, -, -⟩ := h.fence
  refine getLast?_of_forall₂ (u := blankComments pre) (forall₂_blankSpans pre) ?_
  rw [hpre, List.getLast?_append_of_ne_nil _ (by decide)]
  rfl

private theorem FencedIn.post_head {pre body post : Text} (h : FencedIn pre body post) :
    post.head? = some '\n' := by
  obtain ⟨upto, before, tail, -, hpost, -⟩ := h.fence
  refine head?_of_forall₂ (u := blankComments post) (forall₂_blankSpans post) ?_
  rw [hpost]
  rfl

private theorem getElem?_seam {P X Q : Text} (hP : P.getLast? = some '\n')
    (hQ : Q.head? = some '\n') : (P ++ (X ++ Q))[P.length - 1]? = some '\n' ∧
      (X ++ Q)[X.length]? = some '\n' := by
  have hpos : 0 < P.length := List.length_pos_iff.mpr fun e => by simp [e] at hP
  refine ⟨?_, ?_⟩
  · rw [List.getElem?_append_left (by omega), ← List.getLast?_eq_getElem?, hP]
  · rw [List.getElem?_append_right le_rfl, Nat.sub_self, ← List.head?_eq_getElem?, hQ]

/-- A fence of the blanked copy cuts the source at the same places. -/
private theorem exists_fencedIn {source upto before X tail : Text}
    (h : Fence (blankComments source) upto before X tail) :
    ∃ pre body post, source = pre ++ (body ++ post) ∧
      pre.length = (upto ++ before ++ fenceOpen).length ∧ body.length = X.length ∧
        FencedIn pre body post := by
  have hne : commentOpen ≠ [] := by decide
  have hscan : blankComments source =
      (upto ++ before ++ fenceOpen) ++ (X ++ (fenceClose ++ tail)) := by rw [h.text]; simp
  generalize hP : upto ++ before ++ fenceOpen = P at hscan
  generalize hQ : fenceClose ++ tail = Q at hscan
  have hPlast : P.getLast? = some '\n' := by
    rw [← hP, List.getLast?_append_of_ne_nil _ (by decide)]
    rfl
  have hQhead : Q.head? = some '\n' := by rw [← hQ]; rfl
  have hall : List.Forall₂ (fun x y => x = y ∨ x = ' ') (P ++ (X ++ Q)) source :=
    hscan ▸ forall₂_blankSpans source
  have hlen := hall.length_eq
  simp only [List.length_append] at hlen
  obtain ⟨pre, rest, hsource, hpre⟩ : ∃ pre rest, source = pre ++ rest ∧ pre.length = P.length :=
    ⟨source.take P.length, source.drop P.length, (List.take_append_drop _ _).symm,
      by rw [List.length_take]; omega⟩
  obtain ⟨body, post, rfl, hbody⟩ : ∃ body post, rest = body ++ post ∧ body.length = X.length := by
    rw [hsource, List.length_append] at hlen
    exact ⟨rest.take X.length, rest.drop X.length, (List.take_append_drop _ _).symm,
      by rw [List.length_take]; omega⟩
  subst hsource
  have hprelast : pre.getLast? = some '\n' := by
    have := List.forall₂_take P.length hall
    rw [List.take_left, ← hpre, List.take_left] at this
    exact getLast?_of_forall₂ this hPlast
  have hposthead : post.head? = some '\n' := by
    have := List.forall₂_drop (P.length + X.length) hall
    rw [← List.drop_drop, List.drop_left, List.drop_left, ← hpre, ← hbody, ← List.drop_drop,
      List.drop_left, List.drop_left] at this
    exact head?_of_forall₂ this hQhead
  obtain ⟨hseam, hseam'⟩ := getElem?_seam (X := X) hPlast hQhead
  -- a comment across a seam would have blanked the line feed there
  have h1 : leavesCommentOpen pre = true → closesComment (body ++ post) = false := by
    intro hu
    rw [Bool.eq_false_iff]
    intro hc
    obtain ⟨-, hblank, -⟩ := blankSpans_append_of_unclosed hne (by decide) (by decide)
      (noStraddle_of_left (.inl rfl) hprelast) (noStraddle_of_left (.inr rfl) hprelast) hu hc
    rw [show blankSpans commentOpen commentClose (pre ++ (body ++ post)) = _ from hscan, hpre,
      hseam] at hblank
    exact absurd (Option.some.inj hblank) (by decide)
  have hsplit : blankComments pre = P ∧ blankComments (body ++ post) = X ++ Q := by
    have := blankSpans_append hne (noStraddle_of_left (.inl rfl) hprelast)
      (noStraddle_of_left (.inr rfl) hprelast) h1
    exact List.append_inj (this.symm.trans hscan) ((length_blankComments pre).trans hpre)
  have h2 : leavesCommentOpen body = true → closesComment post = false := by
    intro hu
    rw [Bool.eq_false_iff]
    intro hc
    obtain ⟨-, -, hblank⟩ := blankSpans_append_of_unclosed hne (by decide) (by decide)
      (noStraddle_of_right (.inl rfl) hposthead) (noStraddle_of_right (.inr rfl) hposthead) hu hc
    rw [show blankSpans commentOpen commentClose (body ++ post) = _ from hsplit.2, hbody,
      hseam'] at hblank
    exact absurd (Option.some.inj hblank) (by decide)
  have hsplit' : blankComments body = X ∧ blankComments post = Q := by
    have := blankSpans_append hne (noStraddle_of_right (.inl rfl) hposthead)
      (noStraddle_of_right (.inr rfl) hposthead) h2
    exact List.append_inj (this.symm.trans hsplit.2) ((length_blankComments body).trans hbody)
  refine ⟨pre, body, post, rfl, hpre, hbody, h1, h2, upto, before, tail, ?_, ?_, ?_⟩
  · rw [hsplit.1, hP]
  · rw [hsplit'.2, hQ]
  · rwa [hsplit.1, hsplit'.1, hsplit'.2, ← hscan]

/-- A located source is the text in front of the body, the body, and the text behind it. -/
theorem locateFencedBlock_eq_located {source body : Text} {i j : Nat} :
    locateFencedBlock source = .located body i j ↔ ∃ pre post,
      source = pre ++ (body ++ post) ∧ i = pre.length ∧ j = i + body.length ∧
        FencedIn pre body post := by
  constructor
  · intro h
    rw [locateFencedBlock] at h
    split at h
    · cases h
    · cases h
    · next start stop hscan =>
      obtain ⟨rfl, rfl, rfl⟩ := LocateResult.located.inj h
      obtain ⟨upto, before, X, tail, hf, rfl, rfl⟩ := locateScan_eq_located.mp hscan
      obtain ⟨pre, body, post, rfl, hpre, hbody, hfenced⟩ := exists_fencedIn hf
      have hslice : ((pre ++ (body ++ post)).drop (upto ++ before ++ fenceOpen).length).take
          ((upto ++ before ++ fenceOpen).length + X.length -
            (upto ++ before ++ fenceOpen).length) = body := by
        rw [← hpre, List.drop_left, Nat.add_sub_cancel_left, ← hbody, List.take_left]
      rw [hslice]
      exact ⟨pre, post, rfl, hpre.symm, by rw [hbody], hfenced⟩
  · rintro ⟨pre, post, rfl, rfl, rfl, h⟩
    obtain ⟨upto, before, tail, hpre, hpost, hf⟩ := h.fence
    have hblank := blankComments_append h.pre_last h.post_head h.pre_closed h.body_closed
    have hlen := congrArg List.length hpre
    rw [length_blankComments] at hlen
    have hscan : locateScan (blankComments (pre ++ (body ++ post))) =
        .located pre.length (pre.length + body.length) := by
      refine locateScan_eq_located.mpr ⟨upto, before, blankComments body, tail, ?_, hlen, ?_⟩
      · rwa [hblank]
      · rw [length_blankComments]
    rw [locateFencedBlock, hscan]
    simp

/-! ### Splicing -/

/-- The new body `B` between `pre` and `post` leaves the fence where it was. -/
structure SpliceSafe (pre B post : Text) : Prop where
  /-- `B` closes no comment that the text in front leaves open. -/
  front : leavesCommentOpen pre = true → closesComment B = false
  /-- `B` leaves no comment open that the text behind closes. -/
  behind : leavesCommentOpen B = true → closesComment post = false
  /-- Behind a fence of its own in front, `B` shows no second opener. -/
  opener : (findFence (blankComments pre)).isSome = true →
    contains fenceOpen (blankComments B ++ ['\n']) = false

instance (pre B post : Text) : Decidable (SpliceSafe pre B post) :=
  decidable_of_iff ((leavesCommentOpen pre = true → closesComment B = false) ∧
    (leavesCommentOpen B = true → closesComment post = false) ∧
    ((findFence (blankComments pre)).isSome = true →
      contains fenceOpen (blankComments B ++ ['\n']) = false))
    ⟨fun h => ⟨h.1, h.2.1, h.2.2⟩, fun h => ⟨h.front, h.behind, h.opener⟩⟩

private theorem closesComment_append {B post : Text} (hpost : post.head? = some '\n') :
    closesComment (B ++ post) = (closesComment B || closesComment post) :=
  contains_append (noStraddle_of_right (.inr rfl) hpost)

/-- A safe splice is located. -/
theorem FencedIn.splice {pre body post B : Text} (h : FencedIn pre body post)
    (hlines : BodyLines (blankComments B)) (hsafe : SpliceSafe pre B post) :
    FencedIn pre B post := by
  obtain ⟨upto, before, tail, hpre, hpost, hf⟩ := h.fence
  have hnew := hf.replace hlines (hpre ▸ hsafe.opener)
  refine ⟨?_, hsafe.behind, upto, before, tail, hpre, hpost, ?_⟩
  · intro hu
    have hold := h.pre_closed hu
    rw [closesComment_append h.post_head, Bool.or_eq_false_iff] at hold ⊢
    exact ⟨hsafe.front hu, hold.2⟩
  · have hs : blankComments pre ++ (blankComments B ++ blankComments post) =
        upto ++ (before ++ fenceOpen ++ blankComments B ++ fenceClose ++ tail) := by
      rw [hpre, hpost]
      simp
    rw [hs]
    exact hnew

/-- Lines as a block dump writes them: none starts with a backtick or a number sign, and the last
one is ended. -/
structure DumpShape (B : Text) : Prop where
  ended : B.getLast? = some '\n'
  start : ∀ u v, B = u ++ v → LineStart true u → v.head? ≠ some '`' ∧ v.head? ≠ some '#'

/-- The shape can be checked line by line. -/
theorem dumpShape_of_lines {B : Text} (hend : B.getLast? = some '\n')
    (hlines : (lines B).all (fun l => l.head? != some '`' && l.head? != some '#') = true) :
    DumpShape B := by
  have hstart : ∀ v c, c ≠ '\n' → (∀ l ∈ lines v, l ∈ lines B) → v.head? = some c →
      ∃ l ∈ lines B, l.head? = some c := by
    intro v c hc hsub hv
    obtain ⟨r, rfl⟩ := List.head?_eq_some_iff.mp hv
    obtain ⟨l, ls, hl⟩ := List.exists_cons_of_ne_nil (lines_ne_nil r)
    have hmem : c :: l ∈ lines (c :: r) := by rw [lines_cons_of_ne hc, hl]; simp
    exact ⟨c :: l, hsub _ hmem, rfl⟩
  have hno : ∀ l ∈ lines B, l.head? ≠ some '`' ∧ l.head? ≠ some '#' := fun l hl => by
    simpa using List.all_eq_true.mp hlines l hl
  refine ⟨hend, fun u v huv hu => ?_⟩
  have hsub : ∀ l ∈ lines v, l ∈ lines B := by
    intro l hl
    rw [LineStart] at hu
    split_ifs at hu with hnil
    · rwa [huv, hnil, List.nil_append]
    · obtain ⟨s, rfl⟩ := List.getLast?_eq_some_iff.mp hu
      rw [huv, List.append_assoc, List.singleton_append, lines_append_cons]
      exact List.mem_append_right _ hl
  constructor
  · intro hv
    obtain ⟨l, hl, hlc⟩ := hstart v _ (by decide) hsub hv
    exact (hno l hl).1 hlc
  · intro hv
    obtain ⟨l, hl, hlc⟩ := hstart v _ (by decide) hsub hv
    exact (hno l hl).2 hlc

/-- Blanking turns no line start into a fence or a heading. -/
theorem DumpShape.bodyLines {B : Text} (h : DumpShape B) : BodyLines (blankComments B) := by
  intro u v huv hu
  have hall : List.Forall₂ (fun x y => x = y ∨ x = ' ') (u ++ v) B :=
    huv ▸ forall₂_blankSpans B
  have hlen := hall.length_eq
  rw [List.length_append] at hlen
  obtain ⟨u', v', rfl, hu'⟩ : ∃ u' v', B = u' ++ v' ∧ u'.length = u.length :=
    ⟨B.take u.length, B.drop u.length, (List.take_append_drop _ _).symm,
      by rw [List.length_take]; omega⟩
  have hleft : List.Forall₂ (fun x y => x = y ∨ x = ' ') u u' := by
    have := List.forall₂_take u.length hall
    rwa [List.take_left, ← hu', List.take_left] at this
  have hright : List.Forall₂ (fun x y => x = y ∨ x = ' ') v v' := by
    have := List.forall₂_drop u.length hall
    rwa [List.drop_left, ← hu', List.drop_left] at this
  have hstart : LineStart true u' := by
    rw [LineStart] at hu ⊢
    split_ifs with hnil
    · rfl
    · have hne : u ≠ [] := fun e => hnil (List.length_eq_zero_iff.mp (by rw [hu', e]; rfl))
      rw [if_neg hne] at hu
      exact getLast?_of_forall₂ hleft hu
  obtain ⟨htick, hhash⟩ := h.start u' v' rfl hstart
  -- the first character of `v` is the one of `v'` or a space
  have hhead : ∀ c r, v = c :: r → c = ' ' ∨ v'.head? = some c := by
    rintro c r rfl
    cases hright with
    | cons hxy _ => exact hxy.symm.imp id fun e => by rw [e]; rfl
  refine ⟨?_, ?_⟩
  · rintro ⟨r, hr⟩
    rcases hhead '`' _ hr.symm with hc | hc
    · exact absurd hc (by decide)
    · exact htick hc
  · rintro r rfl
    rcases hhead '#' _ rfl with hc | hc
    · exact absurd hc (by decide)
    · exact absurd hc hhash

/-- The last line feed of a dump survives blanking. -/
private theorem blankComments_concat (x : Text) :
    blankComments (x ++ ['\n']) = blankComments x ++ ['\n'] := by
  rw [blankComments, blankSpans_append (by decide) (noStraddle_of_right (.inl rfl) rfl)
    (noStraddle_of_right (.inr rfl) rfl) (fun _ => by decide)]
  rfl

private theorem contains_fenceOpen_concat {x : Text} (h : x.getLast? = some '\n') :
    contains fenceOpen (x ++ ['\n']) = contains fenceOpen x := by
  have hs : NoStraddle fenceOpen x ['\n'] := noStraddle_left (d := '\n') (by decide) fun hne => by
    rwa [List.getLast?_eq_some_getLast hne, Option.some_inj] at h
  rw [contains_append hs, show contains fenceOpen ['\n'] = false by decide, Bool.or_false]

/-- For a dumped body, the splice is located if and only if it is safe. -/
theorem fencedIn_splice_iff {pre body post B : Text} (h : FencedIn pre body post)
    (hB : DumpShape B) : FencedIn pre B post ↔ SpliceSafe pre B post := by
  constructor
  · intro hnew
    refine ⟨?_, hnew.body_closed, ?_⟩
    · intro hu
      have := hnew.pre_closed hu
      rw [closesComment_append h.post_head, Bool.or_eq_false_iff] at this
      exact this.1
    · obtain ⟨upto, before, tail, hpre, -, hf⟩ := hnew.fence
      intro hown
      rw [hpre] at hown
      obtain ⟨x, rfl⟩ : ∃ x, B = x ++ ['\n'] := by
        obtain ⟨x, hx⟩ := List.getLast?_eq_some_iff.mp hB.ended
        exact ⟨x, hx⟩
      rw [contains_fenceOpen_concat (by rw [blankComments_concat, List.getLast?_concat])]
      exact hf.not_contains hown
  · exact h.splice hB.bodyLines

end BodyBlocks

end CoordinatorCore
