import CoordinatorCore.Frontmatter.Document
import CoordinatorCore.Frontmatter.FieldLaw

/-!
# What a rebuilt document splits into

A verb splits a document, edits its frontmatter and rebuilds it; the next verb splits the result.
`splitFrontmatter_rebuild`: it finds the edited frontmatter, and the preamble and the body as they
were, when no line of the edited frontmatter closes it.

The search for the closing delimiter is followed line by line (`lineSearch_line`). The preamble is
followed round by round: what a round consumes does not depend on what stands behind it, as long
as that starts with the same character (`preambleRound_append`).
-/

namespace CoordinatorCore

open Text BodyBlocks

namespace Frontmatter

/-! ### The closing delimiter -/

/-- `---[ \t]*` is all of the line. -/
def closesFrontmatter (l : Text) : Bool :=
  match stripPrefix? "---".toList l with
  | some r => r.all isBlank
  | none => false

private theorem isBlank_newline : isBlank '\n' = false := by decide

private theorem dropWhile_blank_line {r s : Text} (hr : '\n' ∉ r) :
    (r ++ '\n' :: s).dropWhile isBlank = r.dropWhile isBlank ++ '\n' :: s ∧
      (r ++ '\n' :: s).takeWhile isBlank = r.takeWhile isBlank := by
  induction r with
  | nil => simp [isBlank_newline]
  | cons c r ih =>
    have hr' : '\n' ∉ r := fun h => hr (by simp [h])
    by_cases hc : isBlank c = true
    · simpa [hc] using ih hr'
    · simp [hc]

private theorem takeWhile_eq_self {r : Text} (h : r.all isBlank = true) :
    r.takeWhile isBlank = r ∧ r.dropWhile isBlank = [] := by
  rw [List.all_eq_true] at h
  exact ⟨List.takeWhile_eq_self_iff.mpr h, List.dropWhile_eq_nil_iff.mpr h⟩

/-- The delimiter is a matter of one line. -/
theorem closeDelimiter_line {l : Text} (hl : '\n' ∉ l) (s : Text) :
    closeDelimiter (l ++ '\n' :: s) = if closesFrontmatter l then some l.length else none := by
  rw [closeDelimiter, closesFrontmatter]
  rcases hp : stripPrefix? "---".toList l with _ | r
  · have hnone : stripPrefix? "---".toList (l ++ '\n' :: s) = none := by
      rw [Option.eq_none_iff_forall_not_mem]
      intro r hr
      rw [Option.mem_def, stripPrefix?_eq_some, List.append_eq_append_iff] at hr
      rcases hr with ⟨u, hu, hv⟩ | ⟨u, hu, -⟩
      · rcases eq_or_ne u [] with rfl | hne
        · rw [List.append_nil] at hu
          have hself : stripPrefix? "---".toList l = some [] := by
            rw [stripPrefix?_eq_some, List.append_nil, hu]
          rw [hp] at hself
          cases hself
        · obtain ⟨c, u, rfl⟩ := List.exists_cons_of_ne_nil hne
          have hc : c = '\n' := (List.cons.inj hv).1.symm
          have : '\n' ∈ "---".toList := by rw [hu, hc]; simp
          revert this
          decide
      · rw [stripPrefix?_eq_some.mpr hu] at hp
        cases hp
    rw [hnone]
    rfl
  · obtain rfl := stripPrefix?_eq_some.mp hp
    have hr : '\n' ∉ r := fun h => hl (by simp [h])
    rw [List.append_assoc, stripPrefix?_append, Option.bind_some,
      (dropWhile_blank_line hr).1, (dropWhile_blank_line hr).2]
    by_cases hall : r.all isBlank = true
    · obtain ⟨ht, hd⟩ := takeWhile_eq_self hall
      simp [hall, ht, hd]
      omega
    · have hd : r.dropWhile isBlank ≠ [] := fun h =>
        hall (List.all_eq_true.mpr (List.dropWhile_eq_nil_iff.mp h))
      obtain ⟨c, d, hcd⟩ := List.exists_cons_of_ne_nil hd
      have hc : c ≠ '\n' := by
        rintro rfl
        exact hr ((List.dropWhile_sublist _).subset (by rw [hcd]; simp))
      simp [hall, hcd, hc]

/-- The last line, without a line feed behind it. -/
theorem closeDelimiter_of_not_mem {l : Text} (hl : '\n' ∉ l) :
    closeDelimiter l = if closesFrontmatter l then some l.length else none := by
  rw [closeDelimiter, closesFrontmatter]
  rcases hp : stripPrefix? "---".toList l with _ | r
  · rfl
  · obtain rfl := stripPrefix?_eq_some.mp hp
    have hr : '\n' ∉ r := fun h => hl (by simp [h])
    rw [Option.bind_some]
    cases hall : r.all isBlank with
    | true =>
      obtain ⟨ht, hd⟩ := takeWhile_eq_self hall
      rw [ht, hd, if_pos (.inl rfl)]
      simp only [hall, if_true, List.length_append]
      rfl
    | false =>
      have hd : r.dropWhile isBlank ≠ [] := fun h => by
        rw [List.all_eq_true.mpr (List.dropWhile_eq_nil_iff.mp h)] at hall
        cases hall
      obtain ⟨c, d, hcd⟩ := List.exists_cons_of_ne_nil hd
      have hc : c ≠ '\n' := by
        rintro rfl
        exact hr ((List.dropWhile_sublist _).subset (by rw [hcd]; simp))
      rw [hcd, if_neg (by simp [hc])]
      simp only [hall, Bool.false_eq_true, if_false]

/-! ### The search, line by line -/

private theorem lineSearch_skip {p : Text → Option Nat} {b : Bool} {c : Char} {s : Text}
    (h : (if b then p (c :: s) else none) = none) :
    lineSearch p b (c :: s) = (lineSearch p (c == '\n') s).map fun m => (m.1 + 1, m.2) := by
  rw [lineSearch, h]

/-- A match at the front of a line is found there. -/
theorem lineSearch_hit {p : Text → Option Nat} {c : Char} {s : Text} {n : Nat}
    (h : p (c :: s) = some n) : lineSearch p true (c :: s) = some (0, n) := by
  rw [lineSearch, if_pos rfl, h]

private theorem beq_newline {c : Char} (h : c ≠ '\n') : (c == '\n') = false := beq_false_of_ne h

/-- Inside a line the search waits for the next one. -/
private theorem lineSearch_false {p : Text → Option Nat} {x : Text} (hx : '\n' ∉ x) (s : Text) :
    lineSearch p false (x ++ '\n' :: s) =
      (lineSearch p true s).map fun m => (x.length + 1 + m.1, m.2) := by
  induction x with
  | nil =>
    rw [List.nil_append, lineSearch_skip (if_neg (by decide))]
    simp only [beq_self_eq_true, List.length_nil, Nat.zero_add, Nat.add_comm]
  | cons c x ih =>
    have hc := beq_newline fun e : c = '\n' => hx (by simp [e])
    rw [List.cons_append, lineSearch_skip (if_neg (by decide)), hc, ih fun h => hx (by simp [h]),
      Option.map_map]
    congr 1
    funext m
    simp only [Function.comp_apply, List.length_cons, Prod.mk.injEq, and_true]
    omega

/-- Within the last line nothing more is found. -/
private theorem lineSearch_false_of_not_mem {p : Text → Option Nat} {x : Text} (hx : '\n' ∉ x) :
    lineSearch p false x = none := by
  induction x with
  | nil => rfl
  | cons c x ih =>
    have hc := beq_newline fun e : c = '\n' => hx (by simp [e])
    rw [lineSearch_skip (if_neg (by decide)), hc, ih fun h => hx (by simp [h])]
    rfl

/-- The search passes over a line that does not close. -/
theorem lineSearch_line {l : Text} (hl : '\n' ∉ l) (hc : closesFrontmatter l = false) (s : Text) :
    lineSearch closeDelimiter true (l ++ '\n' :: s) =
      (lineSearch closeDelimiter true s).map fun m => (l.length + 1 + m.1, m.2) := by
  have hp := closeDelimiter_line hl s
  rw [hc, if_neg (by decide)] at hp
  cases l with
  | nil =>
    rw [List.nil_append] at hp ⊢
    rw [lineSearch_skip ((if_pos rfl).trans hp)]
    simp only [beq_self_eq_true, List.length_nil, Nat.zero_add, Nat.add_comm]
  | cons c l =>
    have hcn := beq_newline fun e : c = '\n' => hl (by simp [e])
    rw [List.cons_append] at hp ⊢
    rw [lineSearch_skip ((if_pos rfl).trans hp), hcn, lineSearch_false fun h => hl (by simp [h]),
      Option.map_map]
    congr 1
    funext m
    simp only [Function.comp_apply, List.length_cons, Prod.mk.injEq, and_true]
    omega

/-- The lines of a block of frontmatter: whole lines, none of which closes it. -/
def OpenLines (ls : List Text) : Prop := ∀ l ∈ ls, '\n' ∉ l ∧ closesFrontmatter l = false

theorem unlines_cons_concat (l : Text) (ls : List Text) :
    unlines (l :: ls ++ [[]]) = l ++ '\n' :: unlines (ls ++ [[]]) := by
  have := unlines_append (a := [l]) (b := ls ++ [[]]) (by simp) (by simp)
  simpa [unlines] using this

/-- Lines that do not close the frontmatter are passed over. -/
theorem lineSearch_lines {ls : List Text} (h : OpenLines ls) (s : Text) :
    lineSearch closeDelimiter true (unlines (ls ++ [[]]) ++ s) =
      (lineSearch closeDelimiter true s).map fun m => ((unlines (ls ++ [[]])).length + m.1, m.2) := by
  induction ls with
  | nil =>
    have hnil : unlines ([] ++ [[]]) = [] := rfl
    rw [hnil]
    simp
  | cons l ls ih =>
    obtain ⟨hl, hc⟩ := h l List.mem_cons_self
    rw [unlines_cons_concat, List.append_assoc, List.cons_append, lineSearch_line hl hc,
      ih fun m hm => h m (List.mem_cons_of_mem l hm), Option.map_map]
    congr 1
    funext m
    simp only [Function.comp_apply, List.length_append, List.length_cons, Prod.mk.injEq, and_true]
    omega

/-- What the search finds stands behind whole lines that do not close, and ends its line. -/
theorem exists_of_lineSearch {s : Text} {m : Nat × Nat}
    (h : lineSearch closeDelimiter true s = some m) :
    ∃ ls, OpenLines ls ∧ s.take m.1 = unlines (ls ++ [[]]) ∧
      (s.drop (m.1 + m.2) = [] ∨ (s.drop (m.1 + m.2)).head? = some '\n') := by
  induction hn : s.length using Nat.strong_induction_on generalizing s m with
  | _ n ih =>
    -- a line that closes the frontmatter ends the search
    have hmatch : ∀ l, '\n' ∉ l → ∀ r, s = l ++ r → (r = [] ∨ r.head? = some '\n') →
        closesFrontmatter l = true → m = (0, l.length) → ∃ ls, OpenLines ls ∧
          s.take m.1 = unlines (ls ++ [[]]) ∧
          (s.drop (m.1 + m.2) = [] ∨ (s.drop (m.1 + m.2)).head? = some '\n') := by
      rintro l hl r rfl hr - rfl
      exact ⟨[], by simp [OpenLines], by simp [unlines], by simpa using hr⟩
    by_cases hnl : '\n' ∈ s
    · obtain ⟨l, r, rfl, hl⟩ := List.eq_append_cons_of_mem hnl
      by_cases hc : closesFrontmatter l = true
      · refine hmatch l hl _ rfl (by simp) hc ?_
        have hp := closeDelimiter_line hl r
        rw [hc, if_pos rfl] at hp
        cases l with
        | nil => exact absurd hc (by decide)
        | cons c l =>
          rw [List.cons_append] at hp h
          rw [lineSearch_hit hp] at h
          exact (Option.some.inj h).symm
      · rw [lineSearch_line hl (by simpa using hc)] at h
        obtain ⟨m', hm', rfl⟩ := Option.map_eq_some_iff.mp h
        obtain ⟨ls, hls, htake, hdrop⟩ := ih r.length (by rw [← hn]; simp; omega) hm' rfl
        refine ⟨l :: ls, ?_, ?_, ?_⟩
        · intro x hx
          rcases List.mem_cons.mp hx with rfl | hx
          · exact ⟨hl, by simpa using hc⟩
          · exact hls x hx
        · rw [unlines_cons_concat, ← htake, Nat.add_assoc, List.take_length_add_append,
            Nat.add_comm 1, List.take_succ_cons]
        · have : l.length + 1 + m'.1 + m'.2 = l.length + (m'.1 + m'.2 + 1) := by omega
          simp only [this, List.drop_length_add_append, List.drop_succ_cons]
          exact hdrop
    -- the last line, without a line feed
    · have hp := closeDelimiter_of_not_mem hnl
      cases s with
      | nil => cases h
      | cons c s =>
        have hcn := beq_newline fun e : c = '\n' => hnl (by simp [e])
        by_cases hc : closesFrontmatter (c :: s) = true
        · rw [hc, if_pos rfl] at hp
          rw [lineSearch_hit hp] at h
          exact hmatch (c :: s) hnl [] (by simp) (.inl rfl) hc (Option.some.inj h).symm
        · rw [Bool.eq_false_iff.mpr hc, if_neg (by decide)] at hp
          rw [lineSearch_skip ((if_pos rfl).trans hp), hcn,
            lineSearch_false_of_not_mem fun h => hnl (by simp [h])] at h
          cases h

/-! ### The preamble -/

private theorem dropWhile_of_head {t : Text} (h : t.head?.any isBlank = false) :
    t.dropWhile isBlank = t := by
  cases t with
  | nil => rfl
  | cons c t => exact List.dropWhile_cons_of_neg (by simpa using h)

private theorem dropWhile_blank_append {w t : Text} (hw : ∀ c ∈ w, isBlank c = true)
    (ht : t.head?.any isBlank = false) : (w ++ t).dropWhile isBlank = t := by
  rw [List.dropWhile_append, List.dropWhile_eq_nil_iff.mpr hw]
  simpa using dropWhile_of_head ht

private theorem exists_blank_append (s : Text) :
    ∃ w, s = w ++ s.dropWhile isBlank ∧ (∀ c ∈ w, isBlank c = true) ∧
      (s.dropWhile isBlank).head?.any isBlank = false := by
  refine ⟨s.takeWhile isBlank, (List.takeWhile_append_dropWhile ..).symm,
    fun c hc => List.mem_takeWhile_imp hc, ?_⟩
  cases h : s.dropWhile isBlank with
  | nil => rfl
  | cons c r =>
    have := List.head_dropWhile_not isBlank (l := s) (by simp [h])
    simpa [h] using this

/-- What follows a comment, without carriage returns. -/
private theorem behind_comment (y : Text) : '\r' ∉ y →
    (match y with
      | '\r' :: '\n' :: u => u
      | '\r' :: u => u
      | '\n' :: u => u
      | u => u) = if y.head? = some '\n' then y.tail else y := by
  intro hy
  split
  · simp at hy
  · simp at hy
  · rfl
  · next u hn =>
    rw [if_neg]
    intro h
    obtain ⟨v, hv⟩ := List.head?_eq_some_iff.mp h
    exact hn v hv

/-- What a comment leaves of a text without carriage returns. -/
private theorem bind_behind_comment {r : Text} (hr : '\r' ∉ r) :
    ((stripPrefix? commentOpen r).bind fun t => (cutAt commentClose t).map fun m =>
        match m.2.dropWhile isBlank with
        | '\r' :: '\n' :: u => u
        | '\r' :: u => u
        | '\n' :: u => u
        | u => u) =
      (stripPrefix? commentOpen r).bind fun t => (cutAt commentClose t).map fun m =>
          if (m.2.dropWhile isBlank).head? = some '\n' then (m.2.dropWhile isBlank).tail
          else m.2.dropWhile isBlank := by
  rcases hs : stripPrefix? commentOpen r with _ | t
  · rfl
  · rcases hcut : cutAt commentClose t with _ | m
    · simp [hcut]
    · have ht : '\r' ∉ t := fun h => hr (by rw [stripPrefix?_eq_some.mp hs]; simp [h])
      have hm : '\r' ∉ m.2 := fun h => ht (by rw [eq_of_cutAt hcut]; simp [h])
      rw [Option.bind_some, Option.bind_some, hcut, Option.map_some, Option.map_some]
      exact congrArg some (behind_comment _ fun h => hm ((List.dropWhile_sublist _).subset h))

/-- A round without carriage returns. -/
private theorem preambleRound_eq {s : Text} (hr : '\r' ∉ s) :
    preambleRound s =
      if (s.dropWhile isBlank).head? = some '\n' then some (s.dropWhile isBlank).tail
      else (stripPrefix? commentOpen (s.dropWhile isBlank)).bind fun t =>
        (cutAt commentClose t).map fun m =>
          if (m.2.dropWhile isBlank).head? = some '\n' then (m.2.dropWhile isBlank).tail
          else m.2.dropWhile isBlank := by
  have hdrop : '\r' ∉ s.dropWhile isBlank := fun h => hr ((List.dropWhile_sublist _).subset h)
  rw [preambleRound]
  generalize s.dropWhile isBlank = r at hdrop
  have hbind := bind_behind_comment hdrop
  cases r with
  | nil => rfl
  | cons c r =>
    have hc : c ≠ '\r' := fun e => hdrop (by simp [e])
    by_cases hn : c = '\n'
    · subst hn
      rfl
    · rw [if_neg (by simpa using hn), ← hbind]
      split
      · next t h => split at h <;> simp_all
      · rfl

private theorem head_append_congr {u t t' : Text} (h : t.head? = t'.head?) :
    (u ++ t).head? = (u ++ t').head? := by
  cases u with
  | nil => exact h
  | cons c u => rfl

private theorem head_blank_congr {t t' : Text} (h : t.head? = t'.head?) :
    t.head?.any isBlank = t'.head?.any isBlank := by rw [h]

/-- A round takes something off the front, and what it takes does not depend on what stands behind
it, as long as that starts alike. -/
theorem preambleRound_append {s t : Text} (hr : '\r' ∉ s) (h : preambleRound s = some t) :
    ∃ u, u ≠ [] ∧ s = u ++ t ∧ ∀ t', '\r' ∉ t' → t.head? = t'.head? →
      preambleRound (u ++ t') = some t' := by
  rw [preambleRound_eq hr] at h
  obtain ⟨w, hs, hw, hhead⟩ := exists_blank_append s
  have hrw : '\r' ∉ w := fun h => hr (by rw [hs]; simp [h])
  generalize s.dropWhile isBlank = r at h hs hhead
  have hrr : '\r' ∉ r := fun h => hr (by rw [hs]; simp [h])
  split_ifs at h with hn
  · -- a blank line
    obtain ⟨x, rfl⟩ := List.head?_eq_some_iff.mp hn
    obtain rfl : x = t := by simpa using h
    refine ⟨w ++ ['\n'], by simp, by rw [hs]; simp, fun t' ht' _ => ?_⟩
    have hdrop : (w ++ '\n' :: t').dropWhile isBlank = '\n' :: t' :=
      dropWhile_blank_append hw (by simp [isBlank_newline])
    rw [List.append_assoc, List.singleton_append, preambleRound_eq (by simp [hrw, ht']), hdrop]
    rfl
  · -- a comment, with the blanks and the line feed behind it
    obtain ⟨x, hx, hmap⟩ := Option.bind_eq_some_iff.mp h
    obtain ⟨⟨y, z⟩, hcut, rfl⟩ := Option.map_eq_some_iff.mp hmap
    obtain rfl := stripPrefix?_eq_some.mp hx
    obtain rfl := eq_of_cutAt hcut
    obtain ⟨v, hz, hv, hzhead⟩ := exists_blank_append z
    generalize z.dropWhile isBlank = q at hz hzhead
    subst hz
    have hopen : ∀ z', ¬ (commentOpen ++ z').head? = some '\n' := fun z' => by
      simp [commentOpen]
    have hcut' : ∀ q', cutAt commentClose (y ++ commentClose ++ q') = some (y, q') := fun q' =>
      (cutAt_append_self q').mpr ((cutAt_append_self _).mp hcut)
    have hround : ∀ q', '\r' ∉ q' → q'.head?.any isBlank = false →
        preambleRound (w ++ commentOpen ++ y ++ commentClose ++ v ++ q') =
          some (if q'.head? = some '\n' then q'.tail else q') := by
      intro q' hq' hb
      have hmem : '\r' ∉ w ++ (commentOpen ++ (y ++ commentClose ++ (v ++ q'))) := by
        intro hm
        refine hr ?_
        rw [hs]
        simp only [List.mem_append] at hm ⊢
        tauto
      have hdrop : (w ++ (commentOpen ++ (y ++ commentClose ++ (v ++ q')))).dropWhile isBlank =
          commentOpen ++ (y ++ commentClose ++ (v ++ q')) :=
        dropWhile_blank_append hw (by rfl)
      have hassoc : w ++ commentOpen ++ y ++ commentClose ++ v ++ q' =
          w ++ (commentOpen ++ (y ++ commentClose ++ (v ++ q'))) := by simp
      rw [hassoc, preambleRound_eq hmem, hdrop, if_neg (hopen _), stripPrefix?_append,
        Option.bind_some, hcut', Option.map_some]
      simp only [dropWhile_blank_append hv hb]
    by_cases hq : q.head? = some '\n'
    · obtain ⟨q, rfl⟩ := List.head?_eq_some_iff.mp hq
      simp only [List.head?_cons, if_true, List.tail_cons]
      refine ⟨w ++ commentOpen ++ y ++ commentClose ++ v ++ ['\n'], by simp, by rw [hs]; simp,
        fun t' ht' _ => ?_⟩
      have := hround ('\n' :: t') (by simp [ht']) (by simp [isBlank_newline])
      simp only [List.head?_cons, if_true, List.tail_cons] at this
      rw [List.append_assoc _ ['\n'], List.singleton_append]
      exact this
    · rw [if_neg hq]
      refine ⟨w ++ commentOpen ++ y ++ commentClose ++ v, ?_, by rw [hs]; simp,
        fun t' ht' hh => ?_⟩
      · simp [commentOpen]
      · have := hround t' ht' (by rw [← head_blank_congr hh]; exact hzhead)
        rwa [if_neg (by rw [← hh]; exact hq)] at this

/-- What is left behind the preamble does not depend on what it is. -/
theorem dropPreamble_append {n : Nat} {s : Text} (hr : '\r' ∉ s) :
    ∃ u, s = u ++ dropPreamble n s ∧ ∀ x', '\r' ∉ x' → (dropPreamble n s).head? = x'.head? →
      preambleRound x' = none → ∀ k, u.length ≤ k → dropPreamble k (u ++ x') = x' := by
  have hstop : ∀ {x' : Text}, preambleRound x' = none → ∀ k, dropPreamble k x' = x' := by
    intro x' hx k
    cases k with
    | zero => rfl
    | succ k => rw [dropPreamble, hx]
  induction n generalizing s with
  | zero => exact ⟨[], rfl, fun x' _ _ hx k _ => hstop hx k⟩
  | succ n ih =>
    rcases hround : preambleRound s with _ | t
    · have hs : dropPreamble (n + 1) s = s := by rw [dropPreamble, hround]
      rw [hs]
      exact ⟨[], rfl, fun x' _ _ hx k _ => hstop hx k⟩
    · have hs : dropPreamble (n + 1) s = dropPreamble n t := by rw [dropPreamble, hround]
      obtain ⟨v, hv, rfl, hround'⟩ := preambleRound_append hr hround
      obtain ⟨u, ht, hu⟩ := ih fun h => hr (List.mem_append_right v h)
      rw [hs]
      refine ⟨v ++ u, by rw [List.append_assoc, ← ht], fun x' hx' hh hx k hk => ?_⟩
      have hvlen := List.length_pos_iff.mpr hv
      rw [List.length_append] at hk
      obtain ⟨k, rfl⟩ : ∃ j, k = j + 1 := ⟨k - 1, by omega⟩
      have hru : '\r' ∉ u := fun h => hr (List.mem_append_right v (by rw [ht]; simp [h]))
      have hhead : t.head? = (u ++ x').head? := by
        rw [ht]
        exact head_append_congr hh
      rw [List.append_assoc, dropPreamble, hround' (u ++ x') (by simp [hru, hx']) hhead]
      exact hu x' hx' hh hx k (by omega)

/-! ### Splitting what was rebuilt -/

/-- Without carriage returns nothing is translated. -/
theorem crlfToLf_of_not_mem {t : Text} (h : '\r' ∉ t) : crlfToLf t = t := by
  fun_induction crlfToLf t with
  | case1 => rfl
  | case2 s ih => simp at h
  | case3 c s hne ih => rw [ih fun hm => h (by simp [hm])]

/-- A delimiter, with its blanks, is the first line. -/
private theorem exists_of_opensDelimiter {s : Text} (h : opensDelimiter s = true) :
    ∃ b x, s = "---".toList ++ (b ++ '\n' :: x) ∧ ∀ c ∈ b, isBlank c = true := by
  rw [opensDelimiter] at h
  rcases hp : stripPrefix? "---".toList s with _ | r
  · rw [hp] at h
    cases h
  · rw [hp] at h
    obtain ⟨b, hr, hb, -⟩ := exists_blank_append r
    obtain ⟨x, hx⟩ := List.head?_eq_some_iff.mp (beq_iff_eq.mp h)
    exact ⟨b, x, by rw [stripPrefix?_eq_some.mp hp, ← hx, ← hr], hb⟩

private theorem opensDelimiter_append {b : Text} (hb : ∀ c ∈ b, isBlank c = true) (x : Text) :
    opensDelimiter ("---".toList ++ (b ++ '\n' :: x)) = true := by
  rw [opensDelimiter, stripPrefix?_append]
  dsimp only
  rw [dropWhile_blank_append hb (by simp [isBlank_newline])]
  simp

private theorem preambleRound_dash (x : Text) : preambleRound ('-' :: x) = none := by
  simp [preambleRound, isBlank, commentOpen, stripPrefix?]

private theorem cutAt_newline_blanks {b : Text} (hb : ∀ c ∈ b, isBlank c = true) (x : Text) :
    cutAt ['\n'] (b ++ '\n' :: x) = some (b, x) :=
  cutAt_append_cons (fun h => absurd (hb _ h) (by decide)) x

/-- The scan for the opening delimiter passes over `u`. -/
def PassesPreamble (u : Text) : Prop :=
  ∀ x, '\r' ∉ x → let s := u ++ ("---".toList ++ '\n' :: x)
    (if opensDelimiter s then s else dropPreamble s.length s) = "---".toList ++ '\n' :: x

private theorem passesPreamble_nil : PassesPreamble [] := by
  intro x _ s
  exact if_pos (opensDelimiter_append (b := []) (by simp) x)

private theorem passesPreamble_dropPreamble {t y : Text} {n : Nat} (hr : '\r' ∉ t)
    (hy : dropPreamble n t = '-' :: y) (hopen : opensDelimiter t = false)
    (hopen' : opensDelimiter ('-' :: y) = true) : ∃ u, t = u ++ '-' :: y ∧ PassesPreamble u := by
  obtain ⟨u, ht, hu⟩ := dropPreamble_append (n := n) hr
  rw [hy] at ht hu
  refine ⟨u, ht, fun x hx => ?_⟩
  intro s
  have hx' : '\r' ∉ "---".toList ++ '\n' :: x := by simp [hx]
  have hstop : ∀ k, u.length ≤ k → dropPreamble k s = "---".toList ++ '\n' :: x :=
    hu _ hx' rfl (preambleRound_dash _)
  have hne : u ≠ [] := by
    rintro rfl
    rw [List.nil_append] at ht
    rw [ht, hopen'] at hopen
    cases hopen
  have hs : opensDelimiter s = false := by
    rw [Bool.eq_false_iff]
    intro hs
    obtain ⟨b, z, hz, -⟩ := exists_of_opensDelimiter hs
    have hround : preambleRound s = none := by
      rw [hz]
      exact preambleRound_dash _
    have := hstop u.length le_rfl
    obtain ⟨k, hk⟩ : ∃ k, u.length = k + 1 := ⟨u.length - 1, by
      have := List.length_pos_iff.mpr hne
      omega⟩
    rw [hk, dropPreamble, hround] at this
    exact hne (List.append_left_eq_self.mp this)
  rw [hs, if_neg (by decide)]
  exact hstop _ (by simp [s])

/-- What a split says about its parts. -/
structure SplitParts (sp : FrontmatterSplit) : Prop where
  lines : ∃ ls, OpenLines ls ∧ sp.fmText = unlines (ls ++ [[]])
  body : sp.bodyWithLeadingNewline = [] ∨ sp.bodyWithLeadingNewline.head? = some '\n'
  fm_cr : '\r' ∉ sp.fmText
  preamble_cr : '\r' ∉ sp.preamble
  body_cr : '\r' ∉ sp.bodyWithLeadingNewline
  preamble : PassesPreamble sp.preamble

/-- The parts of a document without carriage returns. -/
theorem splitFrontmatter_parts {t : Text} {sp : FrontmatterSplit} (hr : '\r' ∉ t)
    (h : splitFrontmatter t = some sp) : SplitParts sp := by
  rw [splitFrontmatter, crlfToLf_of_not_mem hr] at h
  have hpass : ∀ x, (if opensDelimiter t then t else dropPreamble t.length t) = x →
      opensDelimiter x = true → ∃ u, t = u ++ x ∧ PassesPreamble u := by
    intro x hx ho
    split_ifs at hx with hopen
    · exact ⟨[], hx, passesPreamble_nil⟩
    · obtain ⟨b, y, rfl, -⟩ := exists_of_opensDelimiter ho
      exact passesPreamble_dropPreamble hr hx (by simpa using hopen) ho
  generalize (if opensDelimiter t then t else dropPreamble t.length t) = after at h hpass
  split_ifs at h with hopen
  obtain ⟨u, ht, hu⟩ := hpass after rfl hopen
  obtain ⟨b, x, rfl, hb⟩ := exists_of_opensDelimiter hopen
  have htake : t.take (t.length - ("---".toList ++ (b ++ '\n' :: x)).length) = u := by
    rw [ht]
    simp
  obtain ⟨m, hm, hmap⟩ := Option.bind_eq_some_iff.mp h
  obtain ⟨c, hc, rfl⟩ := Option.map_eq_some_iff.mp hmap
  have hdrop : ("---".toList ++ (b ++ '\n' :: x)).drop 3 = b ++ '\n' :: x := rfl
  rw [hdrop, cutAt_newline_blanks hb] at hm
  obtain rfl := Option.some.inj hm
  obtain ⟨ls, hls, hfm, hbody⟩ := exists_of_lineSearch hc
  have hx : '\r' ∉ x := fun hx => hr (by rw [ht]; simp [hx])
  rw [htake]
  exact {
    lines := ⟨ls, hls, hfm⟩
    body := hbody
    fm_cr := fun h => hx (List.mem_of_mem_take h)
    preamble_cr := fun h => hr (by rw [ht]; simp [h])
    body_cr := fun h => hx (List.mem_of_mem_drop h)
    preamble := hu }

theorem unlines_concat_nil {ls : List Text} (hne : ls ≠ []) :
    unlines (ls ++ [[]]) = unlines ls ++ ['\n'] :=
  unlines_append hne (by simp)

/-- A character in none of the lines is not in the text. -/
theorem not_mem_unlines {c : Char} (hc : c ≠ '\n') {ls : List Text}
    (h : ∀ l ∈ ls, c ∉ l) : c ∉ unlines ls := by
  induction ls with
  | nil => simp [unlines]
  | cons l ls ih =>
    rcases eq_or_ne ls [] with rfl | hne
    · simpa [unlines] using h
    · have := unlines_append (a := [l]) (by simp) hne
      rw [List.singleton_append] at this
      have hl : c ∉ unlines [l] := by simpa [unlines] using h l List.mem_cons_self
      rw [this]
      simp [hl, hc, ih fun m hm => h m (List.mem_cons_of_mem l hm)]

/-- Behind a preamble and the opening delimiter, the split is the search for the closing one. -/
theorem splitFrontmatter_opened {u x : Text} (hu : PassesPreamble u) (hur : '\r' ∉ u)
    (hx : '\r' ∉ x) :
    splitFrontmatter (u ++ ("---".toList ++ '\n' :: x)) =
      (lineSearch closeDelimiter true x).map fun c =>
        { preamble := u, fmText := x.take c.1, bodyWithLeadingNewline := x.drop (c.1 + c.2) } := by
  have hcr : '\r' ∉ u ++ ("---".toList ++ '\n' :: x) := by simp [hur, hx]
  have hpass := hu x hx
  rw [splitFrontmatter, crlfToLf_of_not_mem hcr]
  dsimp only at hpass ⊢
  have hopen := opensDelimiter_append (b := []) (by simp) x
  rw [List.nil_append] at hopen
  have hcut := cutAt_newline_blanks (b := []) (by simp) x
  rw [List.nil_append] at hcut
  have hdrop : ("---".toList ++ '\n' :: x).drop 3 = '\n' :: x := rfl
  rw [hpass, if_pos hopen, hdrop, hcut, Option.bind_some]
  simp only [List.length_append, Nat.add_sub_cancel, List.take_left']

/-- The closing line is found in front of the body. -/
theorem closeDelimiter_body {body : Text} (h : body = [] ∨ body.head? = some '\n') :
    closeDelimiter ("---".toList ++ body) = some 3 := by
  rw [closeDelimiter, stripPrefix?_append]
  rcases h with rfl | hbody
  · rfl
  · obtain ⟨b, rfl⟩ := List.head?_eq_some_iff.mp hbody
    rfl

/-- A rebuilt document splits into the frontmatter it was rebuilt with, and what it was. -/
theorem splitFrontmatter_rebuild {sp : FrontmatterSplit} (hsp : SplitParts sp) {ls : List Text}
    (hne : ls ≠ []) (hls : OpenLines ls) (hcr : ∀ l ∈ ls, '\r' ∉ l) :
    '\r' ∉ rebuild sp (unlines (ls ++ [[]])) ∧
      splitFrontmatter (rebuild sp (unlines (ls ++ [[]]))) =
        some { sp with fmText := unlines (ls ++ [[]]) } := by
  have hends : endsWithNewline (unlines (ls ++ [[]])) = true := by
    rw [unlines_concat_nil hne, endsWithNewline]
    simp
  have hshape : rebuild sp (unlines (ls ++ [[]])) =
      sp.preamble ++ ("---".toList ++ '\n' :: (unlines (ls ++ [[]]) ++
        ("---".toList ++ sp.bodyWithLeadingNewline))) := by
    rw [rebuild, hends]
    simp
  have hfm : '\r' ∉ unlines (ls ++ [[]]) := by
    refine not_mem_unlines (by decide) fun l hl => ?_
    rcases List.mem_append.mp hl with hl | hl
    · exact hcr l hl
    · simp [List.mem_singleton.mp hl]
  have hx : '\r' ∉ unlines (ls ++ [[]]) ++ ("---".toList ++ sp.bodyWithLeadingNewline) := by
    simp [hfm, hsp.body_cr]
  have hclose := closeDelimiter_body hsp.body
  have hsearch : lineSearch closeDelimiter true
      (unlines (ls ++ [[]]) ++ ("---".toList ++ sp.bodyWithLeadingNewline)) =
        some ((unlines (ls ++ [[]])).length, 3) := by
    rw [lineSearch_lines hls]
    rw [show "---".toList ++ sp.bodyWithLeadingNewline =
      '-' :: ("--".toList ++ sp.bodyWithLeadingNewline) from rfl] at hclose ⊢
    rw [lineSearch_hit hclose]
    rfl
  have hbody : (unlines (ls ++ [[]]) ++ ("---".toList ++ sp.bodyWithLeadingNewline)).drop
      ((unlines (ls ++ [[]])).length + 3) = sp.bodyWithLeadingNewline := by
    rw [List.drop_length_add_append]
    rfl
  rw [hshape]
  refine ⟨?_, ?_⟩
  · simp only [List.mem_append, List.mem_cons, not_or]
    simp [hsp.preamble_cr, hfm, hsp.body_cr]
  · rw [splitFrontmatter_opened hsp.preamble hsp.preamble_cr hx, hsearch, Option.map_some, hbody,
      List.take_left']
    rfl

/-! ### Edited frontmatter -/

/-- A frontmatter that the next reader finds again: whole lines without carriage returns, none of
which closes it. -/
def Rereadable (fm : Text) : Prop :=
  ∃ ls, ls ≠ [] ∧ OpenLines ls ∧ (∀ l ∈ ls, '\r' ∉ l) ∧ fm = unlines (ls ++ [[]])

private theorem lines_of_openLines {ls : List Text} (h : OpenLines ls) :
    lines (unlines (ls ++ [[]])) = ls ++ [[]] := by
  refine lines_unlines (fun l hl => ?_) (by simp)
  rcases List.mem_append.mp hl with hl | hl
  · exact (h l hl).1
  · simp [List.mem_singleton.mp hl]

/-- A line with a colon does not close the frontmatter. -/
theorem closesFrontmatter_of_colon {l : Text} (h : ':' ∈ l) :
    closesFrontmatter l = false := by
  rw [closesFrontmatter]
  rcases hp : stripPrefix? "---".toList l with _ | r
  · rfl
  · rw [stripPrefix?_eq_some.mp hp, List.mem_append] at h
    have hr : ':' ∈ r := h.resolve_left (by decide)
    rw [List.all_eq_false]
    exact ⟨':', hr, by decide⟩

theorem keyLine_nil (key : Text) : keyLine key [] = none := by
  cases key <;> rfl

/-- A frontmatter with a field is one the next reader finds again. -/
theorem SplitParts.rereadable {sp : FrontmatterSplit} (h : SplitParts sp) {key : Text}
    (hkey : readFmField sp.fmText key ≠ none) : Rereadable sp.fmText := by
  obtain ⟨ls, hls, hfm⟩ := h.lines
  refine ⟨ls, ?_, hls, fun l hl hr => h.fm_cr ?_, hfm⟩
  · rintro rfl
    refine hkey ?_
    have hnil : Text.lines [] = [[]] := rfl
    have hfm' : sp.fmText = [] := hfm
    rw [hfm', readFmField, hnil, findKeyLine, keyLine_nil]
    rfl
  · rw [hfm]
    exact mem_of_mem_lines (by rw [lines_of_openLines hls]; simp [hl]) hr

/-- A frontmatter stays rereadable when a field is replaced by one line. -/
theorem Rereadable.replaceFmFieldRaw {fm key v : Text} (h : Rereadable fm) (hv : '\n' ∉ v)
    (hvr : '\r' ∉ v) : Rereadable (replaceFmFieldRaw fm key v) := by
  obtain ⟨ls, hne, hls, hcr, rfl⟩ := h
  refine ⟨ls.map (replaceLine key v), by simpa using hne, ?_, ?_, ?_⟩
  · intro l hl
    obtain ⟨m, hm, rfl⟩ := List.mem_map.mp hl
    refine ⟨not_mem_replaceLine (by decide) hv (hls m hm).1, ?_⟩
    rw [replaceLine]
    rcases keyLine key m with _ | rest
    · exact (hls m hm).2
    · exact closesFrontmatter_of_colon (by simp)
  · intro l hl
    obtain ⟨m, hm, rfl⟩ := List.mem_map.mp hl
    exact not_mem_replaceLine (by decide) hvr (hcr m hm)
  · rw [Frontmatter.replaceFmFieldRaw, lines_of_openLines hls, List.map_append]
    simp [replaceLine, keyLine_nil]

/-- An insertion behind a field that is there. -/
theorem Rereadable.insertFmField {fm key s anchor : Text} (h : Rereadable fm) (hk : IsIdent key)
    (hs : '\n' ∉ s) (hsr : '\r' ∉ s) (nq : Bool) (hanchor : readFmField fm anchor ≠ none) :
    Rereadable (insertFmField fm key (some s) (some anchor) nq) := by
  obtain ⟨ls, hne, hls, hcr, rfl⟩ := h
  have hfind : findKeyLine anchor (lines (unlines (ls ++ [[]]))) ≠ none := by
    simpa [readFmField] using hanchor
  obtain ⟨⟨a, rest, b⟩, hm⟩ := Option.ne_none_iff_exists'.mp hfind
  have hinsert : Frontmatter.insertFmField (unlines (ls ++ [[]])) key (some s) (some anchor) nq =
      insertAfter anchor (newLine key (some s) nq) (a, rest, b) := by
    rw [Frontmatter.insertFmField, Option.bind_some, hm]
    rfl
  have hline : '\n' ∉ newLine key (some s) nq ∧ '\r' ∉ newLine key (some s) nq ∧
      ':' ∈ newLine key (some s) nq := by
    have hr : '\r' ∉ key := fun h => absurd (List.all_eq_true.mp hk.2 _ h) (by decide)
    simp [newLine, hk.newline_not_mem, newline_not_mem_serialize nq hs, hr,
      not_mem_serialize nq (by decide) hsr]
  obtain ⟨hfm, hb, -⟩ := findKeyLine_eq_some hm
  rw [lines_of_openLines hls] at hfm
  -- the anchor has a colon, so it is not the empty text behind the last line feed
  obtain ⟨b, rfl⟩ : ∃ b', b = b' ++ [[]] := by
    rcases List.eq_nil_or_concat' b with rfl | ⟨b', x, rfl⟩
    · have := congrArg List.getLast? hfm
      simp at this
    · have hlast := congrArg List.getLast? hfm
      rw [← List.cons_append, ← List.append_assoc, List.getLast?_concat, List.getLast?_concat]
        at hlast
      exact ⟨b', by rw [← Option.some.inj hlast]⟩
  have hls' : ls = a ++ (anchor ++ ':' :: rest) :: b := by
    have hlast : ls ++ [[]] = (a ++ (anchor ++ ':' :: rest) :: b) ++ [[]] := by
      rw [hfm]
      simp
    exact List.append_cancel_right hlast
  have hrest : rest.getLast? ≠ some '\r' := by
    intro h
    have : '\r' ∈ rest := List.mem_of_getLast? h
    exact hcr (anchor ++ ':' :: rest) (by simp [hls']) (by simp [this])
  refine ⟨a ++ (anchor ++ ':' :: rest) :: newLine key (some s) nq :: b, by simp, ?_, ?_, ?_⟩
  · intro l hl
    by_cases hnew : l = newLine key (some s) nq
    · rw [hnew]
      exact ⟨hline.1, closesFrontmatter_of_colon hline.2.2⟩
    · refine hls l ?_
      rw [hls']
      simp only [List.mem_append, List.mem_cons, hnew, false_or] at hl ⊢
      exact hl
  · intro l hl
    by_cases hnew : l = newLine key (some s) nq
    · rw [hnew]
      exact hline.2.1
    · refine hcr l ?_
      rw [hls']
      simp only [List.mem_append, List.mem_cons, hnew, false_or] at hl ⊢
      exact hl
  · rw [hinsert, insertAfter, if_neg hrest]
    simp

end Frontmatter

end CoordinatorCore
