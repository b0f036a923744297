import CoordinatorCore.Text.Search

/-!
# The fenced task spine of a plan body

`locate_fenced_block` of `frontmatter/body_blocks.py`, at its default heading `Tasks` and info
string `yaml plan-tasks`. The source is scanned through a copy in which every HTML comment is
overwritten with spaces, so all offsets into the copy are offsets into the source.

The regular expressions are written out as scanners. `^` is the search from line starts
(`lineSearch`); the runs `\s+` and `\s*` may cross line feeds, which is why `spaceToEol` looks
for the last line feed of the run of white space behind the heading; a lazy `(.*?)` ends at the
first closer.
-/

namespace CoordinatorCore

open Text

namespace BodyBlocks

/-! ### Patterns -/

/-- The opener of a fenced task spine, its line feed included. -/
def fenceOpen : Text := "```yaml plan-tasks\n".toList

/-- The closer of a fenced block. -/
def fenceClose : Text := "\n```".toList

def commentOpen : Text := "<!--".toList

def commentClose : Text := "-->".toList

/-- `_HTML_COMMENT_RE.sub` with spaces. -/
def blankComments (source : Text) : Text := blankSpans commentOpen commentClose source

/-- The first match of the fence pattern: the text before it, the body, the text behind it. -/
def findFence (s : Text) : Option (Text × Text × Text) :=
  (cutAt fenceOpen s).bind fun m => (cutAt fenceClose m.2).map fun n => (m.1, n.1, n.2)

/-- `\s*$` at the front of `s`: how much white space it takes. The run is taken whole at the end
of the text, and otherwise up to its last line feed. -/
def spaceToEol (s : Text) : Option Nat :=
  if s.dropWhile isSpace = [] then some (s.takeWhile isSpace).length
  else
    let upto := (s.takeWhile isSpace).rdropWhile (· ≠ '\n')
    if upto = [] then none else some (upto.length - 1)

/-- `##\s+Tasks\s*$` at the front of `s`: the length of the match. -/
def headingLength (s : Text) : Option Nat :=
  (stripPrefix? "##".toList s).bind fun r =>
    if r.takeWhile isSpace = [] then none
    else (stripPrefix? "Tasks".toList (r.dropWhile isSpace)).bind fun r' =>
      (spaceToEol r').map fun n => 2 + (r.takeWhile isSpace).length + 5 + n

/-- `##\s+\S` at the front of `s`. -/
def nextHeading (s : Text) : Option Nat :=
  (stripPrefix? "##".toList s).bind fun r =>
    if r.takeWhile isSpace = [] ∨ r.dropWhile isSpace = [] then none
    else some (2 + (r.takeWhile isSpace).length + 1)

/-- The first line start at which `p` matches, with the length of the match; `b` says whether the
front of the text is a line start. -/
def lineSearch (p : Text → Option Nat) : Bool → Text → Option (Nat × Nat)
  | _, [] => none
  | b, c :: cs =>
    match (if b then p (c :: cs) else none) with
    | some n => some (0, n)
    | none => (lineSearch p (c == '\n') cs).map fun m => (m.1 + 1, m.2)

/-! ### Locating -/

/-- The outcome on the comment-blanked copy. -/
inductive ScanResult
  | absent
  | malformed
  | located (start stop : Nat)
deriving DecidableEq

/-- The section of the heading: the text up to the next heading, or all of it. -/
def sectionText (afterHeading : Text) : Text :=
  match lineSearch nextHeading true afterHeading with
  | some (k, _) => afterHeading.take k
  | none => afterHeading

/-- Where the fence body lies in the comment-blanked copy. -/
def locateScan (scan : Text) : ScanResult :=
  match findFence scan with
  | none => .absent
  | some (_, _, behind) =>
    if (findFence behind).isSome then .malformed
    else
      match lineSearch headingLength true scan with
      | none => .malformed
      | some (k, n) =>
        match findFence (sectionText (scan.drop (k + n))) with
        | none => .malformed
        | some (before, body, _) =>
          let start := k + n + (before ++ fenceOpen).length
          .located start (start + body.length)

/-- `LocateResult`; the body is sliced from the source, not from the copy. -/
inductive LocateResult
  | absent
  | malformed
  | located (body : Text) (start stop : Nat)
deriving DecidableEq

/-- `locate_fenced_block`. -/
def locateFencedBlock (source : Text) : LocateResult :=
  match locateScan (blankComments source) with
  | .absent => .absent
  | .malformed => .malformed
  | .located start stop => .located ((source.drop start).take (stop - start)) start stop

/-! ### The fence of a scanned text -/

/-- A fence that is found is one: its front, its content and its close. -/
theorem findFence_eq_some {s a b c : Text} (h : findFence s = some (a, b, c)) :
    s = a ++ fenceOpen ++ b ++ fenceClose ++ c := by
  obtain ⟨m, hm, hmap⟩ := Option.bind_eq_some_iff.mp h
  obtain ⟨n, hn, he⟩ := Option.map_eq_some_iff.mp hmap
  cases he
  rw [eq_of_cutAt hm, eq_of_cutAt hn]
  simp

/-- There is no fence exactly when no opener has a closer behind it. -/
theorem findFence_eq_none {s : Text} :
    findFence s = none ↔ ∀ a b c, s ≠ a ++ fenceOpen ++ b ++ fenceClose ++ c := by
  constructor
  · rintro h a b c rfl
    obtain ⟨m, hm, hlen⟩ := exists_cutAt_append fenceOpen a (b ++ fenceClose ++ c)
    have hs : a ++ fenceOpen ++ (b ++ fenceClose ++ c) = a ++ fenceOpen ++ b ++ fenceClose ++ c := by
      simp
    rw [hs] at hm
    rw [findFence, hm, Option.bind_some, Option.map_eq_none_iff, cutAt_eq_none_iff] at h
    refine h (List.IsInfix.trans ⟨b, c, rfl⟩ (List.IsSuffix.isInfix ?_))
    refine List.suffix_of_suffix_length_le ⟨a ++ fenceOpen, hs⟩
      ⟨m.1 ++ fenceOpen, (eq_of_cutAt hm).symm⟩ ?_
    have := congrArg List.length (eq_of_cutAt hm)
    simp only [List.length_append] at this ⊢
    omega
  · intro h
    rcases hf : findFence s with _ | ⟨a, b, c⟩
    · rfl
    · exact absurd (findFence_eq_some hf) (h a b c)

/-- A text without a fence has none in its rear. -/
theorem findFence_none_of_append {a b : Text} (h : findFence (a ++ b) = none) :
    findFence b = none := by
  rw [findFence_eq_none] at h ⊢
  rintro x y z rfl
  exact h (a ++ x) y z (by simp)

/-- What `locateScan` finds: the text falls into the part up to the heading, the rest of the
section up to the opener, the body, and the text behind the closer. -/
structure Fence (s upto before body tail : Text) : Prop where
  text : s = upto ++ (before ++ fenceOpen ++ body ++ fenceClose ++ tail)
  once : ∃ a b c, findFence s = some (a, b, c) ∧ findFence c = none
  heading : ∃ k n, lineSearch headingLength true s = some (k, n) ∧ k + n = upto.length
  inSection : ∀ m, lineSearch nextHeading true
      (before ++ fenceOpen ++ body ++ fenceClose ++ tail) = some m →
    (before ++ fenceOpen ++ body ++ fenceClose).length ≤ m.1
  first : cutAt fenceOpen (before ++ fenceOpen) = some (before, [])
  closed : cutAt fenceClose (body ++ fenceClose) = some (body, [])

private theorem findFence_of_first {before body tail : Text}
    (hf : cutAt fenceOpen (before ++ fenceOpen) = some (before, []))
    (hc : cutAt fenceClose (body ++ fenceClose) = some (body, [])) :
    findFence (before ++ fenceOpen ++ body ++ fenceClose ++ tail) = some (before, body, tail) := by
  have h1 := cutAt_append_left (b := body ++ fenceClose ++ tail) hf
  have h2 := cutAt_append_left (b := tail) hc
  rw [List.nil_append] at h1 h2
  have hs : before ++ fenceOpen ++ body ++ fenceClose ++ tail =
      before ++ fenceOpen ++ (body ++ fenceClose ++ tail) := by simp
  rw [findFence, hs, h1, Option.bind_some, h2]
  rfl

private theorem exists_sectionText_append (t : Text) :
    ∃ r, t = sectionText t ++ r ∧
      ∀ m, lineSearch nextHeading true t = some m → (sectionText t).length ≤ m.1 := by
  rw [sectionText]
  rcases lineSearch nextHeading true t with _ | ⟨k, n⟩
  · exact ⟨[], by simp, by simp⟩
  · refine ⟨t.drop k, (List.take_append_drop k t).symm, ?_⟩
    rintro m ⟨⟩
    exact List.length_take_le k t

private theorem sectionText_append {w r : Text}
    (h : ∀ m, lineSearch nextHeading true (w ++ r) = some m → w.length ≤ m.1) :
    ∃ r', sectionText (w ++ r) = w ++ r' := by
  rw [sectionText]
  rcases hl : lineSearch nextHeading true (w ++ r) with _ | ⟨k, n⟩
  · exact ⟨r, rfl⟩
  · refine ⟨r.take (k - w.length), ?_⟩
    dsimp only
    rw [List.take_append, List.take_of_length_le (h _ hl)]

/-- A block that is located is the content of a fence. -/
theorem locateScan_eq_located {s : Text} {i j : Nat} :
    locateScan s = .located i j ↔ ∃ upto before body tail,
      Fence s upto before body tail ∧ i = (upto ++ before ++ fenceOpen).length ∧
        j = i + body.length := by
  constructor
  · intro h
    rw [locateScan] at h
    split at h
    · cases h
    · next a b c hfence =>
      split_ifs at h with hmore
      split at h
      · cases h
      · next k n hhead =>
        split at h
        · cases h
        · next before body q hsec =>
          obtain ⟨rfl, rfl⟩ := ScanResult.located.inj h
          obtain ⟨r, hr, hnext⟩ := exists_sectionText_append (s.drop (k + n))
          -- the section is cut at the fence and at its end
          have hsecEq := findFence_eq_some hsec
          obtain ⟨m, hm, hmap⟩ := Option.bind_eq_some_iff.mp hsec
          obtain ⟨m', hm', he⟩ := Option.map_eq_some_iff.mp hmap
          cases he
          have hmEq := eq_of_cutAt hm
          have hmEq' := eq_of_cutAt hm'
          have hdrop : s.drop (k + n) =
              m.1 ++ fenceOpen ++ m'.1 ++ fenceClose ++ (m'.2 ++ r) := by
            rw [hr, hsecEq]
            simp
          -- the heading found ends inside the text
          have hlen : (s.take (k + n)).length = k + n := by
            have hpos : 0 < fenceOpen.length := by decide
            have := congrArg List.length hdrop
            simp only [List.length_drop, List.length_append] at this
            rw [List.length_take]
            omega
          refine ⟨s.take (k + n), m.1, m'.1, m'.2 ++ r, ⟨?_, ⟨a, b, c, hfence, by simpa using hmore⟩,
            ⟨k, n, hhead, hlen.symm⟩, ?_, ?_, ?_⟩, ?_, rfl⟩
          · rw [← hdrop, List.take_append_drop]
          · intro x hx
            rw [← hdrop] at hx
            have := hnext x hx
            rw [hsecEq] at this
            simp only [List.length_append] at this ⊢
            omega
          · rw [hmEq] at hm
            exact (cutAt_append_self _).mp hm
          · rw [hmEq'] at hm'
            exact (cutAt_append_self _).mp hm'
          · simp only [List.length_append] at hlen ⊢
            omega
  · rintro ⟨upto, before, body, tail, h, rfl, rfl⟩
    obtain ⟨a, b, c, hfence, hmore⟩ := h.once
    obtain ⟨k, n, hhead, hkn⟩ := h.heading
    -- nothing behind the fence belongs to an earlier section
    obtain ⟨r, hr⟩ := sectionText_append h.inSection
    have hdrop : s.drop (k + n) = before ++ fenceOpen ++ body ++ fenceClose ++ tail := by
      rw [hkn, h.text, List.drop_left]
    rw [locateScan, hfence]
    dsimp only
    rw [hmore, hhead]
    simp only [Option.isSome_none, Bool.false_eq_true, if_false]
    rw [hdrop, hr, findFence_of_first h.first h.closed]
    simp only [List.length_append, hkn]
    congr 1

/-! ### Replacing the body -/

section Locality

variable {d : Char}

private theorem takeWhile_append_stop {p : Char → Bool} (hd : p d = false) (c r : Text) :
    (c ++ d :: r).takeWhile p = c.takeWhile p := by
  induction c with
  | nil => simp [hd]
  | cons e c ih =>
    rw [List.cons_append, List.takeWhile_cons, List.takeWhile_cons, ih]

private theorem dropWhile_append_stop {p : Char → Bool} (hd : p d = false) (c r : Text) :
    (c ++ d :: r).dropWhile p = c.dropWhile p ++ d :: r := by
  induction c with
  | nil => simp [hd]
  | cons e c ih =>
    rw [List.cons_append, List.dropWhile_cons, List.dropWhile_cons, ih]
    split_ifs <;> rfl

private theorem stripPrefix?_append_stop {p : Text} (hd : d ∉ p) (c r : Text) :
    stripPrefix? p (c ++ d :: r) = (stripPrefix? p c).map (· ++ d :: r) := by
  induction p generalizing c with
  | nil => rfl
  | cons e p ih =>
    cases c with
    | nil =>
      have hne : ¬ e = d := fun h => hd (by simp [h])
      simp [stripPrefix?, hne]
    | cons x c =>
      rw [List.cons_append, stripPrefix?, stripPrefix?]
      split_ifs
      · exact ih (fun h => hd (by simp [h])) c
      · rfl

/-- A heading pattern in front of a character that ends it does not look behind that character. -/
private theorem headingLength_append_stop (hsp : isSpace d = false) (hhash : d ∉ "##".toList)
    (htasks : d ∉ "Tasks".toList) (c r r' : Text) :
    headingLength (c ++ d :: r) = headingLength (c ++ d :: r') := by
  rw [headingLength, headingLength, stripPrefix?_append_stop hhash, stripPrefix?_append_stop hhash]
  rcases stripPrefix? "##".toList c with _ | x
  · rfl
  · simp only [Option.map_some, Option.bind_some, takeWhile_append_stop hsp,
      dropWhile_append_stop hsp, stripPrefix?_append_stop htasks]
    split_ifs
    · rfl
    · rcases stripPrefix? "Tasks".toList (x.dropWhile isSpace) with _ | y
      · rfl
      · have hne : ∀ z : Text, y.dropWhile isSpace ++ d :: z ≠ [] := by simp
        simp only [Option.map_some, Option.bind_some, spaceToEol, takeWhile_append_stop hsp,
          dropWhile_append_stop hsp, if_neg (hne _)]

private theorem nextHeading_append_stop (hsp : isSpace d = false) (hhash : d ∉ "##".toList)
    (c r r' : Text) : nextHeading (c ++ d :: r) = nextHeading (c ++ d :: r') := by
  rw [nextHeading, nextHeading, stripPrefix?_append_stop hhash, stripPrefix?_append_stop hhash]
  rcases stripPrefix? "##".toList c with _ | x
  · rfl
  · have hne : ∀ z : Text, x.dropWhile isSpace ++ d :: z ≠ [] := by simp
    simp only [Option.map_some, Option.bind_some, takeWhile_append_stop hsp,
      dropWhile_append_stop hsp, hne, or_false]

end Locality

/-- The line starts of `t`, as the places where it can be cut; `b` says whether its front is
one. -/
def LineStart (b : Bool) (u : Text) : Prop := if u = [] then b = true else u.getLast? = some '\n'

/-- `p` matches at no line start in front of the seam of `c ++ t`. -/
def NoHit (p : Text → Option Nat) (b : Bool) (c t : Text) : Prop :=
  ∀ u v, c = u ++ v → v ≠ [] → LineStart b u → p (v ++ t) = none

private theorem NoHit.of_cons {p : Text → Option Nat} {b : Bool} {d : Char} {c t : Text}
    (h : NoHit p b (d :: c) t) : NoHit p (d == '\n') c t := by
  intro u v hc hv hu
  refine h (d :: u) v (by rw [hc]; rfl) hv ?_
  rw [LineStart] at hu ⊢
  rw [if_neg (List.cons_ne_nil d u)]
  split_ifs at hu with hnil
  · simpa [hnil] using hu
  · rw [List.getLast?_cons_of_ne_nil hnil, hu]

/-- No hit in front of the seam means that the search runs past it. -/
private theorem lineSearch_of_noHit {p : Text → Option Nat} {b : Bool} {c t : Text}
    (h : NoHit p b c t) {m : Nat × Nat} (hm : lineSearch p b (c ++ t) = some m) :
    c.length ≤ m.1 := by
  induction c generalizing b m with
  | nil => exact Nat.zero_le _
  | cons d c ih =>
    have hnone : (if b then p (d :: (c ++ t)) else none) = none := by
      split_ifs with hb
      · exact h [] (d :: c) rfl (by simp) (by simpa [LineStart] using hb)
      · rfl
    rw [List.cons_append, lineSearch, hnone] at hm
    obtain ⟨m', hm', rfl⟩ := Option.map_eq_some_iff.mp hm
    simpa using ih h.of_cons hm'

private theorem noHit_of_lineSearch {p : Text → Option Nat} {b : Bool} {c t : Text}
    (h : ∀ m, lineSearch p b (c ++ t) = some m → c.length ≤ m.1) : NoHit p b c t := by
  induction c generalizing b with
  | nil =>
    intro u v hc hv
    exact absurd (List.append_eq_nil_iff.mp hc.symm).2 hv
  | cons d c ih =>
    intro u v hc hv hu
    cases u with
    | nil =>
      obtain rfl : d :: c = v := hc
      have hb : b = true := by simpa [LineStart] using hu
      rcases hp : p (d :: c ++ t) with _ | n
      · rfl
      · have hp' : p (d :: (c ++ t)) = some n := hp
        have := h (0, n) (by rw [List.cons_append, lineSearch, hb, if_pos rfl, hp'])
        simp at this
    | cons e u =>
      obtain rfl : d = e := (List.cons.inj hc).1
      obtain rfl : c = u ++ v := (List.cons.inj hc).2
      have hrest : ∀ m, lineSearch p (d == '\n') (u ++ v ++ t) = some m → (u ++ v).length ≤ m.1 := by
        intro m hm
        rcases hp : (if b then p (d :: (u ++ v ++ t)) else none) with _ | n
        · have := h (m.1 + 1, m.2) (by
            rw [List.cons_append, lineSearch, hp]
            exact congrArg (Option.map _) hm)
          simpa using this
        · have := h (0, n) (by rw [List.cons_append, lineSearch, hp])
          simp at this
      refine ih hrest u v rfl hv ?_
      rw [LineStart, if_neg (List.cons_ne_nil d u)] at hu
      rw [LineStart]
      split_ifs with hnil
      · simpa [hnil] using hu
      · rwa [List.getLast?_cons_of_ne_nil hnil] at hu

/-- Lines that stay inside a fence body: none starts with the backticks of a closer, and none
starts a level-two heading. -/
def BodyLines (t : Text) : Prop :=
  ∀ u v, t = u ++ v → LineStart true u →
    ¬ "```".toList <+: v ∧ ∀ r, v = '#' :: '#' :: r → ∃ c, r.head? = some c ∧ isSpace c = false

private theorem nextHeading_eq_some {s : Text} {n : Nat} (h : nextHeading s = some n) :
    ∃ c r, s = '#' :: '#' :: c :: r ∧ isSpace c = true := by
  obtain ⟨r, hr, h⟩ := Option.bind_eq_some_iff.mp h
  split_ifs at h with hsp
  rw [not_or] at hsp
  cases r with
  | nil => exact absurd rfl hsp.1
  | cons c r =>
    refine ⟨c, r, stripPrefix?_eq_some.mp hr, ?_⟩
    by_contra hc
    exact hsp.1 (by simp [hc])

/-- Body lines cannot close the fence, whatever stands in front of the body. -/
private theorem cutAt_fenceClose_append {r x t : Text} (hx : BodyLines x)
    (hr : cutAt fenceClose r = none) (hlast : ∀ h : r ≠ [], r.getLast h = '\n') :
    cutAt fenceClose (r ++ (x ++ (fenceClose ++ t))) = some (r ++ x, t) := by
  have hclose : fenceClose = '\n' :: "```".toList := rfl
  have hbehind : cutAt fenceClose (fenceClose ++ t) = some ([], t) := by
    simpa using (cutAt_append_self (x := []) (p := fenceClose) t).mpr (by decide)
  have hnone : cutAt fenceClose x = none := by
    rw [cutAt_eq_none_iff]
    rintro ⟨u, w, rfl⟩
    refine (hx (u ++ ['\n']) ("```".toList ++ w) (by rw [hclose]; simp) ?_).1
      (List.prefix_append _ _)
    simp [LineStart]
  have hright : NoStraddle fenceClose x (fenceClose ++ t) :=
    noStraddle_right (d := '\n') (by decide) rfl
  have hleft : NoStraddle fenceClose r (x ++ (fenceClose ++ t)) := by
    rintro v w hv hw hp hsuff hpre
    have hrne : r ≠ [] := fun e => hv (List.suffix_nil.mp (e ▸ hsuff))
    obtain ⟨c, v, rfl⟩ := List.exists_cons_of_ne_nil hv
    rw [hclose, List.cons_append] at hp
    obtain ⟨rfl, hvw⟩ : '\n' = c ∧ "```".toList = v ++ w := List.cons.inj hp
    rcases List.eq_nil_or_concat' v with rfl | ⟨v', d, rfl⟩
    · -- the line feed ends `r`, so the backticks would open the body
      rw [List.nil_append] at hvw
      rw [← hvw] at hpre
      refine (hx [] x rfl rfl).1 ?_
      rcases List.prefix_or_prefix_of_prefix hpre (List.prefix_append x _) with h | ⟨y, hy⟩
      · exact h
      · rw [← hy, List.prefix_append_right_inj] at hpre
        cases y with
        | nil => exact ⟨[], by simpa using hy.symm⟩
        | cons e y =>
          obtain ⟨z, hz⟩ := hpre
          obtain rfl : e = '\n' := (List.cons.inj hz).1
          exact absurd (hy ▸ List.mem_append_right x (List.mem_cons_self ..)) (by decide)
    · obtain ⟨y, rfl⟩ := hsuff
      have hd := hlast hrne
      have hmem : d ∈ "```".toList := by rw [hvw]; simp
      rw [List.getLast_append_of_ne_nil _ (by simp)] at hd
      simp only [List.getLast_cons (List.append_ne_nil_of_right_ne_nil v' (List.cons_ne_nil d [])),
        List.getLast_concat] at hd
      rw [hd] at hmem
      exact absurd hmem (by decide)
  rw [cutAt_append_right hleft hr, cutAt_append_right hright hnone, hbehind]
  simp

private theorem lineSearch_append_stop {p : Text → Option Nat} {d : Char} {r t : Text}
    (hloc : ∀ c, p (c ++ d :: r) = p (c ++ d :: t)) {b : Bool} {c : Text} {m : Nat × Nat}
    (h : lineSearch p b (c ++ d :: r) = some m) (hm : m.1 < c.length) :
    lineSearch p b (c ++ d :: t) = some m := by
  induction c generalizing b m with
  | nil => exact absurd hm (Nat.not_lt_zero _)
  | cons e c ih =>
    have he := hloc (e :: c)
    rw [List.cons_append, List.cons_append] at he
    rw [List.cons_append, lineSearch] at h ⊢
    rw [← he]
    rcases hp : (if b then p (e :: (c ++ d :: r)) else none) with _ | n
    · rw [hp] at h
      obtain ⟨m', hm', rfl⟩ := Option.map_eq_some_iff.mp h
      exact congrArg (Option.map _) (ih hm' (by simpa using hm))
    · rw [hp] at h
      exact h

private theorem exists_of_lineSearch {p : Text → Option Nat} {b : Bool} {s : Text} {m : Nat × Nat}
    (h : lineSearch p b s = some m) : ∃ x, p x = some m.2 := by
  induction s generalizing b m with
  | nil => cases h
  | cons c s ih =>
    rw [lineSearch] at h
    split at h
    · next n hn =>
      cases h
      split_ifs at hn
      exact ⟨_, hn⟩
    · obtain ⟨m', hm', rfl⟩ := Option.map_eq_some_iff.mp h
      obtain ⟨x, hx⟩ := ih hm'
      exact ⟨x, hx⟩

private theorem headingLength_pos {s : Text} {n : Nat} (h : headingLength s = some n) : 0 < n := by
  obtain ⟨r, -, h⟩ := Option.bind_eq_some_iff.mp h
  split_ifs at h
  obtain ⟨r', -, h⟩ := Option.bind_eq_some_iff.mp h
  obtain ⟨k, -, rfl⟩ := Option.map_eq_some_iff.mp h
  omega

private theorem findFence_append_left {s a b c : Text} (t : Text)
    (h : findFence s = some (a, b, c)) : findFence (s ++ t) = some (a, b, c ++ t) := by
  obtain ⟨m, hm, hmap⟩ := Option.bind_eq_some_iff.mp h
  obtain ⟨n, hn, he⟩ := Option.map_eq_some_iff.mp hmap
  cases he
  rw [findFence, cutAt_append_left hm, Option.bind_some, cutAt_append_left hn]
  rfl

private theorem findFence_append_right {a b : Text} (hs : NoStraddle fenceOpen a b)
    (ha : cutAt fenceOpen a = none) (hb : findFence b = none) : findFence (a ++ b) = none := by
  rw [findFence] at hb ⊢
  rw [cutAt_append_right hs ha]
  rcases h : cutAt fenceOpen b with _ | m
  · rfl
  · rw [h] at hb
    rw [Option.bind_some, Option.map_eq_none_iff] at hb
    simp [hb]

/-- In front of the body the scan ends with the line feed of the opener. -/
private theorem getLast_opener (x : Text) {r : Text} (a : Text) (h : x ++ fenceOpen = a ++ r) :
    ∀ hr : r ≠ [], r.getLast hr = '\n' := by
  intro hr
  have hopen : fenceOpen = "```yaml plan-tasks".toList ++ ['\n'] := rfl
  obtain ⟨r', c, rfl⟩ := (List.eq_nil_or_concat' r).resolve_left hr
  rw [hopen, ← List.append_assoc, ← List.append_assoc] at h
  rw [List.getLast_concat]
  exact (List.singleton_inj.mp (List.append_inj_right' h rfl)).symm

section Replace

variable {s upto before body tail body' : Text}

private theorem Fence.noHit (h : Fence s upto before body tail) (hb : BodyLines body') :
    NoHit nextHeading true (before ++ (fenceOpen ++ (body' ++ fenceClose))) tail := by
  have hopen : ∀ r : Text, fenceOpen ++ r = '`' :: ("``yaml plan-tasks\n".toList ++ r) :=
    fun _ => rfl
  have hold : NoHit nextHeading true (before ++ (fenceOpen ++ (body ++ fenceClose))) tail :=
    noHit_of_lineSearch fun m hm => by
      have := h.inSection m (by simpa using hm)
      simpa using this
  intro u v huv hv hu
  rcases List.append_eq_append_iff.mp huv.symm with ⟨w, hw, hv'⟩ | ⟨w, rfl, hrest⟩
  · -- a line start in front of the opener sees the same text up to the backtick
    have := hold u (w ++ (fenceOpen ++ (body ++ fenceClose))) (by rw [hw]; simp) (by simp [hopen])
      hu
    rw [hv']
    simp only [hopen, List.append_assoc, List.cons_append] at this ⊢
    rw [← this]
    exact nextHeading_append_stop (by decide) (by decide) _ _ _
  · by_contra hne
    obtain ⟨n, hn⟩ := Option.ne_none_iff_exists'.mp hne
    obtain ⟨c, r, hvt, hc⟩ := nextHeading_eq_some hn
    obtain ⟨e, v', rfl⟩ := List.exists_cons_of_ne_nil hv
    obtain ⟨rfl, hvt'⟩ : e = '#' ∧ v' ++ tail = '#' :: c :: r := List.cons.inj hvt
    -- no heading starts in the body or in the closer
    have hbody : ∀ x, x ++ '#' :: v' = body' ++ fenceClose → LineStart true x → False := by
      intro x hx hls
      rcases List.append_eq_append_iff.mp hx with ⟨y, hy, hv'⟩ | ⟨y, rfl, hv'⟩
      · rcases y with _ | ⟨e, _ | ⟨e', y⟩⟩
        · exact absurd (List.cons.inj hv').1 (by decide)
        · rw [(List.cons.inj hv').2] at hvt'
          exact absurd (List.cons.inj hvt').1 (by decide)
        · obtain rfl : '#' = e := (List.cons.inj hv').1
          rw [(List.cons.inj hv').2] at hvt'
          obtain ⟨rfl, hcr⟩ : e' = '#' ∧ y ++ fenceClose ++ tail = c :: r := List.cons.inj hvt'
          obtain ⟨d, hd, hsp⟩ := (hb x _ hy hls).2 y rfl
          cases y with
          | nil => cases hd
          | cons f y =>
            obtain rfl : f = d := Option.some.inj hd
            rw [← (List.cons.inj hcr).1, hsp] at hc
            cases hc
      · exact absurd (hv' ▸ List.mem_append_right y (List.mem_cons_self ..)) (by decide)
    rcases List.append_eq_append_iff.mp hrest.symm with ⟨x, hx, hv'⟩ | ⟨x, rfl, hv'⟩
    · cases x with
      | nil => exact hbody [] hv' rfl
      | cons e x =>
        obtain rfl : '#' = e := (List.cons.inj hv').1
        exact absurd (hx ▸ List.mem_append_right w (List.mem_cons_self ..)) (by decide)
    · refine hbody x hv'.symm ?_
      rw [LineStart] at hu ⊢
      split_ifs with hx
      · rfl
      · have hne : fenceOpen ++ x ≠ [] := fun e => hx (List.append_eq_nil_iff.mp e).2
        rwa [if_neg (fun e => hne (List.append_eq_nil_iff.mp e).2),
          List.getLast?_append_of_ne_nil _ hne, List.getLast?_append_of_ne_nil _ hx] at hu

/-- The closer at the front of what follows the body ends a fence there. -/
private theorem contains_fenceClose_append (x tail : Text) :
    cutAt fenceClose (x ++ (fenceClose ++ tail)) ≠ none := by
  rw [ne_eq, cutAt_eq_none_iff, not_not]
  exact ⟨x, tail, by simp⟩

/-- Whether the scan sees one fence only is a question about the text up to the fence: either its
first opener is closed behind the body, or it holds a fence of its own, behind which no opener may
follow. -/
private theorem Fence.once_replace (h : Fence s upto before body tail) (hb : BodyLines body')
    (hone : (findFence (upto ++ before ++ fenceOpen)).isSome = true →
      contains fenceOpen (body' ++ ['\n']) = false) :
    ∃ a b c, findFence (upto ++ before ++ fenceOpen ++ (body' ++ (fenceClose ++ tail))) =
      some (a, b, c) ∧ findFence c = none := by
  obtain ⟨a, b, c, hfence, hmore⟩ := h.once
  have hs : s = upto ++ before ++ fenceOpen ++ (body ++ (fenceClose ++ tail)) := by
    rw [h.text]; simp
  rw [hs] at hfence
  rcases hP : findFence (upto ++ before ++ fenceOpen) with _ | ⟨p, q, r⟩
  · obtain ⟨⟨p, r⟩, hp, -⟩ := exists_cutAt_append fenceOpen (upto ++ before) []
    rw [List.append_nil] at hp
    have hr : cutAt fenceClose r = none := by
      rw [findFence, hp, Option.bind_some, Option.map_eq_none_iff] at hP
      exact hP
    have hlast := getLast_opener (upto ++ before) (p ++ fenceOpen) (eq_of_cutAt hp)
    refine ⟨p, r ++ body', tail, ?_, ?_⟩
    · rw [findFence, cutAt_append_left hp, Option.bind_some, cutAt_fenceClose_append hb hr hlast]
      rfl
    · -- the old scan found nothing behind its first fence, and `tail` is the rear of that
      rw [findFence, cutAt_append_left hp, Option.bind_some] at hfence
      obtain ⟨m, hm, he⟩ := Option.map_eq_some_iff.mp hfence
      cases he
      obtain ⟨m', hm', hlen⟩ := exists_cutAt_append fenceClose (r ++ body) tail
      have hshape : r ++ (body ++ (fenceClose ++ tail)) = r ++ body ++ fenceClose ++ tail := by simp
      rw [hshape, hm'] at hm
      cases hm
      have hsuff : tail <:+ m.2 := by
        refine List.suffix_of_suffix_length_le ⟨r ++ body ++ fenceClose, rfl⟩
          ⟨m.1 ++ fenceClose, (eq_of_cutAt hm').symm⟩ ?_
        have := congrArg List.length (eq_of_cutAt hm')
        simp only [List.length_append] at this hlen
        omega
      obtain ⟨x, hx⟩ := hsuff
      rw [← hx] at hmore
      exact findFence_none_of_append hmore
  · rw [hP, Option.isSome_some] at hone
    have hclean := hone rfl
    rw [findFence_append_left _ hP] at hfence
    cases hfence
    refine ⟨a, b, r ++ (body' ++ (fenceClose ++ tail)), findFence_append_left _ hP, ?_⟩
    have hlast := getLast_opener (upto ++ before) (a ++ fenceOpen ++ b ++ fenceClose)
      (findFence_eq_some hP)
    have hr : cutAt fenceOpen r = none := by
      rcases hc : cutAt fenceOpen r with _ | ⟨x, y⟩
      · rfl
      · exfalso
        rw [findFence, cutAt_append_left hc, Option.bind_some, Option.map_eq_none_iff,
          ← List.append_assoc] at hmore
        exact contains_fenceClose_append _ _ hmore
    have hbody : cutAt fenceOpen (body' ++ ['\n']) = none :=
      Option.not_isSome_iff_eq_none.mp (by simpa [contains] using hclean)
    have htail : findFence ("```".toList ++ tail) = none := by
      refine findFence_none_of_append (a := r ++ body ++ ['\n']) ?_
      rw [← hmore]
      congr 1
      simp [fenceClose]
    have hshape : body' ++ (fenceClose ++ tail) = body' ++ ['\n'] ++ ("```".toList ++ tail) := by
      simp [fenceClose]
    rw [hshape]
    refine findFence_append_right (noStraddle_left (by decide) hlast) hr
      (findFence_append_right (noStraddle_left (d := '\n') (by decide) ?_) hbody htail)
    intro _
    exact List.getLast_concat

/-- A body of body lines takes the place of the old one, unless the text up to the fence holds a
fence of its own and the new body opens another. -/
theorem Fence.replace (h : Fence s upto before body tail) (hb : BodyLines body')
    (hone : (findFence (upto ++ before ++ fenceOpen)).isSome = true →
      contains fenceOpen (body' ++ ['\n']) = false) :
    Fence (upto ++ (before ++ fenceOpen ++ body' ++ fenceClose ++ tail)) upto before body'
      tail := by
  have hs := h.text
  have hopen : fenceOpen = '`' :: "``yaml plan-tasks\n".toList := rfl
  refine ⟨rfl, ?_, ?_, ?_, h.first, ?_⟩
  · have := h.once_replace hb hone
    simpa only [List.append_assoc] using this
  · obtain ⟨k, n, hhead, hkn⟩ := h.heading
    refine ⟨k, n, ?_, hkn⟩
    obtain ⟨x, hx⟩ := exists_of_lineSearch hhead
    have hpos := headingLength_pos hx
    have hs' : s = (upto ++ before) ++ '`' ::
        ("``yaml plan-tasks\n".toList ++ body ++ fenceClose ++ tail) := by
      rw [hs, hopen]; simp
    rw [hs'] at hhead
    have := lineSearch_append_stop
      (t := "``yaml plan-tasks\n".toList ++ body' ++ fenceClose ++ tail)
      (fun c => headingLength_append_stop (by decide) (by decide) (by decide) c _ _) hhead
      (by simp only [List.length_append]; omega)
    rw [← this, hopen]
    congr 1
    simp
  · intro m hm
    have := lineSearch_of_noHit (h.noHit hb) (t := tail) (m := m) (by simpa using hm)
    simpa using this
  · have := cutAt_fenceClose_append (r := []) (t := []) hb (by decide) (by simp)
    simpa using this

/-- Conversely, when the text up to the fence holds a fence of its own, a second opener in the body
is found. -/
theorem Fence.not_contains (h : Fence s upto before body tail)
    (hP : (findFence (upto ++ before ++ fenceOpen)).isSome = true) :
    contains fenceOpen body = false := by
  obtain ⟨⟨p, q, r⟩, hP⟩ := Option.isSome_iff_exists.mp hP
  obtain ⟨a, b, c, hfence, hmore⟩ := h.once
  have hs : s = upto ++ before ++ fenceOpen ++ (body ++ (fenceClose ++ tail)) := by
    rw [h.text]; simp
  rw [hs, findFence_append_left _ hP] at hfence
  cases hfence
  rw [Bool.eq_false_iff]
  intro hc
  obtain ⟨x, y, rfl⟩ := contains_iff.mp hc
  exact findFence_eq_none.mp hmore (r ++ x) y tail (by simp)

end Replace

end BodyBlocks

end CoordinatorCore
