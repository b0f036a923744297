import CoordinatorCore.Text.Basic
import Mathlib.Data.List.Forall2

/-!
# Schema routing globs

`frontmatter/schema_validate.py` turns a glob into one regular expression. `Matches` says what a
glob is meant to match, segment by segment; `matchGlob` is the expression. For a glob without `**`
they agree but for a newline at the end of the path, and no glob with `**` has this
(`matchGlob_law`): `.*` runs through hidden segments.
-/

namespace CoordinatorCore

open Text

namespace Glob

/-! ### The regular expression -/

/-- A part of the expression; `guarded` says that `(?!\.)` stands in front, or that the class of a
single character leaves out the dot. -/
inductive Part
  | lit (c : Char)
  | one (guarded : Bool)
  | run (guarded : Bool)
  | all (guarded : Bool)
  | cls (body : Text)
  deriving DecidableEq

/-- Where the loop of `_glob_to_regex` stands: outside of a class, at the start of a segment or
not, or behind this much of a class. -/
inductive Scan
  | out (segStart : Bool)
  | within (body : Text)

/-- `_glob_to_regex`, without the anchors. -/
def parts : Scan → Text → List Part
  | _, [] => []
  | .within body, c :: t =>
    if c = ']' then .cls (body ++ [c]) :: parts (.out false) t else parts (.within (body ++ [c])) t
  | .out s, '*' :: '*' :: '/' :: t => .all s :: parts (.out true) t
  | .out s, '*' :: '*' :: t => .all s :: parts (.out true) t
  | .out s, '*' :: t => .run s :: parts (.out false) t
  | .out s, '?' :: t => .one s :: parts (.out false) t
  | .out _, c :: t =>
    if c = '[' ∧ ']' ∈ t then parts (.within [c]) t
    else .lit c :: parts (.out (c = '/')) t

/-- Some characters of this kind, and then the rest. -/
def matchRun (ok : Char → Bool) (rest : Text → Bool) : Text → Bool
  | [] => rest []
  | c :: t => rest (c :: t) || (ok c && matchRun ok rest t)

/-- `(?!\.)`, where it stands. -/
def lookahead (guarded : Bool) (t : Text) : Bool := !guarded || t.head? != some '.'

variable (cls : Text → Char → Bool)

/-- The expression behind `^` and in front of `$`, which also matches in front of a last newline.
What a bracket class admits is left to `cls`. -/
def matchParts : List Part → Text → Bool
  | [], t => t == [] || t == ['\n']
  | .lit d :: ps, t =>
    match t with
    | [] => false
    | c :: t => c == d && matchParts ps t
  | .one g :: ps, t =>
    match t with
    | [] => false
    | c :: t => c != '/' && !(g && c == '.') && matchParts ps t
  | .cls body :: ps, t =>
    match t with
    | [] => false
    | c :: t => cls body c && matchParts ps t
  | .run g :: ps, t => lookahead g t && matchRun (· != '/') (matchParts ps) t
  | .all g :: ps, t => lookahead g t && matchRun (· != '\n') (matchParts ps) t

/-- `text.replace("\\", "/")`. -/
def slashes (t : Text) : Text := t.map fun c => if c = '\\' then '/' else c

/-- `match_glob`. -/
def matchGlob (pattern path : Text) : Bool :=
  matchParts cls (parts (.out true) (slashes pattern)) (slashes path)

/-! ### What a glob is meant to match -/

/-- A pattern without slashes and a segment: `*` stands for any characters, `?` for one. -/
def Fits : Text → Text → Prop
  | [], s => s = []
  | '*' :: p, s => ∃ u v, s = u ++ v ∧ Fits p v
  | '?' :: p, s => ∃ c v, s = c :: v ∧ Fits p v
  | d :: p, s => ∃ v, s = d :: v ∧ Fits p v

/-- The pattern begins with a wildcard. -/
def WildStart (p : Text) : Prop := p.head? = some '*' ∨ p.head? = some '?'

/-- The segment begins with a dot. -/
def Hidden (s : Text) : Prop := s.head? = some '.'

instance : DecidablePred Hidden := fun s => inferInstanceAs (Decidable (s.head? = some '.'))

/-- A segment fits, and no wildcard stands for its leading dot. -/
def SegmentMatches (p s : Text) : Prop := Fits p s ∧ (WildStart p → ¬ Hidden s)

/-- Segment by segment; `**` stands for any segments that are not hidden. -/
def SegmentsMatch : List Text → List Text → Prop
  | [], ss => ss = []
  | p :: ps, ss =>
    if p = ['*', '*'] then ∃ us vs, ss = us ++ vs ∧ (∀ u ∈ us, ¬ Hidden u) ∧ SegmentsMatch ps vs
    else ∃ s vs, ss = s :: vs ∧ SegmentMatches p s ∧ SegmentsMatch ps vs

/-- The path matches the pattern. -/
def Matches (pattern path : Text) : Prop :=
  SegmentsMatch (pattern.splitOn '/') (path.splitOn '/')

/-- The pattern has no bracket class. -/
def NoClass (p : Text) : Prop := ∀ t, '[' :: t <:+ p → ']' ∉ t

/-- The pattern has no `**`. -/
def NoDoubleStar (p : Text) : Prop := ¬ ['*', '*'] <:+: p

/-- The path is a matching path with one newline behind. -/
def NewlineBehind (pattern path : Text) : Prop :=
  ∃ q, path = q ++ ['\n'] ∧ Matches (slashes pattern) (slashes q) ∧
    ¬ Matches (slashes pattern) (slashes path)

/-! ### What the parts match -/

/-- The parts stand for the text up to an end that `e` holds of. -/
def Fit (e : Text → Prop) : List Part → Text → Prop
  | [], t => e t
  | .lit d :: ps, t => ∃ v, t = d :: v ∧ Fit e ps v
  | .one g :: ps, t => ∃ c v, t = c :: v ∧ c ≠ '/' ∧ (g = true → c ≠ '.') ∧ Fit e ps v
  | .cls body :: ps, t => ∃ c v, t = c :: v ∧ cls body c = true ∧ Fit e ps v
  | .run g :: ps, t =>
    (g = true → t.head? ≠ some '.') ∧ ∃ u v, t = u ++ v ∧ '/' ∉ u ∧ Fit e ps v
  | .all g :: ps, t =>
    (g = true → t.head? ≠ some '.') ∧ ∃ u v, t = u ++ v ∧ '\n' ∉ u ∧ Fit e ps v

/-- A run of characters and then the rest. -/
theorem matchRun_iff {ok : Char → Bool} {rest : Text → Bool} {t : Text} :
    matchRun ok rest t = true ↔ ∃ u v, t = u ++ v ∧ (∀ c ∈ u, ok c = true) ∧ rest v = true := by
  induction t with
  | nil => simp [matchRun]
  | cons c t ih =>
    rw [matchRun, Bool.or_eq_true, Bool.and_eq_true, ih]
    constructor
    · rintro (h | ⟨hc, u, v, rfl, hu, hv⟩)
      · exact ⟨[], c :: t, rfl, by simp, h⟩
      · exact ⟨c :: u, v, rfl, by simpa using ⟨hc, hu⟩, hv⟩
    · rintro ⟨u, v, h, hu, hv⟩
      cases u with
      | nil => exact .inl (by simpa [h] using hv)
      | cons d u =>
        obtain ⟨rfl, rfl⟩ : c = d ∧ t = u ++ v := by simpa using h
        exact .inr ⟨hu c (by simp), u, v, rfl, fun x hx => hu x (by simp [hx]), hv⟩

/-- A guarded part does not start at a hidden name. -/
theorem lookahead_iff {g : Bool} {t : Text} :
    lookahead g t = true ↔ (g = true → t.head? ≠ some '.') := by
  cases g <;> simp [lookahead]

/-- `$` holds at the end and in front of a last newline. -/
theorem matchParts_iff {ps : List Part} {t : Text} :
    matchParts cls ps t = true ↔ Fit cls (fun r => r = [] ∨ r = ['\n']) ps t := by
  induction ps generalizing t with
  | nil => simp [matchParts, Fit]
  | cons p ps ih =>
    cases p with
    | lit d => cases t <;> simp [matchParts, Fit, ih]
    | one g => cases t <;> cases g <;> simp [matchParts, Fit, ih, and_assoc]
    | cls body => cases t <;> simp [matchParts, Fit, ih]
    | run g => simp [matchParts, Fit, lookahead_iff, matchRun_iff, ih, List.forall_mem_ne']
    | all g => simp [matchParts, Fit, lookahead_iff, matchRun_iff, ih, List.forall_mem_ne']

/-- Parts fit one behind the other. -/
theorem fit_append {e : Text → Prop} {ps qs : List Part} {t : Text} :
    Fit cls e (ps ++ qs) t ↔ Fit cls (Fit cls e qs) ps t := by
  induction ps generalizing t with
  | nil => rfl
  | cons p ps ih => cases p <;> simp [Fit, ih]

/-- An end that does not begin with a dot can be cut off: no lookahead sees it. -/
theorem fit_cut {e : Text → Prop} (he : ∀ r, e r → r.head? ≠ some '.') {ps : List Part} {t : Text} :
    Fit cls e ps t ↔ ∃ q r, t = q ++ r ∧ Fit cls (· = []) ps q ∧ e r := by
  -- in front of the end a lookahead sees what it sees without it
  have hg : ∀ {g : Bool} {q r : Text}, e r →
      ((g = true → (q ++ r).head? ≠ some '.') ↔ (g = true → q.head? ≠ some '.')) := by
    intro g q r hr
    cases q with
    | nil => simpa using fun _ => he r hr
    | cons c q => rfl
  induction ps generalizing t with
  | nil => simp [Fit]
  | cons p ps ih =>
    cases p with
    | lit d =>
      simp only [Fit, ih]
      constructor
      · rintro ⟨_, rfl, q, r, rfl, hq, hr⟩
        exact ⟨d :: q, r, rfl, ⟨q, rfl, hq⟩, hr⟩
      · rintro ⟨_, r, rfl, ⟨q, rfl, hq⟩, hr⟩
        exact ⟨q ++ r, rfl, q, r, rfl, hq, hr⟩
    | one g =>
      simp only [Fit, ih]
      constructor
      · rintro ⟨c, _, rfl, hc, hd, q, r, rfl, hq, hr⟩
        exact ⟨c :: q, r, rfl, ⟨c, q, rfl, hc, hd, hq⟩, hr⟩
      · rintro ⟨_, r, rfl, ⟨c, q, rfl, hc, hd, hq⟩, hr⟩
        exact ⟨c, q ++ r, rfl, hc, hd, q, r, rfl, hq, hr⟩
    | cls body =>
      simp only [Fit, ih]
      constructor
      · rintro ⟨c, _, rfl, hc, q, r, rfl, hq, hr⟩
        exact ⟨c :: q, r, rfl, ⟨c, q, rfl, hc, hq⟩, hr⟩
      · rintro ⟨_, r, rfl, ⟨c, q, rfl, hc, hq⟩, hr⟩
        exact ⟨c, q ++ r, rfl, hc, q, r, rfl, hq, hr⟩
    | run g =>
      simp only [Fit, ih]
      constructor
      · rintro ⟨hd, u, _, rfl, hu, q, r, rfl, hq, hr⟩
        rw [← List.append_assoc, hg hr] at hd
        exact ⟨u ++ q, r, by simp, ⟨hd, u, q, rfl, hu, hq⟩, hr⟩
      · rintro ⟨_, r, rfl, ⟨hd, u, q, rfl, hu, hq⟩, hr⟩
        exact ⟨(hg hr).mpr hd, u, q ++ r, by simp, hu, q, r, rfl, hq, hr⟩
    | all g =>
      simp only [Fit, ih]
      constructor
      · rintro ⟨hd, u, _, rfl, hu, q, r, rfl, hq, hr⟩
        rw [← List.append_assoc, hg hr] at hd
        exact ⟨u ++ q, r, by simp, ⟨hd, u, q, rfl, hu, hq⟩, hr⟩
      · rintro ⟨_, r, rfl, ⟨hd, u, q, rfl, hu, hq⟩, hr⟩
        exact ⟨(hg hr).mpr hd, u, q ++ r, by simp, hu, q, r, rfl, hq, hr⟩

/-- The code's match: the parts stand for the path, or for the path in front of a newline. -/
theorem matchGlob_iff {pattern path : Text} :
    matchGlob cls pattern path = true ↔
      Fit cls (· = []) (parts (.out true) (slashes pattern)) (slashes path) ∨
      ∃ q, path = q ++ ['\n'] ∧
        Fit cls (· = []) (parts (.out true) (slashes pattern)) (slashes q) := by
  rw [matchGlob, matchParts_iff, fit_cut cls (by rintro r (rfl | rfl) <;> simp)]
  constructor
  · rintro ⟨q, r, h, hq, rfl | rfl⟩
    · exact .inl (by simpa [h] using hq)
    · obtain ⟨q', n, rfl, rfl, hn⟩ := List.map_eq_append_iff.mp h
      obtain ⟨c, rfl, hc⟩ := List.map_eq_singleton_iff.mp hn
      refine .inr ⟨q', ?_, hq⟩
      split at hc <;> simp_all
  · rintro (h | ⟨q, rfl, hq⟩)
    · exact ⟨_, [], by simp, h, .inl rfl⟩
    · exact ⟨_, ['\n'], by simp [slashes], hq, .inr rfl⟩

/-! ### Globs without `**` -/

/-- A pattern without `**` has none behind its first character. -/
theorem noDoubleStar_tail {c : Char} {p : Text} (h : NoDoubleStar (c :: p)) : NoDoubleStar p :=
  fun hp => h (hp.trans (List.suffix_cons c p).isInfix)

/-- A pattern without `**` has none in either half. -/
theorem noDoubleStar_append {p q : Text} (h : NoDoubleStar (p ++ q)) :
    NoDoubleStar p ∧ NoDoubleStar q :=
  ⟨fun hp => h (hp.trans (List.prefix_append p q).isInfix),
    fun hq => h (hq.trans (List.suffix_append p q).isInfix)⟩

theorem noClass_tail {c : Char} {p : Text} (h : NoClass (c :: p)) : NoClass p :=
  fun t ht => h t (ht.trans (List.suffix_cons c p))

/-- The part a character stands for, outside of `**` and of classes. -/
def charPart (s : Bool) (c : Char) : Part :=
  if c = '*' then .run s else if c = '?' then .one s else .lit c

/-- The parts of a glob without `**` and without classes. -/
def plain : Bool → Text → List Part
  | _, [] => []
  | s, c :: t => charPart s c :: plain (c = '/') t

/-- One character of the loop, where no `**` and no class begins. -/
theorem parts_cons {s : Bool} {c : Char} {t : Text} (h : ∀ u, c :: t ≠ '*' :: '*' :: u)
    (hc : NoClass (c :: t)) :
    parts (.out s) (c :: t) = charPart s c :: parts (.out (c = '/')) t := by
  by_cases hstar : c = '*'
  · subst hstar
    have ht : ∀ u, t ≠ '*' :: u := fun u hu => h u (by rw [hu])
    rw [parts]
    · rfl
    · exact fun u => ht ('/' :: u)
    · exact ht
  · by_cases hq : c = '?'
    · subst hq
      rw [parts]
      rfl
    · have hno : ¬ (c = '[' ∧ ']' ∈ t) := by
        rintro ⟨rfl, ht⟩
        exact hc t (List.suffix_refl _) ht
      rw [parts, if_neg hno, charPart, if_neg hstar, if_neg hq] <;> simp_all

/-- A `**` takes the slash behind it along. -/
theorem parts_star (s : Bool) (t : Text) :
    ∃ u, u <:+ t ∧ parts (.out s) ('*' :: '*' :: t) = .all s :: parts (.out true) u := by
  by_cases h : ∃ u, t = '/' :: u
  · obtain ⟨u, rfl⟩ := h
    exact ⟨u, List.suffix_cons _ u, rfl⟩
  · refine ⟨t, List.suffix_refl t, ?_⟩
    rw [parts]
    exact fun u hu => h ⟨u, hu⟩

/-- Without `**` and classes a pattern is translated character by character. -/
theorem parts_eq_plain {s : Bool} {p : Text} (h : NoDoubleStar p) (hc : NoClass p) :
    parts (.out s) p = plain s p := by
  induction p generalizing s with
  | nil => rfl
  | cons c t ih =>
    have hne : ∀ u, c :: t ≠ '*' :: '*' :: u := fun u hu => h ⟨[], u, by simp [hu]⟩
    rw [parts_cons hne hc, plain, ih (noDoubleStar_tail h) (noClass_tail hc)]

/-- A segment and the rest of the glob. -/
theorem plain_append {s : Bool} {p q : Text} (h : '/' ∉ p) :
    plain s (p ++ '/' :: q) = plain s p ++ .lit '/' :: plain true q := by
  induction p generalizing s with
  | nil => simp [plain, charPart]
  | cons c p ih =>
    obtain ⟨-, hp⟩ : '/' ≠ c ∧ '/' ∉ p := by simpa using h
    rw [List.cons_append, plain, plain, ih hp, List.cons_append]

/-- What a segment of a glob matches has no slash and fits it. -/
theorem fit_plain_iff {s : Bool} {p t : Text} (h : '/' ∉ p) :
    Fit cls (· = []) (plain s p) t ↔
      '/' ∉ t ∧ Fits p t ∧ (s = true → WildStart p → ¬ Hidden t) := by
  induction p generalizing s t with
  | nil => simp +contextual [plain, Fit, Fits, WildStart]
  | cons c p ih =>
    obtain ⟨hc, hp⟩ : '/' ≠ c ∧ '/' ∉ p := by simpa using h
    have ih' : ∀ t, Fit cls (· = []) (plain (c = '/') p) t ↔ '/' ∉ t ∧ Fits p t := by
      intro t
      simp [ih hp, hc.symm]
    rw [plain, charPart]
    by_cases hstar : c = '*'
    · subst hstar
      simp only [if_true, Fit, ih', Fits]
      constructor
      · rintro ⟨hd, u, v, rfl, hu, hv, hf⟩
        exact ⟨by simp [hu, hv], ⟨u, v, rfl, hf⟩, fun hs' _ => hd hs'⟩
      · rintro ⟨ht, ⟨u, v, rfl, hf⟩, hd⟩
        obtain ⟨hu, hv⟩ : '/' ∉ u ∧ '/' ∉ v := by simpa using ht
        exact ⟨fun hs' => hd hs' (.inl rfl), u, v, rfl, hu, hv, hf⟩
    · rw [if_neg hstar]
      by_cases hq : c = '?'
      · subst hq
        simp only [if_true, Fit, ih', Fits]
        constructor
        · rintro ⟨c, v, rfl, hc', hd, hv, hf⟩
          refine ⟨by simp [hc'.symm, hv], ⟨c, v, rfl, hf⟩, fun hs' _ hh => hd hs' ?_⟩
          simpa [Hidden] using hh
        · rintro ⟨ht, ⟨c, v, rfl, hf⟩, hd⟩
          obtain ⟨hc', hv⟩ : '/' ≠ c ∧ '/' ∉ v := by simpa using ht
          refine ⟨c, v, rfl, hc'.symm, fun hs' hcd => hd hs' (.inr rfl) ?_, hv, hf⟩
          simp [Hidden, hcd]
      · have hw : ¬ WildStart (c :: p) := by simp [WildStart, hstar, hq]
        have hf : Fits (c :: p) t ↔ ∃ v, t = c :: v ∧ Fits p v := by
          rw [Fits] <;> simp_all
        simp only [if_neg hq, Fit, ih', hf]
        constructor
        · rintro ⟨v, rfl, hv, hfv⟩
          exact ⟨by simp [hc, hv], ⟨v, rfl, hfv⟩, fun _ h => absurd h hw⟩
        · rintro ⟨ht, ⟨v, rfl, hfv⟩, -⟩
          exact ⟨v, rfl, by simpa [hc] using ht, hfv⟩

/-- The first segment of a text. -/
theorem splitOn_eq_cons {t a : Text} {as : List Text} (h : t.splitOn '/' = a :: as) :
    '/' ∉ a ∧ (t = a ∧ as = [] ∨ ∃ v, t = a ++ '/' :: v ∧ as = v.splitOn '/') := by
  by_cases ht : '/' ∈ t
  · obtain ⟨b, v, rfl, hb⟩ := List.eq_append_cons_of_mem ht
    rw [List.splitOn_append_cons_self_of_not_mem hb] at h
    obtain ⟨rfl, rfl⟩ := List.cons.inj h
    exact ⟨hb, .inr ⟨v, rfl, rfl⟩⟩
  · rw [List.splitOn_eq_singleton ht] at h
    obtain ⟨rfl, rfl⟩ := List.cons.inj h
    exact ⟨ht, .inl ⟨rfl, rfl⟩⟩

/-- Without `**` some segment is needed. -/
theorem not_segmentsMatch_nil {p : Text} (h : NoDoubleStar p) :
    ¬ SegmentsMatch (p.splitOn '/') [] := by
  obtain ⟨a, as, hp⟩ := List.exists_cons_of_ne_nil (List.splitOn_ne_nil '/' p)
  have ha : a ≠ ['*', '*'] := by
    rintro rfl
    obtain ⟨-, ⟨rfl, -⟩ | ⟨v, rfl, -⟩⟩ := splitOn_eq_cons hp
    · exact h ⟨[], [], rfl⟩
    · exact h ⟨[], '/' :: v, rfl⟩
  rw [hp, SegmentsMatch, if_neg ha]
  rintro ⟨s, vs, hs, -⟩
  simp at hs

/-- A glob without `**` is matched segment by segment. -/
theorem fit_plain_iff_matches {p t : Text} (h : NoDoubleStar p) :
    Fit cls (· = []) (plain true p) t ↔ Matches p t := by
  induction hn : p.length using Nat.strong_induction_on generalizing p t with
  | _ n ih =>
    by_cases hp : '/' ∈ p
    · -- the first slash ends the first segment
      obtain ⟨seg, rest, rfl, hseg⟩ := List.eq_append_cons_of_mem hp
      obtain ⟨hs, hr⟩ := noDoubleStar_append h
      have hne : seg ≠ ['*', '*'] := fun he => hs ⟨[], [], by simp [he]⟩
      have ih' : ∀ t, Fit cls (· = []) (plain true rest) t ↔ Matches rest t := fun t =>
        ih rest.length (by simp [← hn]; omega) (noDoubleStar_tail hr) rfl
      rw [plain_append hseg, fit_append, fit_cut cls (by rintro r ⟨v, rfl, -⟩; simp)]
      unfold Matches
      rw [List.splitOn_append_cons_self_of_not_mem hseg, SegmentsMatch, if_neg hne]
      constructor
      · rintro ⟨q, _, rfl, hq, v, rfl, hv⟩
        obtain ⟨hqs, hf, hd⟩ := (fit_plain_iff cls hseg).mp hq
        exact ⟨q, v.splitOn '/', List.splitOn_append_cons_self_of_not_mem hqs v, ⟨hf, hd rfl⟩,
          (ih' v).mp hv⟩
      · rintro ⟨q, vs, hsplit, ⟨hf, hd⟩, hv⟩
        obtain ⟨hqs, ⟨rfl, rfl⟩ | ⟨v, rfl, rfl⟩⟩ := splitOn_eq_cons hsplit
        · exact absurd hv (not_segmentsMatch_nil (noDoubleStar_tail hr))
        · exact ⟨q, _, rfl, (fit_plain_iff cls hseg).mpr ⟨hqs, hf, fun _ => hd⟩, v, rfl,
            (ih' v).mpr hv⟩
    · have hne : p ≠ ['*', '*'] := fun he => h ⟨[], [], by simp [he]⟩
      rw [fit_plain_iff cls hp, Matches, List.splitOn_eq_singleton hp, SegmentsMatch, if_neg hne]
      constructor
      · rintro ⟨ht, hf, hd⟩
        exact ⟨t, [], List.splitOn_eq_singleton ht, ⟨hf, hd rfl⟩, rfl⟩
      · rintro ⟨s, vs, hsplit, ⟨hf, hd⟩, rfl⟩
        obtain ⟨ht, ⟨rfl, -⟩ | ⟨v, -, hv⟩⟩ := splitOn_eq_cons hsplit
        · exact ⟨ht, hf, fun _ => hd⟩
        · exact absurd hv.symm (List.splitOn_ne_nil '/' v)

/-! ### Globs with `**` -/

/-- Without a bracket there is no class. -/
theorem noClass_of_notMem {p : Text} (h : '[' ∉ p) : NoClass p :=
  fun _ ht => absurd (ht.subset (by simp)) h

/-- A glob with `**` has a part that runs through slashes. -/
theorem exists_all_mem_parts {p : Text} (hc : NoClass p) (h : ¬ NoDoubleStar p) (s : Bool) :
    ∃ g, Part.all g ∈ parts (.out s) p := by
  induction p generalizing s with
  | nil => exact absurd (fun hp => by simpa using hp.length_le) h
  | cons c t ih =>
    by_cases hstar : ∃ u, c :: t = '*' :: '*' :: u
    · obtain ⟨u, hu⟩ := hstar
      obtain ⟨v, -, hv⟩ := parts_star s u
      exact ⟨s, by simp [hu, hv]⟩
    · rw [parts_cons (fun u hu => hstar ⟨u, hu⟩) hc]
      have ht : ¬ NoDoubleStar t := by
        intro ht
        refine h fun hp => ?_
        rcases List.infix_cons_iff.mp hp with ⟨u, hu⟩ | hp
        · exact hstar ⟨u, hu.symm⟩
        · exact ht hp
      obtain ⟨g, hg⟩ := ih (noClass_tail hc) ht (c = '/')
      exact ⟨g, .tail _ hg⟩

/-- Outside of `**` the parts of a glob without classes stand for its characters. -/
theorem mem_parts {p : Text} (hc : NoClass p) {s : Bool} {x : Part} (hx : x ∈ parts (.out s) p) :
    (∃ g, x = .all g) ∨ ∃ g, ∃ c ∈ p, x = charPart g c := by
  induction hn : p.length using Nat.strong_induction_on generalizing p s with
  | _ n ih =>
    cases p with
    | nil => simp [parts] at hx
    | cons c t =>
      by_cases hstar : ∃ u, c :: t = '*' :: '*' :: u
      · obtain ⟨u, hu⟩ := hstar
        obtain ⟨v, hv, hp⟩ := parts_star s u
        have hvp : v <:+ c :: t := hu ▸ hv.trans ⟨['*', '*'], rfl⟩
        have hlen : v.length < n := by
          have := hv.length_le
          simp only [hu, List.length_cons] at hn
          omega
        rw [hu, hp, List.mem_cons] at hx
        rcases hx with rfl | hx
        · exact .inl ⟨s, rfl⟩
        · refine (ih v.length hlen (fun w hw => hc w (hw.trans hvp)) hx rfl).imp_right ?_
          rintro ⟨g, d, hd, rfl⟩
          exact ⟨g, d, hvp.subset hd, rfl⟩
      · rw [parts_cons (fun u hu => hstar ⟨u, hu⟩) hc, List.mem_cons] at hx
        rcases hx with rfl | hx
        · exact .inr ⟨s, c, .head _, rfl⟩
        · have hlen : t.length < n := by simp [← hn]
          refine (ih t.length hlen (noClass_tail hc) hx rfl).imp_right ?_
          rintro ⟨g, d, hd, rfl⟩
          exact ⟨g, d, .tail _ hd, rfl⟩

theorem charPart_ne_cls (g : Bool) (c : Char) (body : Text) : .cls body ≠ charPart g c := by
  unfold charPart
  split
  · simp
  · split <;> simp

/-- A glob without classes has no class among its parts. -/
theorem cls_notMem_parts {p : Text} (hc : NoClass p) (s : Bool) (body : Text) :
    Part.cls body ∉ parts (.out s) p := by
  intro hx
  rcases mem_parts hc hx with ⟨g, h⟩ | ⟨g, c, -, h⟩
  · simp at h
  · exact charPart_ne_cls g c body h

/-- What a part is filled with, `w` where it may run through slashes. -/
def fill (w : Text) : Part → Text
  | .lit c => [c]
  | .all _ => 'x' :: w
  | _ => ['x']

/-- The filled parts fit. -/
theorem fit_fill {w : Text} (hw : '\n' ∉ w) {ps : List Part} (h : ∀ body, Part.cls body ∉ ps) :
    Fit cls (· = []) ps (ps.flatMap (fill w)) := by
  induction ps with
  | nil => rfl
  | cons p ps ih =>
    have ih' := ih fun body hb => h body (.tail _ hb)
    rw [List.flatMap_cons]
    cases p with
    | lit c => exact ⟨_, rfl, ih'⟩
    | one g => exact ⟨'x', _, rfl, by decide, fun _ => by decide, ih'⟩
    | cls body => exact absurd (.head _) (h body)
    | run g => exact ⟨fun _ => by simp [fill], ['x'], _, rfl, by decide, ih'⟩
    | all g => exact ⟨fun _ => by simp [fill], 'x' :: w, _, rfl, by simpa using hw, ih'⟩

/-- A part is filled by `x` or by its own character. -/
theorem mem_fill_charPart {w : Text} {g : Bool} {c d : Char} (h : d ∈ fill w (charPart g c)) :
    d = 'x' ∨ d = c := by
  unfold charPart at h
  split at h
  · exact .inl (by simpa [fill] using h)
  · split at h
    · exact .inl (by simpa [fill] using h)
    · exact .inr (by simpa [fill] using h)

/-- Without backslashes nothing is replaced. -/
theorem slashes_of_notMem {t : Text} (h : '\\' ∉ t) : slashes t = t := by
  refine (List.map_congr_left fun c hc => ?_).trans (List.map_id t)
  rw [if_neg, id]
  rintro rfl
  exact h hc

/-- No backslash is left. -/
theorem backslash_notMem_slashes (t : Text) : '\\' ∉ slashes t := by
  intro h
  obtain ⟨c, -, hc⟩ := List.mem_map.mp h
  split at hc
  · exact absurd hc (by decide)
  · contradiction

/-- Filling the parts of a glob brings no backslash in. -/
theorem backslash_notMem_fill {p w : Text} (hc : NoClass p) (hp : '\\' ∉ p) (hw : '\\' ∉ w)
    (s : Bool) : '\\' ∉ (parts (.out s) p).flatMap (fill w) := by
  rw [List.mem_flatMap]
  rintro ⟨x, hx, h⟩
  rcases mem_parts hc hx with ⟨g, rfl⟩ | ⟨g, d, hd, rfl⟩
  · rcases List.mem_cons.mp h with h | h
    · exact absurd h (by decide)
    · exact hw h
  · rcases mem_fill_charPart h with h | rfl
    · exact absurd h (by decide)
    · exact hp hd

/-- The segments behind the first that are hidden. -/
def hiddenBehind (t : Text) : ℕ := (t.splitOn '/').tail.countP (Hidden ·)

/-- A character in front hides no less. -/
theorem hiddenBehind_cons (c : Char) (t : Text) : hiddenBehind t ≤ hiddenBehind (c :: t) := by
  unfold hiddenBehind
  rw [List.splitOn_cons_eq_if_modifyHead]
  split
  · exact List.Sublist.countP_le (List.tail_sublist _)
  · simp

theorem hiddenBehind_append (u t : Text) : hiddenBehind t ≤ hiddenBehind (u ++ t) := by
  induction u with
  | nil => exact le_rfl
  | cons c u ih => exact ih.trans (hiddenBehind_cons c (u ++ t))

/-- A hidden segment counts one. -/
theorem hiddenBehind_segment (t : Text) :
    hiddenBehind ('/' :: '.' :: t) = hiddenBehind t + 1 := by
  obtain ⟨a, as, h⟩ := List.exists_cons_of_ne_nil (List.splitOn_ne_nil '/' t)
  simp [hiddenBehind, List.splitOn_cons_eq_if_modifyHead, h, Hidden]

/-- Some segments `.h`, each behind its slash. -/
def hiddenRun (n : ℕ) : Text := (List.replicate n ['/', '.', 'h']).flatten

/-- A run of hidden segments counts them all. -/
theorem hiddenBehind_run (n : ℕ) (t : Text) : n ≤ hiddenBehind (hiddenRun n ++ t) := by
  induction n with
  | zero => exact Nat.zero_le _
  | succ n ih =>
    have h : hiddenRun (n + 1) ++ t = '/' :: '.' :: ('h' :: (hiddenRun n ++ t)) := by
      simp [hiddenRun, List.replicate_succ]
    rw [h, hiddenBehind_segment]
    have := hiddenBehind_cons 'h' (hiddenRun n ++ t)
    omega

/-- A path that matches has no more hidden segments than the glob has segments. -/
theorem countP_hidden_le {ps ss : List Text} (h : SegmentsMatch ps ss) :
    (ss.countP (Hidden ·)) ≤ ps.length := by
  induction ps generalizing ss with
  | nil =>
    obtain rfl : ss = [] := h
    rfl
  | cons p ps ih =>
    rw [SegmentsMatch] at h
    split at h
    · obtain ⟨us, vs, rfl, hu, hv⟩ := h
      have h0 : (us.countP (Hidden ·)) = 0 := by
        rw [List.countP_eq_zero]
        exact fun u hus => by simpa using hu u hus
      have := ih hv
      rw [List.countP_append, h0, List.length_cons]
      omega
    · obtain ⟨s, vs, rfl, -, hv⟩ := h
      have := ih hv
      rw [List.countP_cons, List.length_cons]
      split <;> omega

/-- Too many hidden segments for a glob. -/
theorem not_matches_of_hiddenRun {p u v : Text} {n : ℕ} (h : (p.splitOn '/').length < n) :
    ¬ Matches p (u ++ (hiddenRun n ++ v)) := by
  intro hm
  have h1 := countP_hidden_le hm
  have h2 := (hiddenBehind_run n v).trans (hiddenBehind_append u (hiddenRun n ++ v))
  have h3 : hiddenBehind (u ++ (hiddenRun n ++ v)) ≤ _ :=
    List.Sublist.countP_le (List.tail_sublist _)
  omega

/-- A glob with `**` matches a path with so many hidden segments that it should not match, with or
without its last character. -/
theorem exists_hidden_match {pattern : Text} (hc : NoClass (slashes pattern))
    (h : ¬ NoDoubleStar (slashes pattern)) :
    ∃ path, matchGlob cls pattern path = true ∧ ¬ Matches (slashes pattern) (slashes path) ∧
      ∀ q, path = q ++ ['\n'] → ¬ Matches (slashes pattern) (slashes q) := by
  obtain ⟨g, hg⟩ := exists_all_mem_parts hc h true
  obtain ⟨as, bs, hps⟩ := List.append_of_mem hg
  let w := hiddenRun ((slashes pattern).splitOn '/').length.succ
  let u := as.flatMap (fill w) ++ ['x']
  let v := bs.flatMap (fill w)
  have hpath : (parts (.out true) (slashes pattern)).flatMap (fill w) = u ++ (w ++ v) := by
    simp [hps, u, v, fill]
  have hmem : ∀ c ∈ w, c = '/' ∨ c = '.' ∨ c = 'h' := by
    intro c hcw
    simpa [w, hiddenRun] using hcw
  have hw : ∀ {c : Char}, c ≠ '/' → c ≠ '.' → c ≠ 'h' → c ∉ w := by
    intro c h1 h2 h3 hcw
    rcases hmem c hcw with h | h | h <;> contradiction
  have hb : '\\' ∉ u ++ (w ++ v) := by
    rw [← hpath]
    exact backslash_notMem_fill hc (backslash_notMem_slashes _)
      (hw (by decide) (by decide) (by decide)) true
  refine ⟨u ++ (w ++ v), ?_, ?_, ?_⟩
  · refine (matchGlob_iff cls).mpr (.inl ?_)
    rw [slashes_of_notMem hb, ← hpath]
    exact fit_fill cls (hw (by decide) (by decide) (by decide)) fun body =>
      cls_notMem_parts hc true body
  · rw [slashes_of_notMem hb]
    exact not_matches_of_hiddenRun (Nat.lt_succ_self _)
  · intro q hq
    rcases List.eq_nil_or_concat v with hv | ⟨v', d, hv⟩
    · -- the run ends with a letter, not with a newline
      have hlast : u ++ (w ++ v) = (u ++ w.dropLast) ++ ['h'] := by
        simp [hv, w, hiddenRun, List.replicate_succ']
      rw [hlast] at hq
      exact absurd (List.append_inj' hq rfl).2 (by decide)
    · rw [hv, List.concat_eq_append, ← List.append_assoc, ← List.append_assoc] at hq
      obtain ⟨rfl, -⟩ := List.append_inj' hq rfl
      have hbv : '\\' ∉ u ++ (w ++ v') := by
        intro hm
        refine hb ?_
        rw [hv, List.concat_eq_append, ← List.append_assoc w, ← List.append_assoc u]
        exact List.mem_append_left _ hm
      rw [List.append_assoc, slashes_of_notMem hbv]
      exact not_matches_of_hiddenRun (Nat.lt_succ_self _)

/-- A glob without `**` means what it should, but that the expression lets a newline stand behind
the path. With `**` no glob does: `.*` runs through hidden segments. -/
theorem matchGlob_law {pattern : Text} (h : NoClass (slashes pattern)) :
    (∀ path, (matchGlob cls pattern path = true ↔ Matches (slashes pattern) (slashes path)) ↔
      ¬ NewlineBehind pattern path) ↔ NoDoubleStar (slashes pattern) := by
  constructor
  · intro hlaw
    by_contra hds
    obtain ⟨path, hm, hno, hq⟩ := exists_hidden_match cls h hds
    have hn : ¬ NewlineBehind pattern path := by
      rintro ⟨q, rfl, hqm, -⟩
      exact hq q rfl hqm
    exact hno (((hlaw path).mpr hn).mp hm)
  · intro hds path
    rw [matchGlob_iff, parts_eq_plain hds h]
    simp only [fit_plain_iff_matches cls hds, NewlineBehind]
    constructor
    · rintro hiff ⟨q, rfl, hq, hno⟩
      exact hno (hiff.mp (.inr ⟨q, rfl, hq⟩))
    · intro hn
      refine ⟨?_, .inl⟩
      rintro (hm | ⟨q, rfl, hq⟩)
      · exact hm
      · by_contra hno
        exact hn ⟨q, rfl, hq, hno⟩

/-- A pattern with a single star keeps the law. -/
theorem matchGlob_law_star :
    (∀ path, (matchGlob (fun _ _ => false) "docs/*.md".toList path = true ↔
        Matches (slashes "docs/*.md".toList) (slashes path)) ↔
      ¬ NewlineBehind "docs/*.md".toList path) ↔ NoDoubleStar (slashes "docs/*.md".toList) :=
  matchGlob_law (fun _ _ => false) (noClass_of_notMem (by decide))

/-- `a/**/b.md` matches `a/xb.md`: `.*` swallows the start of the segment. -/
theorem glob_swallows_segment :
    ¬ ∀ (cls : Text → Char → Bool) (pattern path : Text), NoClass (slashes pattern) →
      (matchGlob cls pattern path = true ↔ Matches (slashes pattern) (slashes path)) := by
  intro h
  have hm := (h (fun _ _ => false) "a/**/b.md".toList "a/xb.md".toList
    (noClass_of_notMem (by decide))).mp (by decide)
  have hpattern : (slashes "a/**/b.md".toList).splitOn '/' = [['a'], ['*', '*'], "b.md".toList] := by
    decide
  have hpath : (slashes "a/xb.md".toList).splitOn '/' = [['a'], "xb.md".toList] := by
    decide
  rw [Matches, hpattern, hpath] at hm
  simp [SegmentsMatch, SegmentMatches, Fits] at hm
  obtain ⟨-, us, hus, -⟩ := hm
  have hlast : ([[] ++ ['x', 'b', '.', 'm', 'd']] : List Text) = [['b', '.', 'm', 'd']] :=
    (List.append_inj' (show [] ++ _ = us ++ _ from hus) rfl).2
  exact absurd hlast (by decide)

end Glob

end CoordinatorCore
