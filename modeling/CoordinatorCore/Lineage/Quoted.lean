import CoordinatorCore.Frontmatter.FieldLaw
import CoordinatorCore.Lineage.Layout

/-!
# Reading back a quoted scalar

`serialize_yaml_scalar` quotes with apostrophes and doubles the ones inside. The lineage parser looks
for a trailing comment before it looks at the quotes, and its comment scanner takes the second
apostrophe of a doubled one for the end of the scalar. From the first apostrophe of the text on it
therefore believes to be outside, except between double quotes, and a `#` with blanks around it ends
the value.

`CommentRun` is that condition on the text alone, and `parseFrontmatter_serialized_iff` says that the
text is read back exactly when it does not hold.
-/

namespace CoordinatorCore

open Text Frontmatter

namespace Lineage

/-! ### The comment scanner behind the first apostrophe -/

/-- Behind the first apostrophe of the text: a `#` outside double quotes with blanks around it.
`d` says whether the position is inside double quotes, and `prev` is the character before it. -/
def openComment (prev : Char) (d : Bool) : Text → Bool
  | [] => false
  | c :: cs =>
    if c = '"' then openComment c (!d) cs
    else if c = '#' ∧ d = false ∧ isBlank prev = true ∧ cs.head?.any isBlank = true then true
    else openComment c d cs

/-- The comment scanner reports a comment. -/
def found (prev : Option Char) (s d : Bool) (t : Text) : Bool := (beforeComment prev s d t).isSome

section

variable {prev : Option Char} {s d : Bool} {c : Char} {cs : Text}

private theorem found_double (hs : s = false) :
    found prev s d ('"' :: cs) = found (some '"') s (!d) cs := by
  simp [found, beforeComment, hs]

private theorem found_apostrophe_pass (hd : d = false) (hs : s = true)
    (hcs : cs.head? = some '\'') : found prev s d ('\'' :: cs) = found (some '\'') s d cs := by
  simp [found, beforeComment, hd, hs, hcs]

private theorem found_apostrophe_toggle (hd : d = false)
    (h : s = false ∨ cs.head? ≠ some '\'') :
    found prev s d ('\'' :: cs) = found (some '\'') (!s) d cs := by
  have hn : ¬ (s = true ∧ cs.head? = some '\'') := by
    rintro ⟨hs, hcs⟩
    rcases h with h | h
    · rw [h] at hs
      cases hs
    · exact h hcs
  simp [found, beforeComment, hd, hn]

private theorem found_comment (hp : prev.any isBlank = true)
    (hn : cs.head?.all isBlank = true) : found prev false false ('#' :: cs) = true := by
  rw [found, beforeComment, if_neg (by decide), if_neg (by decide), if_pos ⟨rfl, rfl, rfl, hp, hn⟩]
  rfl

private theorem found_pass (h₁ : ¬ (c = '"' ∧ s = false)) (h₂ : ¬ (c = '\'' ∧ d = false))
    (h₃ : ¬ (c = '#' ∧ s = false ∧ d = false ∧ prev.any isBlank ∧ cs.head?.all isBlank)) :
    found prev s d (c :: cs) = found (some c) s d cs := by
  simp only [found, beforeComment, if_neg h₁, if_neg h₂, if_neg h₃, Option.isSome_map]

end

@[simp] private theorem doubleQuotes_nil : doubleQuotes [] = [] := rfl

/-- An apostrophe is doubled. -/
theorem doubleQuotes_apostrophe (s : Text) :
    doubleQuotes ('\'' :: s) = '\'' :: '\'' :: doubleQuotes s := by simp [doubleQuotes]

/-- Other characters stay. -/
theorem doubleQuotes_cons {c : Char} (hc : c ≠ '\'') (s : Text) :
    doubleQuotes (c :: s) = c :: doubleQuotes s := by simp [doubleQuotes, hc]

/-- The first character of the escaped text, with the closing quote behind it. -/
private theorem head?_escaped (s : Text) :
    (doubleQuotes s ++ ['\'']).head? = some (s.headD '\'') := by
  cases s with
  | nil => rfl
  | cons c s =>
    by_cases hc : c = '\''
    · subst hc
      rw [doubleQuotes_apostrophe]
      rfl
    · rw [doubleQuotes_cons hc]
      rfl

/-- The scanner on the escaped text, open or between the two halves of a doubled apostrophe. -/
private theorem found_open (s : Text) :
    (∀ prev d, found (some prev) false d (doubleQuotes s ++ ['\'']) = openComment prev d s) ∧
      (∀ prev, found prev true false ('\'' :: (doubleQuotes s ++ ['\''])) =
        openComment '\'' false s) := by
  induction s with
  | nil =>
    refine ⟨fun prev d => ?_, fun prev => ?_⟩
    · cases d <;> simp [found, beforeComment, openComment]
    · simp [found, beforeComment, openComment]
  | cons c s ih =>
    obtain ⟨ihopen, ihhalf⟩ := ih
    -- an apostrophe of the text is written twice; the half state is between the two
    by_cases hc : c = '\''
    · subst hc
      rw [doubleQuotes_apostrophe]
      refine ⟨fun prev d => ?_, fun prev => ?_⟩
      · rw [openComment, if_neg (by decide), if_neg (by simp)]
        cases d with
        | false =>
          rw [List.cons_append, found_apostrophe_toggle rfl (Or.inl rfl)]
          exact ihhalf _
        | true =>
          rw [List.cons_append, found_pass (by decide) (by decide) (by simp), List.cons_append,
            found_pass (by decide) (by decide) (by simp)]
          exact ihopen _ _
      · rw [openComment, if_neg (by decide), if_neg (by simp), List.cons_append,
          found_apostrophe_pass rfl rfl rfl, List.cons_append, found_apostrophe_pass rfl rfl rfl]
        exact ihhalf _
    · rw [doubleQuotes_cons hc]
      have hopen : ∀ prev d, found (some prev) false d (c :: (doubleQuotes s ++ ['\''])) =
          openComment prev d (c :: s) := by
        intro prev d
        rw [openComment]
        by_cases hd : c = '"'
        · subst hd
          rw [if_pos rfl, found_double rfl]
          exact ihopen _ _
        · rw [if_neg hd]
          -- a hash between blanks starts the comment at once
          by_cases hh : c = '#' ∧ d = false ∧ isBlank prev = true ∧ s.head?.any isBlank = true
          · obtain ⟨rfl, rfl, hp, hn⟩ := hh
            obtain ⟨e, s, rfl⟩ : ∃ e t, s = e :: t := by
              cases s with
              | nil => cases hn
              | cons e t => exact ⟨e, t, rfl⟩
            have hhead : ((doubleQuotes (e :: s) ++ ['\'']).head?.all isBlank) = true := by
              rw [head?_escaped]
              simpa using hn
            rw [if_pos ⟨rfl, rfl, hp, hn⟩]
            exact found_comment (by simpa using hp) hhead
          · rw [if_neg hh, found_pass (fun h => hd h.1) (fun h => hc h.1), ihopen]
            rintro ⟨rfl, -, rfl, hp, hn⟩
            rw [head?_escaped] at hn
            refine hh ⟨rfl, rfl, by simpa using hp, ?_⟩
            cases s with
            | nil => exact absurd hn (by decide)
            | cons e t => simpa using hn
      refine ⟨hopen, fun prev => ?_⟩
      rw [found_apostrophe_toggle rfl (Or.inr ?_)]
      · exact hopen _ _
      · simpa using hc

/-! ### The condition on the text -/

/-- The text has a `#` between blanks behind its first apostrophe, with an even number of double
quotes between the two. -/
def CommentRun (s : Text) : Prop :=
  ∃ a b w c, s = a ++ '\'' :: b ++ '#' :: w :: c ∧ '\'' ∉ a ∧ b.count '"' % 2 = 0 ∧
    b.getLast?.any isBlank = true ∧ isBlank w = true

private theorem openComment_iff (s : Text) (prev : Char) (d : Bool) :
    openComment prev d s = true ↔ ∃ b w c, s = b ++ '#' :: w :: c ∧
      (b.count '"' % 2 = 1 ↔ d = true) ∧ isBlank (b.getLastD prev) = true ∧
        isBlank w = true := by
  induction s generalizing prev d with
  | nil => simp [openComment]
  | cons e s ih =>
    rw [openComment]
    -- a double quote changes the parity, any other character keeps it
    by_cases hq : e = '"'
    · subst hq
      rw [if_pos rfl, ih]
      constructor
      · rintro ⟨b, w, c, rfl, hb, hl, hw⟩
        refine ⟨'"' :: b, w, c, rfl, ?_, by rw [List.getLastD_cons]; exact hl, hw⟩
        rw [List.count_cons_self]
        cases d <;> simp at hb ⊢ <;> omega
      · rintro ⟨b, w, c, hs, hb, hl, hw⟩
        cases b with
        | nil => simp at hs
        | cons f b =>
          obtain ⟨rfl, rfl⟩ : '"' = f ∧ s = b ++ '#' :: w :: c := by simpa using hs
          refine ⟨b, w, c, rfl, ?_, by rw [List.getLastD_cons] at hl; exact hl, hw⟩
          rw [List.count_cons_self] at hb
          cases d <;> simp at hb ⊢ <;> omega
    · rw [if_neg hq]
      -- here the comment starts, or further on
      by_cases hh : e = '#' ∧ d = false ∧ isBlank prev = true ∧ s.head?.any isBlank = true
      · rw [if_pos hh]
        obtain ⟨rfl, rfl, hp, hn⟩ := hh
        refine iff_of_true rfl ?_
        cases s with
        | nil => cases hn
        | cons w c => exact ⟨[], w, c, rfl, by simp, hp, by simpa using hn⟩
      · rw [if_neg hh, ih]
        constructor
        · rintro ⟨b, w, c, rfl, hb, hl, hw⟩
          refine ⟨e :: b, w, c, rfl, ?_, by rw [List.getLastD_cons]; exact hl, hw⟩
          rwa [List.count_cons_of_ne (by simpa using hq)]
        · rintro ⟨b, w, c, hs, hb, hl, hw⟩
          cases b with
          | nil =>
            obtain ⟨rfl, rfl⟩ : e = '#' ∧ s = w :: c := by simpa using hs
            have hd : d = false := by simpa using hb
            exact absurd ⟨rfl, hd, hl, by simpa using hw⟩ hh
          | cons f b =>
            obtain ⟨rfl, rfl⟩ : e = f ∧ s = b ++ '#' :: w :: c := by simpa using hs
            refine ⟨b, w, c, rfl, ?_, by rw [List.getLastD_cons] at hl; exact hl, hw⟩
            rwa [List.count_cons_of_ne (by simpa using hq)] at hb

/-- The comment scanner cuts a quoted scalar exactly when its text has a comment run. -/
theorem found_serialized_iff (s : Text) :
    found none false false ('\'' :: doubleQuotes s ++ ['\'']) = true ↔ CommentRun s := by
  rw [List.cons_append, found_apostrophe_toggle rfl (Or.inl rfl)]
  -- inside the quotes, up to the first apostrophe of the text, nothing ends the scalar
  have inside : ∀ (s : Text) (prev : Option Char),
      found prev true false (doubleQuotes s ++ ['\'']) = true ↔ CommentRun s := by
    intro s
    induction s with
    | nil =>
      intro prev
      refine iff_of_false (by simp [found, beforeComment]) ?_
      rintro ⟨a, b, w, c, hs, -⟩
      simp at hs
    | cons e s ih =>
      intro prev
      by_cases he : e = '\''
      · subst he
        rw [doubleQuotes_apostrophe, List.cons_append, found_apostrophe_pass rfl rfl rfl,
          List.cons_append, (found_open s).2, openComment_iff]
        constructor
        · rintro ⟨b, w, c, rfl, hb, hl, hw⟩
          refine ⟨[], b, w, c, rfl, List.not_mem_nil, by simp at hb; omega, ?_, hw⟩
          cases b using List.reverseRecOn with
          | nil => exact absurd hl (by decide)
          | append_singleton b x => simpa using hl
        · rintro ⟨a, b, w, c, hs, ha, hb, hl, hw⟩
          cases a with
          | nil =>
            have hs : s = b ++ '#' :: w :: c := by simpa using hs
            refine ⟨b, w, c, hs, by simp; omega, ?_, hw⟩
            cases b using List.reverseRecOn with
            | nil => cases hl
            | append_singleton b x => simpa using hl
          | cons f a =>
            obtain ⟨rfl, -⟩ : '\'' = f ∧ _ := by simpa using hs
            exact absurd (List.mem_cons_self ..) ha
      · rw [doubleQuotes_cons he, List.cons_append,
          found_pass (by simp) (fun h => he h.1) (by simp), ih]
        constructor
        · rintro ⟨a, b, w, c, rfl, ha, hrest⟩
          refine ⟨e :: a, b, w, c, rfl, ?_, hrest⟩
          simpa using ⟨Ne.symm he, ha⟩
        · rintro ⟨a, b, w, c, hs, ha, hrest⟩
          cases a with
          | nil =>
            obtain ⟨rfl, -⟩ : e = '\'' ∧ _ := by simpa using hs
            exact absurd rfl he
          | cons f a =>
            obtain ⟨rfl, rfl⟩ : e = f ∧ s = a ++ '\'' :: b ++ '#' :: w :: c := by simpa using hs
            exact ⟨a, b, w, c, rfl, fun h => ha (List.mem_cons_of_mem _ h), hrest⟩
  exact inside s _

/-! ### The scalar read -/

/-- A comment leaves a part of the text in front of a `#`. -/
theorem exists_of_beforeComment {prev : Option Char} {s d : Bool} {t p : Text}
    (h : beforeComment prev s d t = some p) : ∃ r, t = p ++ '#' :: r := by
  induction t generalizing prev s d p with
  | nil => cases h
  | cons c cs ih =>
    have step : ∀ {prev s d}, (beforeComment prev s d cs).map (c :: ·) = some p →
        ∃ r, c :: cs = p ++ '#' :: r := by
      intro prev s d hm
      obtain ⟨p', hp', rfl⟩ := Option.map_eq_some_iff.mp hm
      obtain ⟨r, hr⟩ := ih hp'
      exact ⟨r, by rw [hr, List.cons_append]⟩
    rw [beforeComment] at h
    split_ifs at h with h₁ h₂ h₃ h₄
    · exact step h
    · exact step h
    · exact step h
    · cases h
      exact ⟨cs, by rw [h₄.1, List.nil_append]⟩
    · exact step h

/-- What opens with a quote is read as a string. -/
theorem scalarOf_quote {q : Char} (hq : q = '\'' ∨ q = '"') (t : Text) :
    scalarOf (q :: t) = .str (
      if quotedBy q (q :: t) then
        if q = '"' then replacePair '\\' '\\' '\\' (replacePair '\\' '"' '"' t.dropLast)
        else undoubleQuotes t.dropLast
      else q :: t) := by
  have hint := pyInt_quote hq t
  have hfloat := pyFloat_quote hq t
  have hother : ∀ q', q ≠ q' → quotedBy q' (q :: t) = false := fun q' h => by simp [quotedBy, h]
  rw [scalarOf, hint, Option.filter_none, hfloat]
  rcases hq with rfl | rfl
  · rw [if_neg (by simp), if_neg (by simp), if_neg (by simp), hother '"' (by decide)]
    cases quotedBy '\'' ('\'' :: t) <;> simp
  · rw [if_neg (by simp), if_neg (by simp), if_neg (by simp), hother '\'' (by decide)]
    cases quotedBy '"' ('"' :: t) <;> simp

/-- A serialized text without a comment is read back. -/
theorem scalarOf_single (s : Text) : scalarOf ('\'' :: doubleQuotes s ++ ['\'']) = .str s := by
  have hlast : ('\'' :: (doubleQuotes s ++ ['\''])).getLast? = some '\'' :=
    List.getLast?_concat (l := '\'' :: doubleQuotes s)
  have hq : quotedBy '\'' ('\'' :: (doubleQuotes s ++ ['\''])) = true := by simp [quotedBy, hlast]
  rw [List.cons_append, scalarOf_quote (Or.inl rfl), if_pos hq, if_neg (by decide),
    List.dropLast_concat, undoubleQuotes_doubleQuotes]

private theorem count_doubleQuotes (s : Text) : (doubleQuotes s).count '#' = s.count '#' := by
  induction s with
  | nil => rfl
  | cons c s ih =>
    by_cases hc : c = '\''
    · subst hc
      simp [doubleQuotes_apostrophe, ih]
    · rw [doubleQuotes_cons hc, List.count_cons, List.count_cons, ih]

private theorem count_undoubleQuotes (s : Text) : (undoubleQuotes s).count '#' = s.count '#' := by
  induction s using undoubleQuotes.induct with
  | case1 cs ih => simp [undoubleQuotes, ih]
  | case2 c cs h ih => rw [undoubleQuotes, List.count_cons, List.count_cons, ih]; exact h
  | case3 => rfl

private theorem count_replacePair {a b r : Char} (hr : r ≠ '#') (s : Text) :
    (replacePair a b r s).count '#' ≤ s.count '#' := by
  fun_induction replacePair a b r s with
  | case1 c e cs h ih =>
    rw [List.count_cons_of_ne (by simpa using hr)]
    exact ih.trans (((List.sublist_cons_self e cs).trans (List.sublist_cons_self c _)).count_le _)
  | case2 c e cs h ih =>
    rw [List.count_cons, List.count_cons]
    exact Nat.add_le_add_right ih _
  | case3 cs h => exact le_rfl

/-- The text read has no more `#` than the text that opens with a quote. -/
private theorem count_scalarOf {q : Char} (hq : q = '\'' ∨ q = '"') {t u : Text}
    (h : scalarOf (q :: t) = .str u) : u.count '#' ≤ t.count '#' := by
  rw [scalarOf_quote hq, Val.str.injEq] at h
  subst h
  have hq' : q ≠ '#' := by rcases hq with rfl | rfl <;> decide
  have hlast : t.dropLast.count '#' ≤ t.count '#' := (List.dropLast_sublist t).count_le _
  split_ifs
  · exact ((count_replacePair (by decide) _).trans (count_replacePair (by decide) _)).trans hlast
  · rw [count_undoubleQuotes]
    exact hlast
  · rw [List.count_cons_of_ne (by simpa using hq')]

/-- A quoted scalar that is cut at a comment is not read back. -/
theorem parseScalar_ne_of_found {q : Char} (hq : q = '\'' ∨ q = '"') {t v : Text}
    (h : found none false false (q :: t) = true) (hv : t.count '#' ≤ v.count '#') :
    parseScalar (q :: t) ≠ .str v := by
  obtain ⟨p, hp⟩ := Option.isSome_iff_exists.mp h
  obtain ⟨r, hr⟩ := exists_of_beforeComment hp
  have hspace : isSpace q = false := by rcases hq with rfl | rfl <;> decide
  obtain ⟨p', rfl, rfl⟩ : ∃ p', p = q :: p' ∧ t = p' ++ '#' :: r := by
    cases p with
    | nil =>
      obtain ⟨rfl, -⟩ : q = '#' ∧ _ := by simpa using hr
      rcases hq with h | h <;> cases h
    | cons c p' =>
      obtain ⟨rfl, ht⟩ : q = c ∧ t = p' ++ '#' :: r := by simpa using hr
      exact ⟨p', rfl, ht⟩
  -- the `#` that starts the comment is missing from what is read
  have hcut : rstrip (q :: p') = q :: rstrip p' := rstrip_append_cons hspace [] p'
  have hstrip : strip (rstrip (q :: p')) = q :: rstrip p' := by
    rw [strip, lstrip_rstrip, lstrip_cons_of_not_space hspace, rstrip_idem, hcut]
  rw [parseScalar, stripInlineComment, hp]
  dsimp only
  rw [hstrip]
  intro hread
  have hle := count_scalarOf hq hread
  have hpre : (rstrip p').count '#' ≤ p'.count '#' :=
    (List.rdropWhile_prefix ..).sublist.count_le _
  rw [List.count_append, List.count_cons_self] at hv
  omega

/-- Quotes are not stripped. -/
theorem strip_single (s : Text) :
    strip ('\'' :: doubleQuotes s ++ ['\'']) = '\'' :: doubleQuotes s ++ ['\''] := by
  rw [strip, List.cons_append, lstrip_cons_of_not_space (by decide), ← List.cons_append,
    rstrip_concat_of_not_space (by decide)]

/-- A scalar without a comment is read as it stands. -/
theorem parseScalar_of_not_found {t : Text} (h : found none false false t = false)
    (ht : strip t = t) : parseScalar t = scalarOf t := by
  have hnone : beforeComment none false false t = none := by
    rwa [found, Option.isSome_eq_false_iff, Option.isNone_iff_eq_none] at h
  rw [parseScalar, stripInlineComment, hnone]
  dsimp only
  rw [ht]

/-- A quoted scalar is read back exactly when its text has no comment run. -/
theorem parseScalar_single_iff (s : Text) :
    parseScalar ('\'' :: doubleQuotes s ++ ['\'']) = .str s ↔ ¬ CommentRun s := by
  rw [← found_serialized_iff]
  by_cases hf : found none false false ('\'' :: doubleQuotes s ++ ['\'']) = true
  · refine iff_of_false (parseScalar_ne_of_found (Or.inl rfl) hf ?_) (not_not_intro hf)
    simp [count_doubleQuotes]
  · refine iff_of_true ?_ hf
    rw [parseScalar_of_not_found (by simpa using hf) (strip_single s), scalarOf_single]

/-! ### The document -/

/-- A document with the single line `k: v`. -/
def oneLine (k v : Text) : Text := "---\n".toList ++ (k ++ ':' :: ' ' :: v) ++ "\n---\n".toList

private theorem closesBody_escaped (s : Text) (prev : Option Char) :
    closesBody '\'' prev (doubleQuotes s ++ ['\'']) = true := by
  induction s generalizing prev with
  | nil => simp [closesBody]
  | cons c s ih =>
    by_cases hc : c = '\''
    · subst hc
      rw [doubleQuotes_apostrophe, List.cons_append, List.cons_append, closesBody, if_neg (by simp),
        if_pos rfl]
      exact ih _
    · rw [doubleQuotes_cons hc, List.cons_append]
      unfold closesBody
      rw [if_pos hc]
      exact ih _

/-- A quoted scalar on the line of its key is read as a scalar. -/
theorem parseRest_single (s : Text) (ls : List Text) :
    parseRest ('\'' :: doubleQuotes s ++ ['\'']) ls =
      (parseScalar ('\'' :: doubleQuotes s ++ ['\'']), ls) := by
  have hbr : bracketed (stripInlineComment ('\'' :: doubleQuotes s ++ ['\''])) = false := by
    rw [stripInlineComment]
    cases hb : beforeComment none false false ('\'' :: doubleQuotes s ++ ['\'']) with
    | none => rfl
    | some p =>
      obtain ⟨r, hr⟩ := exists_of_beforeComment hb
      cases p with
      | nil => simp at hr
      | cons c p' =>
        obtain ⟨rfl, -⟩ : '\'' = c ∧ _ := by simpa using hr
        have hcut : rstrip ('\'' :: p') = '\'' :: rstrip p' := rstrip_append_cons (by decide) [] p'
        simp only [hcut]
        rfl
  have hclose : closesQuote '\'' ('\'' :: (doubleQuotes s ++ ['\''])) = true :=
    closesBody_escaped s none
  unfold parseRest
  rw [hbr, List.cons_append]
  simp [hclose]

/-- The value under the key is what the scalar reader makes of the quoted text. -/
theorem parseFrontmatter_serialized (k s : Text) (n : Bool) (hk : identifierKey k = true)
    (hs : '\n' ∉ s) (hq : needsQuoting s n = true) :
    (parseFrontmatter (oneLine k (serializeYamlScalar (some s) n))).get k =
      parseScalar ('\'' :: doubleQuotes s ++ ['\'']) := by
  have hval : serializeYamlScalar (some s) n = '\'' :: doubleQuotes s ++ ['\''] := by
    simp [serializeYamlScalar, hq]
  have hnl : '\n' ∉ k ++ ':' :: ' ' :: ('\'' :: doubleQuotes s ++ ['\'']) := by
    have hkn : '\n' ∉ k := fun h => absurd (wordChar_of_mem hk h) (by decide)
    have hsn : '\n' ∉ '\'' :: doubleQuotes s ++ ['\''] := hval ▸ newline_not_mem_serialize n hs
    simp only [List.mem_append, List.mem_cons, not_or] at hkn hsn ⊢
    exact ⟨hkn, by decide, by decide, hsn⟩
  have hstrip : strip (' ' :: ('\'' :: doubleQuotes s ++ ['\''])) =
      '\'' :: doubleQuotes s ++ ['\''] := by
    rw [strip, lstrip_cons_of_space (by decide), ← strip, strip_single]
  have hassigned : assigned (k ++ ':' :: ' ' :: ('\'' :: doubleQuotes s ++ ['\''])) [[]] =
      some (k, parseScalar ('\'' :: doubleQuotes s ++ ['\''])) := by
    rw [assigned, if_neg (by simp [skippable_keyLine hk]), keyAndRest_keyLine hk, hstrip,
      Option.map_some, entryValue, parseRest_single]
    rfl
  rw [parseFrontmatter, oneLine, hval, frontmatterLines_single hnl (isTerminator_keyLine hk _)]
  refine get_parse_of_last (.here _) hassigned ?_ []
  have hadv : advance (k ++ ':' :: ' ' :: ('\'' :: doubleQuotes s ++ ['\''])) [[]] = [[]] := by
    rw [advance, if_neg (by simp [skippable_keyLine hk]), keyAndRest_keyLine hk, hstrip]
    dsimp only
    rw [parseRest_single]
    rfl
  rw [hadv]
  exact unassigned_blank k

/-- The lineage parser reads back what the writer quotes exactly when the text has no comment
run. -/
theorem parseFrontmatter_serialized_iff (k s : Text) (n : Bool) (hk : identifierKey k = true)
    (hs : '\n' ∉ s) (hq : needsQuoting s n = true) :
    (parseFrontmatter (oneLine k (serializeYamlScalar (some s) n))).get k = .str s ↔
      ¬ CommentRun s := by
  rw [parseFrontmatter_serialized k s n hk hs hq]
  exact parseScalar_single_iff s

/-- A colon is quoted and read back, an apostrophe included. -/
theorem parseFrontmatter_serialized_iff_title :
    (parseFrontmatter (oneLine "title".toList
      (serializeYamlScalar (some "it's a: \"b # c\"".toList) false))).get "title".toList =
        .str "it's a: \"b # c\"".toList ↔ ¬ CommentRun "it's a: \"b # c\"".toList :=
  parseFrontmatter_serialized_iff _ _ _ (by decide) (by decide)
    (by decide)

/-- Behind an apostrophe a `#` between blanks ends the value that was written. -/
theorem comment_run_is_lost :
    identifierKey "title".toList = true ∧ '\n' ∉ "it's a # b".toList ∧
      needsQuoting "it's a # b".toList false = true ∧
      (parseFrontmatter (oneLine "title".toList
        (serializeYamlScalar (some "it's a # b".toList) false))).get "title".toList ≠
          .str "it's a # b".toList := by
  refine ⟨by decide, by decide, by decide, fun h => ?_⟩
  have hread : Val.pyEq ((parseFrontmatter (oneLine "title".toList
      (serializeYamlScalar (some "it's a # b".toList) false))).get "title".toList)
        (.str "it's a # b".toList) = false := by decide +kernel
  rw [h, Val.pyEq_refl] at hread
  cases hread

end Lineage

end CoordinatorCore
