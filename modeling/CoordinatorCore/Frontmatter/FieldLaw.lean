import CoordinatorCore.Frontmatter.Primitives

/-!
# The write/read law of single-line fields

A field write should be seen by the reader of the same field and by no other reader. Both
halves are decided line by line. The writers touch lines that start with their own key, so
the frame reduces to the fact that one line carries at most one identifier key
(`keyLine_append_of_ne`). What is read back is decided on the rewritten line: the serialized
value either contains neither quote nor `#`, or it is a single-quoted scalar whose end
`scanSingle` finds (`scanSingle_doubleQuotes`).

Two inputs break the law, and only they do. `GluedComment`: on replacement, an old quoted
value whose closing quote is directly followed by `#` counts as carrying a comment, and the
comment is re-attached to the new plain value with nothing in between. `UnreadTail`: on
append, the right strip of the whole text removes white space behind a final `key:` that the
boundary lookahead had rejected, so a field appears.
-/

namespace CoordinatorCore

open Text

namespace Frontmatter

/-- The code points of identifiers. The host language admits letters of every script, so outside
ASCII everything but white space counts. -/
def isIdentChar (c : Char) : Bool :=
  c.isAlphanum || c == '_' || (128 ≤ c.toNat && !isSpace c)

/-- An identifier: identifier code points, not starting with a digit. -/
def IsIdent (key : Text) : Prop :=
  (∃ c cs, key = c :: cs ∧ c.isDigit = false) ∧ key.all isIdentChar = true

/-! ### Code points of identifiers -/

private theorem isSpace_of_isIdentChar {c : Char} (h : isIdentChar c = true) :
    isSpace c = false := by
  simp only [isIdentChar, Bool.or_eq_true, Bool.and_eq_true, Bool.not_eq_true',
    beq_iff_eq] at h
  rcases h with (h | rfl) | h
  · delta Char.isAlphanum Char.isAlpha Char.isUpper Char.isLower Char.isDigit at h
    simp only [Bool.or_eq_true, Bool.and_eq_true, decide_eq_true_eq, UInt32.le_iff_toNat_le,
      ge_iff_le] at h
    have hn : c.toNat = c.val.toNat := rfl
    have h0 : '0'.val.toNat = 48 := rfl
    have h9 : '9'.val.toNat = 57 := rfl
    have hA : 'A'.val.toNat = 65 := rfl
    have hZ : 'Z'.val.toNat = 90 := rfl
    have ha : 'a'.val.toNat = 97 := rfl
    have hz : 'z'.val.toNat = 122 := rfl
    simp only [isSpace, hn, Bool.or_eq_false_iff, Bool.and_eq_false_iff, decide_eq_false_iff_not,
      beq_eq_false_iff_ne]
    omega
  · decide
  · exact h.2

/-- An identifier has no white space. -/
theorem IsIdent.not_space {key : Text} (h : IsIdent key) {c : Char} (hc : c ∈ key) :
    isSpace c = false :=
  isSpace_of_isIdentChar (List.all_eq_true.mp h.2 c hc)

/-- An identifier has no colon. -/
theorem IsIdent.colon_not_mem {key : Text} (h : IsIdent key) : ':' ∉ key :=
  fun hm => absurd (List.all_eq_true.mp h.2 ':' hm) (by decide)

/-- An identifier is on one line. -/
theorem IsIdent.newline_not_mem {key : Text} (h : IsIdent key) : '\n' ∉ key :=
  fun hm => absurd (List.all_eq_true.mp h.2 '\n' hm) (by decide)

/-! ### Key lines -/

/-- A line holds the key when the key and a colon start it and a blank or the end follows. -/
theorem keyLine_eq_some {key line rest : Text} :
    keyLine key line = some rest ↔ line = key ++ ':' :: rest ∧ boundary rest = true := by
  rw [keyLine, Option.filter_eq_some_iff, stripPrefix?_eq_some]
  simp

/-- A line written with the key holds it. -/
theorem keyLine_self {key rest : Text} (h : boundary rest = true) :
    keyLine key (key ++ ':' :: rest) = some rest :=
  keyLine_eq_some.mpr ⟨rfl, h⟩

/-- One line carries at most one key. -/
theorem keyLine_append_of_ne {key key' rest : Text} (hk : ':' ∉ key) (hk' : ':' ∉ key')
    (hne : key' ≠ key) : keyLine key' (key ++ ':' :: rest) = none := by
  rw [Option.eq_none_iff_forall_not_mem]
  intro r hr
  obtain ⟨h, -⟩ := keyLine_eq_some.mp hr
  refine hne ?_
  have hspan : ∀ {a b : Text}, ':' ∉ a → (a ++ ':' :: b).takeWhile (· ≠ ':') = a := by
    intro a b ha
    induction a with
    | nil => simp
    | cons c a ih =>
      have hc : c ≠ ':' := fun e => ha (by simp [e])
      rw [List.cons_append, List.takeWhile_cons_of_pos (by simpa using hc),
        ih fun h => ha (by simp [h])]
  rw [← hspan (b := r) hk', ← h, hspan hk]

/-- No line is found when none holds the key. -/
theorem findKeyLine_eq_none {key : Text} {ls : List Text} :
    findKeyLine key ls = none ↔ ∀ l ∈ ls, keyLine key l = none := by
  induction ls with
  | nil => simp [findKeyLine]
  | cons l ls ih =>
    rw [findKeyLine]
    cases hl : keyLine key l with
    | none => simp [hl, ih]
    | some r => simp [hl]

/-- The first key line, with everything before it not carrying the key. -/
theorem findKeyLine_eq_some {key : Text} {ls a b : List Text} {r : Text}
    (h : findKeyLine key ls = some (a, r, b)) :
    ls = a ++ (key ++ ':' :: r) :: b ∧ boundary r = true ∧ ∀ l ∈ a, keyLine key l = none := by
  induction ls generalizing a with
  | nil => simp [findKeyLine] at h
  | cons l ls ih =>
    rw [findKeyLine] at h
    cases hl : keyLine key l with
    | some r' =>
      obtain ⟨rfl, hb⟩ := keyLine_eq_some.mp hl
      rw [hl] at h
      cases h
      exact ⟨rfl, hb, by simp⟩
    | none =>
      simp only [hl, Option.map_eq_some_iff] at h
      obtain ⟨⟨a', m⟩, hm, he⟩ := h
      cases he
      obtain ⟨rfl, hb, hall⟩ := ih hm
      exact ⟨rfl, hb, by simpa [hl] using hall⟩

/-- The first line with the key is the one that is found. -/
theorem findKeyLine_append {key l r : Text} {a b : List Text} (ha : ∀ l ∈ a, keyLine key l = none)
    (hl : keyLine key l = some r) : findKeyLine key (a ++ l :: b) = some (a, r, b) := by
  induction a with
  | nil => simp [findKeyLine, hl]
  | cons m a ih =>
    rw [List.cons_append, findKeyLine, ha m (by simp), ih fun x hx => ha x (by simp [hx])]
    rfl

/-- The value read from a list of lines. -/
private def readLines (key : Text) (ls : List Text) : Option Text :=
  (findKeyLine key ls).map fun m => strip m.2.1

private theorem readLines_nil (key : Text) : readLines key [] = none := rfl

private theorem readLines_cons (key l : Text) (ls : List Text) :
    readLines key (l :: ls) = ((keyLine key l).map strip).or (readLines key ls) := by
  rw [readLines, findKeyLine]
  cases keyLine key l with
  | some r => rfl
  | none =>
    simp only [readLines, Option.map_none, Option.none_or, Option.map_map]
    rfl

private theorem readLines_append (key : Text) (a b : List Text) :
    readLines key (a ++ b) = (readLines key a).or (readLines key b) := by
  induction a with
  | nil => simp [readLines_nil]
  | cons l a ih => rw [List.cons_append, readLines_cons, readLines_cons, ih, Option.or_assoc]

private theorem readFmField_eq (fm key : Text) : readFmField fm key = readLines key (lines fm) :=
  rfl

private theorem readFmField_unlines {key : Text} {ls : List Text} (h : ∀ l ∈ ls, '\n' ∉ l)
    (hne : ls ≠ []) : readFmField (unlines ls) key = readLines key ls := by
  rw [readFmField_eq, lines_unlines h hne]

/-! ### Finding the comment -/

/-- Whether the position behind `x` may start a comment, `b` being the answer in front of it. -/
def blankAfter (b : Bool) (x : Text) : Bool := x.foldl (fun _ c => isBlank c) b

@[simp] theorem blankAfter_nil (b : Bool) : blankAfter b [] = b := rfl

@[simp] theorem blankAfter_append (b : Bool) (x y : Text) :
    blankAfter b (x ++ y) = blankAfter (blankAfter b x) y := List.foldl_append

@[simp] theorem blankAfter_singleton (b : Bool) (c : Char) : blankAfter b [c] = isBlank c := rfl

/-- Only the last character decides, so a non-empty text forgets the start. -/
theorem blankAfter_of_ne_nil {x : Text} (h : x ≠ []) (b b' : Bool) :
    blankAfter b x = blankAfter b' x := by
  obtain ⟨y, c, rfl⟩ := List.eq_nil_or_concat' x |>.resolve_left h
  simp

/-- A text without `#` is passed over. -/
theorem commentSplit_append {x : Text} (hx : '#' ∉ x) (b : Bool) (y : Text) :
    commentSplit b (x ++ y) = (commentSplit (blankAfter b x) y).map fun p => (x ++ p.1, p.2) := by
  induction x generalizing b with
  | nil => cases h : commentSplit b y <;> simp [h]
  | cons c x ih =>
    have hc : c ≠ '#' := fun e => hx (by simp [e])
    have hx' : '#' ∉ x := fun e => hx (by simp [e])
    rw [List.cons_append, commentSplit, if_neg (fun e => hc e.2), ih hx', Option.map_map]
    rfl

theorem commentSplit_hash (c : Text) : commentSplit true ('#' :: c) = some ([], '#' :: c) := by
  simp [commentSplit]

/-- A found comment starts with `#`, at a position that may start one. -/
theorem commentSplit_eq_some {b : Bool} {t x y : Text} (h : commentSplit b t = some (x, y)) :
    (∃ c, y = '#' :: c) ∧ t = x ++ y ∧ blankAfter b x = true := by
  induction t generalizing b x with
  | nil => cases h
  | cons c t ih =>
    rw [commentSplit] at h
    split_ifs at h with hb
    · cases h
      exact ⟨⟨t, by rw [hb.2]⟩, rfl, hb.1⟩
    · obtain ⟨⟨x', y'⟩, hm, he⟩ := Option.map_eq_some_iff.mp h
      cases he
      obtain ⟨hy, ht, hbl⟩ := ih hm
      exact ⟨hy, by simp [ht], hbl⟩

/-! ### Quoted scalars -/

/-- Reading doubled quotes undoes the doubling. -/
theorem undoubleQuotes_doubleQuotes (s : Text) : undoubleQuotes (doubleQuotes s) = s := by
  induction s with
  | nil => rfl
  | cons c s ih =>
    by_cases hc : c = '\''
    · subst hc
      simp only [doubleQuotes, List.flatMap_cons, if_true, List.cons_append, List.nil_append,
        undoubleQuotes] at ih ⊢
      rw [ih]
    · have : doubleQuotes (c :: s) = c :: doubleQuotes s := by simp [doubleQuotes, hc]
      rw [this, undoubleQuotes, ih]
      exact fun cs h _ => hc h

/-- The scan stops at the quote that closes a serialized value. -/
theorem scanSingle_doubleQuotes (s : Text) {t : Text} (ht : t.head? ≠ some '\'') :
    scanSingle (doubleQuotes s ++ '\'' :: t) = (doubleQuotes s ++ ['\''], t) := by
  induction s with
  | nil =>
    rw [doubleQuotes, List.flatMap_nil, List.nil_append, List.nil_append, scanSingle]
    rintro cs rfl
    exact ht rfl
  | cons c s ih =>
    by_cases hc : c = '\''
    · subst hc
      have : doubleQuotes ('\'' :: s) = '\'' :: '\'' :: doubleQuotes s := by simp [doubleQuotes]
      rw [this, List.cons_append, List.cons_append, scanSingle, ih]
      simp
    · have : doubleQuotes (c :: s) = c :: doubleQuotes s := by simp [doubleQuotes, hc]
      rw [this, List.cons_append, scanSingle, ih]
      · simp
      · exact fun cs h _ => hc h
      · exact hc

/-- A scan that stops before the end stops behind a quote. -/
private theorem scanSingle_terminated (cs : Text) (h : (scanSingle cs).2 ≠ []) :
    ∃ x, (scanSingle cs).1 = x ++ ['\''] := by
  fun_induction scanSingle cs with
  | case1 => exact absurd rfl h
  | case2 cs ih =>
    obtain ⟨x, hx⟩ := ih h
    exact ⟨'\'' :: '\'' :: x, by simp [hx]⟩
  | case3 cs => exact ⟨[], rfl⟩
  | case4 c cs _ _ ih =>
    obtain ⟨x, hx⟩ := ih h
    exact ⟨c :: x, by simp [hx]⟩

private theorem scanDouble_terminated (cs : Text) (h : (scanDouble cs).2 ≠ []) :
    ∃ x, (scanDouble cs).1 = x ++ ['"'] := by
  fun_induction scanDouble cs with
  | case1 => exact absurd rfl h
  | case2 cs => exact ⟨[], rfl⟩
  | case3 c cs ih =>
    obtain ⟨x, hx⟩ := ih h
    exact ⟨'\\' :: c :: x, by simp [hx]⟩
  | case4 c cs _ _ ih =>
    obtain ⟨x, hx⟩ := ih h
    exact ⟨c :: x, by simp [hx]⟩

/-- A quoted prefix with something behind it is empty or ends in its closing quote. -/
private theorem quotedPrefix_terminated {raw : Text} (h : (quotedPrefix raw).2 ≠ []) :
    (quotedPrefix raw).1 = [] ∨ ∃ x c, (quotedPrefix raw).1 = x ++ [c] ∧ isSpace c = false := by
  fun_cases quotedPrefix raw with
  | case1 cs =>
    obtain ⟨x, hx⟩ := scanSingle_terminated cs h
    exact .inr ⟨'\'' :: x, '\'', by simp [hx], by decide⟩
  | case2 cs =>
    obtain ⟨x, hx⟩ := scanDouble_terminated cs h
    exact .inr ⟨'"' :: x, '"', by simp [hx], by decide⟩
  | case3 => exact .inl rfl

/-- The shape of a split-off comment: padding that may precede a comment, then `#`. -/
theorem splitTrailingComment_snd (raw : Text) (h : (splitTrailingComment raw).2 ≠ []) :
    ∃ pad c, (splitTrailingComment raw).2 = pad ++ '#' :: c ∧
      (∀ x ∈ pad, isSpace x = true) ∧ blankAfter true pad = true := by
  rw [splitTrailingComment] at h ⊢
  rcases hc : commentSplit true (quotedPrefix raw).2 with _ | ⟨before, comment⟩
  · simp [hc] at h
  · obtain ⟨⟨c, rfl⟩, htail, hbl⟩ := commentSplit_eq_some hc
    obtain ⟨w, hw, hsp⟩ := exists_rstrip_append ((quotedPrefix raw).1 ++ before)
    have hdrop : ((quotedPrefix raw).1 ++ before).drop
        (rstrip ((quotedPrefix raw).1 ++ before)).length = w :=
      (congrArg (List.drop _) hw).trans List.drop_left
    refine ⟨w, c, congrArg (· ++ '#' :: c) hdrop, hsp, ?_⟩
    rcases List.eq_nil_or_concat' w with rfl | ⟨w', d, rfl⟩
    · rfl
    · -- the last pad character ends `before`, unless `before` is empty and it ends the quote
      rcases List.eq_nil_or_concat' before with rfl | ⟨b', e, rfl⟩
      · have hne : (quotedPrefix raw).2 ≠ [] := by simp [htail]
        rw [List.append_nil] at hw
        rcases quotedPrefix_terminated hne with hq | ⟨x, e, hq, he⟩
        · simp [hq] at hw
        · rw [hq, ← List.append_assoc] at hw
          have hed : e = d := (List.append_inj_right' hw rfl |> List.singleton_inj.mp)
          have hd := hsp d (by simp)
          rw [← hed, he] at hd
          cases hd
      · rw [← List.append_assoc, ← List.append_assoc] at hw
        have hed : e = d := (List.append_inj_right' hw rfl |> List.singleton_inj.mp)
        simpa [hed] using hbl

/-! ### Reading a serialized value back -/

/-- The value a reader makes of the rest of a key line. -/
def valueOf (rest : Text) : Text := unquoteYamlScalar (stripTrailingComment (strip rest))

/-- The unquoted reading is the value of the first line with the key. -/
theorem readFmFieldUnquoted_eq (fm key : Text) :
    readFmFieldUnquoted fm key = (findKeyLine key (lines fm)).map fun m => valueOf m.2.1 := by
  rw [readFmFieldUnquoted, readFmField, Option.map_map]
  rfl

/-- A value that is serialized as itself holds no quote and no `#`. -/
private theorem not_mem_of_plain {s : Text} {nq : Bool} (h : needsQuoting s nq = false) {c : Char}
    (hc : isStructural c = true) : c ∉ s := by
  simp only [needsQuoting, Bool.or_eq_false_iff, List.any_eq_false] at h
  exact fun hm => h.1.1.1.1 c hm hc

private theorem quotedPrefix_of_plain {s : Text} {nq : Bool} (h : needsQuoting s nq = false)
    (hne : s ≠ []) (t : Text) : quotedPrefix (s ++ t) = ([], s ++ t) := by
  obtain ⟨c, s', rfl⟩ := List.exists_cons_of_ne_nil hne
  have h1 : c ≠ '\'' := fun e => not_mem_of_plain h (c := '\'') (by decide) (by simp [e])
  have h2 : c ≠ '"' := fun e => not_mem_of_plain h (c := '"') (by decide) (by simp [e])
  rw [List.cons_append, quotedPrefix]
  · exact fun cs e => h1 (List.cons.inj e).1
  · exact fun cs e => h2 (List.cons.inj e).1

private theorem unquote_of_plain {s : Text} {nq : Bool} (h : needsQuoting s nq = false)
    (hne : s ≠ []) (t : Text) : unquoteYamlScalar (s ++ t) = s ++ t := by
  obtain ⟨c, s', rfl⟩ := List.exists_cons_of_ne_nil hne
  have h1 : c ≠ '\'' := fun e => not_mem_of_plain h (c := '\'') (by decide) (by simp [e])
  have h2 : c ≠ '"' := fun e => not_mem_of_plain h (c := '"') (by decide) (by simp [e])
  simp [unquoteYamlScalar, h1, h2]

private theorem unquote_quoted (s : Text) :
    unquoteYamlScalar ('\'' :: doubleQuotes s ++ ['\'']) = s := by
  have hlast : ('\'' :: doubleQuotes s ++ ['\'']).getLast? = some '\'' := List.getLast?_concat
  rw [unquoteYamlScalar, if_pos ⟨by simp, by simp, hlast⟩]
  simp [undoubleQuotes_doubleQuotes]

/-- What `splitTrailingComment` makes of a quoted value and what follows it. -/
private theorem stripTrailingComment_quoted (s : Text) {pad c : Text}
    (hsp : ∀ x ∈ pad, isSpace x = true) (hpad : blankAfter true pad = true) :
    stripTrailingComment ('\'' :: doubleQuotes s ++ ['\''] ++ (pad ++ '#' :: c)) =
      '\'' :: doubleQuotes s ++ ['\''] := by
  have hhash : '#' ∉ pad := fun h => by have := hsp _ h; revert this; decide
  have hhead : (pad ++ '#' :: c).head? ≠ some '\'' := by
    cases pad with
    | nil => simp
    | cons d pad =>
      have hd := hsp d (by simp)
      rintro h
      obtain rfl : d = '\'' := by simpa using h
      revert hd
      decide
  have hq : quotedPrefix ('\'' :: doubleQuotes s ++ ['\''] ++ (pad ++ '#' :: c)) =
      ('\'' :: doubleQuotes s ++ ['\''], pad ++ '#' :: c) := by
    have := scanSingle_doubleQuotes s hhead
    simp only [List.cons_append, List.append_assoc, List.nil_append, quotedPrefix] at this ⊢
    rw [this]
  have hstrip : rstrip ('\'' :: doubleQuotes s ++ ['\''] ++ pad) =
      '\'' :: doubleQuotes s ++ ['\''] := by
    rw [rstrip_append_of_forall hsp]
    exact rstrip_concat_of_not_space (by decide)
  rw [stripTrailingComment, splitTrailingComment, hq, commentSplit_append hhash, hpad,
    commentSplit_hash]
  simpa using hstrip

private theorem stripTrailingComment_plain {s : Text} {nq : Bool} (h : needsQuoting s nq = false)
    (hne : s ≠ []) (htrim : strip s = s) {pad c : Text} (hpne : pad ≠ [])
    (hsp : ∀ x ∈ pad, isSpace x = true) (hpad : blankAfter true pad = true) :
    stripTrailingComment (s ++ (pad ++ '#' :: c)) = s := by
  have hhash : '#' ∉ s ++ pad := by
    rintro hm
    rcases List.mem_append.mp hm with hm | hm
    · exact not_mem_of_plain h (by decide) hm
    · have := hsp _ hm; revert this; decide
  have hbl : blankAfter true (s ++ pad) = true := by
    rw [blankAfter_append, blankAfter_of_ne_nil hpne _ true, hpad]
  rw [stripTrailingComment, splitTrailingComment, quotedPrefix_of_plain h hne,
    ← List.append_assoc, commentSplit_append hhash, hbl, commentSplit_hash]
  simp [rstrip_append_of_forall hsp, rstrip_of_strip htrim]

/-- A right strip never reaches past a `#`. -/
theorem exists_rstrip_hash (c : Text) :
    ∃ c', ∀ x : Text, rstrip (x ++ '#' :: c) = x ++ '#' :: c' := by
  obtain ⟨w, hw, hsp⟩ := exists_rstrip_append ('#' :: c)
  have hne : rstrip ('#' :: c) ≠ [] := fun h =>
    absurd (rstrip_eq_nil_iff.mp h '#' (by simp)) (by decide)
  obtain ⟨d, c', hc'⟩ := List.exists_cons_of_ne_nil hne
  rw [hc'] at hw
  obtain rfl : '#' = d := (List.cons.inj hw).1
  refine ⟨c', fun x => ?_⟩
  rw [hw, ← List.append_assoc, rstrip_append_of_forall hsp, rstrip_eq_self_iff]
  intro h
  rw [List.getLast_append_of_ne_nil _ (by simp)]
  simpa only [hc'] using getLast_rstrip hne

/-- A comment glued to a plain value is read as a part of it. -/
private theorem stripTrailingComment_glued {s : Text} {nq : Bool} (h : needsQuoting s nq = false)
    (hne : s ≠ []) (htrim : strip s = s) (c : Text) :
    ∃ y, stripTrailingComment (s ++ '#' :: c) = s ++ '#' :: y := by
  have hlast : blankAfter true s = false := by
    obtain ⟨s', d, rfl⟩ := (List.eq_nil_or_concat' s).resolve_left hne
    have hd := rstrip_eq_self_iff.mp (rstrip_of_strip htrim) hne
    rw [List.getLast_concat] at hd
    rw [blankAfter_append, blankAfter_singleton]
    exact Bool.eq_false_iff.mpr fun h => by simp [isSpace_of_isBlank h] at hd
  have hsplit : commentSplit true (s ++ '#' :: c) =
      (commentSplit false c).map fun p => (s ++ '#' :: p.1, p.2) := by
    rw [commentSplit_append (not_mem_of_plain h (by decide)), hlast, commentSplit,
      if_neg (by simp), Option.map_map]
    rfl
  rw [stripTrailingComment, splitTrailingComment, quotedPrefix_of_plain h hne, hsplit]
  rcases commentSplit false c with _ | p
  · exact ⟨c, rfl⟩
  · obtain ⟨y, hy⟩ := exists_rstrip_hash p.1
    exact ⟨y, by simpa using hy s⟩

/-- A serialized value is stripped. -/
private theorem strip_serialize {s : Text} (nq : Bool) (htrim : strip s = s) :
    strip (serializeYamlScalar (some s) nq) = serializeYamlScalar (some s) nq := by
  rw [serializeYamlScalar]
  split_ifs with h
  · rw [strip, List.cons_append, lstrip_cons_of_not_space (by decide), ← List.cons_append]
    exact rstrip_concat_of_not_space (by decide)
  · exact htrim

/-- A rewritten line without a comment reads back as the value. -/
private theorem valueOf_bare {s : Text} (nq : Bool) (htrim : strip s = s) {w v : Text}
    (hw : ∀ x ∈ w, isSpace x = true) (hv : ∀ x ∈ v, isSpace x = true) :
    valueOf (w ++ serializeYamlScalar (some s) nq ++ v) = s := by
  rw [valueOf, List.append_assoc, strip_append_left hw, strip_append_right hv,
    strip_serialize nq htrim, serializeYamlScalar]
  split_ifs with h
  · have hq : quotedPrefix ('\'' :: doubleQuotes s ++ ['\'']) =
        ('\'' :: doubleQuotes s ++ ['\''], []) := by
      have := scanSingle_doubleQuotes s (t := []) (by simp)
      rw [List.cons_append, quotedPrefix, this]
    have : stripTrailingComment ('\'' :: doubleQuotes s ++ ['\'']) =
        '\'' :: doubleQuotes s ++ ['\''] := by
      rw [stripTrailingComment, splitTrailingComment, hq]
      rfl
    rw [this, unquote_quoted]
  · have h' : needsQuoting s nq = false := by simpa using h
    rcases eq_or_ne s [] with rfl | hne
    · rfl
    · have hnone : commentSplit true s = none := by
        have := commentSplit_append (not_mem_of_plain h' (c := '#') (by decide)) true []
        simpa [commentSplit] using this
      have hq := quotedPrefix_of_plain h' hne []
      rw [List.append_nil] at hq
      have : stripTrailingComment s = s := by
        rw [stripTrailingComment, splitTrailingComment, hq, hnone]
      rw [this]
      simpa using unquote_of_plain h' hne []

/-- A rewritten line with a comment reads back as the value exactly when the comment is set
off by white space, or the value is quoted, or it is empty. -/
private theorem valueOf_comment {s : Text} (nq : Bool) (htrim : strip s = s) {w pad c : Text}
    (hw : ∀ x ∈ w, isSpace x = true) (hsp : ∀ x ∈ pad, isSpace x = true)
    (hpad : blankAfter true pad = true) :
    valueOf (w ++ serializeYamlScalar (some s) nq ++ (pad ++ '#' :: c)) = s ↔
      pad ≠ [] ∨ needsQuoting s nq = true ∨ s = [] := by
  obtain ⟨c', hc'⟩ := exists_rstrip_hash c
  -- the reader's right strip only shortens the comment
  have hval : valueOf (w ++ serializeYamlScalar (some s) nq ++ (pad ++ '#' :: c)) =
      unquoteYamlScalar (stripTrailingComment
        (lstrip (serializeYamlScalar (some s) nq ++ (pad ++ '#' :: c')))) := by
    have := hc' (serializeYamlScalar (some s) nq ++ pad)
    rw [valueOf, List.append_assoc, strip_append_left hw, strip, ← lstrip_rstrip]
    rw [List.append_assoc, List.append_assoc] at this
    rw [this]
  rw [hval, serializeYamlScalar]
  split_ifs with h
  · have hl : lstrip ('\'' :: doubleQuotes s ++ ['\''] ++ (pad ++ '#' :: c')) =
        '\'' :: doubleQuotes s ++ ['\''] ++ (pad ++ '#' :: c') :=
      lstrip_cons_of_not_space (by decide)
    rw [hl, stripTrailingComment_quoted s hsp hpad, unquote_quoted]
    simp [h]
  · have h' : needsQuoting s nq = false := by simpa using h
    rcases eq_or_ne s [] with rfl | hne
    · rw [List.nil_append, lstrip_append_of_forall hsp, lstrip_cons_of_not_space (by decide)]
      simp [stripTrailingComment, splitTrailingComment, quotedPrefix, commentSplit_hash,
        unquoteYamlScalar]
    · have hl : lstrip (s ++ (pad ++ '#' :: c')) = s ++ (pad ++ '#' :: c') := by
        obtain ⟨d, s', rfl⟩ := List.exists_cons_of_ne_nil hne
        have hd : isSpace d = false := by
          by_contra hd
          have := lstrip_of_strip htrim
          rw [lstrip_cons_of_space (by simpa using hd)] at this
          have hlen := congrArg List.length this
          have hle := (List.dropWhile_suffix isSpace (l := s')).length_le
          rw [lstrip, List.length_cons] at hlen
          omega
        exact lstrip_cons_of_not_space hd
      rw [hl]
      rcases eq_or_ne pad [] with rfl | hpne
      · -- the comment is glued to the value, and everything up to the next one is read
        obtain ⟨y, hy⟩ := stripTrailingComment_glued h' hne htrim c'
        rw [List.nil_append, hy, unquote_of_plain h' hne]
        simp [h', hne]
      · rw [stripTrailingComment_plain h' hne htrim hpne hsp hpad]
        simpa [hpne] using unquote_of_plain h' hne []

/-! ### The rewritten line -/

private theorem scanSingle_append (cs : Text) : (scanSingle cs).1 ++ (scanSingle cs).2 = cs := by
  fun_induction scanSingle cs with
  | case1 => rfl
  | case2 cs ih => simp [ih]
  | case3 cs => rfl
  | case4 c cs _ _ ih => simp [ih]

private theorem scanDouble_append (cs : Text) : (scanDouble cs).1 ++ (scanDouble cs).2 = cs := by
  fun_induction scanDouble cs with
  | case1 => rfl
  | case2 cs => rfl
  | case3 c cs ih => simp [ih]
  | case4 c cs _ _ ih => simp [ih]

/-- A quoted prefix and what is behind it make up the text. -/
theorem quotedPrefix_append (raw : Text) :
    (quotedPrefix raw).1 ++ (quotedPrefix raw).2 = raw := by
  fun_cases quotedPrefix raw with
  | case1 cs => simp [scanSingle_append]
  | case2 cs => simp [scanDouble_append]
  | case3 => rfl

/-- The comment split loses nothing. -/
theorem splitTrailingComment_append (raw : Text) :
    (splitTrailingComment raw).1 ++ (splitTrailingComment raw).2 = raw := by
  rw [splitTrailingComment]
  rcases hc : commentSplit true (quotedPrefix raw).2 with _ | ⟨before, comment⟩
  · simp
  · obtain ⟨-, htail, -⟩ := commentSplit_eq_some hc
    rw [← List.append_assoc, rstrip_append_drop, List.append_assoc, ← htail,
      quotedPrefix_append]

/-- The line and its carriage return make up the text. -/
theorem splitCr_append (rest : Text) : (splitCr rest).1 ++ (splitCr rest).2 = rest := by
  rw [splitCr]
  split_ifs with h
  · exact List.dropLast_append_getLast? '\r' h
  · simp

private theorem isSpace_of_mem_splitCr (rest : Text) : ∀ c ∈ (splitCr rest).2, isSpace c = true := by
  rw [splitCr]
  split_ifs
  · simpa using (by decide : isSpace '\r' = true)
  · simp

/-- A rest whose body has content starts with a blank: this is what the boundary grants. -/
private theorem takeWhile_ne_nil_of_boundary {rest : Text} (h : boundary rest = true)
    (hbody : (splitCr rest).1 ≠ []) : (splitCr rest).1.takeWhile isBlank ≠ [] := by
  obtain ⟨c, b, hb⟩ := List.exists_cons_of_ne_nil hbody
  have happ := splitCr_append rest
  rw [hb] at happ ⊢
  have hc : isBlank c = true := by
    rw [← happ, List.cons_append, boundary] at h
    · exact h
    · rintro rfl hnil
      -- a lone `'\r'` is the line ending, and leaves no body
      rw [List.cons_append, hnil] at happ
      rw [← happ] at hb
      cases hb
  simp [hc]

/-- The old value of a rest is quoted and its comment starts right behind the quote. -/
def gluedComment (rest : Text) : Bool :=
  !(oldParts rest).2.1.isEmpty && (oldParts rest).2.2.head? == some '#'

private theorem isSpace_of_mem_takeWhile {t : Text} : ∀ c ∈ t.takeWhile isBlank, isSpace c = true :=
  fun _ hc => isSpace_of_isBlank (List.mem_takeWhile_imp hc)

private theorem blankAfter_takeWhile {t : Text} : blankAfter true (t.takeWhile isBlank) = true := by
  rcases List.eq_nil_or_concat' (t.takeWhile isBlank) with h | ⟨x, c, h⟩
  · rw [h]; rfl
  · have hc : c ∈ t.takeWhile isBlank := by rw [h]; simp
    rw [h, blankAfter_append, blankAfter_singleton]
    exact List.mem_takeWhile_imp hc

/-- The rewritten line reads back as the value, unless a glued comment meets a plain value. -/
theorem valueOf_rewriteRest {s rest : Text} (nq : Bool) (htrim : strip s = s)
    (hb : boundary rest = true) :
    valueOf (rewriteRest (serializeYamlScalar (some s) nq) rest) = s ↔
      ¬ (gluedComment rest = true ∧ needsQuoting s nq = false ∧ s ≠ []) := by
  have hcr := isSpace_of_mem_splitCr rest
  have hlead := isSpace_of_mem_takeWhile (t := (splitCr rest).1)
  have hbl := blankAfter_takeWhile (t := (splitCr rest).1)
  have hne := takeWhile_ne_nil_of_boundary hb
  have happ := splitTrailingComment_append ((splitCr rest).1.dropWhile isBlank)
  have hcomment := splitTrailingComment_snd ((splitCr rest).1.dropWhile isBlank)
  rw [rewriteRest, gluedComment, oldParts]
  revert hcr hlead hbl hne happ hcomment
  generalize (splitCr rest).2 = cr
  rcases hsplit : splitTrailingComment ((splitCr rest).1.dropWhile isBlank) with ⟨old, comment⟩
  generalize hl : (splitCr rest).1.takeWhile isBlank = lead
  intro hcr hlead hbl hne happ hcomment
  dsimp only at happ hcomment ⊢
  by_cases hc : comment = []
  · subst hc
    have hsep : ∀ x ∈ (if lead = [] then [' '] else lead), isSpace x = true := by
      split_ifs
      · simpa using (by decide : isSpace ' ' = true)
      · exact hlead
    rw [if_pos rfl, valueOf_bare nq htrim hsep hcr]
    simp
  · obtain ⟨pad, c, rfl, hpad, hpb⟩ := hcomment hc
    have hlead' : lead ≠ [] := hne fun h => by simp [h] at happ
    rw [if_neg hc]
    by_cases hold : old = []
    · -- an empty old value: the separator moves behind the new value and sets the comment off
      subst hold
      have hpad' : ∀ x ∈ lead ++ pad, isSpace x = true :=
        fun x hx => (List.mem_append.mp hx).elim (hlead x) (hpad x)
      have hpb' : blankAfter true (lead ++ pad) = true := by rw [blankAfter_append, hbl, hpb]
      have hval := valueOf_comment nq htrim (s := s) (w := [' ']) (c := c ++ cr)
        (by simpa using (by decide : isSpace ' ' = true)) hpad' hpb'
      rw [if_pos rfl]
      have hshape : ' ' :: serializeYamlScalar (some s) nq ++ lead ++ (pad ++ '#' :: c) ++ cr =
          [' '] ++ serializeYamlScalar (some s) nq ++ (lead ++ pad ++ '#' :: (c ++ cr)) := by simp
      rw [hshape, hval]
      simp [hlead']
    · have hval := valueOf_comment nq htrim (s := s) (c := c ++ cr) hlead hpad hpb
      rw [if_neg hold]
      have hshape : lead ++ serializeYamlScalar (some s) nq ++ (pad ++ '#' :: c) ++ cr =
          lead ++ serializeYamlScalar (some s) nq ++ (pad ++ '#' :: (c ++ cr)) := by simp
      have hglued : (pad ++ '#' :: c).head? = some '#' ↔ pad = [] := by
        cases pad with
        | nil => simp
        | cons d pad =>
          have hd : d ≠ '#' := fun e => absurd (hpad d (by simp)) (by rw [e]; decide)
          simp [hd]
      rw [hshape, hval]
      simp only [hold, Bool.and_eq_true, Bool.not_eq_true', beq_iff_eq, hglued,
        List.isEmpty_eq_false_iff, ne_eq, not_false_eq_true, true_and, not_and_or, not_not,
        Bool.not_eq_false]

/-- A rewritten line still carries its key. -/
theorem boundary_rewriteRest {v rest : Text} (hb : boundary rest = true) :
    boundary (rewriteRest v rest) = true := by
  have hne := takeWhile_ne_nil_of_boundary hb
  have happ := splitTrailingComment_append ((splitCr rest).1.dropWhile isBlank)
  rw [rewriteRest, oldParts]
  have hblank := fun c (hc : c ∈ (splitCr rest).1.takeWhile isBlank) =>
    (List.mem_takeWhile_imp hc : isBlank c = true)
  revert hne happ hblank
  rcases splitTrailingComment ((splitCr rest).1.dropWhile isBlank) with ⟨old, comment⟩
  generalize (splitCr rest).1.takeWhile isBlank = lead
  intro hne happ hblank
  have key : ∀ x y : Text, x ≠ [] → (∀ c ∈ x, isBlank c = true) → boundary (x ++ y) = true := by
    intro x y hx hall
    obtain ⟨c, x, rfl⟩ := List.exists_cons_of_ne_nil hx
    have hc := hall c (by simp)
    rw [List.cons_append, boundary]
    · exact hc
    · rintro rfl
      cases hc
  dsimp only at happ ⊢
  split_ifs with hc hl ho
  · exact key [' '] _ (by simp) (by simp [isBlank])
  · rw [List.append_assoc]
    exact key _ _ hl hblank
  · exact key [' '] _ (by simp) (by simp [isBlank])
  · have hlead : lead ≠ [] := hne fun h => by simp_all
    rw [List.append_assoc, List.append_assoc]
    exact key _ _ hlead hblank

/-- A rewritten rest holds no code point but those of the value, of the old rest and a blank. -/
theorem not_mem_rewriteRest {c : Char} {v rest : Text} (hc : c ≠ ' ') (hv : c ∉ v)
    (hr : c ∉ rest) : c ∉ rewriteRest v rest := by
  have hbody : c ∉ (splitCr rest).1 := fun h => hr (by rw [← splitCr_append rest]; simp [h])
  have hcr : c ∉ (splitCr rest).2 := fun h => hr (by rw [← splitCr_append rest]; simp [h])
  have hlead : c ∉ (splitCr rest).1.takeWhile isBlank :=
    fun h => hbody ((List.takeWhile_prefix isBlank).subset h)
  have htail : c ∉ (splitTrailingComment ((splitCr rest).1.dropWhile isBlank)).2 := by
    intro h
    refine hbody ((List.dropWhile_suffix isBlank).subset ?_)
    rw [← splitTrailingComment_append ((splitCr rest).1.dropWhile isBlank)]
    exact List.mem_append_right _ h
  rw [rewriteRest, oldParts]
  dsimp only
  split_ifs <;> simp [hc, hv, hcr, hlead, htail]

/-! ### Replacing -/

private theorem keyLine_replaceLine_of_ne {key key' v : Text} (hk : ':' ∉ key) (hk' : ':' ∉ key')
    (hne : key' ≠ key) (l : Text) : keyLine key' (replaceLine key v l) = keyLine key' l := by
  rw [replaceLine]
  rcases h : keyLine key l with _ | rest
  · rfl
  · obtain ⟨rfl, -⟩ := keyLine_eq_some.mp h
    dsimp only
    rw [keyLine_append_of_ne hk hk' hne, keyLine_append_of_ne hk hk' hne]

/-- A character of neither the value nor the line is not in the replaced line. -/
theorem not_mem_replaceLine {c : Char} {key v l : Text} (hc : c ≠ ' ') (hv : c ∉ v) (hl : c ∉ l) :
    c ∉ replaceLine key v l := by
  rw [replaceLine]
  rcases h : keyLine key l with _ | rest
  · exact hl
  · obtain ⟨rfl, -⟩ := keyLine_eq_some.mp h
    simp only [List.mem_append, List.mem_cons, not_or] at hl ⊢
    exact ⟨hl.1, hl.2.1, not_mem_rewriteRest hc hv hl.2.2⟩

/-- Replacing a field works line by line. -/
theorem lines_replaceFmFieldRaw {fm key v : Text} (hv : '\n' ∉ v) :
    lines (replaceFmFieldRaw fm key v) = (lines fm).map (replaceLine key v) := by
  refine lines_unlines ?_ (by simpa using lines_ne_nil fm)
  intro l hl
  obtain ⟨m, hm, rfl⟩ := List.mem_map.mp hl
  exact not_mem_replaceLine (by decide) hv (not_mem_of_mem_lines hm)

/-- A replacement is invisible to the readers of other fields. -/
theorem readFmField_replaceFmFieldRaw_of_ne {fm key key' v : Text} (hk : ':' ∉ key)
    (hk' : ':' ∉ key') (hne : key' ≠ key) (hv : '\n' ∉ v) :
    readFmField (replaceFmFieldRaw fm key v) key' = readFmField fm key' := by
  rw [readFmField_eq, readFmField_eq, lines_replaceFmFieldRaw hv]
  induction lines fm with
  | nil => rfl
  | cons l ls ih =>
    rw [List.map_cons, readLines_cons, readLines_cons, ih,
      keyLine_replaceLine_of_ne hk hk' hne]

/-- A replacement that is not refused is the raw one. -/
theorem eq_of_replaceFmField {fm fm' key : Text} {v : Option Text} {nq : Bool}
    (h : replaceFmField fm key v nq = .ok fm') :
    fm' = replaceFmFieldRaw fm key (serializeYamlScalar v nq) := by
  rw [replaceFmField] at h
  split at h
  · cases h
  · cases h
  · split_ifs at h
    exact (Except.ok.inj h).symm

/-- A replacement rewrites the line its reader looks at. -/
theorem readFmFieldUnquoted_replaceFmFieldRaw {fm key v rest : Text} {a b : List Text}
    (hv : '\n' ∉ v) (h : findKeyLine key (lines fm) = some (a, rest, b)) :
    readFmFieldUnquoted (replaceFmFieldRaw fm key v) key = some (valueOf (rewriteRest v rest)) := by
  obtain ⟨hl, hb, hnone⟩ := findKeyLine_eq_some h
  have hmap : ∀ l ∈ a, replaceLine key v l = l := fun l hl => by rw [replaceLine, hnone l hl]
  rw [readFmFieldUnquoted_eq, lines_replaceFmFieldRaw hv, hl, List.map_append, List.map_cons,
    List.map_congr_left hmap, List.map_id', replaceLine, keyLine_self hb,
    findKeyLine_append hnone (keyLine_self (boundary_rewriteRest hb))]
  rfl

/-! ### Inserting -/

/-- A serialized value holds no code point but those of the value and quotes. -/
theorem not_mem_serialize {c : Char} {s : Text} (nq : Bool) (hc : c ≠ '\'') (hs : c ∉ s) :
    c ∉ serializeYamlScalar (some s) nq := by
  rw [serializeYamlScalar]
  split_ifs
  · have : c ∉ doubleQuotes s := by
      simp only [doubleQuotes, List.mem_flatMap, not_exists, not_and]
      intro d hd
      have : c ≠ d := fun e => hs (e ▸ hd)
      split_ifs <;> simp [this, hc]
    simp [this, hc]
  · exact hs

/-- A serialized value stays on its line. -/
theorem newline_not_mem_serialize {s : Text} (nq : Bool) (hs : '\n' ∉ s) :
    '\n' ∉ serializeYamlScalar (some s) nq :=
  not_mem_serialize nq (by decide) hs

/-- The inserted line, with the line ending it is given, reads back as the value. -/
private theorem readLines_newLine {key s cr : Text} (nq : Bool) (htrim : strip s = s)
    (hcr : ∀ c ∈ cr, isSpace c = true) {a b : List Text} (ha : ∀ l ∈ a, keyLine key l = none) :
    ((findKeyLine key (a ++ (newLine key (some s) nq ++ cr) :: b)).map fun m => valueOf m.2.1) =
      some s := by
  have hline : newLine key (some s) nq ++ cr =
      key ++ ':' :: ([' '] ++ serializeYamlScalar (some s) nq ++ cr) := by
    simp [newLine]
  have hkey : keyLine key (newLine key (some s) nq ++ cr) =
      some ([' '] ++ serializeYamlScalar (some s) nq ++ cr) := by
    rw [hline]
    exact keyLine_self rfl
  rw [findKeyLine_append ha hkey, Option.map_some,
    valueOf_bare nq htrim (by simpa using (by decide : isSpace ' ' = true)) hcr]

private theorem keyLine_newLine_of_ne {key key' : Text} {v : Option Text} (nq : Bool) (cr : Text)
    (hk : ':' ∉ key) (hk' : ':' ∉ key') (hne : key' ≠ key) :
    keyLine key' (newLine key v nq ++ cr) = none := by
  rw [newLine, List.append_assoc, List.cons_append]
  exact keyLine_append_of_ne hk hk' hne

/-- White space behind the end of a line changes its reading only where it decides whether a bare
`key:` is accepted. -/
theorem keyLine_append_space {key l w : Text} (hk : ∀ c ∈ key, isSpace c = false)
    (hl : rstrip l = l) (hw : ∀ c ∈ w, isSpace c = true) :
    (keyLine key (l ++ w)).map strip =
      if l = key ++ [':'] then (if boundary w then some [] else none)
      else (keyLine key l).map strip := by
  have hpat : ∀ c ∈ key ++ [':'], isSpace c = false := by
    intro c hc
    rcases List.mem_append.mp hc with hc | hc
    · exact hk c hc
    · rw [List.mem_singleton.mp hc]; decide
  rw [keyLine, keyLine, stripPrefix?_append_space hpat hw]
  rcases h : stripPrefix? (key ++ [':']) l with _ | r
  · have hne : l ≠ key ++ [':'] := by
      rintro rfl
      rw [stripPrefix?_eq_some.mpr (List.append_nil _).symm] at h
      cases h
    simp [hne]
  · have hlr := stripPrefix?_eq_some.mp h
    rcases List.eq_nil_or_concat' r with rfl | ⟨r', d, rfl⟩
    · rw [List.append_nil] at hlr
      have hstrip : strip w = [] := by rw [← List.append_nil w, strip_append_left hw]; rfl
      cases hb : boundary w <;> simp [hlr, hb, hstrip]
    · have hne : l ≠ key ++ [':'] := fun e => by simp [e] at hlr
      have hd : isSpace d = false := by
        rw [rstrip_eq_self_iff] at hl
        have := hl (by simp [hlr])
        simpa [hlr] using this
      have hb : boundary (r' ++ [d] ++ w) = boundary (r' ++ [d]) := by
        have hcr : d ≠ '\r' := fun e => by rw [e] at hd; revert hd; decide
        rcases r' with _ | ⟨c, _ | ⟨c', r'⟩⟩
        · rw [List.nil_append, List.singleton_append, boundary, boundary]
          · exact fun h _ => hcr h
          · exact fun h _ => hcr h
        · simp [boundary]
        · simp [boundary]
      rw [if_neg hne, Option.map_some, Option.filter_some, Option.filter_some, hb]
      split_ifs
      · rw [Option.map_some, Option.map_some, strip_append_right hw]
      · rfl

/-- A field is inserted behind its anchor, with the anchor's own line end. -/
theorem lines_insertAfter {anchor line rest : Text} {fm : Text} {a b : List Text}
    (h : findKeyLine anchor (lines fm) = some (a, rest, b)) (hline : '\n' ∉ line) :
    lines (insertAfter anchor line (a, rest, b)) = a ++ (anchor ++ ':' :: rest) ::
      (line ++ if rest.getLast? = some '\r' then ['\r'] else []) :: b := by
  obtain ⟨hl, -, -⟩ := findKeyLine_eq_some h
  refine lines_unlines ?_ (by simp)
  intro l hmem
  have hold : ∀ x ∈ a ++ (anchor ++ ':' :: rest) :: b, '\n' ∉ x :=
    fun x hx => not_mem_of_mem_lines (hl ▸ hx)
  simp only [List.mem_append, List.mem_cons] at hmem hold
  rcases hmem with h | rfl | rfl | h
  · exact hold l (.inl h)
  · exact hold _ (.inr (.inl rfl))
  · split_ifs <;> simp [hline]
  · exact hold l (.inr (.inr h))

private theorem lines_between {cr line : Text} (hcr : '\n' ∉ cr) (hline : '\n' ∉ line) :
    lines (cr ++ '\n' :: (line ++ cr ++ ['\n'])) = [cr, line ++ cr, []] := by
  rw [lines_append_cons, lines_of_not_mem hcr, lines_append_cons (line ++ cr) [],
    lines_of_not_mem (by simp [hline, hcr])]
  rfl

/-- The shape of an append: the last kept line takes the line ending, the new line follows, and
the white space that was stripped held no key. -/
theorem lines_appendField (fm : Text) {line : Text} (hline : '\n' ∉ line) :
    ∃ ls l h hs cr, (lines (rstrip fm)).getLast? = some l ∧ rstrip l = l ∧
      (∀ c ∈ cr, isSpace c = true) ∧ boundary cr = true ∧
      (∀ x ∈ h :: hs, ∀ c ∈ x, isSpace c = true) ∧ lines fm = ls ++ (l ++ h) :: hs ∧
      lines (appendField fm line) = ls ++ (l ++ cr) :: (line ++ cr) :: [[]] := by
  obtain ⟨w, hw, hsp⟩ := exists_rstrip_append fm
  obtain ⟨ls, l, hl, hsuff, hcont⟩ := exists_lines_append (rstrip fm)
  obtain ⟨h, hs, hh⟩ := List.exists_cons_of_ne_nil (lines_ne_nil w)
  have hlast : rstrip l = l := by
    rw [rstrip_eq_self_iff]
    intro hne
    obtain ⟨p, hp⟩ := hsuff
    have := rstrip_eq_self_iff.mp (rstrip_idem fm) (by rw [← hp]; simp [hne])
    simpa [← hp, List.getLast_append_of_ne_nil _ hne] using this
  have hspace : ∀ x ∈ h :: hs, ∀ c ∈ x, isSpace c = true := by
    rw [← hh]
    exact fun x hx c hc => hsp c (mem_of_mem_lines hx hc)
  obtain ⟨cr, hcr⟩ : ∃ cr, cr = if contains ['\r', '\n'] fm then ['\r'] else [] := ⟨_, rfl⟩
  have hnl : '\n' ∉ cr := by rw [hcr]; split_ifs <;> simp
  refine ⟨ls, l, h, hs, cr, by simp [hl], hlast, ?_, ?_, hspace, by rw [← hcont w h hs hh, ← hw],
    ?_⟩
  · have : isSpace '\r' = true := by decide
    rw [hcr]
    split_ifs <;> simp [this]
  · rw [hcr]
    split_ifs <;> rfl
  · have hshape : appendField fm line = rstrip fm ++ (cr ++ '\n' :: (line ++ cr ++ ['\n'])) := by
      rw [appendField, hcr]
      split_ifs <;> simp
    have := hcont _ _ _ (lines_between hnl hline)
    rwa [← hshape] at this

/-- The last line of the kept text is `key:`, and `key` is not read in the text. -/
def unreadTail (fm key : Text) : Prop :=
  (lines (rstrip fm)).getLast? = some (key ++ [':']) ∧ readFmField fm key = none

private theorem readLines_eq_none {key : Text} {ls : List Text} :
    readLines key ls = none ↔ findKeyLine key ls = none := by
  rw [readLines, Option.map_eq_none_iff]

/-- A blank line holds no key. -/
theorem keyLine_space {key l : Text} (hl : ∀ c ∈ l, isSpace c = true) :
    keyLine key l = none := by
  rw [Option.eq_none_iff_forall_not_mem]
  intro r hr
  obtain ⟨rfl, -⟩ := keyLine_eq_some.mp hr
  exact absurd (hl ':' (by simp)) (by decide)

private theorem readLines_space {key : Text} (ls : List Text)
    (h : ∀ x ∈ ls, ∀ c ∈ x, isSpace c = true) : readLines key ls = none :=
  readLines_eq_none.mpr (findKeyLine_eq_none.mpr fun x hx => keyLine_space (h x hx))

/-- An append is invisible to the reader of another field exactly when it does not turn an unread
last line into that field. -/
private theorem readFmField_appendField_of_ne (fm : Text) {key key' : Text} {v : Option Text}
    (nq : Bool) (hline : '\n' ∉ newLine key v nq) (hk : IsIdent key) (hk' : IsIdent key') (hne : key' ≠ key) :
    readFmField (appendField fm (newLine key v nq)) key' = readFmField fm key' ↔
      ¬ unreadTail fm key' := by
  obtain ⟨ls, l, h, hs, cr, hlast, hl, hcr, hbcr, hsp, hfm, hfm'⟩ :=
    lines_appendField fm hline
  have hnew : keyLine key' (newLine key v nq ++ cr) = none :=
    keyLine_newLine_of_ne nq cr hk.colon_not_mem hk'.colon_not_mem hne
  have hold : readFmField fm key' =
      (readLines key' ls).or ((keyLine key' (l ++ h)).map strip) := by
    rw [readFmField_eq, hfm, readLines_append, readLines_cons,
      readLines_space hs fun x hx => hsp x (by simp [hx]), Option.or_none]
  have hafter : readFmField (appendField fm (newLine key v nq)) key' =
      (readLines key' ls).or ((keyLine key' (l ++ cr)).map strip) := by
    rw [readFmField_eq, hfm', readLines_append, readLines_cons, readLines_cons, hnew,
      readLines_space [[]] (by simp), Option.map_none, Option.or_none, Option.or_none]
  have hspk : ∀ c ∈ key', isSpace c = false := fun c hc => hk'.not_space hc
  have hh : ∀ c ∈ h, isSpace c = true := hsp h (by simp)
  rw [unreadTail, hlast, hafter, hold, keyLine_append_space hspk hl hcr,
    keyLine_append_space hspk hl hh, Option.some_inj]
  by_cases hkl : l = key' ++ [':']
  · simp only [hbcr, if_true, hkl, true_and]
    cases readLines key' ls <;> cases boundary h <;> simp
  · simp [hkl]

/-- An appended field reads back as its value, unless an unread last line of its own key comes
first. -/
private theorem readFmFieldUnquoted_appendField {fm key s : Text} (nq : Bool) (htrim : strip s = s)
    (hline : '\n' ∉ newLine key (some s) nq) (hk : IsIdent key)
    (habs : readFmField fm key = none) :
    readFmFieldUnquoted (appendField fm (newLine key (some s) nq)) key = some s ↔
      ¬ (unreadTail fm key ∧ s ≠ []) := by
  obtain ⟨ls, l, h, hs, cr, hlast, hl, hcr, hbcr, hsp, hfm, hfm'⟩ :=
    lines_appendField fm hline
  have hspk : ∀ c ∈ key, isSpace c = false := fun c hc => hk.not_space hc
  have hls : ∀ x ∈ ls, keyLine key x = none := by
    have := readLines_eq_none.mp habs
    rw [hfm] at this
    exact fun x hx => findKeyLine_eq_none.mp this x (by simp [hx])
  have hafter := keyLine_append_space hspk hl hcr
  rw [readFmFieldUnquoted_eq, hfm', unreadTail, hlast, Option.some_inj]
  by_cases hkl : l = key ++ [':']
  · have hkey : keyLine key (l ++ cr) = some cr := by
      rw [hkl, List.append_assoc]
      exact keyLine_self hbcr
    have hval : valueOf cr = [] := by
      rw [valueOf, ← List.append_nil cr, strip_append_left hcr]
      rfl
    rw [findKeyLine_append hls hkey, Option.map_some, hval]
    simp [hkl, habs, eq_comm]
  · have hnone : keyLine key (l ++ cr) = none := by
      have hh : ∀ c ∈ h, isSpace c = true := hsp h (by simp)
      have hold := keyLine_append_space hspk hl hh
      have habs' := findKeyLine_eq_none.mp (readLines_eq_none.mp habs) (l ++ h) (by simp [hfm])
      rw [if_neg hkl] at hold hafter
      rw [habs', Option.map_none] at hold
      rw [← hold, Option.map_eq_none_iff] at hafter
      exact hafter
    have hls' : ∀ x ∈ ls ++ [l ++ cr], keyLine key x = none := by
      intro x hx
      rcases List.mem_append.mp hx with hx | hx
      · exact hls x hx
      · rw [List.mem_singleton.mp hx, hnone]
    have := readLines_newLine nq htrim hcr hls' (b := [[]])
    rw [List.append_assoc] at this
    rw [List.singleton_append] at this
    rw [this]
    simp [hkl]

/-! ### The law -/

/-- A field write: a replacement, or an insertion with its optional anchor. -/
inductive FieldWrite
  | replace
  | insert (afterKey : Option Text)

/-- The call of the write. -/
def FieldWrite.run (w : FieldWrite) (fm key : Text) (v : Option Text) (numericQuoting : Bool) :
    Except Text Text :=
  match w with
  | .replace => replaceFmField fm key v numericQuoting
  | .insert afterKey => .ok (insertFmField fm key v afterKey numericQuoting)

/-- A replacement is for a present field, an insertion for an absent one. -/
def FieldWrite.Applies : FieldWrite → Text → Text → Prop
  | .replace, fm, key => readFmField fm key ≠ none
  | .insert _, fm, key => readFmField fm key = none

/-- The law of one write: the value is read back, and no other field is touched. -/
structure WriteLaw (fm fm' key s : Text) : Prop where
  reads_back : readFmFieldUnquoted fm' key = some s
  frame : ∀ key', IsIdent key' → key' ≠ key → readFmField fm' key' = readFmField fm key'

/-- The inputs on which a write keeps the law. A replacement must not put a plain value in front
of a glued comment; an insertion without an anchor line must not append behind an unread
`key:`. -/
def FieldWrite.Safe (w : FieldWrite) (fm key s : Text) (numericQuoting : Bool) : Prop :=
  match w with
  | .replace => ∀ m, findKeyLine key (lines fm) = some m →
      ¬ (gluedComment m.2.1 = true ∧ needsQuoting s numericQuoting = false ∧ s ≠ [])
  | .insert afterKey => (∃ a ∈ afterKey, readFmField fm a ≠ none) ∨
      ∀ key', IsIdent key' → unreadTail fm key' → key' = key ∧ s = []

/-- A field is absent when no line holds its key. -/
theorem readFmField_eq_none {fm key : Text} :
    readFmField fm key = none ↔ findKeyLine key (lines fm) = none := by
  rw [readFmField, Option.map_eq_none_iff]

private theorem replace_law {fm fm' key s : Text} {nq : Bool} (hk : IsIdent key) (hs : '\n' ∉ s)
    (htrim : strip s = s) (hpresent : readFmField fm key ≠ none)
    (hrun : replaceFmField fm key (some s) nq = .ok fm') :
    WriteLaw fm fm' key s ↔ FieldWrite.replace.Safe fm key s nq := by
  obtain rfl := eq_of_replaceFmField hrun
  have hv := newline_not_mem_serialize nq hs
  have hframe : ∀ key', IsIdent key' → key' ≠ key →
      readFmField (replaceFmFieldRaw fm key (serializeYamlScalar (some s) nq)) key' =
        readFmField fm key' := fun key' hk' hne =>
    readFmField_replaceFmFieldRaw_of_ne hk.colon_not_mem hk'.colon_not_mem hne hv
  obtain ⟨⟨a, rest, b⟩, hm⟩ := Option.ne_none_iff_exists'.mp (mt readFmField_eq_none.mpr hpresent)
  obtain ⟨-, hb, -⟩ := findKeyLine_eq_some hm
  have hread := readFmFieldUnquoted_replaceFmFieldRaw hv hm
  have hvalue := valueOf_rewriteRest nq htrim hb
  constructor
  · rintro ⟨hrb, -⟩ m hm'
    rw [hm] at hm'
    cases hm'
    rw [hread, Option.some_inj] at hrb
    exact hvalue.mp hrb
  · intro hsafe
    have hval := hvalue.mpr (hsafe (a, rest, b) hm)
    exact ⟨hread.trans (congrArg some hval), hframe⟩

private theorem append_law {fm key s : Text} {nq : Bool} (hk : IsIdent key) (hs : '\n' ∉ s)
    (htrim : strip s = s) (habs : readFmField fm key = none) :
    WriteLaw fm (appendField fm (newLine key (some s) nq)) key s ↔
      ∀ key', IsIdent key' → unreadTail fm key' → key' = key ∧ s = [] := by
  have hline : '\n' ∉ newLine key (some s) nq := by
    simp [newLine, hk.newline_not_mem, newline_not_mem_serialize nq hs]
  have hread := readFmFieldUnquoted_appendField nq htrim hline hk habs
  have hother := fun key' (hk' : IsIdent key') hne =>
    readFmField_appendField_of_ne fm nq hline hk hk' hne
  constructor
  · rintro ⟨hrb, hframe⟩ key' hk' htail
    by_cases hne : key' = key
    · subst hne
      exact ⟨rfl, not_not.mp fun hs => hread.mp hrb ⟨htail, hs⟩⟩
    · exact absurd htail ((hother key' hk' hne).mp (hframe key' hk' hne))
  · intro hsafe
    refine ⟨hread.mpr fun h => h.2 (hsafe key hk h.1).2, fun key' hk' hne => ?_⟩
    exact (hother key' hk' hne).mpr fun h => hne (hsafe key' hk' h).1

private theorem insertAfter_law {fm key s anchor rest : Text} {a b : List Text} {nq : Bool}
    (hk : IsIdent key) (hs : '\n' ∉ s) (htrim : strip s = s) (habs : readFmField fm key = none)
    (hm : findKeyLine anchor (lines fm) = some (a, rest, b)) :
    WriteLaw fm (insertAfter anchor (newLine key (some s) nq) (a, rest, b)) key s := by
  have hline : '\n' ∉ newLine key (some s) nq := by
    simp [newLine, hk.newline_not_mem, newline_not_mem_serialize nq hs]
  have hlines := lines_insertAfter hm hline
  obtain ⟨hfm, -, -⟩ := findKeyLine_eq_some hm
  obtain ⟨cr, hcr⟩ : ∃ cr, cr = if rest.getLast? = some '\r' then ['\r'] else [] := ⟨_, rfl⟩
  have hsp : ∀ c ∈ cr, isSpace c = true := by
    have : isSpace '\r' = true := by decide
    rw [hcr]
    split_ifs <;> simp [this]
  rw [← hcr] at hlines
  refine ⟨?_, fun key' hk' hne => ?_⟩
  · have hnone : ∀ l ∈ a ++ [anchor ++ ':' :: rest], keyLine key l = none := by
      intro l hl
      refine findKeyLine_eq_none.mp (readFmField_eq_none.mp habs) l ?_
      rw [hfm]
      rcases List.mem_append.mp hl with hl | hl
      · simp [hl]
      · simp [List.mem_singleton.mp hl]
    have := readLines_newLine nq htrim hsp hnone (b := b)
    rw [List.append_assoc, List.singleton_append] at this
    rw [readFmFieldUnquoted_eq, hlines, this]
  · have hnew := keyLine_newLine_of_ne (v := some s) nq cr hk.colon_not_mem
      hk'.colon_not_mem hne
    rw [readFmField_eq, readFmField_eq, hlines, hfm, readLines_append, readLines_append,
      readLines_cons, readLines_cons, readLines_cons, hnew, Option.map_none, Option.none_or]

/-- A field write keeps the law exactly on the safe inputs: for every text, whatever its quoting,
comments, empty values and line endings. -/
theorem fieldWrite_law_iff (w : FieldWrite) {fm fm' key s : Text} {nq : Bool} (hk : IsIdent key)
    (hs : '\n' ∉ s) (htrim : strip s = s) (happ : w.Applies fm key)
    (hrun : w.run fm key (some s) nq = .ok fm') :
    WriteLaw fm fm' key s ↔ w.Safe fm key s nq := by
  cases w with
  | replace => exact replace_law hk hs htrim happ hrun
  | insert afterKey =>
    obtain rfl : fm' = insertFmField fm key (some s) afterKey nq := by cases hrun; rfl
    have habs : readFmField fm key = none := happ
    rw [insertFmField, FieldWrite.Safe]
    rcases hafter : (afterKey.bind fun a => (findKeyLine a (lines fm)).map fun m => (a, m)) with
      _ | ⟨anchor, a, rest, b⟩
    · have hno : ¬ ∃ a ∈ afterKey, readFmField fm a ≠ none := by
        rintro ⟨a, ha, hne⟩
        rw [Option.mem_def.mp ha, Option.bind_some, Option.map_eq_none_iff] at hafter
        exact hne (readFmField_eq_none.mpr hafter)
      rw [or_iff_right hno]
      exact append_law hk hs htrim habs
    · obtain ⟨a', ha', hmap⟩ := Option.bind_eq_some_iff.mp hafter
      obtain ⟨m, hm, he⟩ := Option.map_eq_some_iff.mp hmap
      cases he
      have hfound : readFmField fm anchor ≠ none := by
        rw [ne_eq, readFmField_eq_none, hm]
        simp
      exact iff_of_true (insertAfter_law hk hs htrim habs hm) (.inl ⟨anchor, ha', hfound⟩)

/-- A replacement in a text with a longer sibling key and an inline comment. -/
theorem fieldWrite_law_iff_status :
    WriteLaw "status: open  # c\nstatus_message: m".toList
        "status: done  # c\nstatus_message: m".toList "status".toList "done".toList ↔
      FieldWrite.replace.Safe "status: open  # c\nstatus_message: m".toList "status".toList
        "done".toList false :=
  fieldWrite_law_iff .replace ⟨⟨'s', _, rfl, by decide⟩, by decide⟩ (by decide) (by decide)
    (Option.some_ne_none _) rfl

/-- Behind a quoted value, a glued `#` is taken for a comment and moves into the new value. -/
theorem replace_breaks_law_at_gluedComment :
    ∃ fm fm' key s : Text, IsIdent key ∧ '\n' ∉ s ∧ '\r' ∉ s ∧ strip s = s ∧
      FieldWrite.replace.Applies fm key ∧ FieldWrite.replace.run fm key (some s) false = .ok fm' ∧
      readFmFieldUnquoted fm' key = some "new#c".toList ∧ ¬ WriteLaw fm fm' key s := by
  refine ⟨"k: 'abc'#c\n".toList, "k: new#c\n".toList, "k".toList, "new".toList,
    ⟨⟨'k', _, rfl, by decide⟩, by decide⟩, by decide, by decide, by decide,
    Option.some_ne_none _, rfl, by decide, fun h => ?_⟩
  exact absurd h.reads_back (by decide)

end Frontmatter

end CoordinatorCore
