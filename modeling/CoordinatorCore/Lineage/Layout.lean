import CoordinatorCore.Lineage.Parse

/-!
# The entries of a frontmatter

One iteration of the mapping parser at the top level reads one entry: `assigned` is the key it sets
and `advance` the lines it goes on with. `Arrives` follows the iterations, so "the line is read as
a top-level key" and "the key is not set again" can be said of the lines alone.

The last section delimits the frontmatter of a document with one line in it.
-/

namespace CoordinatorCore

open Text

namespace Lineage

/-! ### One entry -/

/-- The lines the mapping parser goes on with behind the line `raw`. -/
def advance (raw : Text) (rest : List Text) : List Text :=
  if skippable raw then rest
  else
    match keyAndRest raw with
    | none => rest
    | some (_, value) =>
      if emptyRest value then
        match rest.dropWhile skippable with
        | [] => rest
        | next :: more =>
          if indentOf raw < indentOf next then (next :: more).dropWhile (nestedWith next) else rest
      else if isBlockScalar value then (consumeBlockScalar (indentOf raw) rest).2
      else (parseRest value rest).2

/-- The value the mapping parser gives to a key with `value` behind its colon. -/
def entryValue (raw value : Text) (rest : List Text) : Val :=
  if emptyRest value then
    match rest.dropWhile skippable with
    | [] => .null
    | next :: more =>
      if indentOf raw < indentOf next then parseYamlBlock (next :: more) (indentOf next) else .null
  else if isBlockScalar value then .str (consumeBlockScalar (indentOf raw) rest).1
  else (parseRest value rest).1

/-- The key the mapping parser sets at the line `raw`, with its value. -/
def assigned (raw : Text) (rest : List Text) : Option (Text × Val) :=
  if skippable raw then none
  else (keyAndRest raw).map fun m => (m.1, entryValue raw m.2 rest)

/-- Write one optional entry. -/
def assign (d : Dict) (e : Option (Text × Val)) : Dict :=
  match e with
  | none => d
  | some (k, v) => d.set k v

theorem parseYamlMappingBlock_nil (base : Nat) (d : Dict) :
    parseYamlMappingBlock [] base d = d := by
  rw [parseYamlMappingBlock]

/-- One iteration of the mapping parser. -/
theorem parseYamlMappingBlock_cons {raw : Text} {base : Nat} (h : base ≤ indentOf raw)
    (rest : List Text) (d : Dict) :
    parseYamlMappingBlock (raw :: rest) base d =
      parseYamlMappingBlock (advance raw rest) base (assign d (assigned raw rest)) := by
  rw [parseYamlMappingBlock, advance, assigned]
  by_cases hs : skippable raw = true
  · rw [if_pos hs, if_pos hs, if_pos hs, assign]
  · rw [if_neg hs, if_neg hs, if_neg hs, if_neg (Nat.not_lt.mpr h)]
    cases hk : keyAndRest raw with
    | none => rfl
    | some m =>
      obtain ⟨key, value⟩ := m
      simp only [Option.map_some, assign, entryValue]
      by_cases he : emptyRest value = true
      · simp only [he, if_true]
        cases hd : rest.dropWhile skippable with
        | nil => rfl
        | cons next more =>
          by_cases hi : indentOf raw < indentOf next
          · simp only [hi, if_true]
          · simp only [hi, if_false]
      · simp only [he]
        by_cases hb : isBlockScalar value = true
        · simp [hb]
        · simp [hb]

/-- The lines behind an entry are lines behind its first one. -/
theorem advance_suffix (raw : Text) (rest : List Text) : advance raw rest <:+ rest := by
  unfold advance
  split_ifs
  · exact List.suffix_rfl
  · cases keyAndRest raw with
    | none => exact List.suffix_rfl
    | some m =>
      dsimp only
      split_ifs
      · cases hd : rest.dropWhile skippable with
        | nil => exact List.suffix_rfl
        | cons next more =>
          dsimp only
          split_ifs
          · refine (List.dropWhile_suffix _).trans ?_
            rw [← hd]
            exact List.dropWhile_suffix _
          · exact List.suffix_rfl
      · exact List.dropWhile_suffix _
      · exact parseRest_suffix _ _

/-! ### The iterations -/

/-- The mapping parser comes from `ls` to `tail` at the top level. -/
inductive Arrives : List Text → List Text → Prop
  | here (ls : List Text) : Arrives ls ls
  | step {raw : Text} {rest tail : List Text} : Arrives (advance raw rest) tail →
      Arrives (raw :: rest) tail

/-- No entry from `ls` on sets the key. -/
def Unassigned (key : Text) (ls : List Text) : Prop :=
  ∀ raw tail, Arrives ls (raw :: tail) → ∀ e, assigned raw tail = some e → e.1 ≠ key

/-- A key that is not assigned is not assigned behind the first entry. -/
theorem Unassigned.of_cons {key raw : Text} {rest : List Text}
    (h : Unassigned key (raw :: rest)) : Unassigned key (advance raw rest) :=
  fun raw' tail hr => h raw' tail (.step hr)

/-- The empty line in front of the closing delimiter sets no key. -/
theorem unassigned_blank (key : Text) : Unassigned key [[]] := by
  intro raw tail h e he
  cases h with
  | here => cases he
  | step h => cases h

/-- What the parser has read so far does not change what is behind. -/
theorem Arrives.parse {ls tail : List Text} (h : Arrives ls tail) (d : Dict) :
    ∃ d', parseYamlMappingBlock ls 0 d = parseYamlMappingBlock tail 0 d' := by
  induction h generalizing d with
  | here ls => exact ⟨d, rfl⟩
  | step _ ih =>
    obtain ⟨d', hd'⟩ := ih (assign d (assigned _ _))
    exact ⟨d', (parseYamlMappingBlock_cons (Nat.zero_le _) _ d).trans hd'⟩

/-- A key no entry sets keeps its value. -/
theorem get_parse_of_unassigned {key : Text} {ls : List Text} (h : Unassigned key ls) (d : Dict) :
    (parseYamlMappingBlock ls 0 d).get key = d.get key := by
  -- on the number of lines, since an entry may take several
  induction hn : ls.length using Nat.strong_induction_on generalizing ls d with
  | _ n ih =>
    cases ls with
    | nil => rw [parseYamlMappingBlock_nil]
    | cons raw rest =>
      have hlen := (advance_suffix raw rest).length_le
      have hlt : (advance raw rest).length < n := by
        rw [← hn, List.length_cons]
        omega
      rw [parseYamlMappingBlock_cons (Nat.zero_le _), ih _ hlt h.of_cons _ rfl]
      cases he : assigned raw rest with
      | none => rfl
      | some e =>
        obtain ⟨k, v⟩ := e
        exact Dict.get_set_of_ne (h raw rest (.here _) _ he) d v

/-- The value of a key is the one its last entry gives. -/
theorem get_parse_of_last {key raw : Text} {v : Val} {ls rest : List Text}
    (h : Arrives ls (raw :: rest)) (hv : assigned raw rest = some (key, v))
    (hlast : Unassigned key (advance raw rest)) (d : Dict) :
    (parseYamlMappingBlock ls 0 d).get key = v := by
  obtain ⟨d', hd'⟩ := h.parse d
  rw [hd', parseYamlMappingBlock_cons (Nat.zero_le _), get_parse_of_unassigned hlast, hv, assign,
    Dict.get_set_self]

/-! ### The line of a key -/

/-- A character an identifier may have: a letter, a digit or an underscore, of any script. -/
def wordChar (c : Char) : Bool :=
  c.isAlphanum || c == '_' || (128 ≤ c.toNat && !isSpace c)

/-- An identifier. -/
def identifierKey (k : Text) : Bool := !k.isEmpty && k.all wordChar

/-- Word characters are no white space. -/
theorem isSpace_wordChar {c : Char} (h : wordChar c = true) : isSpace c = false := by
  rw [wordChar, Bool.or_eq_true, Bool.or_eq_true] at h
  rcases h with (h | h) | h
  · have hn : (48 ≤ c.toNat ∧ c.toNat ≤ 57) ∨ (65 ≤ c.toNat ∧ c.toNat ≤ 90) ∨
        (97 ≤ c.toNat ∧ c.toNat ≤ 122) := by
      delta Char.isAlphanum Char.isAlpha Char.isUpper Char.isLower Char.isDigit at h
      simp only [Bool.or_eq_true, decide_eq_true_eq, Bool.and_eq_true, ge_iff_le,
        UInt32.le_iff_toNat_le] at h
      simp only [Char.toNat]
      rcases h with (h | h) | h
      · exact Or.inr (Or.inl h)
      · exact Or.inr (Or.inr h)
      · exact Or.inl h
    simp only [isSpace, Bool.or_eq_false_iff, Bool.and_eq_false_iff, decide_eq_false_iff_not,
      beq_eq_false_iff_ne, ne_eq]
    omega
  · obtain rfl : c = '_' := by simpa using h
    decide
  · simpa using (Bool.and_eq_true_iff.mp h).2

section

variable {k : Text}

/-- An identifier consists of word characters. -/
theorem wordChar_of_mem (hk : identifierKey k = true) {c : Char} (hc : c ∈ k) :
    wordChar c = true := by
  rw [identifierKey, Bool.and_eq_true] at hk
  exact List.all_eq_true.mp hk.2 c hc

/-- An identifier is not empty. -/
theorem exists_cons_of_identifierKey (hk : identifierKey k = true) :
    ∃ c k', k = c :: k' ∧ wordChar c = true := by
  cases k with
  | nil => cases hk
  | cons c k' => exact ⟨c, k', rfl, wordChar_of_mem hk (List.mem_cons_self ..)⟩

theorem lstrip_keyLine (hk : identifierKey k = true) (tail : Text) :
    lstrip (k ++ ':' :: tail) = k ++ ':' :: tail := by
  obtain ⟨c, k', rfl, hc⟩ := exists_cons_of_identifierKey hk
  exact lstrip_cons_of_not_space (isSpace_wordChar hc)

/-- A key line starts in the first column. -/
theorem indentOf_keyLine (hk : identifierKey k = true) (tail : Text) :
    indentOf (k ++ ':' :: tail) = 0 := by
  rw [indentOf, lstrip_keyLine hk, Nat.sub_self]

/-- A key line is stripped at its tail. -/
theorem strip_keyLine (hk : identifierKey k = true) (tail : Text) :
    strip (k ++ ':' :: tail) = k ++ ':' :: rstrip tail := by
  rw [strip, lstrip_keyLine hk, rstrip_append_cons (by decide)]

/-- A key line is not skipped. -/
theorem skippable_keyLine (hk : identifierKey k = true) (tail : Text) :
    skippable (k ++ ':' :: tail) = false := by
  obtain ⟨c, k', rfl, hc⟩ := exists_cons_of_identifierKey hk
  have hne : c ≠ '#' := by
    rintro rfl
    exact absurd hc (by decide)
  rw [skippable, strip_keyLine hk]
  simpa using hne

/-- A key line ends no document. -/
theorem isTerminator_keyLine (hk : identifierKey k = true) (tail : Text) :
    isTerminator (k ++ ':' :: tail) = false := by
  obtain ⟨c, k', rfl, hc⟩ := exists_cons_of_identifierKey hk
  have hne : c ≠ '-' := by
    rintro rfl
    exact absurd hc (by decide)
  have hnone : stripPrefix? "---".toList (c :: k' ++ ':' :: tail) = none := by
    cases hs : stripPrefix? "---".toList (c :: k' ++ ':' :: tail) with
    | none => rfl
    | some r =>
      obtain ⟨rfl, -⟩ : c = '-' ∧ _ := by simpa using stripPrefix?_eq_some.mp hs
      exact absurd rfl hne
  rw [isTerminator, hnone]
  rfl

/-- A key line reads as its key and its tail. -/
theorem keyAndRest_keyLine (hk : identifierKey k = true) (tail : Text) :
    keyAndRest (k ++ ':' :: tail) = some (k, strip tail) := by
  have hcolon : ':' ∉ k := fun h => absurd (wordChar_of_mem hk h) (by decide)
  have hstrip : strip k = k :=
    strip_of_forall fun c hc => isSpace_wordChar (wordChar_of_mem hk hc)
  have htail : strip (rstrip tail) = strip tail := by
    rw [strip, lstrip_rstrip, rstrip_idem, strip]
  rw [keyAndRest, strip_keyLine hk, cutAt_append_cons hcolon, Option.map_some, hstrip, htail]

end

/-! ### A document of one line -/

theorem skipPrologue_dash (t : Text) : skipPrologue ('-' :: t) = some ('-' :: t) := by
  have hl : lstrip ('-' :: t) = '-' :: t := lstrip_cons_of_not_space (by decide)
  have hp : stripPrefix? "<!--".toList ('-' :: t) = none := by
    cases hs : stripPrefix? "<!--".toList ('-' :: t) with
    | none => rfl
    | some r =>
      have := stripPrefix?_eq_some.mp hs
      cases this
  rw [skipPrologue, hl]
  split
  · rfl
  · rename_i heq
    rw [hp] at heq
    cases heq

/-- The frontmatter of a document with a single line between its delimiters. -/
theorem frontmatterLines_single {l : Text} (hnl : '\n' ∉ l) (hterm : isTerminator l = false) :
    frontmatterLines ("---\n".toList ++ l ++ "\n---\n".toList) = some [l, []] := by
  have hrest : lines (l ++ "\n---\n".toList) = [l, "---".toList, []] := by
    have htail : lines "---\n".toList = ["---".toList, []] := by decide
    have := lines_append_cons l "---\n".toList
    rw [lines_of_not_mem hnl, htail] at this
    exact this
  have hdash : isTerminator "---".toList = true := by decide
  have hpro : skipPrologue ("---\n".toList ++ l ++ "\n---\n".toList) =
      some ("---\n".toList ++ l ++ "\n---\n".toList) := skipPrologue_dash _
  have hopen : stripPrefix? "---".toList ("---\n".toList ++ l ++ "\n---\n".toList) =
      some ('\n' :: (l ++ "\n---\n".toList)) := stripPrefix?_append _ _
  have hcut : cutAt ['\n'] ('\n' :: (l ++ "\n---\n".toList)) =
      some ([], l ++ "\n---\n".toList) := rfl
  have hany : ([l, "---".toList, []].any isTerminator) = true := by
    rw [List.any_cons, List.any_cons, hdash, Bool.true_or, Bool.or_true]
  have htake : [l, "---".toList, []].takeWhile (fun l => !isTerminator l) = [l] := by
    rw [List.takeWhile_cons, List.takeWhile_cons, hterm, hdash]
    rfl
  rw [frontmatterLines, hpro]
  simp only [hopen, hcut, hrest, hany, htake, strip_nil]
  rfl

end Lineage

end CoordinatorCore
