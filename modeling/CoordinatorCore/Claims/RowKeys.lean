import CoordinatorCore.Claims.Sequential

/-!
# Row keys

A queue row is claimed under a key made of the last directory of its path and its stem. The key
does not name the file: outer directories and the suffix are left out on purpose, so that a row is
found from any prefix of its path, and the joint `--` may occur in the parts. Two rows share a key
exactly when the joined texts agree (`rowClaimKey_eq_iff`), which for directory names without the
joint means the same directory name and the same stem (`PlainDir`). Every spelling of one path has
one key (`rowClaimKey_of_relParts`), and what `row_claim_blocker` reports for a row is the holder
of a claim under that row's key (`rowClaimBlocker_claimed`).
-/

namespace CoordinatorCore

open Text Machine

namespace Claims

/-! ### Paths -/

/-- The parts of a row path, split at `/` and `\`. -/
def pathParts (row : Text) : List Text :=
  ((row.map fun c => if c = '\\' then '/' else c).splitOn '/').filter (!·.isEmpty)

/-- The file a row path names below the repository: its parts without a leading `./`. -/
def relParts (row : Text) : List Text := (pathParts row).dropWhile (· == ['.'])

/-- `endswith(_ROW_SUFFIXES)`. -/
def rowSuffix (name : Text) : Bool :=
  ".yaml".toList.isSuffixOf name || ".yml".toList.isSuffixOf name

/-- The last directory and the file name of a row path, where `row_claim_key` does not raise. -/
def dirAndName : List Text → Option (Text × Text)
  | name :: parent :: _ =>
    if rowSuffix name && parent ≠ ".".toList && parent ≠ "..".toList then some (parent, name)
    else none
  | _ => none

/-- The last directory and the file name of a row path. -/
def rowName (row : Text) : Option (Text × Text) := dirAndName (pathParts row).reverse

def joint : Text := ['-', '-']

/-- The text of a key. -/
def keyText (m : Text × Text) : Text := m.1 ++ joint ++ stem m.2

theorem rowClaimKey_eq (row : Text) : rowClaimKey row = (rowName row).map keyText := by
  rw [rowClaimKey, rowName, pathParts]
  generalize (List.filter _ _).reverse = parts
  match parts with
  | [] => rfl
  | [name] => rfl
  | name :: parent :: rest =>
    rw [dirAndName, apply_ite (Option.map keyText)]
    rfl

/-! ### Spellings -/

theorem dirAndName_dropWhile (parts : List Text) :
    dirAndName (parts.dropWhile (· == ['.'])).reverse = dirAndName parts.reverse := by
  induction parts with
  | nil => rfl
  | cons p parts ih =>
    by_cases hp : p = ['.']
    · subst hp
      rw [List.dropWhile_cons_of_pos (by simp), ih, List.reverse_cons]
      match parts.reverse with
      | [] => rfl
      | [name] =>
        -- a name right below `.` has no directory, with or without it
        simp [dirAndName]
      | name :: parent :: rest => rfl
    · rw [List.dropWhile_cons_of_neg (by simpa using hp)]

/-- Every spelling of a path has the same key, or none. -/
theorem rowClaimKey_of_relParts {p q : Text} (h : relParts p = relParts q) :
    rowClaimKey p = rowClaimKey q := by
  have hname : rowName p = rowName q := by
    rw [rowName, rowName, ← dirAndName_dropWhile, ← dirAndName_dropWhile (pathParts q)]
    exact congrArg (fun parts => dirAndName parts.reverse) h
  rw [rowClaimKey_eq, rowClaimKey_eq, hname]

/-! ### Two rows -/

/-- A directory name that the joint of a key cannot be mistaken in. -/
def PlainDir (d : Text) : Prop := ¬ joint <:+: d ∧ d.getLast? ≠ some '-'

theorem cutAt_joint {d : Text} (h : PlainDir d) (s : Text) :
    cutAt joint (d ++ joint ++ s) = some (d, s) := by
  obtain ⟨⟨a, b⟩, hcut, hlen⟩ := exists_cutAt_append joint d s
  have heq : a ++ (joint ++ b) = d ++ (joint ++ s) := by simpa using (eq_of_cutAt hcut).symm
  obtain ⟨t, rfl⟩ : a <+: d :=
    List.prefix_of_prefix_length_le ⟨joint ++ b, heq⟩ (List.prefix_append d _) hlen
  rw [List.append_assoc, List.append_cancel_left_eq] at heq
  -- what is left of the name starts with the joint, so nothing is left of it
  match t, heq with
  | [], heq =>
    rw [List.nil_append, List.append_cancel_left_eq] at heq
    rw [hcut, List.append_nil, heq]
  | [x], heq =>
    have hx : '-' = x := (List.cons.inj heq).1
    exact absurd (by simp [← hx]) h.2
  | x :: y :: t, heq =>
    obtain ⟨hx, heq⟩ := List.cons.inj heq
    have hy : '-' = y := (List.cons.inj heq).1
    exact absurd ⟨a, t, by simp [joint, ← hx, ← hy]⟩ h.1

/-- Keys of rows in plainly named directories give back both parts. -/
theorem keyText_inj {m m' : Text × Text} (h : PlainDir m.1) (h' : PlainDir m'.1)
    (heq : keyText m = keyText m') : m.1 = m'.1 ∧ stem m.2 = stem m'.2 := by
  have hcut := cutAt_joint h (stem m.2)
  have hcut' := cutAt_joint h' (stem m'.2)
  rw [keyText, keyText] at heq
  rw [heq, hcut'] at hcut
  simpa [eq_comm] using hcut

/-- A file name with a suffix that holds one dot, at its front, is its stem and the suffix. -/
theorem stem_append {t ext : Text} (hext : '.' ∉ ext) : stem (t ++ '.' :: ext) = t := by
  have hdrop : (ext.reverse ++ '.' :: t.reverse).dropWhile (· ≠ '.') = '.' :: t.reverse := by
    rw [List.dropWhile_append_of_pos]
    · exact List.dropWhile_cons_of_neg (by simp)
    · rintro c hc
      rw [List.mem_reverse] at hc
      have hne : c ≠ '.' := by
        rintro rfl
        exact hext hc
      simpa using hne
  have hrev : (t ++ '.' :: ext).reverse = ext.reverse ++ '.' :: t.reverse := by simp
  rw [stem, hrev, hdrop, List.tail_cons, List.reverse_reverse]

/-- Two rows of one directory with one suffix are told apart by their stems. -/
theorem eq_of_stem_eq {n n' ext : Text} (hext : '.' ∉ ext) (h : '.' :: ext <:+ n)
    (h' : '.' :: ext <:+ n') (heq : stem n = stem n') : n = n' := by
  obtain ⟨t, rfl⟩ := h
  obtain ⟨t', rfl⟩ := h'
  rw [stem_append hext, stem_append hext] at heq
  rw [heq]

/-! ### The blocker -/

/-- `_read_holder`. -/
def readHolder (d : Option Dir) : Text :=
  if isFile d .sessionId then readField d .sessionId
  else if isFile d .pid then readField d .pid
  else "unknown".toList

/-- `row_claim_blocker`, with the ids of `session_env_candidates`. -/
def rowClaimBlocker (w : World) (s : Store) (rowKey : Text) (mySid : Option Text)
    (envIds : List Text) : Option Text :=
  let d := s (rowClass, rowKey)
  let held := readField d .sessionId
  if d.isNone then none
  else if held ≠ [] ∧ (some held = mySid ∨
      (mySid.any fun sid => sid ≠ [] && envIds.contains sid) ∧ envIds.contains held) then none
  else if !holderLive w d || leaseExpired w d then none
  else some (if held ≠ [] then held else readHolder d)

/-- The call claims a row under this key. -/
def Request.ClaimsRow (r : Request) (b : Text) : Prop :=
  r.verb = .claim ∧ r.cls = rowClass ∧ rowClaimKey r.basename = some b

/-- Every row claim was made by one of the calls, under its key. -/
def MadeBy (calls : List (World × Request)) (s : Store) : Prop :=
  ∀ b d, s (rowClass, b) = some d → ∃ c ∈ calls, c.2.ClaimsRow b ∧
    holder (some d) = some (strip c.2.sid)

section

variable {w : World} {r : Request} {s : Store} {b : Text} {d : Dir}

theorem onOwn_other {k j : Key} (hk : k ≠ j) (write : Dir → Option Dir × Bool) :
    (r.onOwn write j s).1 k = s k := by
  rw [Request.onOwn]
  split_ifs
  · rfl
  · cases s j with
    | none => rfl
    | some d =>
      rcases hw : write d with ⟨_ | d', b⟩ <;> by_cases hmine : r.holds (some d) = true <;>
        simp [hmine, hw, hk]

/-- A claim is made where the arguments say. -/
theorem claimAt_other {k j : Key} (hk : k ≠ j) (stage : Text) :
    (r.claimAt w stage j s).1 k = s k := by
  rw [Request.claimAt]
  cases s j with
  | none => simp [hk]
  | some d =>
    dsimp only
    split_ifs
    · rfl
    · exact onOwn_other hk _
    · rfl
    · simp [hk]

theorem claimArtifact_other {k : Key} (hk : ∀ b, r.derived = some b → k ≠ (r.cls, b)) :
    (r.claimArtifact w s).1 k = s k := by
  rw [Request.claimArtifact]
  cases hb : r.derived with
  | none => split_ifs <;> rfl
  | some b =>
    dsimp only
    split_ifs
    · rfl
    · rfl
    · exact claimAt_other (hk b hb) _
    · exact claimAt_other (hk b hb) _

/-- A row claim behind a call was there before, with the same holder, or the call claims it. -/
theorem call_claimsRow (hd : (call w r s).1 (rowClass, b) = some d) :
    (∃ d₀, s (rowClass, b) = some d₀ ∧ holder (some d) = holder (some d₀)) ∨
      r.ClaimsRow b ∧ holder (some d) = some (strip r.sid) := by
  have hc := call_changeAt w r s (rowClass, b)
  rw [hd] at hc
  generalize hd' : some d = d' at hc
  cases hc with
  | same =>
    exact .inl ⟨d, hd'.symm, congrArg holder hd'.symm⟩
  | wrote e f t he hmine hf hstage =>
    cases hd'
    exact .inl ⟨e, he, holder_set t hf⟩
  | made stage hverb hfree hstage =>
    cases hd'
    by_cases hsame : s (rowClass, b) = some (r.claimMeta stage)
    · exact .inl ⟨_, hsame, rfl⟩
    · refine .inr ⟨⟨hverb, ?_⟩, holder_claimMeta r stage⟩
      by_contra hno
      refine hsame ?_
      rw [← hd, call, hverb]
      split_ifs
      · rfl
      · refine (claimArtifact_other fun c hb hk => hno ?_).symm
        obtain ⟨hcls, rfl⟩ := Prod.mk.inj hk
        rw [Request.derived, if_pos hcls.symm] at hb
        exact ⟨hcls.symm, hb⟩
  | dropped => cases hd'

/-- In every run the row claims are the calls' own. -/
theorem run_madeBy {calls : List (World × Request)}
    (h : run callStep (fun _ => none) calls = some s) : MadeBy calls s := by
  induction calls using List.reverseRecOn generalizing s with
  | nil =>
    cases h
    rintro b d ⟨⟩
  | append_singleton calls c ih =>
    obtain ⟨t, ht, hc⟩ := run_append_eq_some.mp h
    obtain rfl : (call c.1 c.2 t).1 = s := by simpa [run, callStep] using hc
    intro b d hd
    rcases call_claimsRow hd with ⟨d₀, hd₀, hholder⟩ | ⟨hrow, hholder⟩
    · obtain ⟨c', hc', hrow, hold⟩ := ih ht b d₀ hd₀
      exact ⟨c', List.mem_append_left _ hc', hrow, hholder.trans hold⟩
    · exact ⟨c, List.mem_append_right _ List.mem_cons_self, hrow, hholder⟩

/-- A blocker is the holder of the claim it is read from. -/
theorem holder_of_rowClaimBlocker {mySid : Option Text} {envIds : List Text} {sid : Text}
    (h : rowClaimBlocker w s b mySid envIds = some sid) (hfile : ∀ d, s (rowClass, b) = some d →
      isFile (some d) .sessionId = true) : holder (s (rowClass, b)) = some sid := by
  simp only [rowClaimBlocker] at h
  split_ifs at h with hnone hmine hlive hheld
  all_goals
    obtain ⟨d, hd⟩ : ∃ d, s (rowClass, b) = some d :=
      Option.ne_none_iff_exists'.mp (by simpa using hnone)
    rw [hd] at h ⊢
    rw [holder, if_pos (hfile d hd)]
  · exact h
  · rwa [readHolder, if_pos (hfile d hd)] at h

/-- What `row_claim_blocker` reports is the session of a call that claimed a row of that key. -/
theorem rowClaimBlocker_claimed {calls : List (World × Request)} {mySid : Option Text}
    {envIds : List Text} {sid : Text} (hrun : run callStep (fun _ => none) calls = some s)
    (h : rowClaimBlocker w s b mySid envIds = some sid) :
    ∃ c ∈ calls, c.2.ClaimsRow b ∧ strip c.2.sid = sid := by
  have hmade := run_madeBy hrun
  have hholder := holder_of_rowClaimBlocker h fun d hd => by
    obtain ⟨c, -, -, hold⟩ := hmade b d hd
    exact (holder_eq_some hold).1
  cases hd : s (rowClass, b) with
  | none =>
    rw [hd] at hholder
    cases hholder
  | some d =>
    obtain ⟨c, hc, hrow, hold⟩ := hmade b d hd
    rw [hd, hold] at hholder
    exact ⟨c, hc, hrow, Option.some.inj hholder⟩

end

/-! ### What a key identifies -/

/-- The keys of rows: what two rows that have keys must share for their keys to agree, and whom a
look-up under a key can report. -/
structure KeyLaw : Prop where
  /-- Spellings of one path have one key. -/
  spelling : ∀ p q, relParts p = relParts q → rowClaimKey p = rowClaimKey q
  /-- Keys agree where the joined texts do. -/
  joined : ∀ p q m m', rowName p = some m → rowName q = some m' →
    (rowClaimKey p = rowClaimKey q ↔ m.1 ++ joint ++ stem m.2 = m'.1 ++ joint ++ stem m'.2)
  /-- In directories whose names hold no joint, that is where the directory names and the stems
  do. -/
  plain : ∀ p q m m', rowName p = some m → rowName q = some m' → PlainDir m.1 → PlainDir m'.1 →
    (rowClaimKey p = rowClaimKey q ↔ m.1 = m'.1 ∧ stem m.2 = stem m'.2)
  /-- Two files of one directory with one suffix have two keys. -/
  siblings : ∀ p q d n n' ext, rowName p = some (d, n) → rowName q = some (d, n') →
    '.' ∉ ext → '.' :: ext <:+ n → '.' :: ext <:+ n' → n ≠ n' → rowClaimKey p ≠ rowClaimKey q
  /-- The holder reported for a row claimed a row with its key. -/
  blocker : ∀ (calls : List (World × Request)) s w row b mySid envIds sid,
    run callStep (fun _ => none) calls = some s → rowClaimKey row = some b →
    rowClaimBlocker w s b mySid envIds = some sid →
    ∃ c ∈ calls, c.2.verb = .claim ∧ c.2.cls = rowClass ∧
      rowClaimKey c.2.basename = rowClaimKey row ∧ strip c.2.sid = sid

/-- **What a row key identifies** is the last directory name and the stem, as far as the joint
keeps them apart. -/
theorem keyLaw : KeyLaw where
  spelling _ _ := rowClaimKey_of_relParts
  joined p q m m' hp hq := by
    rw [rowClaimKey_eq, rowClaimKey_eq, hp, hq]
    exact Option.some_inj
  plain p q m m' hp hq hm hm' := by
    rw [rowClaimKey_eq, rowClaimKey_eq, hp, hq, Option.map_some, Option.map_some, Option.some_inj]
    constructor
    · exact keyText_inj hm hm'
    · rintro ⟨hdir, hstem⟩
      rw [keyText, keyText, hdir, hstem]
  siblings p q d n n' ext hp hq hext hn hn' hne := by
    rw [rowClaimKey_eq, rowClaimKey_eq, hp, hq, Option.map_some, Option.map_some, ne_eq,
      Option.some_inj, keyText, keyText, List.append_cancel_left_eq]
    exact fun heq => hne (eq_of_stem_eq hext hn hn' heq)
  blocker calls s w row b mySid envIds sid hrun hkey h := by
    obtain ⟨c, hc, ⟨hverb, hcls, hrow⟩, hsid⟩ := rowClaimBlocker_claimed hrun h
    exact ⟨c, hc, hverb, hcls, hrow.trans hkey.symm, hsid⟩

/-- Two files below different outer directories, and two suffixes of one stem, share a key; a
claim on one row blocks the other. -/
theorem rows_share_key :
    relParts "a/q/x.yaml".toList ≠ relParts "b/q/x.yaml".toList ∧
      rowClaimKey "a/q/x.yaml".toList = some "q--x".toList ∧
      rowClaimKey "b/q/x.yaml".toList = some "q--x".toList ∧
      rowClaimKey "a/q/x.yml".toList = some "q--x".toList ∧
      rowClaimKey "a-/q.yaml".toList = rowClaimKey "a/-q.yaml".toList ∧
      rowClaimBlocker lateWorld
        (call lateWorld (rowRequest .claim ['a'] "a/q/x.yaml".toList ['2']) fun _ => none).1
        "q--x".toList (some ['b']) [['b']] = some ['a'] := by
  decide

end Claims

end CoordinatorCore
