import CoordinatorCore.Frontmatter.Rebuild
import CoordinatorCore.Handoff.Verbs
import CoordinatorCore.LockedWrite
import CoordinatorCore.Machine.Assign

/-!
# Finished batons

What the verbs do to a record whose `deployment_state` is terminal. Every verb but `ship`, `close`,
`supersede` and `record-disposition` turns such a record down (`not_applied_of_terminal`), and
`record-disposition` writes fields of its own. So a run of these calls leaves the guarded fields
alone (`run_terminal`), provided that the texts `record-disposition` writes are one line: with a
line feed in them it plants lines of its own, and the next verb reads those.
-/

namespace CoordinatorCore

open Text Frontmatter Gate LockedWrite Machine

namespace Handoff

/-! ### The file -/

/-- The frontmatter a call reads off the file, which is opened in text mode. -/
def frontmatterOf (t : Text) : Option Text :=
  (splitFrontmatter (universalNewlines t)).map FrontmatterSplit.fmText

/-- The raw reading of a field of the file. -/
def reading (t key : Text) : Option Text := (frontmatterOf t).bind fun fm => readFmField fm key

/-- What the file holds after a call. -/
def fileAfter (H : Host) (t : Text) (c : Seen × Call) : Text :=
  match transitionSync H c.1 c.2 (universalNewlines t) with
  | .ok (.applied t') => if t' = universalNewlines t then t else t'
  | _ => t

/-- The verbs that write a terminal state of their own. -/
def Call.finishes : Call → Bool
  | .ship => true
  | .close _ => true
  | .supersede _ => true
  | _ => false

/-- A text on one line. -/
def OneLine (s : Text) : Prop := '\n' ∉ s ∧ '\r' ∉ s

/-- What `record-disposition` is given is one line. -/
def Call.OneLineDisposition : Call → Prop
  | .recordDisposition disposition reason => OneLine disposition ∧ OneLine reason
  | _ => True

/-! ### Terminal readings -/

private theorem toLower_of_terminal {raw : Text} (hraw : strip raw = raw)
    (h : isTerminal (some raw) = true) {c : Char} (hc : c ∈ raw) :
    c.toLower ∈ terminalDeployment.flatten := by
  rw [isTerminal, Option.getD_some, hraw, List.contains_iff_mem] at h
  exact List.mem_flatten.mpr ⟨_, h, List.mem_map_of_mem hc⟩

/-- What is read of a field is stripped already. -/
theorem strip_readFmField {fm key raw : Text} (h : readFmField fm key = some raw) :
    strip raw = raw := by
  obtain ⟨m, -, rfl⟩ := Option.map_eq_some_iff.mp h
  exact strip_idem _

private theorem not_mem_of_terminal {raw : Text} (hraw : strip raw = raw)
    (h : isTerminal (some raw) = true) {c : Char} (hc : c.toLower ∉ terminalDeployment.flatten) :
    c ∉ raw :=
  fun hm => hc (toLower_of_terminal hraw h hm)

/-- A terminal word is the same with and without its quotes and its comment: it has none. -/
theorem readFmFieldUnquoted_of_terminal {fm key : Text}
    (h : isTerminal (readFmField fm key) = true) :
    readFmFieldUnquoted fm key = readFmField fm key := by
  rcases hread : readFmField fm key with _ | raw
  · rw [readFmFieldUnquoted, hread]
    rfl
  · rw [hread] at h
    have hraw := strip_readFmField hread
    have hhash : '#' ∉ raw := not_mem_of_terminal hraw h (by decide)
    have hsingle : '\'' ∉ raw := not_mem_of_terminal hraw h (by decide)
    have hdouble : '"' ∉ raw := not_mem_of_terminal hraw h (by decide)
    have hcomment : commentSplit true (quotedPrefix raw).2 = none := by
      rcases hc : commentSplit true (quotedPrefix raw).2 with _ | ⟨x, y⟩
      · rfl
      · obtain ⟨⟨c, rfl⟩, hsnd, -⟩ := commentSplit_eq_some hc
        refine absurd ?_ hhash
        rw [← quotedPrefix_append raw, hsnd]
        simp
    rw [readFmFieldUnquoted, hread, Option.map_some, stripTrailingComment, splitTrailingComment]
    dsimp only
    rw [hcomment, unquoteYamlScalar, if_neg, if_neg]
    · exact fun hd => hdouble (List.mem_of_mem_head? hd.2.1)
    · exact fun hs => hsingle (List.mem_of_mem_head? hs.2.1)

/-- A terminal reading is none of the words a verb waits for. -/
theorem ne_of_terminal {reading : Option Text} (h : isTerminal reading = true) :
    reading ≠ some readyWord ∧ reading ≠ some inFlightWord ∧ reading ≠ some awaitingWord := by
  refine ⟨?_, ?_, ?_⟩ <;>
  · rintro rfl
    revert h
    decide

/-! ### The verbs turn it down -/

section

variable {H : Host} {w : Seen} {old : Text}

/-- The call writes nothing. -/
def NotApplied (r : Except Refusal Outcome) : Prop := ∀ t, r ≠ .ok (.applied t)

private theorem notApplied_error (e : Refusal) : NotApplied (.error e) := nofun

private theorem notApplied_noop : NotApplied (.ok .noop) := nofun

private theorem notApplied_bind {α : Type} {x : Except Refusal α} {f : α → Except Refusal Outcome}
    (h : ∀ a, NotApplied (f a)) : NotApplied (x.bind f) := by
  cases x with
  | error e => exact notApplied_error e
  | ok a => exact h a

private theorem notApplied_ite {c : Prop} [Decidable c] {x y : Except Refusal Outcome}
    (hx : NotApplied x) (hy : NotApplied y) : NotApplied (if c then x else y) := by
  split_ifs
  · exact hx
  · exact hy

variable {split : FrontmatterSplit} (hsplit : splitFrontmatter old = some split)
  (hterm : isTerminal (readFmField split.fmText deploymentKey) = true)

include hsplit hterm

/-- `claim` is not applied to a finished record. -/
theorem claim_terminal (sessionId at_ : Text) : NotApplied (claim H sessionId at_ old) := by
  rw [claim, hsplit]
  refine notApplied_ite (notApplied_error _) ?_
  dsimp only
  rw [if_pos hterm]
  exact notApplied_error _

/-- `repark` is not applied to a finished record. -/
theorem repark_terminal : NotApplied (repark H old) := by
  obtain ⟨hready, hflight, -⟩ := ne_of_terminal hterm
  rw [repark, hsplit]
  dsimp only
  rw [if_neg hready, if_pos hflight]
  exact notApplied_error _

/-- `unclaim` is not applied to a finished record. -/
theorem unclaim_terminal (note : Text) (reapedFrom : Option Text) :
    NotApplied (unclaim H w note reapedFrom old) := by
  obtain ⟨hready, hflight, -⟩ := ne_of_terminal hterm
  have hun : isUnclaimable (readFmField split.fmText deploymentKey) = false := by
    rw [isUnclaimable, beq_false_of_ne hready, beq_false_of_ne hflight]
    rfl
  rw [unclaim, hsplit]
  refine notApplied_ite (notApplied_error _) ?_
  dsimp only
  rw [readFmFieldUnquoted_of_terminal hterm, hun]
  refine notApplied_ite (notApplied_error _) (notApplied_ite notApplied_noop ?_)
  exact notApplied_error _

/-- `gate-recheck` is not applied to a finished record. -/
theorem gateRecheck_terminal (at_ : Text) (cleared : Bool) :
    NotApplied (gateRecheck H w at_ cleared old) := by
  obtain ⟨-, -, hawait⟩ := ne_of_terminal hterm
  rw [gateRecheck, hsplit]
  dsimp only
  rw [if_pos hawait]
  exact notApplied_ite notApplied_noop (notApplied_error _)

/-- `gate-cascade-clear` is not applied to a finished record. -/
theorem gateCascadeClear_terminal (ids shas : List Text) :
    NotApplied (gateCascadeClear H w ids shas old) := by
  obtain ⟨-, -, hawait⟩ := ne_of_terminal hterm
  rw [gateCascadeClear, hsplit]
  refine notApplied_ite (notApplied_error _) (notApplied_ite (notApplied_error _) ?_)
  refine notApplied_bind fun d => ?_
  split
  · rw [if_pos hawait]
    exact notApplied_ite notApplied_noop (notApplied_error _)
  · exact notApplied_error _

/-- `gate-add-blocker` is not applied to a finished record. -/
theorem gateAddBlocker_terminal (ids : List Text) (clause : Text) :
    NotApplied (gateAddBlocker H w ids clause old) := by
  rw [gateAddBlocker, hsplit]
  refine notApplied_ite (notApplied_error _) (notApplied_bind fun d => ?_)
  rw [if_pos hterm]
  exact notApplied_error _

/-- Every verb that neither finishes a record nor records a disposition turns a terminal one
down. -/
theorem not_applied_of_terminal (c : Call) (hfin : c.finishes = false)
    (hrec : ∀ d r, c ≠ .recordDisposition d r) : NotApplied (transitionSync H w c old) := by
  cases c with
  | claim sessionId at_ =>
    exact notApplied_ite (notApplied_error _) (claim_terminal hsplit hterm _ _)
  | supersede continuedInto => cases hfin
  | ship => cases hfin
  | close reason => cases hfin
  | repark => exact repark_terminal hsplit hterm
  | unclaim note reapedFrom => exact unclaim_terminal hsplit hterm _ _
  | gateRecheck at_ cleared =>
    exact notApplied_ite (notApplied_error _) (gateRecheck_terminal hsplit hterm _ _)
  | gateCascadeClear ids shas => exact gateCascadeClear_terminal hsplit hterm _ _
  | gateAddBlocker ids gateDependency => exact gateAddBlocker_terminal hsplit hterm _ _
  | recordDisposition d r => exact absurd rfl (hrec d r)

end

/-! ### Writes of one line -/

theorem raising_eq_ok {r : Except Text Text} {fm : Text} : raising r = .ok fm ↔ r = .ok fm := by
  cases r <;> simp [raising, Except.mapError]

/-- Setting a field on one line, behind a field that is there. -/
theorem setField_spec {fm fm' key value after : Text} (hk : IsIdent key) (hv : OneLine value)
    (htrim : strip value = value) (h : Rereadable fm) (hafter : readFmField fm after ≠ none)
    (hset : setField fm key value after = .ok fm') :
    Rereadable fm' ∧ readFmField fm' key ≠ none ∧
      ∀ key', IsIdent key' → key' ≠ key → readFmField fm' key' = readFmField fm key' := by
  rw [setField] at hset
  split_ifs at hset with hpresent
  · obtain rfl := eq_of_replaceFmField (raising_eq_ok.mp hset)
    have hser := newline_not_mem_serialize (s := value) false hv.1
    obtain ⟨⟨a, rest, b⟩, hfind, -⟩ := Option.map_eq_some_iff.mp (Option.get_mem hpresent)
    have hread := readFmFieldUnquoted_replaceFmFieldRaw hser hfind
    refine ⟨h.replaceFmFieldRaw hser (not_mem_serialize false (by decide) hv.2), ?_,
      fun key' hk' hne => readFmField_replaceFmFieldRaw_of_ne hk.colon_not_mem hk'.colon_not_mem
        hne hser⟩
    intro hnone
    rw [readFmFieldUnquoted, hnone] at hread
    cases hread
  · obtain rfl := Except.ok.inj hset
    have habs : readFmField fm key = none := by simpa using hpresent
    have hrun : (FieldWrite.insert (some after)).run fm key (some value) false =
        .ok (insertFmField fm key (some value) (some after) false) := rfl
    have hlaw := (fieldWrite_law_iff (.insert (some after)) hk hv.1 htrim habs hrun).mpr
      (.inl ⟨after, rfl, hafter⟩)
    refine ⟨h.insertFmField hk hv.1 hv.2 false hafter, fun hnone => ?_, hlaw.frame⟩
    have hread := hlaw.reads_back
    rw [readFmFieldUnquoted, show readFmField (insertFmField fm key (some value) (some after)
      false) key = none from hnone] at hread
    cases hread

/-- The fields whose reading a finished record keeps. -/
def guardedKeys : List Text := [deploymentKey, statusKey, claimedByKey, pickupReadyKey]

private theorem isIdent_disposition : IsIdent dispositionKey ∧ IsIdent dispositionReasonKey :=
  ⟨⟨⟨'r', _, rfl, by decide⟩, by decide⟩, ⟨⟨'r', _, rfl, by decide⟩, by decide⟩⟩

/-- `record-disposition` on one line writes its two fields and no other. -/
theorem recordDisposition_frame {H : Host} {disposition reason old t' : Text}
    {split : FrontmatterSplit} (hr : '\r' ∉ old) (hsplit : splitFrontmatter old = some split)
    (hdeploy : readFmField split.fmText deploymentKey ≠ none) (hd : OneLine disposition)
    (hdt : strip disposition = disposition) (hn : OneLine reason) (hnt : strip reason = reason)
    (h : recordDisposition H disposition reason old = .ok (.applied t')) :
    '\r' ∉ t' ∧ ∃ split', splitFrontmatter t' = some split' ∧ ∀ key, IsIdent key →
      key ≠ dispositionKey → key ≠ dispositionReasonKey →
        readFmField split'.fmText key = readFmField split.fmText key := by
  have hparts := splitFrontmatter_parts hr hsplit
  rw [recordDisposition, hsplit] at h
  dsimp only at h
  rw [ite_eq_iff] at h
  obtain ⟨-, h⟩ := h.resolve_left fun h => nomatch h.2
  obtain ⟨fm₁, h₁, h⟩ := except_bind_eq_ok.mp h
  obtain ⟨fm₂, h₂, h⟩ := except_bind_eq_ok.mp h
  obtain ⟨-, -, happ⟩ := except_map_eq_ok.mp h
  obtain rfl := Outcome.applied.inj happ
  obtain ⟨hk₁, hk₂⟩ := isIdent_disposition
  obtain ⟨hre₁, hpresent, hframe₁⟩ :=
    setField_spec hk₁ hd hdt (hparts.rereadable hdeploy) hdeploy h₁
  obtain ⟨⟨ls, hne, hls, hcr, rfl⟩, -, hframe₂⟩ := setField_spec hk₂ hn hnt hre₁ hpresent h₂
  obtain ⟨hcr', hsplit'⟩ := splitFrontmatter_rebuild hparts hne hls hcr
  exact ⟨hcr', _, hsplit', fun key hk hne₁ hne₂ =>
    (hframe₂ key hk hne₂).trans (hframe₁ key hk hne₁)⟩

/-! ### Runs -/

private theorem fileAfter_cases (H : Host) (t : Text) (c : Seen × Call) :
    fileAfter H t c = t ∨
      transitionSync H c.1 c.2 (universalNewlines t) = .ok (.applied (fileAfter H t c)) := by
  rw [fileAfter]
  split
  · next t' h =>
    split_ifs
    · exact .inl rfl
    · exact .inr h
  · exact .inl rfl

private theorem oneLine_strip {s : Text} (h : OneLine s) : OneLine (strip s) := by
  have hsub : strip s ⊆ s := fun c hc =>
    (List.dropWhile_sublist _).subset ((List.rdropWhile_prefix ..).subset hc)
  exact ⟨fun hm => h.1 (hsub hm), fun hm => h.2 (hsub hm)⟩

/-- One call on a finished record: the readings of the guarded fields stay as they are. -/
theorem reading_fileAfter {H : Host} {t : Text} {c : Seen × Call}
    (hterm : isTerminal (reading t deploymentKey) = true) (hfin : c.2.finishes = false)
    (hline : c.2.OneLineDisposition) {key : Text} (hkey : key ∈ guardedKeys) :
    reading (fileAfter H t c) key = reading t key := by
  rcases fileAfter_cases H t c with hsame | happ
  · rw [hsame]
  have hne : reading t deploymentKey ≠ none := by
    intro hnone
    rw [hnone] at hterm
    revert hterm
    decide
  obtain ⟨split, hsplit⟩ : ∃ split, splitFrontmatter (universalNewlines t) = some split := by
    rcases h : splitFrontmatter (universalNewlines t) with _ | split
    · rw [reading, frontmatterOf, h] at hne
      exact absurd rfl hne
    · exact ⟨split, rfl⟩
  have hread : ∀ key, reading t key = readFmField split.fmText key := fun key => by
    rw [reading, frontmatterOf, hsplit]
    rfl
  by_cases hrec : ∀ d r, c.2 ≠ .recordDisposition d r
  · rw [hread] at hterm
    exact absurd happ (not_applied_of_terminal hsplit hterm c.2 hfin hrec _)
  · push Not at hrec
    obtain ⟨d, r, hc⟩ := hrec
    rw [hc] at hline happ
    rw [transitionSync, ite_eq_iff] at happ
    obtain ⟨-, happ⟩ := happ.resolve_left fun h => nomatch h.2
    obtain ⟨hcr, split', hsplit', hframe⟩ := recordDisposition_frame (universalNewlines_cr t)
      hsplit (by rwa [← hread]) (oneLine_strip hline.1) (strip_idem d) (oneLine_strip hline.2)
      (strip_idem r) happ
    have hident : ∀ key ∈ guardedKeys,
        IsIdent key ∧ key ≠ dispositionKey ∧ key ≠ dispositionReasonKey := by
      intro key hkey
      simp only [guardedKeys, List.mem_cons, List.not_mem_nil, or_false] at hkey
      rcases hkey with rfl | rfl | rfl | rfl <;>
      exact ⟨⟨⟨_, _, rfl, by decide⟩, by decide⟩, by decide, by decide⟩
    obtain ⟨hk, hne₁, hne₂⟩ := hident key hkey
    rw [hread, ← hframe key hk hne₁ hne₂, reading, frontmatterOf,
      universalNewlines_of_not_mem hcr, hsplit']
    rfl

/-- A finished record stays finished: over any run of the other verbs the readings of
`deployment_state`, `status`, `claimed_by` and `pickup_ready` stay what they were. -/
theorem run_terminal (H : Host) (t : Text) (hterm : isTerminal (reading t deploymentKey) = true)
    (calls : List (Seen × Call))
    (hcalls : ∀ c ∈ calls, c.2.finishes = false ∧ c.2.OneLineDisposition) :
    ∀ key ∈ guardedKeys, reading (calls.foldl (fileAfter H) t) key = reading t key := by
  induction calls generalizing t with
  | nil => exact fun _ _ => rfl
  | cons c calls ih =>
    obtain ⟨hfin, hline⟩ := hcalls c List.mem_cons_self
    have hstep : ∀ key ∈ guardedKeys, reading (fileAfter H t c) key = reading t key :=
      fun _ hkey => reading_fileAfter hterm hfin hline hkey
    intro key hkey
    rw [List.foldl_cons, ih (fileAfter H t c) (by rwa [hstep _ (by simp [guardedKeys])])
      (fun d hd => hcalls d (List.mem_cons_of_mem c hd)) key hkey, hstep key hkey]

/-! ### Advertised for pickup -/

/-- A word that is written as it is, and read back whole. -/
structure PlainWord (v : Text) : Prop where
  ne_nil : v ≠ []
  not_space : ∀ c ∈ v, isSpace c = false
  serialize : serializeYamlScalar (some v) false = v

private theorem strip_append_word {v : Text} (hv : PlainWord v) {w tail : Text}
    (hw : ∀ c ∈ w, isSpace c = true) : strip (w ++ v ++ tail) = v ++ rstrip tail := by
  have hl : lstrip (v ++ tail) = v ++ tail := by
    obtain ⟨c, v', rfl⟩ := List.exists_cons_of_ne_nil hv.ne_nil
    exact List.dropWhile_cons_of_neg (by simp [hv.not_space c List.mem_cons_self])
  rw [List.append_assoc, strip_append_left hw, strip, hl]
  -- nothing of the word is stripped
  obtain ⟨v', d, rfl⟩ := (List.eq_nil_or_concat v).resolve_left hv.ne_nil
  rw [List.concat_eq_append, List.append_assoc, List.singleton_append,
    rstrip_append_cons (hv.not_space d (by simp)), List.append_assoc, List.singleton_append]

/-- Nothing, or a comment behind white space. -/
def IsRemark (r : Text) : Prop :=
  r = [] ∨ ∃ pad c, r = pad ++ '#' :: c ∧ ∀ x ∈ pad, isSpace x = true

/-- A value is replaced up to the comment behind it. -/
private theorem exists_rewriteRest (v rest : Text) : ∃ w tail,
    rewriteRest v rest = w ++ v ++ tail ∧ (∀ c ∈ w, isSpace c = true) ∧ IsRemark (rstrip tail) := by
  have hlead : ∀ c ∈ (oldParts rest).1, isSpace c = true := fun c hc =>
    isSpace_of_isBlank (List.mem_takeWhile_imp hc)
  have hblank : ∀ c ∈ [' '], isSpace c = true := by simpa using (by decide : isSpace ' ' = true)
  have hcr : rstrip (splitCr rest).2 = [] := by
    have hline : rstrip ['\r'] = [] := by decide
    rw [splitCr]
    split_ifs
    · exact hline
    · rfl
  have hcomment : ∀ lead, (∀ c ∈ lead, isSpace c = true) → (oldParts rest).2.2 ≠ [] →
      IsRemark (rstrip (lead ++ (oldParts rest).2.2 ++ (splitCr rest).2)) := by
    intro lead hlead hne
    obtain ⟨pad, c, hshape, hpad, -⟩ := splitTrailingComment_snd _ hne
    have hshape : (oldParts rest).2.2 = pad ++ '#' :: c := hshape
    have hnum : isSpace '#' = false := by decide
    refine .inr ⟨lead ++ pad, rstrip (c ++ (splitCr rest).2), ?_, ?_⟩
    · rw [hshape, ← List.append_assoc, List.append_assoc (lead ++ pad), List.cons_append,
        rstrip_append_cons hnum]
    · exact fun x hx => (List.mem_append.mp hx).elim (hlead x) (hpad x)
  rw [rewriteRest]
  revert hlead hcomment
  rcases oldParts rest with ⟨lead, old, comment⟩
  intro hlead hcomment
  dsimp only at hcomment ⊢
  split_ifs with hnil
  · exact ⟨[' '], (splitCr rest).2, by simp, hblank, .inl hcr⟩
  · exact ⟨lead, (splitCr rest).2, by simp, hlead, .inl hcr⟩
  · exact ⟨[' '], lead ++ comment ++ (splitCr rest).2, by simp, hblank, hcomment _ hlead hnil⟩
  · exact ⟨lead, comment ++ (splitCr rest).2, by simp, hlead, hcomment [] (by simp) hnil⟩

private theorem keyLine_newLine (key value cr : Text) :
    keyLine key (newLine key (some value) false ++ cr) =
      some (' ' :: serializeYamlScalar (some value) false ++ cr) := by
  have : newLine key (some value) false ++ cr =
      key ++ ':' :: (' ' :: serializeYamlScalar (some value) false ++ cr) := by simp [newLine]
  rw [this]
  exact keyLine_self rfl

/-- A replacement is read back, in its raw spelling. -/
private theorem readFmField_replaceField {fm key v : Text} (hv : '\n' ∉ v)
    (hpresent : (readFmField fm key).isSome = true) :
    ∃ rest, readFmField (replaceFmFieldRaw fm key v) key = some (strip (rewriteRest v rest)) := by
  obtain ⟨⟨a, rest, b⟩, hfind, -⟩ := Option.map_eq_some_iff.mp (Option.get_mem hpresent)
  obtain ⟨hl, hb, hnone⟩ := findKeyLine_eq_some hfind
  have hmap : ∀ l ∈ a, replaceLine key v l = l := fun l hl => by rw [replaceLine, hnone l hl]
  refine ⟨rest, ?_⟩
  rw [readFmField, lines_replaceFmFieldRaw hv, hl, List.map_append, List.map_cons,
    List.map_congr_left hmap, List.map_id', replaceLine, keyLine_self hb,
    findKeyLine_append hnone (keyLine_self (boundary_rewriteRest hb))]
  rfl

/-- A field that is set is there, whatever stood there before. -/
theorem setField_present {fm fm' key value after : Text} (hk : IsIdent key) (hv : '\n' ∉ value)
    (hset : setField fm key value after = .ok fm') : readFmField fm' key ≠ none := by
  rw [setField] at hset
  split_ifs at hset with hpresent
  · obtain rfl := eq_of_replaceFmField (raising_eq_ok.mp hset)
    obtain ⟨rest, hread⟩ := readFmField_replaceField (newline_not_mem_serialize false hv) hpresent
    rw [hread]
    exact Option.some_ne_none _
  · obtain rfl := Except.ok.inj hset
    have hline : '\n' ∉ newLine key (some value) false := by
      simp [newLine, hk.newline_not_mem, newline_not_mem_serialize false hv]
    have hmem : ∃ cr, newLine key (some value) false ++ cr ∈
        lines (insertField fm key value after) := by
      rw [insertField, insertFmField, Option.bind_some]
      rcases hfind : findKeyLine after (lines fm) with _ | ⟨a, rest, b⟩
      · obtain ⟨ls, l, h, hs, cr, -, -, -, -, -, -, hlines⟩ := lines_appendField fm hline
        refine ⟨cr, ?_⟩
        rw [Option.map_none]
        dsimp only
        rw [hlines]
        simp
      · rw [Option.map_some]
        dsimp only
        rw [lines_insertAfter hfind hline]
        exact ⟨_, List.mem_append_right a (List.mem_cons_of_mem _ List.mem_cons_self)⟩
    obtain ⟨cr, hmem⟩ := hmem
    intro hnone
    have := findKeyLine_eq_none.mp (readFmField_eq_none.mp hnone) _ hmem
    rw [keyLine_newLine] at this
    cases this

/-- A plain word that is set behind a field that is there leads the reading. -/
theorem setField_word {fm fm' key v after : Text} (hk : IsIdent key) (hv : PlainWord v)
    (hafter : readFmField fm after ≠ none) (hset : setField fm key v after = .ok fm') :
    ∃ r, readFmField fm' key = some (v ++ r) ∧ IsRemark r := by
  have hnl : '\n' ∉ v := fun h => absurd (hv.not_space _ h) (by decide)
  rw [setField] at hset
  split_ifs at hset with hpresent
  · obtain rfl := eq_of_replaceFmField (raising_eq_ok.mp hset)
    obtain ⟨rest, hread⟩ := readFmField_replaceField (newline_not_mem_serialize false hnl) hpresent
    obtain ⟨w, tail, hshape, hw, hremark⟩ :=
      exists_rewriteRest (serializeYamlScalar (some v) false) rest
    rw [hread, hshape, hv.serialize, strip_append_word hv hw]
    exact ⟨_, rfl, hremark⟩
  · obtain rfl := Except.ok.inj hset
    have habs : findKeyLine key (lines fm) = none := by simpa [readFmField] using hpresent
    have hline : '\n' ∉ newLine key (some v) false := by
      simp [newLine, hk.newline_not_mem, newline_not_mem_serialize false hnl]
    obtain ⟨⟨a, rest, b⟩, hfind⟩ := Option.ne_none_iff_exists'.mp (mt readFmField_eq_none.mpr hafter)
    have hinsert : insertField fm key v after =
        insertAfter after (newLine key (some v) false) (a, rest, b) := by
      rw [insertField, insertFmField, Option.bind_some, hfind]
      rfl
    have hnone : ∀ l ∈ a ++ [after ++ ':' :: rest], keyLine key l = none := by
      intro l hl
      refine findKeyLine_eq_none.mp habs l ?_
      rw [(findKeyLine_eq_some hfind).1]
      rcases List.mem_append.mp hl with hl | hl
      · simp [hl]
      · simp [List.mem_singleton.mp hl]
    have hfound := findKeyLine_append (b := b) hnone (keyLine_newLine key v
      (if rest.getLast? = some '\r' then ['\r'] else []))
    rw [List.append_assoc, List.singleton_append] at hfound
    rw [hinsert, readFmField, lines_insertAfter hfind hline, hfound, hv.serialize]
    have hcr : rstrip (if rest.getLast? = some '\r' then ['\r'] else []) = [] := by
      split_ifs <;> decide
    have hblank : ∀ c ∈ [' '], isSpace c = true := by simpa using (by decide : isSpace ' ' = true)
    exact ⟨_, congrArg some (strip_append_word hv hblank), .inl hcr⟩

/-! ### What is applied has passed the schema -/

/-- The result, when it is applied, is a rebuilt document with a frontmatter that loads and that
is no gated baton advertised for pickup. -/
def Validated (H : Host) (old : Text) (r : Except Refusal Outcome) : Prop :=
  ∀ t, r = .ok (.applied t) → ∃ split fm d, splitFrontmatter old = some split ∧
    t = rebuild split fm ∧ loadDict H fm = .ok d ∧ awaitingGateAdvertised d = false

section

variable {H : Host} {w : Seen} {old : Text}

private theorem validated_of_notApplied {r : Except Refusal Outcome} (h : NotApplied r) :
    Validated H old r := fun t ht => absurd ht (h t)

private theorem validated_bind {α : Type} {x : Except Refusal α}
    {f : α → Except Refusal Outcome} (h : ∀ a, Validated H old (f a)) :
    Validated H old (x.bind f) := by
  cases x with
  | error e => exact validated_of_notApplied (notApplied_error e)
  | ok a => exact h a

private theorem validated_ite {c : Prop} [Decidable c] {x y : Except Refusal Outcome}
    (hx : Validated H old x) (hy : Validated H old y) : Validated H old (if c then x else y) := by
  split_ifs
  · exact hx
  · exact hy

private theorem validated_error (e : Refusal) : Validated H old (.error e) :=
  validated_of_notApplied (notApplied_error e)

private theorem validated_noop : Validated H old (.ok .noop) :=
  validated_of_notApplied notApplied_noop

variable {split : FrontmatterSplit} (hsplit : splitFrontmatter old = some split)

include hsplit

private theorem validated_finish (fm : Text) : Validated H old (finish H split fm) := by
  intro t ht
  obtain ⟨_, hv, happ⟩ := except_map_eq_ok.mp ht
  rw [validateFm, ite_eq_iff] at hv
  obtain ⟨-, hv⟩ := hv.resolve_left fun h => nomatch h.2
  obtain ⟨d, hd, hv⟩ := except_bind_eq_ok.mp hv
  rw [ite_eq_iff] at hv
  obtain ⟨hno, -⟩ := hv.resolve_left fun h => nomatch h.2
  rw [Bool.or_eq_true, not_or] at hno
  exact ⟨split, fm, d, hsplit, (Outcome.applied.inj happ).symm, hd, by simpa using hno.1⟩

private theorem validated_claim (sessionId at_ : Text) :
    Validated H old (claim H sessionId at_ old) := by
  rw [claim, hsplit]
  refine validated_ite (validated_error _) (validated_ite (validated_error _)
    (validated_ite validated_noop ?_))
  refine validated_bind fun _ => validated_bind fun _ => validated_bind fun _ =>
    validated_bind fun _ => validated_bind fun _ => validated_bind fun _ => ?_
  exact validated_finish hsplit _

private theorem validated_supersede (continuedInto : Text) :
    Validated H old (supersede H w continuedInto old) := by
  rw [supersede, hsplit]
  refine validated_ite (validated_error _) (validated_ite (validated_error _)
    (validated_ite validated_noop ?_))
  refine validated_bind fun _ => validated_bind fun _ => validated_bind fun _ =>
    validated_bind fun _ => validated_bind fun _ => ?_
  exact validated_finish hsplit _

private theorem validated_ship : Validated H old (ship H old) := by
  rw [ship, hsplit]
  refine validated_ite validated_noop ?_
  exact validated_bind fun _ => validated_bind fun _ => validated_bind fun _ =>
    validated_finish hsplit _

private theorem validated_close (reason : Text) : Validated H old (close H reason old) := by
  rw [close, hsplit]
  refine validated_ite (validated_error _) (validated_ite validated_noop
    (validated_ite (validated_error _) (validated_ite (validated_error _) ?_)))
  exact validated_bind fun _ => validated_bind fun _ => validated_bind fun _ =>
    validated_finish hsplit _

private theorem validated_repark : Validated H old (repark H old) := by
  rw [repark, hsplit]
  refine validated_ite validated_noop (validated_ite (validated_error _) ?_)
  exact validated_bind fun _ => validated_bind fun _ => validated_bind fun _ =>
    validated_finish hsplit _

private theorem validated_unclaim (note : Text) (reapedFrom : Option Text) :
    Validated H old (unclaim H w note reapedFrom old) := by
  rw [unclaim, hsplit]
  refine validated_ite (validated_error _) (validated_ite (validated_error _)
    (validated_ite validated_noop (validated_ite (validated_error _) ?_)))
  refine validated_bind fun _ => validated_bind fun _ => validated_bind fun _ =>
    validated_bind fun _ => validated_bind fun _ => validated_bind fun _ =>
    validated_bind fun _ => validated_bind fun _ => ?_
  exact validated_finish hsplit _

private theorem validated_gateRecheck (at_ : Text) (cleared : Bool) :
    Validated H old (gateRecheck H w at_ cleared old) := by
  rw [gateRecheck, hsplit]
  refine validated_ite validated_noop (validated_ite (validated_error _) ?_)
  refine validated_bind fun _ => validated_bind fun _ => validated_ite (validated_error _) ?_
  refine validated_bind fun _ => validated_ite ?_ (validated_finish hsplit _)
  exact validated_bind fun _ => validated_bind fun _ => validated_bind fun _ =>
    validated_bind fun _ => validated_finish hsplit _

private theorem validated_gateCascadeClear (ids shas : List Text) :
    Validated H old (gateCascadeClear H w ids shas old) := by
  rw [gateCascadeClear, hsplit]
  refine validated_ite (validated_error _) (validated_ite (validated_error _) ?_)
  refine validated_bind fun d => ?_
  split
  · refine validated_ite validated_noop (validated_ite (validated_error _)
      (validated_ite (validated_error _) (validated_ite (validated_error _) ?_)))
    exact validated_bind fun _ => validated_ite (validated_error _) (validated_finish hsplit _)
  · exact validated_error _

private theorem validated_gateAddBlocker (ids : List Text) (clause : Text) :
    Validated H old (gateAddBlocker H w ids clause old) := by
  rw [gateAddBlocker, hsplit]
  refine validated_ite (validated_error _) (validated_bind fun d => ?_)
  refine validated_ite (validated_error _) ?_
  split
  · refine validated_ite (validated_error _) (validated_ite validated_noop ?_)
    exact validated_bind fun _ => validated_bind fun _ => validated_bind fun _ =>
      validated_ite (validated_error _) (validated_finish hsplit _)
  · exact validated_error _

private theorem validated_recordDisposition (disposition reason : Text) :
    Validated H old (recordDisposition H disposition reason old) := by
  rw [recordDisposition, hsplit]
  refine validated_ite validated_noop ?_
  exact validated_bind fun _ => validated_bind fun _ => validated_finish hsplit _

end

/-- Without a frontmatter every verb refuses. -/
private theorem notApplied_of_split_none {H : Host} {w : Seen} {old : Text}
    (h : splitFrontmatter old = none) (c : Call) : NotApplied (transitionSync H w c old) := by
  intro t ht
  cases c <;> simp only [transitionSync, claim, supersede, ship, close, repark, unclaim, gateRecheck,
    gateCascadeClear, gateAddBlocker, recordDisposition, h] at ht
  all_goals first | cases ht | (split_ifs at ht)

/-- Every applied call has passed the schema. -/
theorem transitionSync_validated (H : Host) (w : Seen) (c : Call) (old : Text) :
    Validated H old (transitionSync H w c old) := by
  rcases hsplit : splitFrontmatter old with _ | split
  · exact validated_of_notApplied (notApplied_of_split_none hsplit c)
  · cases c with
    | claim sessionId at_ =>
      exact validated_ite (validated_error _) (validated_claim hsplit _ _)
    | supersede continuedInto =>
      exact validated_ite (validated_error _)
        (validated_ite (validated_error _) (validated_supersede hsplit _))
    | ship => exact validated_ship hsplit
    | close reason => exact validated_close hsplit _
    | repark => exact validated_repark hsplit
    | unclaim note reapedFrom => exact validated_unclaim hsplit _ _
    | gateRecheck at_ cleared =>
      exact validated_ite (validated_error _) (validated_gateRecheck hsplit _ _)
    | gateCascadeClear ids shas => exact validated_gateCascadeClear hsplit _ _
    | gateAddBlocker ids gateDependency => exact validated_gateAddBlocker hsplit _ _
    | recordDisposition d r =>
      exact validated_ite (validated_error _) (validated_recordDisposition hsplit _ _)

/-! ### Shipped and closed -/

private theorem isIdent_pickup : IsIdent pickupReadyKey ∧ IsIdent deploymentKey ∧
    IsIdent closedReasonKey := by
  refine ⟨?_, ?_, ?_⟩ <;> exact ⟨⟨_, _, rfl, by decide⟩, by decide⟩

private theorem plainWord_false : PlainWord falseWord where
  ne_nil := by decide
  not_space := by simpa using (by decide : (falseWord.all fun c => !isSpace c) = true)
  serialize := by decide

/-- `pickup_ready` reads `false`, and at most a comment is behind it. -/
def ReadsFalse (fm : Text) : Prop :=
  ∃ r, readFmField fm pickupReadyKey = some (falseWord ++ r) ∧ IsRemark r

/-- A result that is applied says `false`, and a record that is left as it is says so already. -/
def NotAdvertised (old : Text) (r : Except Refusal Outcome) : Prop :=
  ∀ o, r = .ok o → ∃ split, splitFrontmatter old = some split ∧ match o with
    | .noop => readFmFieldUnquoted split.fmText pickupReadyKey = some falseWord
    | .applied t => ∃ fm, t = rebuild split fm ∧ ReadsFalse fm

/-- Both verbs end in the same way. -/
private theorem readsFalse_of_finish {H : Host} {split : FrontmatterSplit} {fm after : Text}
    {o : Outcome} (hafter : readFmField fm after ≠ none)
    (h : ((setField fm pickupReadyKey falseWord after).bind fun fm => finish H split fm) = .ok o) :
    ∃ t, o = .applied t ∧ ∃ fm, t = rebuild split fm ∧ ReadsFalse fm := by
  obtain ⟨fm', hset, hfin⟩ := except_bind_eq_ok.mp h
  obtain ⟨-, -, happ⟩ := except_map_eq_ok.mp hfin
  exact ⟨_, happ.symm, fm', rfl, setField_word isIdent_pickup.1 plainWord_false hafter hset⟩

private theorem canonicalizeLegacyStatus_frame {fm fm' : Text} {status : Option Text}
    (h : canonicalizeLegacyStatus fm status = .ok fm') :
    readFmField fm' deploymentKey = readFmField fm deploymentKey := by
  rw [canonicalizeLegacyStatus] at h
  split at h
  · rw [Except.ok.inj h]
  · next new hnew =>
    obtain ⟨old, -, hold⟩ := Option.bind_eq_some_iff.mp hnew
    have hline : '\n' ∉ new := by
      rw [newStatus] at hold
      split_ifs at hold <;> cases hold <;> decide
    obtain rfl := eq_of_replaceFmField (raising_eq_ok.mp h)
    exact readFmField_replaceFmFieldRaw_of_ne (by decide) (by decide) (by decide)
      (newline_not_mem_serialize false hline)

/-- A shipped record is not advertised. -/
theorem ship_notAdvertised (H : Host) (old : Text) : NotAdvertised old (ship H old) := by
  intro o ho
  rw [ship] at ho
  rcases hsplit : splitFrontmatter old with _ | split
  · rw [hsplit] at ho
    cases ho
  · rw [hsplit] at ho
    refine ⟨split, rfl, ?_⟩
    dsimp only at ho
    split_ifs at ho with hnoop
    · cases ho
      exact eq_of_beq (Bool.and_eq_true_iff.mp hnoop).2
    · obtain ⟨fm₁, h₁, ho⟩ := except_bind_eq_ok.mp ho
      obtain ⟨fm₂, h₂, ho⟩ := except_bind_eq_ok.mp ho
      have hpresent : readFmField fm₂ deploymentKey ≠ none := by
        rw [canonicalizeLegacyStatus_frame h₂]
        exact setField_present isIdent_pickup.2.1 (by decide) h₁
      obtain ⟨t, rfl, hread⟩ := readsFalse_of_finish hpresent ho
      exact hread

/-- A closed record is not advertised. -/
theorem close_notAdvertised (H : Host) (reason old : Text) :
    NotAdvertised old (close H reason old) := by
  have hline : ∀ r ∈ closedReasons, '\n' ∉ r := by decide
  intro o ho
  rw [close, ite_eq_iff] at ho
  obtain ⟨hreason, ho⟩ := ho.resolve_left fun h => nomatch h.2
  rcases hsplit : splitFrontmatter old with _ | split
  · rw [hsplit] at ho
    cases ho
  · rw [hsplit] at ho
    refine ⟨split, rfl, ?_⟩
    dsimp only at ho
    split_ifs at ho with hnoop
    · cases ho
      exact eq_of_beq (Bool.and_eq_true_iff.mp hnoop).2
    all_goals
      obtain ⟨fm₁, h₁, ho⟩ := except_bind_eq_ok.mp ho
      obtain ⟨fm₂, h₂, ho⟩ := except_bind_eq_ok.mp ho
      obtain ⟨t, rfl, hread⟩ := readsFalse_of_finish
        (setField_present isIdent_pickup.2.2 (hline reason (not_not.mp hreason)) h₂) ho
      exact hread

/-- The no-op of `gate-add-blocker` is for records that are not advertised. -/
theorem gateAddBlocker_noop {H : Host} {w : Seen} {ids : List Text} {clause old : Text}
    (h : gateAddBlocker H w ids clause old = .ok .noop) :
    ∃ split d, splitFrontmatter old = some split ∧ loadDict H split.fmText = .ok d ∧
      pickupReady d = false := by
  rw [gateAddBlocker, ite_eq_iff] at h
  obtain ⟨-, h⟩ := h.resolve_left fun h => nomatch h.2
  rcases hsplit : splitFrontmatter old with _ | split
  · rw [hsplit] at h
    cases h
  · rw [hsplit] at h
    obtain ⟨d, hload, h⟩ := except_bind_eq_ok.mp h
    refine ⟨split, d, rfl, hload, ?_⟩
    dsimp only at h
    rw [ite_eq_iff] at h
    obtain ⟨-, h⟩ := h.resolve_left fun h => nomatch h.2
    split at h
    · rw [ite_eq_iff] at h
      obtain ⟨-, h⟩ := h.resolve_left fun h => nomatch h.2
      rw [ite_eq_iff] at h
      rcases h with ⟨hnoop, -⟩ | ⟨-, h⟩
      · exact hnoop.2.2.1
      · obtain ⟨fm₁, -, h⟩ := except_bind_eq_ok.mp h
        obtain ⟨fm₂, -, h⟩ := except_bind_eq_ok.mp h
        obtain ⟨fm₃, -, h⟩ := except_bind_eq_ok.mp h
        rw [ite_eq_iff] at h
        obtain ⟨-, h⟩ := h.resolve_left fun h => nomatch h.2
        obtain ⟨-, -, happ⟩ := except_map_eq_ok.mp h
        cases happ
    · cases h

/-! ### The two halves -/

/-- Over every run of the other verbs a finished record keeps its readings; what is applied is no
gated baton advertised for pickup; a record that was shipped or closed is not advertised, and
neither is one that `gate-add-blocker` leaves as it is. -/
theorem finished_and_notAdvertised (H : Host) :
    (∀ t, isTerminal (reading t deploymentKey) = true → ∀ calls : List (Seen × Call),
      (∀ c ∈ calls, c.2.finishes = false ∧ c.2.OneLineDisposition) →
        ∀ key ∈ guardedKeys, reading (calls.foldl (fileAfter H) t) key = reading t key) ∧
    (∀ w c old, Validated H old (transitionSync H w c old)) ∧
    (∀ w old, NotAdvertised old (transitionSync H w .ship old)) ∧
    (∀ w reason old, NotAdvertised old (transitionSync H w (.close reason) old)) ∧
    ∀ w ids clause old, transitionSync H w (.gateAddBlocker ids clause) old = .ok .noop →
      ∃ split d, splitFrontmatter old = some split ∧ loadDict H split.fmText = .ok d ∧
        pickupReady d = false :=
  ⟨fun t h => run_terminal H t h, transitionSync_validated H, fun _ => ship_notAdvertised H,
    fun _ reason => close_notAdvertised H (strip reason), fun _ _ _ _ => gateAddBlocker_noop⟩

/-- A loader for frontmatter on lines `key: word` and `key: 'text'`. -/
def plainLoad (fm : Text) : Option Val :=
  some (.map ((lines fm).filterMap fun l => (cutAt ": ".toList l).map fun m =>
    (.str m.1, if m.2 = trueWord then .bool true else if m.2 = falseWord then .bool false
      else .str (unquoteYamlScalar m.2))))

def plainHost : Host where
  load := plainLoad
  otherErrors := fun _ => false
  container := fun _ => []
  items := fun _ _ => []
  word := fun c => c.isAlphanum || c == '_'

def idleSeen : Seen where
  everClaimed := true
  now := "2026-09-01".toList
  governed := fun _ => false
  resolves := fun _ => true
  stillResolves := fun _ => true
  clears := fun _ => true
  stillClears := fun _ => true
  resolveLeg := fun leg _ => leg
  legReason := fun _ => none
  withAge := fun _ => []
  historicalClaim := none

/-- A shipped record that still advertises itself. -/
def shippedBaton : Text :=
  ("---\ntitle: a baton\ncreated: '2026-05-01'\nbranch: main\nstatus: open\npredecessor: none\n" ++
    "deployment_state: shipped\npickup_ready: true\n---\n").toList

/-- A claim and a disposition on a shipped record. -/
theorem finished_and_notAdvertised_shippedBaton :
    reading ([(idleSeen, Call.claim "5e551017".toList "2026-09-01".toList),
        (idleSeen, .recordDisposition "acknowledged".toList "kept".toList)].foldl
          (fileAfter plainHost) shippedBaton) deploymentKey =
      reading shippedBaton deploymentKey := by
  refine (finished_and_notAdvertised plainHost).1 shippedBaton (by decide +kernel) _ ?_
    deploymentKey (by decide)
  intro c hc
  rw [List.mem_cons, List.mem_singleton] at hc
  rcases hc with rfl | rfl
  · exact ⟨rfl, trivial⟩
  · exact ⟨rfl, ⟨by decide, by decide⟩, by decide, by decide⟩

/-- `record-disposition` leaves a shipped record advertised for pickup. -/
theorem shipped_and_advertised :
    ∃ t, transitionSync plainHost idleSeen
        (.recordDisposition "acknowledged".toList "kept".toList) shippedBaton = .ok (.applied t) ∧
      reading t deploymentKey = some shippedWord ∧ reading t pickupReadyKey = some trueWord :=
  ⟨("---\ntitle: a baton\ncreated: '2026-05-01'\nbranch: main\nstatus: open\n" ++
    "predecessor: none\ndeployment_state: shipped\nreconcile_disposition: acknowledged\n" ++
    "reconcile_disposition_reason: kept\npickup_ready: true\n---\n").toList,
    by decide +kernel, by decide +kernel, by decide +kernel⟩

end Handoff

end CoordinatorCore
