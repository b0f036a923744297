import CoordinatorCore.Claims.Protocol

/-!
# Runs of whole calls

The claim verbs of `session/claims.py`, each taken as one step on the store: claiming, refreshing
the lease, promoting and demoting, releasing. Between two calls the world may change as it likes.
File-system operations on the store succeed; what they do when they fail is in `Claims.Protocol`.

A row claim is to stay at brief stage, whose lease bounds it. `claim_artifact` sees to that, and
`promote_claim_stage` does not look at the class: the row claims stay as they are to be in exactly
the runs that promote none of them (`callStep_sound_iff`). What a call can come to is said once, in
`call_change`.
-/

namespace CoordinatorCore

open Text Machine

namespace Claims

/-! ### Requests -/

inductive Verb
  | claim
  | touch
  | promote
  | demote
  | release
  deriving DecidableEq

/-- A call with its arguments, and what it knows of itself. `hasBase` says that `_claim_base`
resolves. -/
structure Request where
  verb : Verb
  cls : Text
  basename : Text
  sid : Text
  envIds : List Text
  pid : Text
  hasBase : Bool
  stage : Text
  now : Text
  pid_ne : pid ≠ []

/-- How a call ends; releasing a path is up to another plane. -/
inductive Reply
  | raised
  | returned (b : Bool)
  | pathPlane
  deriving DecidableEq

/-- The claim dirs. -/
abbrev Store := Key → Option Dir

/-- `CLAIM_STAGE_APPLY`. -/
def applyStage : Text := ['a', 'p', 'p', 'l', 'y']

/-- `_CLASSED_CLAIM_CLASSES`. -/
def classedClaimClasses : List Text :=
  ["handoff".toList, "memo".toList, planClass, pathClass, rowClass]

/-- `name[: name.rindex('.')]`. -/
def stem (name : Text) : Text := (name.reverse.dropWhile (· ≠ '.')).tail.reverse

/-- `row_claim_key`; nothing for a `ValueError`. -/
def rowClaimKey (row : Text) : Option Text :=
  let parts := ((row.map fun c => if c = '\\' then '/' else c).splitOn '/').filter (!·.isEmpty)
  match parts.reverse with
  | name :: parent :: _ =>
    if (".yaml".toList.isSuffixOf name || ".yml".toList.isSuffixOf name) &&
        parent ≠ ".".toList && parent ≠ "..".toList then
      some (parent ++ "--".toList ++ stem name)
    else none
  | _ => none

/-- The basename under which claiming and releasing look: a row goes by its key. -/
def Request.derived (r : Request) : Option Text :=
  if r.cls = rowClass then rowClaimKey r.basename else some r.basename

/-! ### What a claim dir says -/

/-- The recorded holder. -/
def holder (d : Option Dir) : Option Text :=
  if isFile d .sessionId then some (readField d .sessionId) else none

/-- `claim_held_by_me`. -/
def Request.holds (r : Request) (d : Option Dir) : Bool :=
  if isFile d .sessionId then r.sid ≠ [] && readField d .sessionId == r.sid
  else readField d .pid == r.pid

/-- `claim_stage`. -/
def claimStage (d : Option Dir) : Text :=
  if readField d .stage = briefStage then briefStage else applyStage

/-- `brief_lease_expired`. -/
def leaseExpired (w : World) (d : Option Dir) : Bool :=
  claimStage d == briefStage && w.leaseOver (readField d .claimedAt)

/-- `claim_holder_live`. -/
def holderLive (w : World) (d : Option Dir) : Bool :=
  if isFile d .sessionId then w.sessionLive (readField d .sessionId)
  else w.pidAlive (readField d .pid)

/-- The re-entrant classes' look at an existing claim. -/
def Request.reenters (r : Request) (d : Option Dir) : Bool :=
  r.holds d || (readField d .sessionId ≠ [] && r.envIds.contains (readField d .sessionId))

/-! ### The verbs -/

/-- `_write_claim_meta`. -/
def Request.claimMeta (r : Request) (stage : Text) : Dir :=
  Table.set (Table.set (Table.set (Table.set ∅ .pid r.pid) .sessionId (strip r.sid)) .claimedAt
    (strip r.now)) .stage (strip stage)

/-- The verbs that change one file of a claim of the caller's: `write` is what they do to the
directory, nothing where they leave it, with what they return. -/
def Request.onOwn (r : Request) (write : Dir → Option Dir × Bool) (k : Key) (s : Store) :
    Store × Bool :=
  if r.sid = [] ∨ r.hasBase = false then (s, false)
  else match s k with
  | none => (s, false)
  | some d =>
    if r.holds (some d) then
      match write d with
      | (none, b) => (s, b)
      | (some d', b) => (Function.update s k (some d'), b)
    else (s, false)

/-- `touch_brief_claim`. -/
def Request.touchBriefClaim (r : Request) (k : Key) (s : Store) : Store × Bool :=
  r.onOwn (fun d => if claimStage (some d) ≠ briefStage then (none, false)
    else (some (d.set .claimedAt (strip r.now)), true)) k s

/-- `promote_claim_stage`. -/
def Request.promoteClaimStage (r : Request) (k : Key) (s : Store) : Store × Bool :=
  r.onOwn (fun d => if claimStage (some d) = applyStage then (none, true)
    else (some (d.set .stage applyStage), true)) k s

/-- `demote_claim_stage_to_brief`. -/
def Request.demoteClaimStageToBrief (r : Request) (k : Key) (s : Store) : Store × Bool :=
  r.onOwn (fun d => if claimStage (some d) = briefStage then (none, true)
    else (some (d.set .stage briefStage), true)) k s

/-- `claim_artifact`, behind the checks of its arguments. -/
def Request.claimAt (w : World) (r : Request) (stage : Text) (k : Key) (s : Store) :
    Store × Bool :=
  match s k with
  | none => (Function.update s k (some (r.claimMeta stage)), true)
  | some d =>
    if r.cls = planClass ∧ r.reenters (some d) then (s, true)
    else if r.cls = rowClass ∧ r.reenters (some d) then ((r.touchBriefClaim k s).1, true)
    else if holderLive w (some d) && !leaseExpired w (some d) then (s, false)
    else (Function.update s k (some (r.claimMeta stage)), true)

/-- `claim_artifact`. -/
def Request.claimArtifact (w : World) (r : Request) (s : Store) : Store × Reply :=
  if r.cls = pathClass then (s, .returned false)
  else match r.derived with
  | none => (s, .raised)
  | some b =>
    if r.sid = [] ∨ r.hasBase = false then (s, .returned false)
    else
      let res := r.claimAt w (if r.cls = rowClass then briefStage else r.stage) (r.cls, b) s
      (res.1, .returned res.2)

/-- `release_artifact`. -/
def Request.releaseArtifact (r : Request) (s : Store) : Store × Reply :=
  if r.cls = pathClass then (s, .pathPlane)
  else if r.cls ∉ classedClaimClasses then (s, .returned false)
  else match r.derived with
  | none => (s, .raised)
  | some b =>
    if r.hasBase = false then (s, .returned true)
    else if r.holds (s (r.cls, b)) && (s (r.cls, b)).isSome then
      (Function.update s (r.cls, b) none, .returned true)
    else (s, .returned true)

/-- One call. -/
def call (w : World) (r : Request) (s : Store) : Store × Reply :=
  if r.cls = [] ∨ r.basename = [] then (s, .raised)
  else match r.verb with
  | .claim => r.claimArtifact w s
  | .touch => ((r.touchBriefClaim (r.cls, r.basename) s).1,
      .returned (r.touchBriefClaim (r.cls, r.basename) s).2)
  | .promote => ((r.promoteClaimStage (r.cls, r.basename) s).1,
      .returned (r.promoteClaimStage (r.cls, r.basename) s).2)
  | .demote => ((r.demoteClaimStageToBrief (r.cls, r.basename) s).1,
      .returned (r.demoteClaimStageToBrief (r.cls, r.basename) s).2)
  | .release => r.releaseArtifact s

/-- A call with the world it is made in. -/
def callStep (s : Store) (c : World × Request) : Option Store := some (call c.1 c.2 s).1

/-! ### What a call may do -/

/-- A row claim is at brief stage. -/
def RowsBrief (s : Store) : Prop :=
  ∀ b d, s (rowClass, b) = some d → claimStage (some d) = briefStage

/-- The claim whose stage or time changes was and stays this caller's, or was taken over. -/
structure CallLaw (w : World) (r : Request) (s : Store) : Prop where
  /-- A claim passes from one session to another when it is taken over. -/
  holder : ∀ k a b, Claims.holder (s k) = some a → Claims.holder ((call w r s).1 k) = some b →
    b ≠ a → r.verb = .claim ∧ (w.sessionLive a = false ∨ leaseExpired w (s k) = true)
  /-- A claim that is refused changes nothing. -/
  refused : r.verb = .claim → (call w r s).2 = .returned false → (call w r s).1 = s
  /-- The stage and the time of a session's claim change by its own calls. -/
  own : ∀ k a, Claims.holder (s k) = some a → Claims.holder ((call w r s).1 k) = some a →
    (claimStage ((call w r s).1 k) ≠ claimStage (s k) ∨
      readField ((call w r s).1 k) .claimedAt ≠ readField (s k) .claimedAt) →
    strip r.sid = strip a
  /-- A claim without a session is a process's. -/
  ownPid : ∀ k d d', s k = some d → (call w r s).1 k = some d' →
    isFile (some d) .sessionId = false → isFile (some d') .sessionId = false → d' ≠ d →
    readField (some d) .pid = r.pid
  /-- A row whose lease is over goes to whoever claims it. -/
  lease : ∀ b d, s (rowClass, b) = some d → w.leaseOver (readField (some d) .claimedAt) = true →
    r.verb = .claim → r.cls = rowClass → rowClaimKey r.basename = some b → r.basename ≠ [] →
    r.sid ≠ [] → r.hasBase = true → (call w r s).2 = .returned true

/-- The call is a promotion of this claim that gets as far as looking at it. -/
def Request.Promotes (r : Request) (k : Key) : Prop :=
  r.verb = .promote ∧ k = (r.cls, r.basename) ∧ r.basename ≠ [] ∧ r.sid ≠ [] ∧ r.hasBase = true

/-- The call promotes a row claim of its session. -/
def PromotesRow (r : Request) (s : Store) : Prop :=
  r.Promotes (rowClass, r.basename) ∧ (s (rowClass, r.basename)).isSome = true ∧
    r.holds (s (rowClass, r.basename)) = true

instance (r : Request) (s : Store) : Decidable (PromotesRow r s) := by
  unfold PromotesRow Request.Promotes; infer_instance

/-! ### One call -/

/-- What one call comes to: it changes nothing, writes one file of a claim it holds, makes a claim
that is free to make, or removes one. -/
inductive Change (w : World) (r : Request) (s : Store) : Store × Reply → Prop
  | same (reply : Reply) : Change w r s (s, reply)
  | wrote (k : Key) (d : Dir) (f : File) (t : Text) (hd : s k = some d)
      (hmine : r.holds (some d) = true) (hf : f = .claimedAt ∨ f = .stage)
      (hstage : f = .stage → t = briefStage ∨ r.Promotes k) :
      Change w r s (Function.update s k (some (d.set f t)), .returned true)
  | made (k : Key) (stage : Text) (hverb : r.verb = .claim)
      (hfree : ∀ d, s k = some d → holderLive w (some d) = false ∨ leaseExpired w (some d) = true)
      (hstage : k.1 = rowClass → stage = briefStage) :
      Change w r s (Function.update s k (some (r.claimMeta stage)), .returned true)
  | dropped (k : Key) : Change w r s (Function.update s k none, .returned true)

section

variable {w : World} {r : Request} {s : Store}

/-- Of a verb on one's own claim: what `write` writes is one file. -/
theorem onOwn_change {k : Key} {write : Dir → Option Dir × Bool} {f : File} {t : Text}
    (hf : f = .claimedAt ∨ f = .stage)
    (hstage : ¬(r.sid = [] ∨ r.hasBase = false) → f = .stage → t = briefStage ∨ r.Promotes k)
    (hwrite : ∀ d d' b, write d = (some d', b) → d' = d.set f t ∧ b = true) :
    Change w r s ((r.onOwn write k s).1, .returned (r.onOwn write k s).2) := by
  rw [Request.onOwn]
  split_ifs with hno
  · exact .same _
  · cases hd : s k with
    | none => exact .same _
    | some d =>
      cases hw : write d with
      | mk d' b =>
        by_cases hmine : r.holds (some d) = true
        · cases d' with
          | none => simpa [hmine, hw] using Change.same (.returned b)
          | some d' =>
            obtain ⟨rfl, rfl⟩ := hwrite d d' b hw
            simpa [hmine, hw] using Change.wrote k d f t hd hmine hf (hstage hno)
        · simpa [hmine] using Change.same (.returned false)

/-- Touching writes the time of a claim that the session holds, or nothing. -/
theorem touchBriefClaim_change (k : Key) :
    Change w r s ((r.touchBriefClaim k s).1, .returned (r.touchBriefClaim k s).2) := by
  refine onOwn_change (f := .claimedAt) (t := strip r.now) (.inl rfl) (fun _ => nofun)
    fun d d' b h => ?_
  split_ifs at h
  · cases h
  · cases h
    exact ⟨rfl, rfl⟩

/-- A promotion writes the stage of a claim that the session holds, or nothing. -/
theorem promoteClaimStage_change (hverb : r.verb = .promote) (hname : r.basename ≠ []) :
    Change w r s ((r.promoteClaimStage (r.cls, r.basename) s).1,
      .returned (r.promoteClaimStage (r.cls, r.basename) s).2) := by
  refine onOwn_change (f := .stage) (t := applyStage) (.inr rfl) (fun hno _ => .inr ?_)
    fun d d' b h => ?_
  · exact ⟨hverb, rfl, hname, fun h => hno (.inl h), by simpa using fun h => hno (.inr h)⟩
  split_ifs at h
  · cases h
  · cases h
    exact ⟨rfl, rfl⟩

/-- A demotion writes the brief stage of a claim that the session holds, or nothing. -/
theorem demoteClaimStageToBrief_change (k : Key) :
    Change w r s ((r.demoteClaimStageToBrief k s).1,
      .returned (r.demoteClaimStageToBrief k s).2) := by
  refine onOwn_change (f := .stage) (t := briefStage) (.inr rfl) (fun _ _ => .inl rfl)
    fun d d' b h => ?_
  split_ifs at h
  · cases h
  · cases h
    exact ⟨rfl, rfl⟩

/-- A new time leaves the stage. -/
theorem claimStage_set_claimedAt (d : Dir) (t : Text) :
    claimStage (some (d.set .claimedAt t)) = claimStage (some d) := by
  have hread : readField (some (d.set .claimedAt t)) .stage = readField (some d) .stage := by
    simp [readField, Table.get_set]
  rw [claimStage, claimStage, hread]

/-- The stage a claim is made with. -/
theorem claimStage_claimMeta (stage : Text) :
    claimStage (some (r.claimMeta stage)) =
      if strip stage = briefStage then briefStage else applyStage := by
  simp [claimStage, Request.claimMeta, readField, Table.get_set]

/-- The claim is free where `claim_artifact` takes it. -/
theorem claimAt_change {stage : Text} {k : Key} (hverb : r.verb = .claim)
    (hstage : k.1 = rowClass → stage = briefStage) :
    Change w r s ((r.claimAt w stage k s).1, .returned (r.claimAt w stage k s).2) := by
  rw [Request.claimAt]
  cases hd : s k with
  | none => exact .made k stage hverb (fun d h => by rw [hd] at h; cases h) hstage
  | some d =>
    dsimp only
    split_ifs with hplan hrow hlive
    · exact .same _
    · -- The row is the caller's or a name of its environment's; only the first is refreshed.
      have htouch := touchBriefClaim_change (w := w) (r := r) (s := s) k
      generalize r.touchBriefClaim k s = res at htouch ⊢
      generalize hp : (res.1, Reply.returned res.2) = p at htouch
      cases htouch with
      | same reply => rw [(Prod.mk.inj hp).1]; exact .same _
      | wrote k d f t hd hmine hf hst =>
        rw [(Prod.mk.inj hp).1]
        exact .wrote k d f t hd hmine hf hst
      | made k stage hv hfree hst => rw [(Prod.mk.inj hp).1]; exact .made k stage hv hfree hst
      | dropped k => rw [(Prod.mk.inj hp).1]; exact .dropped k
    · exact .same _
    · refine .made k stage hverb (fun d' h => ?_) hstage
      rw [hd] at h
      cases h
      cases hl : holderLive w (some d) with
      | false => exact .inl rfl
      | true => exact .inr (by simpa [hl] using hlive)

end

/-- Every call is one of the changes. -/
theorem call_change (w : World) (r : Request) (s : Store) : Change w r s (call w r s) := by
  rw [call]
  split_ifs with hargs
  · exact .same _
  · cases hverb : r.verb with
    | claim =>
      dsimp only
      rw [Request.claimArtifact]
      cases hb : r.derived with
      | none => split_ifs <;> exact .same _
      | some b =>
        dsimp only
        split_ifs with hpath hno hrow
        · exact .same _
        · exact .same _
        · exact claimAt_change hverb fun _ => rfl
        · exact claimAt_change hverb fun h => absurd h hrow
    | touch => exact touchBriefClaim_change _
    | promote => exact promoteClaimStage_change hverb fun h => hargs (.inr h)
    | demote => exact demoteClaimStageToBrief_change _
    | release =>
      dsimp only
      rw [Request.releaseArtifact]
      cases hb : r.derived with
      | none => split_ifs <;> exact .same _
      | some b =>
        dsimp only
        split_ifs with hpath hcls hno hmine
        · exact .same _
        · exact .same _
        · exact .dropped _
        · exact .same _
        · exact .same _

/-- What one call comes to at one key. -/
inductive ChangeAt (w : World) (r : Request) (s : Store) (k : Key) : Option Dir → Prop
  | same : ChangeAt w r s k (s k)
  | wrote (d : Dir) (f : File) (t : Text) (hd : s k = some d) (hmine : r.holds (some d) = true)
      (hf : f = .claimedAt ∨ f = .stage)
      (hstage : f = .stage → t = briefStage ∨ r.Promotes k) :
      ChangeAt w r s k (some (d.set f t))
  | made (stage : Text) (hverb : r.verb = .claim)
      (hfree : ∀ d, s k = some d → holderLive w (some d) = false ∨ leaseExpired w (some d) = true)
      (hstage : k.1 = rowClass → stage = briefStage) :
      ChangeAt w r s k (some (r.claimMeta stage))
  | dropped : ChangeAt w r s k none

/-- A call changes each claim by its rules. -/
theorem call_changeAt (w : World) (r : Request) (s : Store) (k : Key) :
    ChangeAt w r s k ((call w r s).1 k) := by
  have hc := call_change w r s
  generalize call w r s = res at hc ⊢
  cases hc with
  | same reply => exact .same
  | wrote j d f t hd hmine hf hstage =>
    by_cases hk : k = j
    · subst hk
      simpa using ChangeAt.wrote d f t hd hmine hf hstage
    · simpa [hk] using ChangeAt.same
  | made j stage hverb hfree hstage =>
    by_cases hk : k = j
    · subst hk
      simpa using ChangeAt.made stage hverb hfree hstage
    · simpa [hk] using ChangeAt.same
  | dropped j =>
    by_cases hk : k = j
    · subst hk
      simpa using ChangeAt.dropped
    · simpa [hk] using ChangeAt.same

/-- Where a call promotes no row claim, the row claims stay at brief stage. -/
theorem call_rowsBrief {w : World} {r : Request} {s : Store} (hs : RowsBrief s)
    (hp : ¬PromotesRow r s) : RowsBrief (call w r s).1 := by
  intro b d hd
  have hc := call_changeAt w r s (rowClass, b)
  rw [hd] at hc
  generalize hd' : some d = d' at hc
  cases hc with
  | same => exact hd' ▸ hs b d hd'.symm
  | wrote e f t he hmine hf hstage =>
    cases hd'
    rcases hf with rfl | rfl
    · rw [claimStage_set_claimedAt]
      exact hs b e he
    · rcases hstage rfl with rfl | hpr
      · simp [claimStage, readField, Table.get_set_self]
      · -- A promotion of the caller's own row.
        obtain rfl : b = r.basename := (Prod.mk.inj hpr.2.1).2
        exact absurd ⟨hpr, by rw [he]; rfl, by rw [he]; exact hmine⟩ hp
  | made stage hverb hfree hstage =>
    cases hd'
    rw [claimStage_claimMeta, hstage rfl]
    rfl
  | dropped => cases hd'

/-- Promoting a row claim takes it from brief stage. -/
theorem not_rowsBrief_of_promotesRow {r : Request} {s : Store} (w : World) (hs : RowsBrief s)
    (hp : PromotesRow r s) : ¬RowsBrief (call w r s).1 := by
  obtain ⟨⟨hverb, hk, hname, hsid, hbase⟩, hsome, hmine⟩ := hp
  obtain ⟨d, hd⟩ := Option.isSome_iff_exists.mp hsome
  have hcls : r.cls = rowClass := (Prod.mk.inj hk).1.symm
  have hne : rowClass ≠ [] := by decide
  have hstage : claimStage (some d) ≠ applyStage := by
    rw [hs _ d hd]
    decide
  rw [hd] at hmine
  have hafter : (call w r s).1 (rowClass, r.basename) = some (d.set .stage applyStage) := by
    simp [call, hcls, hne, hname, hverb, Request.promoteClaimStage, Request.onOwn, hsid, hbase, hd,
      hmine, hstage]
  intro h
  have hbrief := h _ _ hafter
  rw [claimStage, readField, Option.bind_some, Table.get_set_self] at hbrief
  exact absurd hbrief (by decide)

/-- A claim's holder is in its session file. -/
theorem holder_eq_some {d : Dir} {a : Text} (h : holder (some d) = some a) :
    isFile (some d) .sessionId = true ∧ readField (some d) .sessionId = a := by
  rw [holder] at h
  split_ifs at h with hf
  exact ⟨hf, Option.some.inj h⟩

/-- Writing the time or the stage leaves the holder as it is. -/
theorem holder_set {d : Dir} {f : File} (t : Text) (hf : f = .claimedAt ∨ f = .stage) :
    holder (some (d.set f t)) = holder (some d) := by
  have hget : (d.set f t).get .sessionId = d.get .sessionId := by
    rcases hf with rfl | rfl <;> simp [Table.get_set]
  have hfile : isFile (some (d.set f t)) .sessionId = isFile (some d) .sessionId :=
    congrArg Option.isSome hget
  have hread : readField (some (d.set f t)) .sessionId = readField (some d) .sessionId :=
    congrArg (Option.getD · []) hget
  rw [holder, holder, hfile, hread]

/-- A claim is made for the session of the request. -/
theorem holder_claimMeta (r : Request) (stage : Text) :
    holder (some (r.claimMeta stage)) = some (strip r.sid) := by
  simp [holder, isFile, readField, Request.claimMeta, Table.get_set]

/-- Who holds a claim is its holder. -/
theorem eq_of_holds {r : Request} {d : Dir} {a : Text} (hmine : r.holds (some d) = true)
    (ha : holder (some d) = some a) : r.sid = a := by
  obtain ⟨hf, rfl⟩ := holder_eq_some ha
  simp only [Request.holds, hf, if_true, Bool.and_eq_true, beq_iff_eq] at hmine
  exact hmine.2.symm

/-- A row whose lease is over is taken, or is the caller's. -/
theorem call_lease {w : World} {r : Request} {s : Store} {b : Text} {d : Dir}
    (hd : s (rowClass, b) = some d) (hbrief : claimStage (some d) = briefStage)
    (hover : w.leaseOver (readField (some d) .claimedAt) = true) (hverb : r.verb = .claim)
    (hcls : r.cls = rowClass) (hkey : rowClaimKey r.basename = some b) (hname : r.basename ≠ [])
    (hsid : r.sid ≠ []) (hbase : r.hasBase = true) : (call w r s).2 = .returned true := by
  have hexp : leaseExpired w (some d) = true := by
    rw [leaseExpired, hbrief, hover]
    rfl
  have hplan : rowClass ≠ planClass := by decide
  have hpath : rowClass ≠ pathClass := by decide
  have hne : rowClass ≠ [] := by decide
  simp only [call, hcls, hne, hname, or_self, if_false, hverb, Request.claimArtifact, hpath,
    Request.derived, if_true, hkey, hsid, hbase, Bool.true_eq_false, Request.claimAt, hd, hplan,
    false_and, true_and, hexp, Bool.not_true, Bool.and_false, Bool.false_eq_true]
  split_ifs <;> rfl

/-- Every call keeps the law of the claims while the row claims are at brief stage. -/
theorem call_law {s : Store} (hs : RowsBrief s) (w : World) (r : Request) : CallLaw w r s where
  holder k a b ha hb hne := by
    have hc := call_changeAt w r s k
    generalize (call w r s).1 k = d' at hb hc
    cases hc with
    | same => exact absurd (Option.some.inj (hb.symm.trans ha)) hne
    | wrote d f t hd hmine hf hstage =>
      rw [holder_set t hf, ← hd, ha] at hb
      exact absurd (Option.some.inj hb).symm hne
    -- only a claim on a free or dead key changes the holder
    | made stage hverb hfree hstage =>
      refine ⟨hverb, ?_⟩
      cases hd : s k with
      | none =>
        rw [hd] at ha
        cases ha
      | some d =>
        rw [hd] at ha
        obtain ⟨hf, rfl⟩ := holder_eq_some ha
        refine (hfree d hd).imp_left fun h => ?_
        rwa [holderLive, if_pos hf] at h
    | dropped => cases hb
  refused hverb hr := by
    have hc := call_change w r s
    generalize call w r s = res at hr hc ⊢
    cases hc with
    | same reply => rfl
    | wrote => cases hr
    | made => cases hr
    | dropped => cases hr
  own k a ha hb hch := by
    have hc := call_changeAt w r s k
    generalize (call w r s).1 k = d' at hb hch hc
    cases hc with
    | same => exact absurd hch (by simp)
    | wrote d f t hd hmine hf hstage => rw [eq_of_holds hmine (hd ▸ ha)]
    | made stage hverb hfree hstage =>
      rw [holder_claimMeta] at hb
      rw [← Option.some.inj hb, strip_idem]
    | dropped => cases hb
  ownPid k d d' hd hd' hno hno' hne := by
    have hc := call_changeAt w r s k
    rw [hd'] at hc
    generalize he : some d' = e at hc
    cases hc with
    | same => exact absurd (Option.some.inj (he.trans hd)) hne
    | wrote d₀ f t hd₀ hmine hf hstage =>
      obtain rfl : d₀ = d := Option.some.inj (hd₀.symm.trans hd)
      simpa [Request.holds, hno] using hmine
    | made stage hverb hfree hstage =>
      have := holder_claimMeta r stage
      rw [← he, holder, hno'] at this
      cases this
    | dropped => cases he
  lease b d hd hover hverb hcls hkey hname hsid hbase :=
    call_lease hd (hs b d hd) hover hverb hcls hkey hname hsid hbase

/-- The row claims stay at brief stage, and each call keeps the law of the claims, in exactly the
runs that promote no row claim. -/
theorem callStep_sound_iff {s : Store} (hs : RowsBrief s) (calls : List (World × Request)) :
    Always callStep RowsBrief s calls ∧ Along callStep (fun s c => CallLaw c.1 c.2 s) s calls ↔
      Along callStep (fun s c => ¬PromotesRow c.2 s) s calls := by
  constructor
  · rintro ⟨hall, -⟩
    induction calls generalizing s with
    | nil => trivial
    | cons c calls ih =>
      have hnext := hall.2 _ rfl
      refine ⟨fun hp => not_rowsBrief_of_promotesRow c.1 hs hp hnext.start, fun s' h => ?_⟩
      cases h
      exact ih hnext.start hnext
  · intro hp
    induction calls generalizing s with
    | nil => exact ⟨hs, trivial⟩
    | cons c calls ih =>
      obtain ⟨hall, hlaw⟩ := ih (call_rowsBrief hs hp.1) (hp.2 _ rfl)
      refine ⟨⟨hs, fun s' h => ?_⟩, call_law hs c.1 c.2, fun s' h => ?_⟩
      · cases h
        exact hall
      · cases h
        exact hlaw

/-! ### A promoted row -/

/-- Everybody is live, and a claim of `"1"` is past its lease. -/
def lateWorld : World where
  sessionLive sid := sid ≠ []
  pidAlive _ := false
  leaseOver t := t == ['1']
  no_session := rfl
  no_pid := rfl

/-- A call of session `sid` about a row. -/
def rowRequest (verb : Verb) (sid basename : Text) (now : Text) : Request where
  verb := verb
  cls := rowClass
  basename := basename
  sid := sid
  envIds := [sid]
  pid := ['7']
  hasBase := true
  stage := applyStage
  now := now
  pid_ne := nofun

def rowPath : Text := "state/q/x.yaml".toList

/-- A row is claimed, taken over behind its lease, refreshed, and released. -/
def leasedRun : List (World × Request) :=
  [(lateWorld, rowRequest .claim ['a'] rowPath ['1']),
    (lateWorld, rowRequest .claim ['b'] rowPath ['2']),
    (lateWorld, rowRequest .touch ['b'] "q--x".toList ['3']),
    (lateWorld, rowRequest .release ['b'] rowPath ['4'])]

theorem callStep_sound_leasedRun :
    Always callStep RowsBrief (fun _ => none) leasedRun ∧
      Along callStep (fun s c => CallLaw c.1 c.2 s) (fun _ => none) leasedRun :=
  (callStep_sound_iff (by rintro b d ⟨⟩) leasedRun).mpr (by decide)

/-- A row claimed, and promoted under its key. -/
def promotedRow : Store :=
  (call lateWorld (rowRequest .promote ['a'] "q--x".toList ['1'])
    (call lateWorld (rowRequest .claim ['a'] rowPath ['1']) fun _ => none).1).1

/-- Its session keeps a promoted row past the lease: nobody else gets it. -/
theorem promotedRow_kept :
    claimStage (promotedRow (rowClass, "q--x".toList)) = applyStage ∧
      ¬(Always callStep RowsBrief (fun _ => none)
        [(lateWorld, rowRequest .claim ['a'] rowPath ['1']),
          (lateWorld, rowRequest .promote ['a'] "q--x".toList ['1'])]) ∧
      lateWorld.leaseOver (readField (promotedRow (rowClass, "q--x".toList)) .claimedAt) = true ∧
      call lateWorld (rowRequest .claim ['b'] rowPath ['2']) promotedRow =
        (promotedRow, .returned false) := by
  have hstage : claimStage (promotedRow (rowClass, "q--x".toList)) = applyStage := by
    decide
  refine ⟨hstage, fun h => ?_, by decide, rfl⟩
  have hbrief : RowsBrief promotedRow := (h.2 _ rfl).2 _ rfl
  have hsome : (promotedRow (rowClass, "q--x".toList)).isSome = true := by decide
  obtain ⟨d, hd⟩ := Option.isSome_iff_exists.mp hsome
  rw [hd, hbrief _ d hd] at hstage
  exact absurd hstage (by decide)

end Claims

end CoordinatorCore
