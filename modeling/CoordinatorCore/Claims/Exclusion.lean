import CoordinatorCore.Claims.Protocol
import Mathlib.Data.Fintype.Basic

/-!
# Who holds a claim

Any number of sessions claim one handoff. A takeover looks at the holder, removes the directory and
makes it anew, and each of these is a step of its own; a fresh directory names nobody yet. In a run
where no directory is made under a takeover, and none is looked at before it names its holder, one
call at most returns `True`, and the directory stays recorded for it (`claim_exclusive`). Otherwise
two calls may win (`both_claim`).
-/

namespace CoordinatorCore

open Text Machine

namespace Claims

/-! ### Where a call stands -/

namespace Pc

/-- The call made the directory: it writes into it, or has returned `True`. -/
def owner : Pc → Bool
  | .writePid | .writeSid | .writeAt | .writeStage | .returned true => true
  | _ => false

/-- The call made the directory and has not written its session id. -/
def unnamed : Pc → Bool
  | .writePid | .writeSid => true
  | _ => false

/-- The call is between its look at a holder and the end of its removal. -/
def taking : Pc → Bool
  | .holderSid _ | .holderPid _ | .judgeSid .. | .judgePid .. | .list | .unlink _ | .rmdir => true
  | _ => false

/-- Where a claim on a handoff can stand while no lease expires. -/
def plain : Pc → Bool
  | .mkdir | .heldPid | .heldSid | .leaseStage | .leaseAt | .look false | .holderSid false
  | .holderPid false | .judgeSid false _ | .judgePid false _ | .list | .unlink _ | .rmdir
  | .remkdir | .writePid | .writeSid | .writeAt | .writeStage | .returned _ | .raised => true
  | _ => false

/-- Where a call stands that does not disturb the holder `sid`, who may have written its name or
not. -/
def waits (sid : Text) (named : Bool) : Pc → Bool
  | .holderSid _ => named
  | .judgeSid _ t => t == sid
  | .holderPid _ | .judgePid .. | .list | .unlink _ | .rmdir => false
  | pc => !pc.owner

end Pc

/-! ### Steps of one call -/

def handoffClass : Text := ['h', 'a', 'n', 'd', 'o', 'f', 'f']

section

variable {w : World} {c : Call} {d : Option Dir} {pc : Pc}

/-- A claim on a handoff takes none of the steps of the re-entrant classes. -/
theorem advance_plain (hop : c.op = .claim) (hcls : c.cls = handoffClass)
    (hlease : ∀ t, w.leaseOver t = false) (h : pc.plain = true) :
    (advance w c d pc).2.plain = true := by
  have hplan : c.cls ≠ planClass ∧ c.cls ≠ rowClass := by
    rw [hcls]
    decide
  cases pc with
  | unlink files => cases files <;> rfl
  | mkdir | remkdir | leaseStage =>
    rw [advance]
    split_ifs <;> rfl
  | heldPid | leaseAt | list => simp [advance, hlease, Pc.plain]
  | heldSid => simp [advance, Call.inspect, hplan, Pc.plain]
  | writePid | writeSid | writeAt | writeStage =>
    rw [advance, writeInto]
    split_ifs <;> rfl
  | look lease =>
    cases lease with
    | true => cases h
    | false =>
      rw [advance]
      split_ifs <;> rfl
  | holderSid lease | holderPid lease =>
    cases lease with
    | true => cases h
    | false => rfl
  | judgeSid lease t | judgePid lease t =>
    cases lease with
    | true => cases h
    | false =>
      rw [advance, refuseOrTake]
      split_ifs <;> rfl
  | rmdir => simp [advance, Call.cleared, hop, Pc.plain]
  | returned _ | raised => exact h
  | _ => cases h

/-- A refused claim is no holder. -/
theorem refuse_plain {pc' : Pc} (hop : c.op = .claim) (h : pc.plain = true)
    (hpc : refuse c pc = some pc') : pc'.plain = true ∧ pc'.owner = false := by
  cases pc with
  | unlink files =>
    cases files <;> cases hpc
    exact ⟨rfl, rfl⟩
  | rmdir =>
    cases hpc
    rw [Call.cleared, hop]
    exact ⟨rfl, rfl⟩
  | touchWrite => cases h
  | _ => first | (cases hpc; exact ⟨rfl, rfl⟩) | cases hpc

theorem refuse_waits {sid : Text} {named : Bool} {pc' : Pc} (hplain : pc.plain = true)
    (h : pc.waits sid named = true) (hpc : refuse c pc = some pc') :
    pc'.waits sid named = true := by
  cases pc with
  | mkdir | remkdir =>
    cases hpc
    rfl
  | touchWrite => cases hplain
  | writePid | writeSid | writeAt | writeStage | list | unlink _ | rmdir => cases h
  | _ => cases hpc

/-- A call that waits leaves the directory of the holder alone and goes on waiting. -/
theorem advance_waits {sid : Text} {named : Bool} {dir : Dir} (hcls : c.cls = handoffClass)
    (hlive : w.sessionLive sid = true)
    (hplain : pc.plain = true) (hsid : named = true → dir.get .sessionId = some sid)
    (hlook : pc = .look false → named = true) (h : pc.waits sid named = true) :
    (advance w c (some dir) pc).1 = .none ∧
      (advance w c (some dir) pc).2.waits sid named = true := by
  have hplan : c.cls ≠ planClass ∧ c.cls ≠ rowClass := by
    rw [hcls]
    decide
  cases pc with
  | mkdir =>
    rw [advance]
    split_ifs with h₁ h₂
    · exact ⟨rfl, rfl⟩
    · exact ⟨rfl, rfl⟩
    · exact absurd rfl h₂
  | heldSid => simp [advance, Call.inspect, hplan, Pc.waits, Pc.owner]
  | leaseStage =>
    refine ⟨rfl, ?_⟩
    rw [advance]
    split_ifs <;> rfl
  | look lease =>
    cases lease with
    | true => cases hplain
    | false =>
      obtain rfl : named = true := hlook rfl
      simp [advance, isFile, hsid rfl, Pc.waits]
  | holderSid lease =>
    obtain rfl : named = true := h
    simp [advance, readField, hsid rfl, Pc.waits]
  | judgeSid lease t =>
    cases lease with
    | true => cases hplain
    | false =>
      obtain rfl : t = sid := beq_iff_eq.mp h
      simp [advance, refuseOrTake, hlive, Pc.waits, Pc.owner]
  | heldPid | leaseAt | remkdir | raised => exact ⟨rfl, rfl⟩
  | returned claimed => exact ⟨rfl, h⟩
  | holderPid _ | judgePid _ _ | list | unlink _ | rmdir => cases h
  | writePid | writeSid | writeAt | writeStage => cases h
  | _ => cases hplain

/-- The holder goes on to write into its directory, its name before all that comes behind. -/
theorem advance_owner {dir : Dir} (hfin : pc.finished = false) (h : pc.owner = true)
    (hsid : pc.unnamed = false → dir.get .sessionId = some c.sid) :
    ∃ dir', (advance w c (some dir) pc).1.apply (some dir) = some dir' ∧
      (advance w c (some dir) pc).2.owner = true ∧
      ((advance w c (some dir) pc).2.unnamed = false → dir'.get .sessionId = some c.sid) ∧
      (pc.unnamed = false → (advance w c (some dir) pc).2.unnamed = false) := by
  cases pc with
  | writePid => exact ⟨_, rfl, rfl, nofun, nofun⟩
  | writeSid => exact ⟨_, rfl, rfl, fun _ => Table.get_set_self .., nofun⟩
  | writeAt =>
    refine ⟨_, rfl, rfl, fun _ => ?_, fun _ => rfl⟩
    rw [Table.get_set, if_neg (by decide)]
    exact hsid rfl
  | writeStage =>
    refine ⟨_, rfl, rfl, fun _ => ?_, fun _ => rfl⟩
    rw [Table.get_set, if_neg (by decide)]
    exact hsid rfl
  | returned _ => cases hfin
  | _ => cases h

/-- A call becomes the holder by making the directory. -/
theorem advance_new_owner (hop : c.op = .claim) (hplain : pc.plain = true)
    (hpc : pc.owner = false) (h : (advance w c d pc).2.owner = true) :
    d = none ∧ (advance w c d pc).1 = .create ∧ (advance w c d pc).2 = .writePid := by
  cases pc with
  | mkdir =>
    rw [advance] at h ⊢
    split_ifs at h ⊢ with h₁ h₂
    · cases h
    · cases h
    · exact ⟨by simpa using h₂, rfl, rfl⟩
  | remkdir =>
    rw [advance] at h ⊢
    split_ifs at h ⊢ with h₁
    · cases h
    · exact ⟨by simpa using h₁, rfl, rfl⟩
  | heldSid =>
    rw [advance, Call.inspect] at h
    split_ifs at h <;> cases h
  | leaseStage | look _ =>
    rw [advance] at h
    split_ifs at h <;> cases h
  | judgeSid _ _ | judgePid _ _ =>
    rw [advance, refuseOrTake] at h
    split_ifs at h <;> cases h
  | rmdir =>
    rw [advance, Call.cleared, hop] at h
    cases h
  | unlink files => cases files <;> cases h
  | returned claimed =>
    exact absurd (hpc.symm.trans h) (by decide)
  | writePid | writeSid | writeAt | writeStage => cases hpc
  | heldPid | leaseAt | holderSid _ | holderPid _ | list | raised => cases h
  | _ => cases hplain

/-- A call that is neither the holder nor taking over waits. -/
theorem waits_of_plain {sid : Text} (h : pc.plain = true) (hown : pc.owner = false)
    (htaking : pc.taking = false) : pc.waits sid false = true := by
  cases pc with
  | holderSid _ | holderPid _ | judgeSid _ _ | judgePid _ _ | list | unlink _ | rmdir =>
    cases htaking
  | returned claimed => simp [Pc.waits, hown]
  | writePid | writeSid | writeAt | writeStage => cases hown
  | _ => rfl

theorem not_owner_of_waits {sid : Text} {named : Bool} (h : pc.waits sid named = true) :
    pc.owner = false := by
  cases pc with
  | returned claimed => simpa [Pc.waits] using h
  | writePid | writeSid | writeAt | writeStage => cases h
  | _ => rfl

/-- Who waits for a name may go on when it is written. -/
theorem waits_named {sid : Text} {named : Bool} (h : pc.waits sid false = true) :
    pc.waits sid named = true := by
  cases pc with
  | holderSid _ => cases h
  | _ => exact h

end

/-! ### Runs -/

variable {ι : Type*} [DecidableEq ι] (calls : ι → Call)

/-- The sessions of the calls are live, and no lease has expired. -/
structure World.Calm (w : World) : Prop where
  live : ∀ i, w.sessionLive (calls i).sid = true
  lease : ∀ t, w.leaseOver t = false

/-- The calls claim this handoff. -/
structure Contest (b : Text) : Prop where
  op : ∀ i, (calls i).op = .claim
  cls : ∀ i, (calls i).cls = handoffClass
  basename : ∀ i, (calls i).basename = b

/-- The world stays calm. -/
def StaysCalm : Action ι → Prop
  | .world w => w.Calm calls
  | _ => True

/-- No directory is made under a call that is taking over, and none is looked at before it names its
holder. -/
def Undisturbed (s : State ι) : Action ι → Prop
  | .step i =>
    ((s.next calls i).1 = .create →
      ∀ j, j ≠ i → (calls j).key = (calls i).key → (s.pc j).taking = false) ∧
    (s.pc i = .look false → ∀ j, (calls j).key = (calls i).key → (s.pc j).unnamed = false)
  | _ => True

instance [Fintype ι] (s : State ι) (a : Action ι) : Decidable (Undisturbed calls s a) :=
  match a with
  | .step _ => inferInstanceAs (Decidable (_ ∧ _))
  | .refused _ | .world _ => inferInstanceAs (Decidable True)

/-- There is one holder, whose directory is in place; the others wait. -/
structure Exclusive (b : Text) (s : State ι) : Prop where
  calm : s.world.Calm calls
  plain : ∀ i, (s.pc i).plain = true
  holder : ∀ i, (s.pc i).owner = true → ∃ d, s.dirs (handoffClass, b) = some d ∧
    ((s.pc i).unnamed = false → d.get .sessionId = some (calls i).sid) ∧
    ∀ j, j ≠ i → (s.pc j).waits (calls i).sid (!(s.pc i).unnamed) = true

variable {calls}

section

variable {b : Text} {s s' : State ι}

omit [DecidableEq ι] in
theorem Contest.key (h : Contest calls b) (i : ι) : (calls i).key = (handoffClass, b) := by
  rw [Call.key, h.cls, h.basename]

/-- A step of a call keeps one holder. -/
theorem exclusive_step (hc : Contest calls b) (h : Exclusive calls b s) {i : ι}
    (hu : Undisturbed calls s (.step i)) (hstep : step calls s (.step i) = some s') :
    Exclusive calls b s' := by
  rw [step] at hstep
  split_ifs at hstep with hfin
  obtain rfl := Option.some.inj hstep
  have hnext : s.next calls i = advance s.world (calls i) (s.dirs (handoffClass, b)) (s.pc i) := by
    rw [State.next, hc.key]
  refine ⟨h.calm, fun j => ?_, fun j hj => ?_⟩
  · by_cases hji : j = i
    · subst hji
      simp only [Function.update_self, hnext]
      exact advance_plain (hc.op j) (hc.cls j) h.calm.lease (h.plain j)
    · simp only [Function.update_of_ne hji]
      exact h.plain j
  · simp only [hc.key, Function.update_self]
    by_cases hji : j = i
    · subst hji
      simp only [Function.update_self] at hj ⊢
      by_cases hown : (s.pc j).owner = true
      · -- the holder writes on
        obtain ⟨d, hd, hsid, hwaits⟩ := h.holder j hown
        rw [hnext, hd] at hj ⊢
        obtain ⟨d', hd', hown', hsid', hnamed⟩ :=
          advance_owner (by simpa using hfin) hown hsid
        refine ⟨d', hd', hsid', fun k hk => ?_⟩
        rw [Function.update_of_ne hk]
        have hk' := hwaits k hk
        cases hun : (s.pc j).unnamed with
        | true =>
          rw [hun] at hk'
          exact waits_named hk'
        | false =>
          rw [hun] at hk'
          rw [hnamed hun]
          exact hk'
      · -- a new holder
        rw [hnext] at hj
        obtain ⟨hd, he, hpc⟩ :=
          advance_new_owner (hc.op j) (h.plain j) (by simpa using hown) hj
        refine ⟨∅, ?_, ?_, fun k hk => ?_⟩
        · rw [hnext, he, hd]
          rfl
        · rw [hnext, hpc]
          intro hsid
          cases hsid
        · rw [Function.update_of_ne hk, hnext, hpc]
          refine waits_of_plain (h.plain k) ?_ (hu.1 (by rw [hnext, he]) k hk ?_)
          · by_contra hown'
            obtain ⟨d, hd', -⟩ := h.holder k (by simpa using hown')
            rw [hd] at hd'
            cases hd'
          · rw [hc.key, hc.key]
    · -- another call than the holder
      simp only [Function.update_of_ne hji] at hj ⊢
      obtain ⟨d, hd, hsid, hwaits⟩ := h.holder j hj
      have hlook : s.pc i = .look false → (!(s.pc j).unnamed) = true := fun hl => by
        rw [hu.2 hl j (by rw [hc.key, hc.key])]
        rfl
      obtain ⟨he, hpc⟩ := advance_waits (hc.cls i) (h.calm.live j) (h.plain i)
        (fun hn => hsid (by simpa using hn)) hlook (hwaits i (Ne.symm hji))
      refine ⟨d, ?_, hsid, fun k hk => ?_⟩
      · rw [hnext, hd, he]
        rfl
      · by_cases hki : k = i
        · subst hki
          rw [Function.update_self, hnext, hd]
          exact hpc
        · rw [Function.update_of_ne hki]
          exact hwaits k hk

/-- So does every action. -/
theorem exclusive_action (hc : Contest calls b) (h : Exclusive calls b s) {a : Action ι}
    (hu : Undisturbed calls s a) (hcalm : StaysCalm calls a) (hstep : step calls s a = some s') :
    Exclusive calls b s' := by
  cases a with
  | step i => exact exclusive_step hc h hu hstep
  | world w =>
    obtain rfl := Option.some.inj hstep
    exact ⟨hcalm, h.plain, h.holder⟩
  | refused i =>
    obtain ⟨pc, hpc, rfl⟩ := Option.map_eq_some_iff.mp hstep
    obtain ⟨hplain, hown⟩ := refuse_plain (hc.op i) (h.plain i) hpc
    refine ⟨h.calm, fun j => ?_, fun j hj => ?_⟩
    · by_cases hji : j = i
      · subst hji
        simpa using hplain
      · simp only [Function.update_of_ne hji]
        exact h.plain j
    · have hji : j ≠ i := by
        rintro rfl
        simp [hown] at hj
      simp only [Function.update_of_ne hji] at hj ⊢
      obtain ⟨d, hd, hsid, hwaits⟩ := h.holder j hj
      refine ⟨d, hd, hsid, fun k hk => ?_⟩
      by_cases hki : k = i
      · subst hki
        rw [Function.update_self]
        exact refuse_waits (h.plain k) (hwaits k hk) hpc
      · rw [Function.update_of_ne hki]
        exact hwaits k hk

omit [DecidableEq ι] in
theorem exclusive_start (hstart : ∀ i, s.pc i = .mkdir) (hcalm : s.world.Calm calls) :
    Exclusive calls b s := by
  refine ⟨hcalm, fun i => ?_, fun i hi => ?_⟩
  · rw [hstart]
    rfl
  · rw [hstart] at hi
    cases hi

/-- In an undisturbed run one call at most returns `True`, and its directory stays in place and
stays recorded for it. -/
theorem claim_exclusive (hc : Contest calls b) (hstart : ∀ i, s.pc i = .mkdir)
    (hcalm : s.world.Calm calls) {as : List (Action ι)} (hstays : ∀ a ∈ as, StaysCalm calls a)
    (hu : Along (step calls) (Undisturbed calls) s as) (hrun : run (step calls) s as = some s') :
    (∀ i j, s'.pc i = .returned true → s'.pc j = .returned true → i = j) ∧
      ∀ i, s'.pc i = .returned true →
        ∃ d, s'.dirs (handoffClass, b) = some d ∧ d.get .sessionId = some (calls i).sid := by
  have h : Exclusive calls b s' :=
    run_invariant_along (fun _ _ _ ha h hs => exclusive_action hc h ha.1 ha.2 hs)
      (hu.and_forall hstays) (exclusive_start hstart hcalm) hrun
  refine ⟨fun i j hi hj => ?_, fun i hi => ?_⟩
  · by_contra hne
    obtain ⟨-, -, -, hwaits⟩ := h.holder i (by rw [hi]; rfl)
    have hj' := not_owner_of_waits (hwaits j (Ne.symm hne))
    rw [hj] at hj'
    cases hj'
  · obtain ⟨d, hd, hsid, -⟩ := h.holder i (by rw [hi]; rfl)
    exact ⟨d, hd, hsid (by rw [hi]; rfl)⟩

end

/-! ### Two sessions after a dead one -/

/-- Session `d` is dead, `a` and `b` are live. -/
def afterCrash : World where
  sessionLive sid := sid = ['a'] || sid = ['b']
  pidAlive _ := false
  leaseOver _ := false
  no_session := rfl
  no_pid := rfl

/-- The handoff `h` is claimed by `a` and by `b`. -/
def rivals (i : Fin 2) : Call where
  op := .claim
  cls := handoffClass
  basename := ['h']
  sid := if i = 0 then ['a'] else ['b']
  envIds := []
  pid := if i = 0 then ['1'] else ['2']
  stage := ['a', 'p', 'p', 'l', 'y']
  now := ['t']
  pid_ne := pid_ne_of_two i

/-- The claim that session `d` left. -/
def leftClaim : Dir :=
  Table.ofPairs [(.pid, ['9']), (.sessionId, ['d']), (.claimedAt, ['s']),
    (.stage, ['a', 'p', 'p', 'l', 'y'])]

/-- Both sessions find it. -/
def crashed : State (Fin 2) where
  world := afterCrash
  dirs k := if k = (handoffClass, ['h']) then some leftClaim else none
  pc _ := .mkdir

/-- One call takes so many steps. -/
def steps (i : Fin 2) (n : Nat) : List (Action (Fin 2)) := List.replicate n (.step i)

theorem contest_rivals : Contest rivals ['h'] := ⟨fun _ => rfl, fun _ => rfl, fun _ => rfl⟩

theorem calm_afterCrash : afterCrash.Calm rivals := ⟨by decide, fun _ => rfl⟩

/-- One session takes over, then the other is refused. -/
theorem claim_exclusive_rivals :
    ∃ s', run (step rivals) crashed (steps 0 19 ++ steps 1 7) = some s' ∧
      s'.pc 0 = .returned true ∧ s'.pc 1 = .returned false ∧
      (∀ i j, s'.pc i = .returned true → s'.pc j = .returned true → i = j) ∧
      ∀ i, s'.pc i = .returned true →
        ∃ d, s'.dirs (handoffClass, ['h']) = some d ∧ d.get .sessionId = some (rivals i).sid := by
  have hrun : ∃ s', run (step rivals) crashed (steps 0 19 ++ steps 1 7) = some s' ∧
      s'.pc 0 = .returned true ∧ s'.pc 1 = .returned false := ⟨_, rfl, rfl, rfl⟩
  have hstays : ∀ a ∈ steps 0 19 ++ steps 1 7, StaysCalm rivals a := fun a ha => by
    rcases List.mem_append.mp ha with h | h
    all_goals
      rw [List.eq_of_mem_replicate h]
      trivial
  obtain ⟨s', hrun, h₀, h₁⟩ := hrun
  exact ⟨s', hrun, h₀, h₁, claim_exclusive contest_rivals (fun _ => rfl) calm_afterCrash hstays
    (by decide) hrun⟩

/-- Both sessions find the holder dead; one takes over, and the other removes its claim. -/
theorem both_claim :
    Contest rivals ['h'] ∧ crashed.world.Calm rivals ∧ (∀ i, crashed.pc i = .mkdir) ∧
    ∃ s', run (step rivals) crashed (steps 0 7 ++ steps 1 7 ++ steps 0 12 ++ steps 1 12) = some s' ∧
      s'.pc 0 = .returned true ∧ s'.pc 1 = .returned true :=
  ⟨contest_rivals, calm_afterCrash, fun _ => rfl, _, rfl, rfl, rfl⟩

end Claims

end CoordinatorCore
