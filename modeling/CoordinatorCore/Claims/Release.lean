import CoordinatorCore.Claims.Protocol

/-!
# What a release removes

A release reads twice whether the claim is its own, and then removes the directory by its path. As
long as no other call changes the directory between the second look and the end of the removal, it
removes nothing but the directory that was recorded for it (`release_sound`). A takeover in between
is removed with it (`release_removes_takeover`).
-/

namespace CoordinatorCore

open Text Machine

namespace Claims

/-- `claim_held_by_me`: the dir names the session, or names none and the process. -/
def RecordedFor (c : Call) (d : Dir) : Prop :=
  match d.get .sessionId with
  | some t => c.sid ≠ [] ∧ t = c.sid
  | none => d.get .pid = some c.pid

namespace Pc

/-- The call is between its second look and the end of its removal. -/
def settled : Pc → Bool
  | .secondSid | .secondPid | .list | .unlink _ | .rmdir => true
  | _ => false

/-- The release has not begun to remove anything. -/
def before : Pc → Bool
  | .isDir | .firstLook | .firstSid | .firstPid | .secondLook | .secondSid | .secondPid | .list
  | .outcome .alreadyAbsent | .outcome .heldByAnother => true
  | _ => false

/-- The call is removing the directory. -/
def removing : Pc → Bool
  | .list | .unlink _ | .rmdir => true
  | _ => false

end Pc

/-! ### Steps of a release -/

/-- What a release has made sure of where it stands. -/
def Assured (c : Call) (d : Option Dir) : Pc → Prop
  | .isDir | .firstLook | .firstSid | .firstPid | .secondLook | .secondSid | .outcome _ => True
  | .secondPid => isFile d .sessionId = false
  | .list => ∃ d', d = some d' ∧ RecordedFor c d'
  | .unlink _ | .rmdir => ∀ d', d = some d' → ∀ t, d'.get .sessionId = some t → t = c.sid
  | _ => False

/-- A release that removes has only a part of this directory left to remove. -/
def Leftover (whole : Dir) (d : Option Dir) : Pc → Prop
  | .list | .unlink _ | .rmdir =>
    ∀ d', d = some d' → ∀ f t, d'.get f = some t → whole.get f = some t
  | .outcome _ => True
  | _ => False

section

variable {w : World} {c : Call} {d : Option Dir} {pc pc' : Pc}

/-- A field that reads as something is a file. -/
theorem get_of_readField {f : File} (h : readField d f ≠ []) :
    ∃ d', d = some d' ∧ d'.get f = some (readField d f) := by
  cases d with
  | none => exact absurd rfl h
  | some d =>
    refine ⟨d, rfl, ?_⟩
    simp only [readField, Option.bind_some] at h ⊢
    cases hf : d.get f with
    | none => simp [hf] at h
    | some t => rfl

/-- A session owns what is claimed in its name. -/
theorem owns_iff {t : Text} : c.owns t = true ↔ c.sid ≠ [] ∧ t = c.sid := by
  simp [Call.owns]

/-- A release makes sure of its claim before it removes anything. -/
theorem assured_advance (hop : c.op = .release) (h : Assured c d pc) :
    Assured c ((advance w c d pc).1.apply d) (advance w c d pc).2 := by
  cases pc with
  | isDir | firstLook | firstSid | firstPid =>
    rw [advance]
    split_ifs <;> trivial
  | secondLook =>
    rw [advance]
    split_ifs with hf
    · trivial
    · change isFile d .sessionId = false
      simpa using hf
  -- behind the second look the directory is the caller's own
  | secondSid =>
    rw [advance]
    split_ifs with hown
    · obtain ⟨hne, heq⟩ := owns_iff.mp hown
      obtain ⟨d, rfl, hget⟩ := get_of_readField (by rw [heq]; exact hne)
      refine ⟨d, rfl, ?_⟩
      rw [RecordedFor, hget]
      exact ⟨hne, heq⟩
    · trivial
  | secondPid =>
    rw [advance]
    split_ifs with hpid
    · have heq := beq_iff_eq.mp hpid
      obtain ⟨d, rfl, hget⟩ := get_of_readField (by rw [heq]; exact c.pid_ne)
      refine ⟨d, rfl, ?_⟩
      have hnone : d.get .sessionId = none := by simpa [Assured, isFile] using h
      rw [RecordedFor, hnone]
      exact heq ▸ hget
    · trivial
  | list =>
    obtain ⟨d, rfl, hrec⟩ := h
    rintro _ ⟨⟩ t ht
    rw [RecordedFor, ht] at hrec
    exact hrec.2
  | unlink files =>
    cases files with
    | nil => exact h
    | cons f files =>
      rintro d' hd' t ht
      obtain ⟨d, rfl, rfl⟩ := Option.map_eq_some_iff.mp hd'
      rw [Table.get_erase] at ht
      split_ifs at ht
      exact h d rfl t ht
  | rmdir =>
    rw [advance, Call.cleared, hop]
    trivial
  | outcome o => trivial
  | _ => cases h

/-- A refusal keeps what a release is assured of. -/
theorem assured_refuse (hop : c.op = .release) (h : Assured c d pc)
    (hpc : refuse c pc = some pc') : Assured c d pc' := by
  cases pc with
  | list =>
    cases hpc
    obtain ⟨d, rfl, hrec⟩ := h
    rintro _ ⟨⟩ t ht
    rw [RecordedFor, ht] at hrec
    exact hrec.2
  | unlink files =>
    cases files with
    | nil => cases hpc
    | cons f files =>
      cases hpc
      exact h
  | rmdir =>
    cases hpc
    rw [Call.cleared, hop]
    trivial
  | isDir | firstLook | firstSid | firstPid | secondLook | secondSid | secondPid | outcome _ =>
    cases hpc
  | _ => cases h

/-- What a call that has not settled is assured of does not depend on the directory. -/
theorem assured_free {d' : Option Dir} (hpc : pc.settled = false) (h : Assured c d pc) :
    Assured c d' pc := by
  cases pc with
  | secondPid | list | unlink _ | rmdir => cases hpc
  | _ => exact h

/-- Removing leaves a part of what was there. -/
theorem leftover_advance {whole : Dir} (hop : c.op = .release) (h : Leftover whole d pc) :
    Leftover whole ((advance w c d pc).1.apply d) (advance w c d pc).2 := by
  cases pc with
  | list => exact h
  | unlink files =>
    cases files with
    | nil => exact h
    | cons f files =>
      rintro d' hd' g t ht
      obtain ⟨d, rfl, rfl⟩ := Option.map_eq_some_iff.mp hd'
      rw [Table.get_erase] at ht
      split_ifs at ht
      exact h d rfl g t ht
  | rmdir =>
    rw [advance, Call.cleared, hop]
    trivial
  | outcome o => trivial
  | _ => cases h

/-- A refusal keeps what a release has left. -/
theorem leftover_refuse {whole : Dir} (hop : c.op = .release) (h : Leftover whole d pc)
    (hpc : refuse c pc = some pc') : Leftover whole d pc' := by
  cases pc with
  | list =>
    cases hpc
    exact h
  | unlink files =>
    cases files with
    | nil => cases hpc
    | cons f files =>
      cases hpc
      exact h
  | rmdir =>
    cases hpc
    rw [Call.cleared, hop]
    trivial
  | outcome _ => cases hpc
  | _ => cases h

/-- A release begins its removal with the list of the files. -/
theorem before_advance (h : pc.before = true) (hlist : pc ≠ .list) :
    (advance w c d pc).2.before = true := by
  cases pc with
  | isDir | firstLook | firstSid | firstPid | secondLook | secondSid | secondPid =>
    rw [advance]
    split_ifs <;> rfl
  | list => exact absurd rfl hlist
  | outcome o => exact h
  | _ => cases h

/-- Before the listing the call asks for no change that can be refused. -/
theorem before_refuse (h : pc.before = true) (hlist : pc ≠ .list) : refuse c pc = none := by
  cases pc with
  | list => exact absurd rfl hlist
  | _ => first | rfl | cases h

/-- What a call that has not settled has left does not depend on the directory. -/
theorem leftover_free {whole : Dir} {d' : Option Dir} (hpc : pc.settled = false)
    (h : Leftover whole d pc) : Leftover whole d' pc := by
  cases pc with
  | secondPid | list | unlink _ | rmdir => cases hpc
  | _ => exact h

end

/-! ### Runs -/

variable {ι : Type*} [DecidableEq ι] (calls : ι → Call) (a : ι)

/-- The release takes a step, or another call leaves its directory as it is while the release is
between its second look and the end of its removal. -/
def Unmoved (s : State ι) : Action ι → Prop
  | .step i => i ≠ a → (calls i).key = (calls a).key → (s.pc a).settled = true →
      (s.next calls i).1.apply (s.dirs (calls a).key) = s.dirs (calls a).key
  | _ => True

instance (s : State ι) (act : Action ι) : Decidable (Unmoved calls a s act) :=
  match act with
  | .step _ => inferInstanceAs (Decidable (_ → _ → _ → _ = _))
  | .refused _ | .world _ => inferInstanceAs (Decidable True)

/-- What the release removes does not name another session, and when it sets out to remove a
directory, that one is recorded for it. -/
def RemovesOwn (s : State ι) : Action ι → Prop
  | .step i => i = a → (s.pc a).removing = true →
      (∀ d t, s.dirs (calls a).key = some d → d.get .sessionId = some t → t = (calls a).sid) ∧
      (s.pc a = .list → ∃ d, s.dirs (calls a).key = some d ∧ RecordedFor (calls a) d)
  | _ => True

/-- What the release removes is a part of this directory. -/
def RemovesPartOf (whole : Dir) (s : State ι) : Action ι → Prop
  | .step i => i = a → (s.pc a).removing = true →
      ∀ d, s.dirs (calls a).key = some d → ∀ f t, d.get f = some t → whole.get f = some t
  | _ => True

variable {calls} {a}

section

variable {s s' : State ι} {act : Action ι}

/-- What the steps of the release keep, and what does not depend on the directory outside its
removal, every action keeps. -/
theorem kept_action {Q : Option Dir → Pc → Prop}
    (hown : ∀ w d pc, Q d pc → Q ((advance w (calls a) d pc).1.apply d) (advance w (calls a) d pc).2)
    (hrefuse : ∀ d pc pc', Q d pc → refuse (calls a) pc = some pc' → Q d pc')
    (hfree : ∀ d d' pc, pc.settled = false → Q d pc → Q d' pc)
    (hu : Unmoved calls a s act) (h : Q (s.dirs (calls a).key) (s.pc a))
    (hstep : step calls s act = some s') : Q (s'.dirs (calls a).key) (s'.pc a) := by
  cases act with
  | world w =>
    obtain rfl := Option.some.inj hstep
    exact h
  | refused i =>
    obtain ⟨pc, hpc, rfl⟩ := Option.map_eq_some_iff.mp hstep
    by_cases hi : a = i
    · subst hi
      simp only [Function.update_self]
      exact hrefuse _ _ _ h hpc
    · simp only [Function.update_of_ne hi]
      exact h
  | step i =>
    rw [step] at hstep
    split_ifs at hstep
    obtain rfl := Option.some.inj hstep
    by_cases hi : a = i
    · subst hi
      simp only [Function.update_self]
      exact hown _ _ _ h
    · simp only [Function.update_of_ne hi]
      by_cases hk : (calls i).key = (calls a).key
      · rw [hk, Function.update_self]
        by_cases hsettled : (s.pc a).settled = true
        · rw [hu (Ne.symm hi) hk hsettled]
          exact h
        · exact hfree _ _ _ (by simpa using hsettled) h
      · rw [Function.update_of_ne (Ne.symm hk)]
        exact h

/-- Every action keeps what a release is assured of. -/
theorem assured_action (hop : (calls a).op = .release) (hu : Unmoved calls a s act)
    (h : Assured (calls a) (s.dirs (calls a).key) (s.pc a)) (hstep : step calls s act = some s') :
    Assured (calls a) (s'.dirs (calls a).key) (s'.pc a) :=
  kept_action (fun _ _ _ h => assured_advance hop h) (fun _ _ _ h hpc => assured_refuse hop h hpc)
    (fun _ _ _ hpc h => assured_free hpc h) hu h hstep

/-- Every action keeps what a release has left. -/
theorem leftover_action {whole : Dir} (hop : (calls a).op = .release)
    (hu : Unmoved calls a s act) (h : Leftover whole (s.dirs (calls a).key) (s.pc a))
    (hstep : step calls s act = some s') :
    Leftover whole (s'.dirs (calls a).key) (s'.pc a) :=
  kept_action (fun _ _ _ h => leftover_advance hop h)
    (fun _ _ _ h hpc => leftover_refuse hop h hpc) (fun _ _ _ hpc h => leftover_free hpc h) hu h
    hstep

/-- A release that has not begun goes on so, up to the list of the files. -/
theorem before_action (h : (s.pc a).before = true) (hlist : s.pc a ≠ .list)
    (hstep : step calls s act = some s') : (s'.pc a).before = true := by
  cases act with
  | world w =>
    obtain rfl := Option.some.inj hstep
    exact h
  | refused i =>
    obtain ⟨pc, hpc, rfl⟩ := Option.map_eq_some_iff.mp hstep
    by_cases hi : a = i
    · subst hi
      rw [before_refuse h hlist] at hpc
      cases hpc
    · simp only [Function.update_of_ne hi]
      exact h
  | step i =>
    rw [step] at hstep
    split_ifs at hstep
    obtain rfl := Option.some.inj hstep
    by_cases hi : a = i
    · subst hi
      simp only [Function.update_self]
      exact before_advance h hlist
    · simp only [Function.update_of_ne hi]
      exact h

omit [DecidableEq ι] in
/-- Where it stands, an assured release removes its own. -/
theorem removesOwn_of_assured (h : Assured (calls a) (s.dirs (calls a).key) (s.pc a)) :
    RemovesOwn calls a s act := by
  cases act with
  | step i =>
    rintro rfl hrem
    cases hpc : s.pc i with
    | list =>
      rw [hpc] at h
      obtain ⟨d, hd, hrec⟩ := h
      refine ⟨fun d' t hd' ht => ?_, fun _ => ⟨d, hd, hrec⟩⟩
      obtain rfl := Option.some.inj (hd.symm.trans hd')
      rw [RecordedFor, ht] at hrec
      exact hrec.2
    | unlink files =>
      rw [hpc] at h
      exact ⟨fun d t hd ht => h d hd t ht, nofun⟩
    | rmdir =>
      rw [hpc] at h
      exact ⟨fun d t hd ht => h d hd t ht, nofun⟩
    | _ =>
      rw [hpc] at hrem
      cases hrem
  | _ => trivial

omit [DecidableEq ι] in
/-- A release removes part of what it had listed. -/
theorem removesPartOf_of_leftover {whole : Dir}
    (h : Leftover whole (s.dirs (calls a).key) (s.pc a)) : RemovesPartOf calls a whole s act := by
  cases act with
  | step i =>
    rintro rfl hrem
    cases hpc : s.pc i with
    | list | unlink _ | rmdir =>
      rw [hpc] at h
      exact h
    | _ =>
      rw [hpc] at hrem
      cases hrem
  | _ => trivial

/-- A release that returns `released` has listed a directory that was recorded for it, and removed
that one. -/
theorem released_listed {as : List (Action ι)} (hop : (calls a).op = .release)
    (hbefore : (s.pc a).before = true) (h : Assured (calls a) (s.dirs (calls a).key) (s.pc a))
    (hu : Along (step calls) (Unmoved calls a) s as) (hrun : run (step calls) s as = some s')
    (hreleased : s'.pc a = .outcome .released) :
    ∃ as₁ as₂ t d, as = as₁ ++ as₂ ∧ run (step calls) s as₁ = some t ∧ t.pc a = .list ∧
      t.dirs (calls a).key = some d ∧ RecordedFor (calls a) d ∧
      Along (step calls) (RemovesPartOf calls a d) t as₂ := by
  induction as generalizing s with
  | nil =>
    obtain rfl := Option.some.inj hrun
    rw [hreleased] at hbefore
    cases hbefore
  | cons act as ih =>
    by_cases hlist : s.pc a = .list
    · rw [hlist] at h
      obtain ⟨d, hd, hrec⟩ := h
      refine ⟨[], act :: as, s, d, rfl, rfl, hlist, hd, hrec, ?_⟩
      refine Along.of_invariant (fun _ _ _ hu h hs => leftover_action hop hu h hs)
        (fun _ _ h => removesPartOf_of_leftover h) hu ?_
      rw [hlist, hd]
      rintro _ ⟨⟩ f t ht
      exact ht
    · obtain ⟨u, hstep, hrun⟩ := run_cons_eq_some.mp hrun
      obtain ⟨as₁, as₂, t, d, rfl, hrun₁, hrest⟩ := ih (before_action hbefore hlist hstep)
        (assured_action hop hu.1 h hstep) (hu.2 u hstep) hrun
      exact ⟨act :: as₁, as₂, t, d, rfl, run_cons_eq_some.mpr ⟨u, hstep, hrun₁⟩, hrest⟩

/-- When no other call changes the directory between the second look of a release and the end of its
removal, the release removes nothing that names another session, and returns `released` only when
the directory it removed was recorded for it. -/
theorem release_sound {as : List (Action ι)} (hop : (calls a).op = .release)
    (hstart : s.pc a = .isDir) (hu : Along (step calls) (Unmoved calls a) s as)
    (hrun : run (step calls) s as = some s') :
    Along (step calls) (RemovesOwn calls a) s as ∧
      (s'.pc a = .outcome .released → ∃ as₁ as₂ t d, as = as₁ ++ as₂ ∧
        run (step calls) s as₁ = some t ∧ t.pc a = .list ∧ t.dirs (calls a).key = some d ∧
        RecordedFor (calls a) d ∧ Along (step calls) (RemovesPartOf calls a d) t as₂) := by
  have h : Assured (calls a) (s.dirs (calls a).key) (s.pc a) := by
    rw [hstart]
    trivial
  refine ⟨?_, released_listed hop (by rw [hstart]; rfl) h hu hrun⟩
  exact Along.of_invariant (fun _ _ _ hu h hs => assured_action hop hu h hs)
    (fun _ _ h => removesOwn_of_assured h) hu h

end

/-! ### A takeover in between -/

/-- Session `a` is asked about, and found dead. -/
def gone : World where
  sessionLive _ := false
  pidAlive _ := false
  leaseOver _ := false
  no_session := rfl
  no_pid := rfl

/-- Session `a` releases the handoff `h`, session `b` claims it. -/
def leavers (i : Fin 2) : Call where
  op := if i = 0 then .release else .claim
  cls := ['h', 'a', 'n', 'd', 'o', 'f', 'f']
  basename := ['h']
  sid := if i = 0 then ['a'] else ['b']
  envIds := []
  pid := if i = 0 then ['1'] else ['2']
  stage := ['a', 'p', 'p', 'l', 'y']
  now := ['t']
  pid_ne := pid_ne_of_two i

/-- The claim of session `a`. -/
def ownClaim : Dir :=
  Table.ofPairs [(.pid, ['1']), (.sessionId, ['a']), (.claimedAt, ['s']),
    (.stage, ['a', 'p', 'p', 'l', 'y'])]

/-- It is in place. -/
def claimed : State (Fin 2) where
  world := gone
  dirs k := if k = (leavers 0).key then some ownClaim else none
  pc i := if i = 0 then .isDir else .mkdir

/-- The release comes first, then the claim. -/
theorem release_sound_leavers :
    ∃ s', run (step leavers) claimed (.replicate 12 (.step 0) ++ .replicate 5 (.step 1)) = some s' ∧
      s'.pc 0 = .outcome .released ∧ s'.pc 1 = .returned true ∧
      Along (step leavers) (RemovesOwn leavers 0) claimed
        (.replicate 12 (.step 0) ++ .replicate 5 (.step 1)) ∧
      (s'.pc 0 = .outcome .released → ∃ as₁ as₂ t d,
        .replicate 12 (.step 0) ++ .replicate 5 (.step 1) = as₁ ++ as₂ ∧
        run (step leavers) claimed as₁ = some t ∧ t.pc 0 = .list ∧
        t.dirs (leavers 0).key = some d ∧ RecordedFor (leavers 0) d ∧
        Along (step leavers) (RemovesPartOf leavers 0 d) t as₂) := by
  have hrun : ∃ s', run (step leavers) claimed
      (.replicate 12 (.step 0) ++ .replicate 5 (.step 1)) = some s' ∧
      s'.pc 0 = .outcome .released ∧ s'.pc 1 = .returned true := ⟨_, rfl, rfl, rfl⟩
  obtain ⟨s', hrun, h₀, h₁⟩ := hrun
  exact ⟨s', hrun, h₀, h₁, release_sound rfl rfl (by decide) hrun⟩

/-- The claim takes over behind the second look, and the release removes what it made. -/
theorem release_removes_takeover :
    ∃ t s', run (step leavers) claimed (.replicate 5 (.step 0) ++ .replicate 19 (.step 1)) = some t ∧
      t.pc 1 = .returned true ∧
      (∃ d, t.dirs (leavers 0).key = some d ∧ d.get .sessionId = some ['b']) ∧
      run (step leavers) t (.replicate 7 (.step 0)) = some s' ∧
      s'.pc 0 = .outcome .released ∧ s'.dirs (leavers 0).key = none ∧
      ¬ Along (step leavers) (RemovesOwn leavers 0) t (.replicate 7 (.step 0)) := by
  have htake : ∃ t, run (step leavers) claimed
      (.replicate 5 (.step 0) ++ .replicate 19 (.step 1)) = some t ∧ t.pc 0 = .list ∧
      t.pc 1 = .returned true ∧ (∃ d, t.dirs (leavers 0).key = some d ∧
        d.get .sessionId = some ['b']) ∧ ∃ s', run (step leavers) t (.replicate 7 (.step 0)) =
        some s' ∧ s'.pc 0 = .outcome .released ∧ s'.dirs (leavers 0).key = none :=
    ⟨_, rfl, rfl, rfl, ⟨_, rfl, rfl⟩, _, rfl, rfl, rfl⟩
  obtain ⟨t, hrun, hlist, h₁, ⟨d, hd, hsid⟩, s', hrun', h₀, hgone⟩ := htake
  refine ⟨t, s', hrun, h₁, ⟨d, hd, hsid⟩, hrun', h₀, hgone, fun h => ?_⟩
  have hown := (h.1 rfl (by rw [hlist]; rfl)).1 d ['b'] hd hsid
  exact absurd hown (by decide)

end Claims

end CoordinatorCore
