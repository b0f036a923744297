import CoordinatorCore.Machine.Run
import CoordinatorCore.Touch.Family
import CoordinatorCore.Touch.Record
import Mathlib.Data.List.Perm.Basic
import Mathlib.Logic.Function.Basic

/-!
# Growth control

Processes append lines to one sink through `append_event`: look at the size of the live file, rename
it out of the way when it is too large, open the sink by its name, write the line. The steps of
different appends interleave in any order, and an append keeps the file it has opened whatever
happens to the name. A directory is a table from names to files, and a rename onto a name that is
there takes the name away from the file that had it.

While the names are fresh every file has exactly one name and every name is one a reader knows
(`Sound`), so each written line is found once in the family (`lines_of_family`). Names are made of
the clock, the pid and a counter of the process. They are fresh unless a later process has the pid
of an earlier one and meets the clock reading and the counter value of it.
-/

namespace CoordinatorCore

namespace Touch

/-! ### Processes and files -/

/-- `MAX_RECORD_BYTES`. -/
def maxRecordBytes : Nat := 256 * 1024

/-- Where an append stands: before the stat, before the clock is read, before the rename, before the
open, before the write. -/
inductive Phase
  | stat
  | clock
  | rename (target : Text)
  | open_
  | write (file : Nat)

/-- An append of a process. -/
structure Append where
  proc : Nat
  line : Bytes
  phase : Phase

/-- The bytes are one line. -/
def IsLine (line : Bytes) : Prop := iterCompleteLines line = [line]

instance (line : Bytes) : Decidable (IsLine line) := inferInstanceAs (Decidable (_ = _))

/-- The directory of the sink, the files, the processes that run and those that have run, their
counters, the appends under way, the lines whose write completed, and the rotated names built so
far: by which process, with which clock reading and counter value. -/
structure World where
  dir : Table Text Nat
  files : List Bytes
  running : List Nat
  started : List Nat
  counter : Nat → Nat
  tasks : List Append
  written : List Bytes
  built : List (Nat × Int × Nat)

/-- No process has run. -/
def World.empty : World := ⟨∅, [], [], [], fun _ => 0, [], [], []⟩

/-- A step of an append. -/
inductive Move
  | stat
  | clock (now : Int)
  | rename (done : Bool)
  | open_
  | write

/-- What happens next. An append is known by its place among those under way. -/
inductive Action
  | start (proc : Nat)
  | exit (proc : Nat)
  | begin_ (proc : Nat) (line : Bytes)
  | step (task : Nat) (move : Move)

/-- An append goes on to its next phase. -/
def World.goOn (s : World) (k : Nat) (a : Append) (phase : Phase) : World :=
  { s with tasks := s.tasks.set k { a with phase := phase } }

/-- The size of the live file is at the bound. -/
def oversized (name : Text) (s : World) : Bool :=
  (((s.dir.get name).bind fun f => s.files[f]?).map List.length).any fun n => maxRecordBytes ≤ n

/-- `os.replace(sink, target)`. -/
def replaceName (name target : Text) (dir : Table Text Nat) : Table Text Nat :=
  match dir.get name with
  | some f => (dir.erase name).set target f
  | none => dir

/-- `os.open` creates the sink when there is none. -/
def World.create (name : Text) (s : World) : World :=
  match s.dir.get name with
  | some _ => s
  | none => { s with dir := s.dir.set name s.files.length, files := s.files ++ [[]] }

/-- The process of an append builds the name of a rotation. -/
def World.build (name : Text) (pid : Nat → Nat) (s : World) (k : Nat) (a : Append) (now : Int) :
    World :=
  { s.goOn k a (.rename (rotatedName name now (pid a.proc) (s.counter a.proc))) with
    counter := Function.update s.counter a.proc (s.counter a.proc + 1)
    built := (a.proc, now, s.counter a.proc) :: s.built }

/-- The line of an append is written to the file it has opened. -/
def World.writeTo (s : World) (k : Nat) (a : Append) (f : Nat) : World :=
  { s with
    files := s.files.modify f (· ++ a.line)
    written := a.line :: s.written
    tasks := s.tasks.eraseIdx k }

/-- One step of the append `a` at place `k`. A rename may fail. -/
def appendStep (name : Text) (pid : Nat → Nat) (s : World) (k : Nat) (a : Append) (move : Move) :
    Option World :=
  match a.phase, move with
  | .stat, .stat => some (s.goOn k a (if oversized name s then .clock else .open_))
  | .clock, .clock now => some (s.build name pid k a now)
  | .rename target, .rename done =>
    some { s.goOn k a .open_ with dir := if done then replaceName name target s.dir else s.dir }
  | .open_, .open_ =>
    ((s.create name).dir.get name).map fun f => (s.create name).goOn k a (.write f)
  | .write f, .write => some (s.writeTo k a f)
  | _, _ => none

/-- One step of the machine, for the pids of the processes. Processes that run together have
different pids. -/
def worldStep (name : Text) (pid : Nat → Nat) (s : World) : Action → Option World
  | .start i =>
    if i ∈ s.started ∨ ∃ j ∈ s.running, pid j = pid i then none
    else some { s with running := i :: s.running, started := i :: s.started }
  | .exit i =>
    if i ∈ s.running then
      some { s with running := s.running.filter (· ≠ i), tasks := s.tasks.filter (·.proc ≠ i) }
    else none
  | .begin_ i line =>
    if i ∈ s.running ∧ IsLine line then some { s with tasks := ⟨i, line, .stat⟩ :: s.tasks }
    else none
  | .step k move => s.tasks[k]?.bind fun a => appendStep name pid s k a move

/-- The lines of the files a reader finds, in its order. -/
def familyLines (name : Text) (s : World) : List Bytes :=
  iterCompleteLines ((discoverFamily name s.dir).map fun e => s.files.getD e.2 []).flatten

/-- When a rotated name is built, the clock does not stand before the epoch, and no other process
with the same pid has built a name with this clock reading and this counter value. -/
def FreshName (pid : Nat → Nat) (s : World) : Action → Prop
  | .step k (.clock now) => 0 ≤ now ∧ ∀ a, s.tasks[k]? = some a → ∀ b ∈ s.built,
      b.1 ≠ a.proc → pid b.1 = pid a.proc → b.2 ≠ (now, s.counter a.proc)
  | _ => True

/-! ### The invariant -/

/-- The name an append is about to rename the sink to. -/
def target? (a : Append) : Option Text :=
  match a.phase with
  | .rename target => some target
  | _ => none

/-- The names appends are about to rename the sink to. -/
def targets (s : World) : List Text := s.tasks.filterMap target?

/-- The name was built, and the clock did not stand before the epoch. -/
def Built (name : Text) (pid : Nat → Nat) (s : World) (n : Text) : Prop :=
  ∃ b ∈ s.built, ∃ ts : Nat, b.2.1 = ts ∧ n = rotatedName name ts (pid b.1) b.2.2

/-- Every file has one name, no name a rename will give is taken, and the files hold what was
written. -/
structure Sound (name : Text) (pid : Nat → Nat) (s : World) : Prop where
  named : (s.dir.entries.map Prod.snd).Perm (List.range s.files.length)
  fresh : (s.dir.keys ++ targets s).Nodup
  known : ∀ n ∈ s.dir.keys, n = name ∨ Built name pid s n
  pending : ∀ n ∈ targets s, Built name pid s n
  counted : ∀ b ∈ s.built, b.2.2 < s.counter b.1
  closed : ∀ f ∈ s.files, Closed f
  lines : (s.files.flatMap iterCompleteLines).Perm s.written
  whole : ∀ a ∈ s.tasks, IsLine a.line
  opened : ∀ a ∈ s.tasks, ∀ f, a.phase = .write f → f < s.files.length

/-- The empty world is sound. -/
theorem sound_empty (name : Text) (pid : Nat → Nat) : Sound name pid World.empty where
  named := List.Perm.refl _
  fresh := List.nodup_nil
  known := fun _ h => nomatch h
  pending := fun _ h => nomatch h
  counted := fun _ h => nomatch h
  closed := fun _ h => nomatch h
  lines := List.Perm.refl _
  whole := fun _ h => nomatch h
  opened := fun _ h => nomatch h

/-- A line is closed by its line feed. -/
theorem closed_of_isLine {line : Bytes} (h : IsLine line) : Closed line := by
  have hmem : line ∈ iterCompleteLines line := by
    rw [h]
    exact List.mem_singleton_self line
  obtain ⟨body, -, hbody⟩ := List.mem_map.mp hmem
  exact Or.inr ⟨body, hbody.symm⟩

theorem ne_nil_of_isLine {line : Bytes} (h : IsLine line) : line ≠ [] := by
  rintro rfl
  cases h

section Steps

variable {name : Text} {pid : Nat → Nat} {s : World}

private theorem Built.ne_name {n : Text} (h : Built name pid s n) : n ≠ name := by
  obtain ⟨b, -, ts, -, rfl⟩ := h
  exact rotatedName_ne_self name ts (pid b.1) b.2.2

/-- An append under way, between those in front of it and those behind it. -/
private theorem exists_split {k : Nat} {a : Append} (h : s.tasks[k]? = some a) :
    ∃ front back, s.tasks = front ++ a :: back ∧
      (∀ b, s.tasks.set k b = front ++ b :: back) ∧ s.tasks.eraseIdx k = front ++ back := by
  obtain ⟨hk, ha⟩ := List.getElem?_eq_some_iff.mp h
  refine ⟨s.tasks.take k, s.tasks.drop (k + 1), ?_, fun b => ?_, ?_⟩
  · rw [← ha, List.getElem_cons_drop, List.take_append_drop]
  · rw [List.set_eq_take_append_cons_drop, if_pos hk]
  · exact List.eraseIdx_eq_take_drop_succ ..

private theorem filterMap_split (front back : List Append) (a : Append) :
    (front ++ a :: back).filterMap target? =
      front.filterMap target? ++ ((target? a).toList ++ back.filterMap target?) := by
  rw [List.filterMap_append, List.filterMap_cons]
  cases target? a <;> rfl

/-- A phase without a rename to come replaces another. -/
private theorem sound_goOn (h : Sound name pid s) {k : Nat} {a : Append}
    (ha : s.tasks[k]? = some a) (hold : target? a = none) {phase : Phase}
    (hnew : target? { a with phase := phase } = none)
    (hopen : ∀ f, phase = .write f → f < s.files.length) : Sound name pid (s.goOn k a phase) := by
  obtain ⟨front, back, htasks, hset, -⟩ := exists_split ha
  have htargets : targets (s.goOn k a phase) = targets s := by
    rw [targets, targets, World.goOn, hset, htasks, filterMap_split, filterMap_split, hold, hnew]
  have hmem : ∀ b ∈ (s.goOn k a phase).tasks, b ∈ s.tasks ∨ b = { a with phase := phase } := by
    intro b hb
    rw [World.goOn, hset] at hb
    rw [htasks]
    simp only [List.mem_append, List.mem_cons] at hb ⊢
    tauto
  have hatask : a ∈ s.tasks := List.mem_of_getElem? ha
  refine { h with fresh := ?_, pending := ?_, whole := ?_, opened := ?_ }
  · rw [htargets]
    exact h.fresh
  · rw [htargets]
    exact h.pending
  · intro b hb
    rcases hmem b hb with hb | rfl
    · exact h.whole b hb
    · exact h.whole a hatask
  · intro b hb f hf
    rcases hmem b hb with hb | rfl
    · exact h.opened b hb f hf
    · exact hopen f hf

private theorem Built.mono {s' : World} (h : ∀ b ∈ s.built, b ∈ s'.built) {n : Text}
    (hn : Built name pid s n) : Built name pid s' n := by
  obtain ⟨b, hb, ts, hts, heq⟩ := hn
  exact ⟨b, h b hb, ts, hts, heq⟩

/-- A fresh key makes a name no other key makes. -/
private theorem not_built (hne : name ≠ []) (hnl : '\n' ∉ name) (h : Sound name pid s)
    {a : Append} {now : Nat}
    (hfresh : ∀ b ∈ s.built, b.1 ≠ a.proc → pid b.1 = pid a.proc →
      b.2 ≠ ((now : Int), s.counter a.proc)) :
    ¬ Built name pid s (rotatedName name now (pid a.proc) (s.counter a.proc)) := by
  rintro ⟨b, hb, ts, hts, heq⟩
  have hkey := rotatedName_inj hne hnl heq
  simp only [Prod.mk.injEq] at hkey
  by_cases hproc : b.1 = a.proc
  · have hlt := h.counted b hb
    rw [← hkey.2.2, hproc] at hlt
    exact lt_irrefl _ hlt
  · exact hfresh b hb hproc hkey.2.1.symm (Prod.ext (by rw [hts, hkey.1]) hkey.2.2.symm)

/-- A name that is built is no name that is taken. -/
private theorem sound_build (hne : name ≠ []) (hnl : '\n' ∉ name) (h : Sound name pid s) {k : Nat}
    {a : Append} (ha : s.tasks[k]? = some a) (hold : target? a = none) {now : Int}
    (hfresh : FreshName pid s (.step k (.clock now))) :
    Sound name pid (s.build name pid k a now) := by
  obtain ⟨hnow, hfresh⟩ := hfresh
  obtain ⟨now, rfl⟩ := Int.eq_ofNat_of_zero_le hnow
  obtain ⟨front, back, htasks, hset, -⟩ := exists_split ha
  have hnot := not_built hne hnl h (hfresh a ha)
  have hatask : a ∈ s.tasks := List.mem_of_getElem? ha
  have hold' : targets s = front.filterMap target? ++ back.filterMap target? := by
    rw [targets, htasks, filterMap_split, hold]
    rfl
  -- the name built joins the pending ones
  have hnew : targets (s.build name pid k a now) = front.filterMap target? ++
      rotatedName name now (pid a.proc) (s.counter a.proc) :: back.filterMap target? := by
    rw [targets, World.build, World.goOn]
    dsimp only
    rw [hset, filterMap_split]
    rfl
  -- what was built stays built
  have hbuilt : ∀ n, Built name pid s n → Built name pid (s.build name pid k a now) n :=
    fun n => Built.mono fun b hb => List.mem_cons_of_mem _ hb
  have hmem : ∀ b ∈ (s.build name pid k a now).tasks, b ∈ s.tasks ∨ b =
      { a with phase := .rename (rotatedName name now (pid a.proc) (s.counter a.proc)) } := by
    intro b hb
    rw [World.build, World.goOn] at hb
    dsimp only at hb
    rw [hset] at hb
    rw [htasks]
    simp only [List.mem_append, List.mem_cons] at hb ⊢
    tauto
  refine { h with fresh := ?_, known := ?_, pending := ?_, counted := ?_, whole := ?_, opened := ?_ }
  · rw [hnew, ← List.append_assoc, List.perm_middle.nodup_iff, List.nodup_cons, List.append_assoc,
      ← hold']
    -- a name of this clock and counter was never built
    refine ⟨fun hmem => ?_, h.fresh⟩
    rcases List.mem_append.mp hmem with hkey | hpending
    · rcases h.known _ hkey with hname | hb
      · exact rotatedName_ne_self name now (pid a.proc) (s.counter a.proc) hname
      · exact hnot hb
    · exact hnot (h.pending _ hpending)
  · exact fun n hn => (h.known n hn).imp id (hbuilt n)
  · intro n hn
    rw [hnew, List.mem_append, List.mem_cons] at hn
    rcases hn with hn | rfl | hn
    · exact hbuilt n (h.pending n (by rw [hold']; exact List.mem_append_left _ hn))
    · exact ⟨(a.proc, now, s.counter a.proc), List.mem_cons_self, now, rfl, rfl⟩
    · exact hbuilt n (h.pending n (by rw [hold']; exact List.mem_append_right _ hn))
  · intro b hb
    change b.2.2 < Function.update s.counter a.proc (s.counter a.proc + 1) b.1
    rcases List.mem_cons.mp hb with rfl | hb
    · rw [Function.update_self]
      exact Nat.lt_succ_self _
    · have hlt := h.counted b hb
      by_cases hproc : b.1 = a.proc
      · rw [hproc, Function.update_self]
        rw [hproc] at hlt
        omega
      · rw [Function.update_of_ne hproc]
        exact hlt
  · intro b hb
    rcases hmem b hb with hb | rfl
    · exact h.whole b hb
    · exact h.whole a hatask
  · intro b hb f hf
    rcases hmem b hb with hb | rfl
    · exact h.opened b hb f hf
    · cases hf

/-- The entries behind a rename to a name that is free. -/
theorem replaceName_of_live {target : Text} {dir : Table Text Nat} {f : Nat}
    (hget : dir.get name = some f) (hfree : target ∉ dir.keys) :
    (replaceName name target dir).entries = (dir.erase name).entries ++ [(target, f)] := by
  have hnot : target ∉ (dir.erase name).keys := fun hmem => by
    obtain ⟨g, hg⟩ := Table.mem_keys_iff.mp hmem
    rw [Table.get_erase] at hg
    split_ifs at hg
    exact hfree (Table.mem_keys_iff.mpr ⟨g, hg⟩)
  rw [replaceName, hget]
  exact Table.entries_set_of_not_mem hnot f

/-- A rename moves the sink to the name the append has built. -/
private theorem sound_rename (h : Sound name pid s) {k : Nat} {a : Append}
    (ha : s.tasks[k]? = some a) {target : Text} (hphase : a.phase = .rename target) (done : Bool) :
    Sound name pid { s.goOn k a .open_ with
      dir := if done then replaceName name target s.dir else s.dir } := by
  obtain ⟨front, back, htasks, hset, -⟩ := exists_split ha
  -- the target of the rename is taken off the pending ones
  have hold : targets s = front.filterMap target? ++ target :: back.filterMap target? := by
    rw [targets, htasks, filterMap_split, target?, hphase]
    rfl
  have hnew : (s.goOn k a .open_).tasks.filterMap target? =
      front.filterMap target? ++ back.filterMap target? := by
    rw [World.goOn, hset, filterMap_split]
    rfl
  have hmem : ∀ b ∈ (s.goOn k a .open_).tasks, b ∈ s.tasks ∨ b = { a with phase := .open_ } := by
    intro b hb
    rw [World.goOn, hset] at hb
    rw [htasks]
    simp only [List.mem_append, List.mem_cons] at hb ⊢
    tauto
  have hfresh : (target :: (s.dir.keys ++ (front.filterMap target? ++ back.filterMap target?))).Nodup := by
    have hperm := h.fresh
    rwa [hold, ← List.append_assoc, List.perm_middle.nodup_iff, List.append_assoc] at hperm
  obtain ⟨hfree, hrest⟩ := List.nodup_cons.mp hfresh
  -- whether or not the rename took place, the task opens the file next
  have hkeep : Sound name pid (s.goOn k a .open_) := by
    have hsub : ∀ n ∈ targets (s.goOn k a .open_), n ∈ targets s := by
      intro n hn
      rw [targets, hnew] at hn
      rw [hold]
      simp only [List.mem_append, List.mem_cons] at hn ⊢
      tauto
    refine { h with fresh := ?_, pending := fun n hn => h.pending n (hsub n hn), whole := ?_, opened := ?_ }
    · rw [targets, hnew]
      exact hrest
    · intro b hb
      rcases hmem b hb with hb | rfl
      · exact h.whole b hb
      · exact h.whole a (List.mem_of_getElem? ha)
    · intro b hb f hf
      rcases hmem b hb with hb | rfl
      · exact h.opened b hb f hf
      · cases hf
  -- only a rename of a live file changes the directory
  cases done with
  | false => exact hkeep
  | true =>
    cases hget : s.dir.get name with
    | none =>
      rw [if_pos rfl, replaceName, hget]
      exact hkeep
    | some f =>
      have hentries := replaceName_of_live hget fun hmem => hfree (List.mem_append_left _ hmem)
      have hperm := Table.perm_cons_erase hget
      have hkeys : (replaceName name target s.dir).keys = (s.dir.erase name).keys ++ [target] := by
        rw [Table.keys, hentries, List.map_append]
        rfl
      have hsubkeys : (s.dir.erase name).keys.Sublist s.dir.keys := List.filter_sublist.map _
      rw [if_pos rfl]
      refine { hkeep with named := ?_, fresh := ?_, known := ?_ }
      · change ((replaceName name target s.dir).entries.map Prod.snd).Perm _
        rw [hentries, List.map_append]
        exact List.perm_append_singleton .. |>.trans ((hperm.map Prod.snd).symm.trans h.named)
      · change ((replaceName name target s.dir).keys ++ targets (s.goOn k a .open_)).Nodup
        rw [hkeys, targets, hnew, List.append_assoc, List.singleton_append,
          List.perm_middle.nodup_iff]
        exact hfresh.sublist ((hsubkeys.append (List.Sublist.refl _)).cons_cons target)
      · intro n hn
        change n ∈ (replaceName name target s.dir).keys at hn
        rw [hkeys, List.mem_append, List.mem_singleton] at hn
        rcases hn with hn | rfl
        · exact h.known n (hsubkeys.subset hn)
        · exact Or.inr (h.pending n (by rw [hold]; simp))

/-- The sink is there behind an open, and every file still has one name. -/
private theorem sound_create (h : Sound name pid s) : Sound name pid (s.create name) := by
  unfold World.create
  split
  · exact h
  · next hnone =>
    have hnot : name ∉ s.dir.keys := Table.get_eq_none_iff.mp hnone
    have hentries := Table.entries_set_of_not_mem hnot s.files.length
    have hkeys : (s.dir.set name s.files.length).keys = s.dir.keys ++ [name] := by
      rw [Table.keys, hentries, List.map_append]
      rfl
    refine { h with named := ?_, fresh := ?_, known := ?_, closed := ?_, lines := ?_, opened := ?_ }
    · change ((s.dir.set name s.files.length).entries.map Prod.snd).Perm _
      rw [hentries, List.map_append, List.length_append, List.length_singleton, List.range_succ]
      exact h.named.append_right _
    · change ((s.dir.set name s.files.length).keys ++ targets s).Nodup
      rw [hkeys, List.append_assoc, List.singleton_append, List.perm_middle.nodup_iff,
        List.nodup_cons]
      refine ⟨fun hmem => ?_, h.fresh⟩
      rcases List.mem_append.mp hmem with hmem | hmem
      · exact hnot hmem
      · exact (h.pending name hmem).ne_name rfl
    · intro n hn
      change n ∈ (s.dir.set name s.files.length).keys at hn
      rw [hkeys, List.mem_append, List.mem_singleton] at hn
      rcases hn with hn | rfl
      · exact h.known n hn
      · exact Or.inl rfl
    · intro f hf
      rcases List.mem_append.mp hf with hf | hf
      · exact h.closed f hf
      · exact Or.inl (List.mem_singleton.mp hf)
    · change ((s.files ++ [[]]).flatMap iterCompleteLines).Perm s.written
      rw [List.flatMap_append]
      exact (List.append_nil _).symm ▸ h.lines
    · intro b hb f hf
      change f < (s.files ++ [[]]).length
      rw [List.length_append]
      exact Nat.lt_add_right _ (h.opened b hb f hf)

/-- The name of the sink is that of a file. -/
theorem lt_of_get (h : Sound name pid s) {n : Text} {f : Nat} (hget : s.dir.get n = some f) :
    f < s.files.length := by
  have hmem : f ∈ s.dir.entries.map Prod.snd :=
    List.mem_map.mpr ⟨(n, f), Table.get_eq_some_iff.mp hget, rfl⟩
  exact List.mem_range.mp (h.named.subset hmem)

/-- A written line stands in its file. -/
private theorem sound_writeTo (h : Sound name pid s) {k : Nat} {a : Append}
    (ha : s.tasks[k]? = some a) {f : Nat} (hphase : a.phase = .write f) :
    Sound name pid (s.writeTo k a f) := by
  obtain ⟨front, back, htasks, -, herase⟩ := exists_split ha
  have hatask : a ∈ s.tasks := List.mem_of_getElem? ha
  have hline := h.whole a hatask
  have hf := h.opened a hatask f hphase
  -- the task that writes has no rename pending
  have htargets : targets (s.writeTo k a f) = targets s := by
    rw [targets, targets, World.writeTo, herase, htasks, filterMap_split, target?, hphase,
      List.filterMap_append]
    rfl
  have hsub : ∀ b ∈ (s.writeTo k a f).tasks, b ∈ s.tasks := by
    intro b hb
    rw [World.writeTo, herase] at hb
    rw [htasks]
    simp only [List.mem_append, List.mem_cons] at hb ⊢
    tauto
  have hlength : (s.writeTo k a f).files.length = s.files.length := List.length_modify ..
  have hfiles : (s.writeTo k a f).files =
      s.files.take f ++ (s.files[f] ++ a.line) :: s.files.drop (f + 1) :=
    List.modify_eq_take_cons_drop hf
  have hsplit : s.files = s.files.take f ++ s.files[f] :: s.files.drop (f + 1) := by
    rw [List.getElem_cons_drop, List.take_append_drop]
  have hcontent : Closed s.files[f] := h.closed _ (List.getElem_mem hf)
  refine { h with named := ?_, fresh := ?_, pending := ?_, closed := ?_, lines := ?_, whole := ?_, opened := ?_ }
  · rw [hlength]
    exact h.named
  · rw [htargets]
    exact h.fresh
  · rw [htargets]
    exact h.pending
  · intro c hc
    rw [hfiles, List.mem_append, List.mem_cons] at hc
    rcases hc with hc | rfl | hc
    · exact h.closed c (List.mem_of_mem_take hc)
    · obtain ⟨front, hfront⟩ := (closed_of_isLine hline).resolve_left (ne_nil_of_isLine hline)
      exact Or.inr ⟨s.files[f] ++ front, by rw [hfront, List.append_assoc]⟩
    · exact h.closed c (List.mem_of_mem_drop hc)
  -- the file ended with a line, so the appended one stands by itself
  · have hlines := h.lines
    rw [hsplit, List.flatMap_append, List.flatMap_cons] at hlines
    rw [hfiles, List.flatMap_append, List.flatMap_cons, iterCompleteLines_append hcontent, hline,
      List.append_assoc, List.singleton_append]
    exact (List.perm_middle.append_left _ |>.trans List.perm_middle).trans (hlines.cons a.line)
  · exact fun b hb => h.whole b (hsub b hb)
  · intro b hb g hg
    rw [hlength]
    exact h.opened b (hsub b hb) g hg

/-- Every step of an append with a fresh name keeps the sink sound. -/
private theorem sound_appendStep (hne : name ≠ []) (hnl : '\n' ∉ name) (h : Sound name pid s)
    {k : Nat} {a : Append} (ha : s.tasks[k]? = some a) {move : Move} {s' : World}
    (hfresh : FreshName pid s (.step k move)) (hstep : appendStep name pid s k a move = some s') :
    Sound name pid s' := by
  unfold appendStep at hstep
  split at hstep
  · next hphase =>
    rw [← Option.some.inj hstep]
    refine sound_goOn h ha (by rw [target?, hphase]) ?_ fun f hf => ?_
    · split_ifs <;> rfl
    · split_ifs at hf
  · next hphase =>
    rw [← Option.some.inj hstep]
    exact sound_build hne hnl h ha (by rw [target?, hphase]) hfresh
  · next target done hphase =>
    rw [← Option.some.inj hstep]
    exact sound_rename h ha hphase done
  · next hphase =>
    obtain ⟨f, hget, rfl⟩ := Option.map_eq_some_iff.mp hstep
    have hcreate := sound_create h
    have htasks : (s.create name).tasks = s.tasks := by
      unfold World.create
      split <;> rfl
    refine sound_goOn hcreate (by rw [htasks]; exact ha) (by rw [target?, hphase]) rfl fun g hg => ?_
    obtain rfl := Phase.write.inj hg
    exact lt_of_get hcreate hget
  · next f hphase =>
    rw [← Option.some.inj hstep]
    exact sound_writeTo h ha hphase
  · cases hstep

/-- Every step with a fresh name keeps the sink sound. -/
theorem sound_step (hne : name ≠ []) (hnl : '\n' ∉ name) {act : Action} {s' : World}
    (hfresh : FreshName pid s act) (h : Sound name pid s)
    (hstep : worldStep name pid s act = some s') : Sound name pid s' := by
  cases act with
  | start i =>
    rw [worldStep] at hstep
    split_ifs at hstep
    rw [← Option.some.inj hstep]
    exact { h with }
  | exit i =>
    rw [worldStep] at hstep
    split_ifs at hstep
    rw [← Option.some.inj hstep]
    have hsub : (s.tasks.filter (·.proc ≠ i)).Sublist s.tasks := List.filter_sublist
    have htargets : ((s.tasks.filter (·.proc ≠ i)).filterMap target?).Sublist (targets s) :=
      hsub.filterMap target?
    exact { h with
      fresh := h.fresh.sublist ((List.Sublist.refl _).append htargets)
      pending := fun n hn => h.pending n (htargets.subset hn)
      whole := fun b hb => h.whole b (hsub.subset hb)
      opened := fun b hb => h.opened b (hsub.subset hb) }
  | begin_ i line =>
    rw [worldStep] at hstep
    split_ifs at hstep with hline
    rw [← Option.some.inj hstep]
    exact { h with
      whole := List.forall_mem_cons.mpr ⟨hline.2, h.whole⟩
      opened := List.forall_mem_cons.mpr ⟨(fun _ hf => nomatch hf), h.opened⟩ }
  | step k move =>
    obtain ⟨a, ha, hmove⟩ := Option.bind_eq_some_iff.mp hstep
    exact sound_appendStep hne hnl h ha hfresh hmove

/-- A reader finds every file of a sound sink once. -/
theorem discoverFamily_perm (hne : name ≠ []) (hnl : '\n' ∉ name) (h : Sound name pid s) :
    (discoverFamily name s.dir).Perm s.dir.entries := by
  have hrotated : (rotatedFiles name s.dir).Perm
      (s.dir.entries.filter fun e => !decide (e.1 = name)) := by
    have hmap : (rotatedEntries name s.dir).map Prod.snd =
        s.dir.entries.filter fun e => (generation name e.1).isSome := by
      rw [rotatedEntries, List.map_filterMap, ← List.filterMap_eq_filter]
      refine List.filterMap_congr fun e _ => ?_
      cases hgen : generation name e.1 <;> simp [Option.guard, hgen]
    have hfilter : (s.dir.entries.filter fun e => (generation name e.1).isSome) =
        s.dir.entries.filter fun e => !decide (e.1 = name) := by
      refine List.filter_congr fun e he => ?_
      rcases h.known e.1 (List.mem_map_of_mem he) with hname | ⟨b, -, ts, -, hb⟩
      · simp [hname, generation_self]
      · rw [hb, generation_rotatedName hne hnl]
        simp [rotatedName_ne_self]
    rw [rotatedFiles, ← hfilter, ← hmap]
    exact (List.mergeSort_perm ..).map Prod.snd
  rw [discoverFamily, ← Table.filter_key]
  refine (hrotated.append_right _).trans (List.perm_append_comm.trans ?_)
  exact List.filter_append_perm ..

/-- The lines of the family are those of its files, one file after the other. -/
theorem familyLines_eq (hne : name ≠ []) (hnl : '\n' ∉ name) (h : Sound name pid s) :
    familyLines name s = (discoverFamily name s.dir).flatMap fun e =>
      iterCompleteLines (s.files.getD e.2 []) := by
  have hclosed : ∀ c ∈ (discoverFamily name s.dir).map fun e => s.files.getD e.2 [], Closed c := by
    intro c hc
    obtain ⟨e, he, rfl⟩ := List.mem_map.mp hc
    have hlt : e.2 < s.files.length := by
      refine lt_of_get h (n := e.1) (Table.get_eq_some_iff.mpr ?_)
      exact (discoverFamily_perm hne hnl h).subset he
    rw [List.getD_eq_getElem?_getD, List.getElem?_eq_getElem hlt]
    exact h.closed _ (List.getElem_mem hlt)
  rw [familyLines, iterCompleteLines_flatten_closed hclosed, List.flatMap_map]

/-- The family of a sound sink holds the written lines. -/
theorem familyLines_perm (hne : name ≠ []) (hnl : '\n' ∉ name) (h : Sound name pid s) :
    (familyLines name s).Perm s.written := by
  have hrange : (List.range s.files.length).map (fun f => s.files.getD f []) = s.files := by
    refine List.ext_getElem (by simp) fun i hi _ => ?_
    simp at hi
    simp [hi]
  have hids : ((discoverFamily name s.dir).map fun e => s.files.getD e.2 []).Perm
      ((s.dir.entries.map Prod.snd).map fun f => s.files.getD f []) := by
    rw [List.map_map]
    exact (discoverFamily_perm hne hnl h).map _
  have hfiles := hids.trans (h.named.map _)
  rw [hrange] at hfiles
  rw [familyLines_eq hne hnl h, ← List.flatMap_map]
  exact (hfiles.flatMap_right _).trans h.lines

end Steps

/-- In a run whose rotated names are fresh every line whose write completed is found once in the
family of the sink. -/
theorem lines_of_family {name : Text} (hne : name ≠ []) (hnl : '\n' ∉ name) {pid : Nat → Nat}
    {acts : List Action} {s : World}
    (hfresh : Machine.Along (worldStep name pid) (FreshName pid) World.empty acts)
    (hrun : Machine.run (worldStep name pid) World.empty acts = some s) :
    (familyLines name s).Perm s.written :=
  familyLines_perm hne hnl (Machine.run_invariant_along (fun _ _ _ => sound_step hne hnl) hfresh
    (sound_empty name pid) hrun)

/-! ### A pid that is used again -/

/-- An append without a rotation. -/
def appendOnce (i : Nat) (line : Bytes) : List Action :=
  [.begin_ i line, .step 0 .stat, .step 0 .open_, .step 0 .write]

/-- An append that rotates the sink and has not opened it yet. -/
def rotateOnce (i : Nat) (line : Bytes) (now : Int) : List Action :=
  [.begin_ i line, .step 0 .stat, .step 0 (.clock now), .step 0 (.rename true)]

/-- A process fills a new sink with so many lines and one, and rotates it. -/
def fillAndRotate (i : Nat) (line : Bytes) (n : Nat) (now : Int) : List Action :=
  appendOnce i line ++ (List.replicate n (appendOnce i line)).flatten ++ rotateOnce i line now

section Fill

variable (name : Text) (pid : Nat → Nat) (s : World) {i : Nat} {line : Bytes}

/-- An append begins. -/
theorem step_begin (hi : i ∈ s.running) (hline : IsLine line) :
    worldStep name pid s (.begin_ i line) =
      some { s with tasks := ⟨i, line, .stat⟩ :: s.tasks } :=
  if_pos ⟨hi, hline⟩

/-- An append looks at the size of the sink. -/
theorem step_stat (i : Nat) (line : Bytes) (rest : List Append) :
    worldStep name pid { s with tasks := ⟨i, line, .stat⟩ :: rest } (.step 0 .stat) =
      some { s with tasks :=
        ⟨i, line, if oversized name s then .clock else .open_⟩ :: rest } :=
  rfl

/-- An append opens the sink. -/
theorem step_open (i : Nat) (line : Bytes) (rest : List Append) {f : Nat}
    (hget : (s.create name).dir.get name = some f) :
    worldStep name pid { s with tasks := ⟨i, line, .open_⟩ :: rest } (.step 0 .open_) =
      some { s.create name with tasks := ⟨i, line, .write f⟩ :: rest } := by
  have hcreate : World.create name { s with tasks := ⟨i, line, .open_⟩ :: rest } =
      { s.create name with tasks := ⟨i, line, .open_⟩ :: rest } := by
    unfold World.create
    dsimp only
    split <;> rfl
  change ((World.create name _).dir.get name).map _ = _
  rw [hcreate, hget]
  rfl

/-- What an append without a rotation does. -/
theorem run_appendOnce (hi : i ∈ s.running) (hline : IsLine line)
    {f : Nat} (hget : (s.create name).dir.get name = some f) (hsize : oversized name s = false) :
    Machine.run (worldStep name pid) s (appendOnce i line) = some { s with
      dir := (s.create name).dir
      files := (s.create name).files.modify f (· ++ line)
      written := line :: s.written } := by
  have hwrite : worldStep name pid { s.create name with tasks := ⟨i, line, .write f⟩ :: s.tasks }
      (.step 0 .write) = some { s with
        dir := (s.create name).dir
        files := (s.create name).files.modify f (· ++ line)
        written := line :: s.written } := by
    change some (World.writeTo _ 0 ⟨i, line, .write f⟩ f) = _
    unfold World.create
    split <;> rfl
  rw [appendOnce, Machine.run_cons, step_begin name pid s hi hline, Option.bind_some,
    Machine.run_cons, step_stat, hsize, Option.bind_some, Machine.run_cons, if_neg Bool.false_ne_true,
    step_open name pid s i line s.tasks hget, Option.bind_some, Machine.run_cons, hwrite]
  rfl

/-- What many appends to a sink that stays below the bound do. -/
theorem run_appends (hi : i ∈ s.running) (hline : IsLine line)
    {f : Nat} (hget : s.dir.get name = some f) {n : Nat} {content : Bytes}
    (hf : s.files[f]? = some content)
    (hsize : content.length + n * line.length < maxRecordBytes + line.length) :
    Machine.run (worldStep name pid) s (List.replicate n (appendOnce i line)).flatten = some { s with
      files := s.files.set f (content ++ (List.replicate n line).flatten)
      written := List.replicate n line ++ s.written } := by
  induction n generalizing s content with
  | zero =>
    have hset : s.files.set f content = s.files := by
      obtain ⟨hlt, rfl⟩ := List.getElem?_eq_some_iff.mp hf
      exact List.set_getElem_self hlt
    simp [hset]
  | succ n ih =>
    obtain ⟨hlt, hcontent⟩ := List.getElem?_eq_some_iff.mp hf
    have hcreate : s.create name = s := by rw [World.create, hget]
    have hover : oversized name s = false := by
      rw [oversized, hget, Option.bind_some, hf, Option.map_some, Option.any_some,
        decide_eq_false_iff_not]
      rw [Nat.succ_mul] at hsize
      omega
    have hmodify : s.files.modify f (· ++ line) = s.files.set f (content ++ line) := by
      rw [List.modify_eq_set_getElem?, hf]
      rfl
    have honce := run_appendOnce name pid s hi hline (by rw [hcreate]; exact hget) hover
    rw [hcreate, hmodify] at honce
    rw [List.replicate_succ, List.flatten_cons, Machine.run_append_eq_some]
    refine ⟨_, honce, ?_⟩
    rw [ih { s with files := s.files.set f (content ++ line), written := line :: s.written } hi hget
      (List.getElem?_set_self hlt)
      (by rw [List.length_append]; rw [Nat.succ_mul] at hsize; omega)]
    have hwritten : List.replicate n line ++ line :: s.written =
        List.replicate (n + 1) line ++ s.written := by
      rw [List.replicate_succ', List.append_assoc, List.singleton_append]
    have hcontents : content ++ line ++ (List.replicate n line).flatten =
        content ++ (List.replicate (n + 1) line).flatten := by
      rw [List.replicate_succ, List.flatten_cons, List.append_assoc]
    rw [hwritten, hcontents]
    simp only [List.set_set]

/-- What an append does that rotates the sink. -/
theorem run_rotateOnce (hi : i ∈ s.running) (hline : IsLine line)
    (hsize : oversized name s = true) (now : Int) :
    Machine.run (worldStep name pid) s (rotateOnce i line now) = some { s with
      dir := replaceName name (rotatedName name now (pid i) (s.counter i)) s.dir
      counter := Function.update s.counter i (s.counter i + 1)
      tasks := ⟨i, line, .open_⟩ :: s.tasks
      built := (i, now, s.counter i) :: s.built } := by
  rw [rotateOnce, Machine.run_cons, step_begin name pid s hi hline, Option.bind_some,
    Machine.run_cons, step_stat, hsize, Option.bind_some]
  rfl

/-- What a process does that fills a new sink and rotates it. -/
private theorem run_fillAndRotate (hi : i ∈ s.running) (hline : IsLine line)
    (hget : s.dir.get name = none) {n : Nat}
    (hbelow : n * line.length < maxRecordBytes) (habove : maxRecordBytes ≤ (n + 1) * line.length)
    (now : Int) :
    Machine.run (worldStep name pid) s (fillAndRotate i line n now) = some { s with
      dir := replaceName name (rotatedName name now (pid i) (s.counter i))
        (s.dir.set name s.files.length)
      files := s.files ++ [(List.replicate (n + 1) line).flatten]
      counter := Function.update s.counter i (s.counter i + 1)
      tasks := ⟨i, line, .open_⟩ :: s.tasks
      written := List.replicate (n + 1) line ++ s.written
      built := (i, now, s.counter i) :: s.built } := by
  have hcreate : s.create name =
      { s with dir := s.dir.set name s.files.length, files := s.files ++ [[]] } := by
    rw [World.create, hget]
  have hover : oversized name s = false := by rw [oversized, hget]; rfl
  have hget' : (s.create name).dir.get name = some s.files.length := by
    rw [hcreate]
    exact Table.get_set_self ..
  -- the first append creates the file, the others fill it
  have honce := run_appendOnce name pid s hi hline hget' hover
  have hmodify : (s.create name).files.modify s.files.length (· ++ line) = s.files ++ [line] := by
    rw [hcreate, List.modify_eq_set_getElem?]
    simp
  rw [hmodify, hcreate] at honce
  have hlast : (s.files ++ [line])[s.files.length]? = some line := by simp
  have hbound : line.length + n * line.length < maxRecordBytes + line.length := by omega
  have hmany := run_appends name pid
    { s with dir := s.dir.set name s.files.length, files := s.files ++ [line],
             written := line :: s.written } hi hline (Table.get_set_self ..) hlast hbound
  have hset : (s.files ++ [line]).set s.files.length (line ++ (List.replicate n line).flatten) =
      s.files ++ [(List.replicate (n + 1) line).flatten] := by
    rw [List.replicate_succ, List.flatten_cons]
    simp
  have hwritten : List.replicate n line ++ line :: s.written =
      List.replicate (n + 1) line ++ s.written := by
    rw [List.replicate_succ', List.append_assoc, List.singleton_append]
  dsimp only at hmany
  rw [hset, hwritten] at hmany
  -- with the last line it is too large
  have hlarge : oversized name { s with
      dir := s.dir.set name s.files.length
      files := s.files ++ [(List.replicate (n + 1) line).flatten]
      written := List.replicate (n + 1) line ++ s.written } = true := by
    rw [oversized, Table.get_set_self, Option.bind_some]
    simpa using habove
  have hrotate := run_rotateOnce name pid
    { s with
      dir := s.dir.set name s.files.length
      files := s.files ++ [(List.replicate (n + 1) line).flatten]
      written := List.replicate (n + 1) line ++ s.written } hi hline hlarge now
  rw [fillAndRotate, Machine.run_append_eq_some]
  exact ⟨_, Machine.run_append_eq_some.mpr ⟨_, honce, hmany⟩, hrotate⟩

end Fill

/-- A line of the record: a touch of a path of one character. -/
def claimLine (c : CodePoint) : Bytes :=
  lineOf (recordOf [0x73] none Verb.touch.code [c] ['1', '.', '0'] none none none)

/-- The claim lines are lines. -/
theorem isLine_claimLine : IsLine (claimLine 0x61) ∧ IsLine (claimLine 0x62) := by
  decide

theorem length_claimLine :
    (claimLine 0x61).length = 62 ∧ (claimLine 0x62).length = 62 := by
  decide

theorem claimLine_ne : claimLine 0x61 ≠ claimLine 0x62 := by decide

/-- A process fills the sink and rotates it. -/
def oneProcess : List Action := .start 0 :: fillAndRotate 0 (claimLine 0x61) 4228 0

/-- The sink behind the first of two processes. -/
private def filledOnce : World :=
  { World.empty with
    dir := replaceName recordFilename (rotatedName recordFilename 0 7 0)
      ((∅ : Table Text Nat).set recordFilename 0)
    files := [(List.replicate 4229 (claimLine 0x61)).flatten]
    running := [0]
    started := [0]
    counter := Function.update (fun _ => 0) 0 1
    tasks := [⟨0, claimLine 0x61, .open_⟩]
    written := List.replicate 4229 (claimLine 0x61)
    built := [(0, 0, 0)] }

private theorem run_oneProcess :
    Machine.run (worldStep recordFilename fun _ => 7) World.empty oneProcess = some filledOnce := by
  have hfill := run_fillAndRotate recordFilename (fun _ => 7)
    { World.empty with running := [0], started := [0] } (List.mem_singleton_self 0)
    isLine_claimLine.1 rfl (n := 4228) (by rw [length_claimLine.1]; decide)
    (by rw [length_claimLine.1]; decide) 0
  have hwritten : List.replicate (4228 + 1) (claimLine 0x61) ++ World.empty.written =
      List.replicate 4229 (claimLine 0x61) := List.append_nil _
  rw [oneProcess, Machine.run_cons_eq_some]
  refine ⟨{ World.empty with running := [0], started := [0] }, rfl, hfill.trans ?_⟩
  dsimp only
  rw [hwritten]
  rfl

/-- The step builds a rotated name. -/
def builds : Action → Bool
  | .step _ (.clock _) => true
  | _ => false

/-- A run that builds no name builds only fresh ones. -/
theorem along_of_not_builds {pid : Nat → Nat} {name : Text} {acts : List Action}
    (h : ∀ a ∈ acts, builds a = false) (s : World) :
    Machine.Along (worldStep name pid) (FreshName pid) s acts := by
  induction acts generalizing s with
  | nil => trivial
  | cons a acts ih =>
    refine ⟨?_, fun t _ => ih (fun b hb => h b (List.mem_cons_of_mem _ hb)) t⟩
    have ha := h a List.mem_cons_self
    unfold FreshName
    split
    · cases ha
    · trivial

private theorem built_of_step {pid : Nat → Nat} {name : Text} {s s' : World} {a : Action}
    (h : builds a = false) (hstep : worldStep name pid s a = some s') : s'.built = s.built := by
  unfold worldStep at hstep
  split at hstep
  · split_ifs at hstep
    rw [← Option.some.inj hstep]
  · split_ifs at hstep
    rw [← Option.some.inj hstep]
  · split_ifs at hstep
    rw [← Option.some.inj hstep]
  · obtain ⟨b, -, hmove⟩ := Option.bind_eq_some_iff.mp hstep
    unfold appendStep at hmove
    split at hmove
    · rw [← Option.some.inj hmove]
      rfl
    · cases h
    · rw [← Option.some.inj hmove]
      rfl
    · obtain ⟨f, -, rfl⟩ := Option.map_eq_some_iff.mp hmove
      unfold World.create
      split <;> rfl
    · rw [← Option.some.inj hmove]
      rfl
    · cases hmove

private theorem built_of_run {pid : Nat → Nat} {name : Text} {acts : List Action}
    (h : ∀ a ∈ acts, builds a = false) {s t : World}
    (hrun : Machine.run (worldStep name pid) s acts = some t) : t.built = s.built := by
  induction acts generalizing s with
  | nil => cases hrun; rfl
  | cons a acts ih =>
    obtain ⟨u, hu, hrun⟩ := Machine.run_cons_eq_some.mp hrun
    rw [ih (fun b hb => h b (List.mem_cons_of_mem _ hb)) hrun]
    exact built_of_step (h a List.mem_cons_self) hu

/-- The first name that is built is fresh. -/
theorem along_first {pid : Nat → Nat} {name : Text} {before after : List Action}
    (hbefore : ∀ a ∈ before, builds a = false) (hafter : ∀ a ∈ after, builds a = false) (k : Nat)
    {now : Int} (hnow : 0 ≤ now) :
    Machine.Along (worldStep name pid) (FreshName pid) World.empty
      (before ++ .step k (.clock now) :: after) := by
  refine (along_of_not_builds hbefore _).append fun t ht =>
    ⟨⟨hnow, fun a _ b hb => ?_⟩, fun u _ => along_of_not_builds hafter u⟩
  rw [built_of_run hbefore ht] at hb
  cases hb

theorem along_oneProcess :
    Machine.Along (worldStep recordFilename fun _ => 7) (FreshName fun _ => 7) World.empty
      oneProcess := by
  have hsplit : oneProcess = (.start 0 :: (appendOnce 0 (claimLine 0x61) ++
      (List.replicate 4228 (appendOnce 0 (claimLine 0x61))).flatten ++
      [.begin_ 0 (claimLine 0x61), .step 0 .stat])) ++
      .step 0 (.clock 0) :: [.step 0 (.rename true)] := by
    rw [oneProcess, fillAndRotate, rotateOnce]
    simp only [List.cons_append, List.append_assoc, List.nil_append]
  have honce : ∀ a ∈ appendOnce 0 (claimLine 0x61), builds a = false := by
    simp [appendOnce, builds]
  rw [hsplit]
  refine along_first ?_ (by simp [builds]) 0 le_rfl
  simp only [List.mem_cons, List.mem_append, List.mem_flatten, List.not_mem_nil, or_false]
  rintro a (rfl | (h | ⟨acts, hacts, h⟩) | rfl | rfl)
  · rfl
  · exact honce a h
  · rw [(List.mem_replicate.mp hacts).2] at h
    exact honce a h
  · rfl
  · rfl

/-- One process that rotates keeps its lines. -/
theorem lines_of_family_oneProcess : ∃ s,
    Machine.run (worldStep recordFilename fun _ => 7) World.empty oneProcess = some s ∧
      (familyLines recordFilename s).Perm s.written :=
  ⟨_, run_oneProcess, lines_of_family recordFilename_ne_nil newline_not_mem_recordFilename
    along_oneProcess run_oneProcess⟩

/-- When the first process is gone, a second one with its pid does the same while the clock stands
still. -/
def twoProcesses : List Action :=
  oneProcess ++ [.exit 0, .start 1] ++ fillAndRotate 1 (claimLine 0x62) 4228 0

/-- The rotation of the second process takes the name of the first generation, whose lines are
gone. -/
theorem generation_overwritten : ∃ s,
    Machine.run (worldStep recordFilename fun _ => 7) World.empty twoProcesses = some s ∧
      claimLine 0x61 ∈ s.written ∧ claimLine 0x61 ∉ familyLines recordFilename s := by
  have hmiddle : Machine.run (worldStep recordFilename fun _ => 7) filledOnce
      [.exit 0, .start 1] =
      some { filledOnce with running := [1], started := [1, 0], tasks := [] } := by
    rfl
  have hnone : filledOnce.dir.get recordFilename = none := by decide
  have hfill := run_fillAndRotate recordFilename (fun _ => 7)
    { filledOnce with running := [1], started := [1, 0], tasks := [] } (List.mem_singleton_self 1)
    isLine_claimLine.2 hnone (n := 4228) (by rw [length_claimLine.2]; decide)
    (by rw [length_claimLine.2]; decide) 0
  refine ⟨_, Machine.run_append_eq_some.mpr ⟨_, Machine.run_append_eq_some.mpr
    ⟨_, run_oneProcess, hmiddle⟩, hfill⟩, ?_, ?_⟩
  · refine List.mem_append_right _ (List.mem_replicate.mpr ⟨by decide, rfl⟩)
  · intro hmem
    have hentries : ∀ e ∈ (replaceName recordFilename (rotatedName recordFilename 0 7 0)
        (filledOnce.dir.set recordFilename 1)).entries, e.2 = 1 := by decide
    have hclosed : ∀ c ∈ List.replicate 4229 (claimLine 0x62), Closed c := fun c hc => by
      rw [(List.mem_replicate.mp hc).2]
      exact closed_of_isLine isLine_claimLine.2
    rw [familyLines, iterCompleteLines_flatten_closed, List.mem_flatMap] at hmem
    · obtain ⟨content, hcontent, hline⟩ := hmem
      obtain ⟨e, he, rfl⟩ := List.mem_map.mp hcontent
      rw [hentries e (Table.get_eq_some_iff.mp (get_of_mem_discoverFamily he))] at hline
      change claimLine 0x61 ∈
        iterCompleteLines (List.replicate 4229 (claimLine 0x62)).flatten at hline
      rw [iterCompleteLines_flatten fun l hl => ⟨hclosed l hl, by
        rw [(List.mem_replicate.mp hl).2]
        exact isLine_claimLine.2⟩] at hline
      exact claimLine_ne (List.mem_replicate.mp hline).2
    · intro content hcontent
      obtain ⟨e, he, rfl⟩ := List.mem_map.mp hcontent
      rw [hentries e (Table.get_eq_some_iff.mp (get_of_mem_discoverFamily he))]
      exact closed_flatten hclosed

end Touch

end CoordinatorCore
