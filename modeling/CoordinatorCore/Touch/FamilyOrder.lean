import CoordinatorCore.Touch.Fold
import CoordinatorCore.Touch.Rotation
import Mathlib.Data.List.Dedup

/-!
# The order of a family

A reader goes through the generations of a sink by their keys and takes the last event on a path
for the newest one. The keys are made before the rename and say nothing about it, and an append
that has opened the sink before a rename writes to the generation behind it. `KeepsOrder` says of
one step when the reader is still right behind it, and a run shows the newest event on every path
in each of its states exactly when its steps all keep the order (`newest_last_iff`).
-/

namespace CoordinatorCore

namespace Touch

/-! ### Sorting one more element -/

section Sorting

variable {α : Type*} {le : α → α → Bool}

/-- A sorted list is cut where its elements pass a bound. -/
private theorem filter_append_filter (trans : ∀ a b c, le a b → le b c → le a c) (x : α)
    {l : List α} (h : l.Pairwise fun a b => le a b) :
    l.filter (fun a => le a x) ++ l.filter (fun a => !le a x) = l := by
  induction l with
  | nil => rfl
  | cons a l ih =>
    obtain ⟨ha, hl⟩ := List.pairwise_cons.mp h
    by_cases hax : le a x = true
    · rw [List.filter_cons_of_pos (p := fun a => le a x) hax,
        List.filter_cons_of_neg (p := fun a => !le a x) (by simpa using hax), List.cons_append,
        ih hl]
    · have hnone : l.filter (fun a => le a x) = [] := by
        rw [List.filter_eq_nil_iff]
        exact fun b hb hbx => hax (trans a b x (ha b hb) hbx)
      have hall : l.filter (fun a => !le a x) = l := by
        have := ih hl
        rwa [hnone, List.nil_append] at this
      rw [List.filter_cons_of_neg (p := fun a => le a x) hax, hnone,
        List.filter_cons_of_pos (p := fun a => !le a x) (by simpa using hax), hall,
        List.nil_append]

/-- One more element is sorted in between those below it and those above it. -/
private theorem mergeSort_concat (trans : ∀ a b c, le a b → le b c → le a c)
    (total : ∀ a b, le a b || le b a) {l : List α} {x : α}
    (anti : ∀ a ∈ l ++ [x], ∀ b ∈ l ++ [x], le a b → le b a → a = b) :
    (l ++ [x]).mergeSort le = (l.mergeSort le).filter (fun a => le a x) ++
      x :: (l.mergeSort le).filter (fun a => !le a x) := by
  have hsorted := List.pairwise_mergeSort trans total l
  have hperm : ((l ++ [x]).mergeSort le).Perm ((l.mergeSort le).filter (fun a => le a x) ++
      x :: (l.mergeSort le).filter (fun a => !le a x)) := by
    refine (List.mergeSort_perm ..).trans ((List.perm_append_singleton x l).trans ?_)
    refine List.Perm.trans ?_ List.perm_middle.symm
    rw [filter_append_filter trans x hsorted]
    exact (List.mergeSort_perm l le).symm.cons x
  refine hperm.eq_of_pairwise ?_ (List.pairwise_mergeSort trans total _) ?_
  · intro a b ha hb
    exact anti a (List.mem_mergeSort.mp ha) b (List.mem_mergeSort.mp (hperm.mem_iff.mpr hb))
  · refine List.pairwise_append.mpr ⟨hsorted.filter _, ?_, fun a ha b hb => ?_⟩
    · refine List.pairwise_cons.mpr ⟨fun b hb => ?_, hsorted.filter _⟩
      have hb' : le b x = false := by simpa using (List.mem_filter.mp hb).2
      simpa [hb'] using total x b
    · have hax : le a x = true := (List.mem_filter.mp ha).2
      rcases List.mem_cons.mp hb with rfl | hb
      · exact hax
      · have hb' : le b x = false := by simpa using (List.mem_filter.mp hb).2
        exact trans a x b hax (by simpa [hb'] using total x b)

end Sorting

/-! ### Events in the order of a reader -/

/-- The events that lines decode to. A malformed line says nothing. -/
def eventsOf (lines : List Bytes) : List TouchEvent :=
  lines.filterMap fun l => (decodeLine l).toOption

/-- The events of a file. -/
def World.eventsIn (s : World) (f : Nat) : List TouchEvent :=
  eventsOf (iterCompleteLines (s.files.getD f []))

/-- The files of a family, in the order of a reader. -/
def familyIds (name : Text) (dir : Table Text Nat) : List Nat :=
  (discoverFamily name dir).map Prod.snd

/-- The files that a reader finds behind a file. -/
def behind (f : Nat) (ids : List Nat) : List Nat := (ids.dropWhile fun g => g ≠ f).tail

/-- The order of the entries of a sink. -/
def entryLe (a b : (Nat × Nat × Nat) × Text × Nat) : Bool := generationLe a.1 b.1

/-- The generations with a key above another. -/
def newerGenerations (name : Text) (key : Nat × Nat × Nat) (dir : Table Text Nat) : List Nat :=
  (((rotatedEntries name dir).mergeSort entryLe).filter fun e => !generationLe e.1 key).map
    fun e => e.2.2

/-- On every path the reader reports the event whose write completed last. -/
def NewestLast (name : Text) (s : World) : Prop :=
  ∀ p, (claimsOf (eventsOf (familyLines name s))).get p = lastOn p (eventsOf s.written.reverse)

/-- The step keeps the order. A write puts its event on a path behind the other events on it: no
file that is read behind the opened one has another. A rename puts a file in front of no newer
generation that has another event on one of its paths. -/
def KeepsOrder (name : Text) (s : World) : Action → Prop
  | .step k .write => ∀ a, s.tasks[k]? = some a → ∀ f, a.phase = .write f →
      ∀ e, decodeLine a.line = .ok e →
        ∀ e' ∈ lastOn e.path ((behind f (familyIds name s.dir)).flatMap s.eventsIn), e' = e
  | .step k (.rename true) => ∀ a, s.tasks[k]? = some a → ∀ target, a.phase = .rename target →
      ∀ f, s.dir.get name = some f → ∀ key, generation name target = some key →
        ∀ p, ∀ e ∈ lastOn p (s.eventsIn f),
          ∀ e' ∈ lastOn p ((newerGenerations name key s.dir).flatMap s.eventsIn), e' = e
  | _ => True

/-- Events are read line by line. -/
theorem eventsOf_append (a b : List Bytes) : eventsOf (a ++ b) = eventsOf a ++ eventsOf b :=
  List.filterMap_append

theorem eventsOf_flatMap {α : Type*} (f : α → List Bytes) (l : List α) :
    eventsOf (l.flatMap f) = l.flatMap fun x => eventsOf (f x) := by
  induction l with
  | nil => rfl
  | cons x l ih => rw [List.flatMap_cons, List.flatMap_cons, eventsOf_append, ih]

section

variable {name : Text} {pid : Nat → Nat} {s s' : World}

/-- The events of a family are those of its files. -/
theorem eventsOf_familyLines (hne : name ≠ []) (hnl : '\n' ∉ name) (h : Sound name pid s) :
    eventsOf (familyLines name s) = (familyIds name s.dir).flatMap s.eventsIn := by
  rw [familyLines_eq hne hnl h, eventsOf_flatMap, familyIds, List.flatMap_map]
  rfl

/-- The newest event is last when the family, in the order of its names, ends as the writes did. -/
theorem newestLast_iff (hne : name ≠ []) (hnl : '\n' ∉ name) (h : Sound name pid s) :
    NewestLast name s ↔ ∀ p, lastOn p ((familyIds name s.dir).flatMap s.eventsIn) =
      lastOn p (eventsOf s.written.reverse) := by
  rw [NewestLast, eventsOf_familyLines hne hnl h]
  simp only [get_claimsOf]

/-- Steps that leave the events of the files, their order and the completed writes alone. -/
private theorem newestLast_congr (hne : name ≠ []) (hnl : '\n' ∉ name) (h : Sound name pid s)
    (h' : Sound name pid s')
    (hids : (familyIds name s'.dir).flatMap s'.eventsIn = (familyIds name s.dir).flatMap s.eventsIn)
    (hwritten : s'.written = s.written) : NewestLast name s' ↔ NewestLast name s := by
  rw [newestLast_iff hne hnl h, newestLast_iff hne hnl h', hids, hwritten]

/-! ### A write -/

theorem lastOn_singleton (p : PyStr) (e : TouchEvent) :
    lastOn p [e] = if e.path = p then some e else none := by
  rw [lastOn, List.reverse_singleton, List.find?_singleton]
  by_cases hp : e.path = p <;> simp [hp]

/-- A list with an element is what is in front of it, the element and what is behind it. -/
private theorem exists_behind {f : Nat} {ids : List Nat} (hnodup : ids.Nodup) (hf : f ∈ ids) :
    ∃ front, ids = front ++ f :: behind f ids ∧ f ∉ front ∧ f ∉ behind f ids := by
  induction ids with
  | nil => cases hf
  | cons g ids ih =>
    obtain ⟨hg, hnodup⟩ := List.nodup_cons.mp hnodup
    by_cases hgf : g = f
    · subst hgf
      have hbehind : behind g (g :: ids) = ids := by simp [behind]
      exact ⟨[], by rw [hbehind]; rfl, List.not_mem_nil, by rwa [hbehind]⟩
    · have hbehind : behind f (g :: ids) = behind f ids := by simp [behind, hgf]
      obtain ⟨front, hids, hfront, hrest⟩ :=
        ih hnodup ((List.mem_cons.mp hf).resolve_left fun h => hgf h.symm)
      rw [hbehind]
      refine ⟨g :: front, congrArg (g :: ·) hids, ?_, hrest⟩
      exact List.not_mem_cons_of_ne_of_not_mem (fun h => hgf h.symm) hfront

private theorem familyIds_perm (hne : name ≠ []) (hnl : '\n' ∉ name) (h : Sound name pid s) :
    (familyIds name s.dir).Perm (List.range s.files.length) :=
  ((discoverFamily_perm hne hnl h).map Prod.snd).trans h.named

/-- The events of the files behind a write. -/
private theorem eventsIn_writeTo (h : Sound name pid s) {k : Nat} {a : Append}
    (ha : s.tasks[k]? = some a) {f : Nat} (hphase : a.phase = .write f) (g : Nat) :
    (s.writeTo k a f).eventsIn g =
      if g = f then s.eventsIn f ++ eventsOf [a.line] else s.eventsIn g := by
  have hatask := List.mem_of_getElem? ha
  have hf := h.opened a hatask f hphase
  rw [World.eventsIn, World.writeTo, List.getD_eq_getElem?_getD, List.getElem?_modify]
  by_cases hg : g = f
  · subst hg
    have hclosed : Closed s.files[g] := h.closed _ (List.getElem_mem hf)
    rw [if_pos rfl, World.eventsIn, List.getD_eq_getElem?_getD, List.getElem?_eq_getElem hf]
    simp only [if_true, Option.map_eq_map, Option.map_some, Option.getD_some]
    rw [iterCompleteLines_append hclosed, h.whole a hatask, eventsOf_append]
  · have hg' : ¬ f = g := fun h => hg h.symm
    simp [hg, hg', World.eventsIn, List.getD_eq_getElem?_getD]

private theorem flatMap_writeTo_of_not_mem (h : Sound name pid s) {k : Nat} {a : Append}
    (ha : s.tasks[k]? = some a) {f : Nat} (hphase : a.phase = .write f) {ids : List Nat}
    (hids : f ∉ ids) :
    ids.flatMap (s.writeTo k a f).eventsIn = ids.flatMap s.eventsIn := by
  refine List.flatMap_congr fun g hg => ?_
  rw [eventsIn_writeTo h ha hphase, if_neg fun heq => hids (by rw [← heq]; exact hg)]

/-- A write is read last on its path when no file behind it has another event there. -/
private theorem newestLast_writeTo (hne : name ≠ []) (hnl : '\n' ∉ name) (h : Sound name pid s)
    {k : Nat} {a : Append} (ha : s.tasks[k]? = some a) {f : Nat} (hphase : a.phase = .write f)
    (h' : Sound name pid (s.writeTo k a f)) (hnewest : NewestLast name s) :
    NewestLast name (s.writeTo k a f) ↔ KeepsOrder name s (.step k .write) := by
  have hperm := familyIds_perm hne hnl h
  have hf : f ∈ familyIds name s.dir :=
    hperm.mem_iff.mpr (List.mem_range.mpr (h.opened a (List.mem_of_getElem? ha) f hphase))
  obtain ⟨front, hids, hfront, hbehind⟩ :=
    exists_behind (hperm.nodup_iff.mpr List.nodup_range) hf
  -- the line written may only be followed by events that agree with it on its path
  have hkeeps : KeepsOrder name s (.step k .write) ↔ ∀ e, decodeLine a.line = .ok e →
      ∀ e' ∈ lastOn e.path ((behind f (familyIds name s.dir)).flatMap s.eventsIn), e' = e := by
    constructor
    · exact fun hk => hk a ha f hphase
    · intro hk a' ha' f' hphase'
      obtain rfl := Option.some.inj (ha.symm.trans ha')
      obtain rfl := Phase.write.inj (hphase.symm.trans hphase')
      exact hk
  rw [newestLast_iff hne hnl h] at hnewest
  rw [newestLast_iff hne hnl h', hkeeps]
  have hdir : (s.writeTo k a f).dir = s.dir := rfl
  have hwritten : (s.writeTo k a f).written.reverse = s.written.reverse ++ [a.line] :=
    List.reverse_cons
  rw [hdir, hwritten, eventsOf_append]
  generalize familyIds name s.dir = ids at hids hbehind hnewest ⊢
  -- the file grows in its place; what stands behind it is read later
  have hflat : ids.flatMap (s.writeTo k a f).eventsIn = front.flatMap s.eventsIn ++
      (s.eventsIn f ++ eventsOf [a.line] ++ (behind f ids).flatMap s.eventsIn) := by
    conv_lhs => rw [hids]
    rw [List.flatMap_append, List.flatMap_cons, flatMap_writeTo_of_not_mem h ha hphase hfront,
      flatMap_writeTo_of_not_mem h ha hphase hbehind, eventsIn_writeTo h ha hphase, if_pos rfl]
  have hold : ids.flatMap s.eventsIn = front.flatMap s.eventsIn ++
      (s.eventsIn f ++ (behind f ids).flatMap s.eventsIn) := by
    conv_lhs => rw [hids]
    rw [List.flatMap_append, List.flatMap_cons]
  rw [hflat]
  rw [hold] at hnewest
  generalize (behind f ids).flatMap s.eventsIn = rest at hnewest ⊢
  -- a line that does not decode gives no event
  cases hd : decodeLine a.line with
  | error e =>
    have hnil : eventsOf [a.line] = [] := by simp [eventsOf, hd, Except.toOption]
    rw [hnil, List.append_nil, List.append_nil]
    exact iff_of_true hnewest fun e he => nomatch he
  | ok e =>
    have hone : eventsOf [a.line] = [e] := by simp [eventsOf, hd, Except.toOption]
    rw [hone]
    simp only [lastOn_append, lastOn_singleton] at hnewest ⊢
    constructor
    · intro hlast d hd' e' he'
      obtain rfl := Except.ok.inj hd'
      have := hlast e.path
      rw [if_pos rfl, Option.mem_def.mp he'] at this
      exact Option.some.inj this
    · intro hrest p
      by_cases hp : e.path = p
      · subst hp
        cases hr : lastOn e.path rest with
        | none => simp
        | some e' => simp [hrest e rfl e' hr]
      · simpa [hp] using hnewest p

/-! ### A rename -/

private theorem entryLe_trans (a b c : (Nat × Nat × Nat) × Text × Nat) (hab : entryLe a b = true)
    (hbc : entryLe b c = true) : entryLe a c = true := by
  simp only [entryLe, generationLe, Bool.or_eq_true, Bool.and_eq_true, decide_eq_true_eq,
    beq_iff_eq] at *
  omega

private theorem entryLe_total (a b : (Nat × Nat × Nat) × Text × Nat) :
    (entryLe a b || entryLe b a) = true := by
  simp only [entryLe, generationLe, Bool.or_eq_true, Bool.and_eq_true, decide_eq_true_eq,
    beq_iff_eq]
  omega

private theorem key_eq_of_entryLe {a b : (Nat × Nat × Nat) × Text × Nat}
    (hab : entryLe a b = true) (hba : entryLe b a = true) : a.1 = b.1 := by
  simp only [entryLe, generationLe, Bool.or_eq_true, Bool.and_eq_true, decide_eq_true_eq,
    beq_iff_eq] at hab hba
  exact Prod.ext (by omega) (Prod.ext (by omega) (by omega))

/-- The rotated entries are the files with a generation. -/
theorem mem_rotatedEntries {dir : Table Text Nat} {x : (Nat × Nat × Nat) × Text × Nat} :
    x ∈ rotatedEntries name dir ↔ x.2 ∈ dir.entries ∧ generation name x.2.1 = some x.1 := by
  rw [rotatedEntries, List.mem_filterMap]
  constructor
  · rintro ⟨e, he, hx⟩
    obtain ⟨g, hg, rfl⟩ := Option.map_eq_some_iff.mp hx
    exact ⟨he, hg⟩
  · rintro ⟨he, hg⟩
    exact ⟨x.2, he, by rw [hg]; rfl⟩

/-- In a sound sink a key names one generation. -/
private theorem entry_eq_of_key (hne : name ≠ []) (hnl : '\n' ∉ name) (h : Sound name pid s)
    {a b : (Nat × Nat × Nat) × Text × Nat} (ha : a ∈ rotatedEntries name s.dir)
    (hb : b ∈ rotatedEntries name s.dir) (hkey : a.1 = b.1) : a = b := by
  have hname : ∀ x ∈ rotatedEntries name s.dir, ∃ ts pid seq : Nat,
      x.1 = (ts, pid, seq) ∧ x.2.1 = rotatedName name ts pid seq := by
    intro x hx
    obtain ⟨hmem, hgen⟩ := mem_rotatedEntries.mp hx
    rcases h.known x.2.1 (List.mem_map_of_mem hmem) with heq | ⟨c, -, ts, -, heq⟩
    · rw [heq, generation_self] at hgen
      cases hgen
    · rw [heq, generation_rotatedName hne hnl] at hgen
      exact ⟨ts, _, _, (Option.some.inj hgen).symm, heq⟩
  obtain ⟨ts, q, seq, hka, hna⟩ := hname a ha
  obtain ⟨ts', q', seq', hkb, hnb⟩ := hname b hb
  have hnames : a.2.1 = b.2.1 := by
    rw [hka, hkb, Prod.mk.injEq, Prod.mk.injEq] at hkey
    rw [hna, hnb, hkey.1, hkey.2.1, hkey.2.2]
  have hga := Table.get_eq_some_iff.mpr (mem_rotatedEntries.mp ha).1
  have hgb := Table.get_eq_some_iff.mpr (mem_rotatedEntries.mp hb).1
  rw [hnames] at hga
  exact Prod.ext hkey (Prod.ext hnames (Option.some.inj (hga.symm.trans hgb)))

/-- What a rename adds to the generations of a sink. -/
private theorem rotatedEntries_replaceName {target : Text} {f : Nat} {dir : Table Text Nat}
    {key : Nat × Nat × Nat} (hget : dir.get name = some f) (hfree : target ∉ dir.keys)
    (hkey : generation name target = some key) :
    rotatedEntries name (replaceName name target dir) =
      rotatedEntries name dir ++ [(key, target, f)] := by
  have hlast : [(target, f)].filterMap (fun e => (generation name e.1).map fun g => (g, e)) =
      [(key, target, f)] := by
    rw [List.filterMap_cons, hkey]
    rfl
  rw [rotatedEntries, replaceName_of_live hget hfree, List.filterMap_append, hlast]
  change (dir.entries.filter _).filterMap _ ++ _ = _
  rw [List.filterMap_filter, rotatedEntries]
  congr 1
  refine List.filterMap_congr fun e _ => ?_
  by_cases he : e.1 = name
  · rw [he, generation_self]
    simp
  · simp [he]

private theorem flatMap_familyIds {γ : Type*} (events : Nat → List γ) (dir : Table Text Nat) :
    (familyIds name dir).flatMap events =
      ((rotatedEntries name dir).mergeSort entryLe).flatMap (fun e => events e.2.2) ++
        (dir.get name).toList.flatMap events := by
  rw [familyIds, discoverFamily, List.map_append, List.flatMap_append, rotatedFiles, List.map_map,
    List.flatMap_map]
  cases dir.get name <;> rfl

/-- Two lists of events change places with nothing lost on any path when they agree on the paths
they share. -/
private theorem lastOn_swap (front a b : List TouchEvent) :
    (∀ p, lastOn p (front ++ (a ++ b)) = lastOn p (front ++ (b ++ a))) ↔
      ∀ p, ∀ e ∈ lastOn p a, ∀ e' ∈ lastOn p b, e' = e := by
  refine forall_congr' fun p => ?_
  simp only [lastOn_append]
  cases lastOn p a with
  | none => cases lastOn p b <;> simp
  | some e =>
    cases lastOn p b with
    | none => simp
    | some e' => simp

/-- A rename keeps the order when no generation with a larger key has another event on a path of the
live file. -/
private theorem newestLast_rename (hne : name ≠ []) (hnl : '\n' ∉ name) (h : Sound name pid s)
    {k : Nat} {a : Append} (ha : s.tasks[k]? = some a) {target : Text}
    (hphase : a.phase = .rename target) {f : Nat} (hget : s.dir.get name = some f)
    (h' : Sound name pid { s.goOn k a .open_ with dir := replaceName name target s.dir })
    (hnewest : NewestLast name s) :
    NewestLast name { s.goOn k a .open_ with dir := replaceName name target s.dir } ↔
      KeepsOrder name s (.step k (.rename true)) := by
  have htarget : target ∈ targets s :=
    List.mem_filterMap.mpr ⟨a, List.mem_of_getElem? ha, by rw [target?, hphase]⟩
  have hfree : target ∉ s.dir.keys := fun hmem =>
    List.disjoint_of_nodup_append h.fresh hmem htarget
  obtain ⟨b, -, ts, -, hbuilt⟩ := h.pending target htarget
  obtain ⟨key, hkey⟩ : ∃ key, generation name target = some key :=
    ⟨_, by rw [hbuilt]; exact generation_rotatedName hne hnl ..⟩
  -- the renamed file may not stand behind newer generations that change what it says last
  have hkeeps : KeepsOrder name s (.step k (.rename true)) ↔ ∀ p, ∀ e ∈ lastOn p (s.eventsIn f),
      ∀ e' ∈ lastOn p ((newerGenerations name key s.dir).flatMap s.eventsIn), e' = e := by
    constructor
    · exact fun hk => hk a ha target hphase f hget key hkey
    · intro hk a' ha' target' hphase' f' hget' key' hkey'
      obtain rfl := Option.some.inj (ha.symm.trans ha')
      obtain rfl := Phase.rename.inj (hphase.symm.trans hphase')
      obtain rfl := Option.some.inj (hget.symm.trans hget')
      obtain rfl := Option.some.inj (hkey.symm.trans hkey')
      exact hk
  have hentries := rotatedEntries_replaceName hget hfree hkey
  -- the keys tell the rotated files apart, so the sorted list is determined
  have hanti : ∀ x ∈ rotatedEntries name s.dir ++ [(key, target, f)],
      ∀ y ∈ rotatedEntries name s.dir ++ [(key, target, f)],
        entryLe x y = true → entryLe y x = true → x = y := by
    rw [← hentries]
    exact fun x hx y hy hxy hyx => entry_eq_of_key hne hnl h' hx hy (key_eq_of_entryLe hxy hyx)
  have hsort := mergeSort_concat entryLe_trans entryLe_total hanti
  have hcut := filter_append_filter entryLe_trans (key, target, f)
    (List.pairwise_mergeSort entryLe_trans entryLe_total (rotatedEntries name s.dir))
  have hnone : (replaceName name target s.dir).get name = none := by
    rw [replaceName, hget]
    dsimp only
    rw [Table.get_set, Table.get_erase, if_pos rfl]
    exact if_neg fun heq => hfree (by rw [← heq]; exact Table.mem_keys_iff.mpr ⟨f, hget⟩)
  -- before the rename the live file is read last, behind the newer generations
  have hold : (familyIds name s.dir).flatMap s.eventsIn =
      (((rotatedEntries name s.dir).mergeSort entryLe).filter fun e =>
        entryLe e (key, target, f)).flatMap (fun e => s.eventsIn e.2.2) ++
      ((newerGenerations name key s.dir).flatMap s.eventsIn ++ s.eventsIn f) := by
    rw [flatMap_familyIds, hget, Option.toList_some, List.flatMap_singleton, newerGenerations,
      List.flatMap_map, ← List.append_assoc]
    conv_lhs => rw [← hcut, List.flatMap_append]
    rfl
  -- after it the file stands at its key
  have hnew : (familyIds name (replaceName name target s.dir)).flatMap s.eventsIn =
      (((rotatedEntries name s.dir).mergeSort entryLe).filter fun e =>
        entryLe e (key, target, f)).flatMap (fun e => s.eventsIn e.2.2) ++
      (s.eventsIn f ++ (newerGenerations name key s.dir).flatMap s.eventsIn) := by
    rw [flatMap_familyIds, hentries, hsort, List.flatMap_append, List.flatMap_cons, hnone,
      newerGenerations, List.flatMap_map]
    exact List.append_nil _
  rw [newestLast_iff hne hnl h] at hnewest
  rw [newestLast_iff hne hnl h', hkeeps, ← lastOn_swap
    ((((rotatedEntries name s.dir).mergeSort entryLe).filter fun e =>
        entryLe e (key, target, f)).flatMap fun e => s.eventsIn e.2.2)]
  change (∀ p, lastOn p ((familyIds name (replaceName name target s.dir)).flatMap s.eventsIn) =
    lastOn p (eventsOf s.written.reverse)) ↔ _
  simp only [← hnewest, hold, hnew]

/-! ### Runs -/

private theorem eventsIn_create (name : Text) (g : Nat) : (s.create name).eventsIn g = s.eventsIn g := by
  unfold World.create
  split
  · rfl
  · have hfile : (s.files ++ [[]]).getD g [] = s.files.getD g [] := by
      simp only [List.getD_eq_getElem?_getD]
      rcases Nat.lt_trichotomy g s.files.length with hg | rfl | hg
      · rw [List.getElem?_append_left hg]
      · simp
      · rw [List.getElem?_eq_none (by rw [List.length_append]; exact hg),
          List.getElem?_eq_none (Nat.le_of_lt hg)]
    rw [World.eventsIn, World.eventsIn, hfile]

/-- An open lists the sink, which has no events yet. -/
private theorem flatMap_create :
    (familyIds name (s.create name).dir).flatMap (s.create name).eventsIn =
      (familyIds name s.dir).flatMap s.eventsIn := by
  rw [List.flatMap_congr fun g _ => eventsIn_create name g]
  unfold World.create
  split
  · rfl
  · next hnone =>
    have hrotated : rotatedEntries name (s.dir.set name s.files.length) =
        rotatedEntries name s.dir := by
      rw [rotatedEntries, Table.entries_set_of_not_mem (Table.get_eq_none_iff.mp hnone),
        List.filterMap_append, List.filterMap_cons, generation_self]
      exact List.append_nil _
    have hempty : s.eventsIn s.files.length = [] := by
      rw [World.eventsIn, List.getD_eq_getElem?_getD, List.getElem?_eq_none le_rfl]
      rfl
    dsimp only
    rw [flatMap_familyIds, flatMap_familyIds, hrotated, Table.get_set_self, hnone,
      Option.toList_some, List.flatMap_singleton, hempty]
    rfl

/-- A step of an append keeps the newest event on every path last exactly when it keeps the
order. -/
private theorem newestLast_appendStep (hne : name ≠ []) (hnl : '\n' ∉ name)
    (h : Sound name pid s) (h' : Sound name pid s') {k : Nat} {a : Append}
    (ha : s.tasks[k]? = some a) {move : Move} (hstep : appendStep name pid s k a move = some s')
    (hnewest : NewestLast name s) : NewestLast name s' ↔ KeepsOrder name s (.step k move) := by
  unfold appendStep at hstep
  split at hstep
  · rw [← Option.some.inj hstep] at h' ⊢
    exact iff_of_true ((newestLast_congr hne hnl h h' rfl rfl).mpr hnewest) trivial
  · rw [← Option.some.inj hstep] at h' ⊢
    exact iff_of_true ((newestLast_congr hne hnl h h' rfl rfl).mpr hnewest) trivial
  · next target done hphase =>
    rw [← Option.some.inj hstep] at h' ⊢
    cases done with
    | false => exact iff_of_true ((newestLast_congr hne hnl h h' rfl rfl).mpr hnewest) trivial
    | true =>
      cases hget : s.dir.get name with
      | some f => exact newestLast_rename hne hnl h ha hphase hget h' hnewest
      | none =>
        have hdir : replaceName name target s.dir = s.dir := by rw [replaceName, hget]
        rw [if_pos rfl, hdir] at h' ⊢
        refine iff_of_true ((newestLast_congr hne hnl h h' rfl rfl).mpr hnewest) ?_
        intro _ _ _ _ f hf
        cases hget.symm.trans hf
  · obtain ⟨f, -, rfl⟩ := Option.map_eq_some_iff.mp hstep
    refine iff_of_true ((newestLast_congr hne hnl h h' flatMap_create ?_).mpr hnewest) trivial
    unfold World.create
    split <;> rfl
  · next f hphase =>
    rw [← Option.some.inj hstep] at h' ⊢
    exact newestLast_writeTo hne hnl h ha hphase h' hnewest
  · cases hstep

/-- Every step with a fresh name keeps the newest event on every path last exactly when it keeps the
order. -/
theorem newestLast_step (hne : name ≠ []) (hnl : '\n' ∉ name) {act : Action}
    (hfresh : FreshName pid s act) (h : Sound name pid s) (hnewest : NewestLast name s)
    (hstep : worldStep name pid s act = some s') : NewestLast name s' ↔ KeepsOrder name s act := by
  have h' := sound_step hne hnl hfresh h hstep
  cases act with
  | start i =>
    rw [worldStep] at hstep
    split_ifs at hstep
    rw [← Option.some.inj hstep] at h' ⊢
    exact iff_of_true ((newestLast_congr hne hnl h h' rfl rfl).mpr hnewest) trivial
  | exit i =>
    rw [worldStep] at hstep
    split_ifs at hstep
    rw [← Option.some.inj hstep] at h' ⊢
    exact iff_of_true ((newestLast_congr hne hnl h h' rfl rfl).mpr hnewest) trivial
  | begin_ i line =>
    rw [worldStep] at hstep
    split_ifs at hstep
    rw [← Option.some.inj hstep] at h' ⊢
    exact iff_of_true ((newestLast_congr hne hnl h h' rfl rfl).mpr hnewest) trivial
  | step k move =>
    obtain ⟨a, ha, hmove⟩ := Option.bind_eq_some_iff.mp hstep
    exact newestLast_appendStep hne hnl h h' ha hmove hnewest

/-- A step that is impossible keeps the order. -/
private theorem keepsOrder_of_impossible {act : Action} (h : worldStep name pid s act = none) :
    KeepsOrder name s act := by
  unfold KeepsOrder
  split
  · intro a ha f hphase
    simp [worldStep, ha, appendStep, hphase] at h
  · intro a ha target hphase
    simp [worldStep, ha, appendStep, hphase] at h
  · trivial

private theorem newestLast_empty (hne : name ≠ []) (hnl : '\n' ∉ name) (pid : Nat → Nat) :
    NewestLast name World.empty := by
  have hrotated : rotatedEntries name World.empty.dir = [] := rfl
  have hget : World.empty.dir.get name = none := rfl
  rw [newestLast_iff hne hnl (sound_empty name pid), flatMap_familyIds, hrotated, hget,
    List.mergeSort_nil]
  exact fun _ => rfl

end

/-- In a run whose rotated names are fresh the reader reports in every state the event whose write
completed last, on every path, exactly when every step keeps the order. -/
theorem newest_last_iff {name : Text} (hne : name ≠ []) (hnl : '\n' ∉ name) {pid : Nat → Nat}
    {acts : List Action}
    (hfresh : Machine.Along (worldStep name pid) (FreshName pid) World.empty acts) :
    Machine.Always (worldStep name pid) (NewestLast name) World.empty acts ↔
      Machine.Along (worldStep name pid) (KeepsOrder name) World.empty acts := by
  refine Machine.always_iff_along (I := Sound name pid) ?_ ?_ ?_ hfresh (sound_empty name pid)
    (newestLast_empty hne hnl pid)
  · exact fun s act s' hfresh h hstep => sound_step hne hnl hfresh h hstep
  · exact fun s act s' hfresh h hnewest hstep => newestLast_step hne hnl hfresh h hnewest hstep
  · exact fun s act h => keepsOrder_of_impossible h

/-- The law on a run of one process. -/
theorem newest_last_iff_oneProcess :
    Machine.Always (worldStep recordFilename fun _ => 7) (NewestLast recordFilename) World.empty
        oneProcess ↔
      Machine.Along (worldStep recordFilename fun _ => 7) (KeepsOrder recordFilename) World.empty
        oneProcess :=
  newest_last_iff recordFilename_ne_nil newline_not_mem_recordFilename along_oneProcess

/-! ### An append that comes too late -/

/-- A line of the record: the release of a path of one character. -/
def releaseLine (c : CodePoint) : Bytes :=
  lineOf (recordOf [0x73] none Verb.release.code [c] ['1', '.', '0'] none none none)

/-- Process 1 opens the sink. An append of process 0 fills it to the bound, and the next one rotates
it and writes to the new sink. Then process 1 writes. -/
def lateWrite (late line last : Bytes) : List Action :=
  [.begin_ 1 late, .step 0 .stat, .step 0 .open_] ++ appendOnce 0 line ++
    (rotateOnce 0 last 0 ++ [.step 0 .open_, .step 0 .write, .step 0 .write])

/-- Process 0 fills the sink up to one line below the bound. It touches a path that process 1
releases in a write that comes late. -/
def touchThenRelease : List Action :=
  [.start 0, .start 1] ++ (appendOnce 0 (claimLine 0x61) ++
    (List.replicate 4227 (appendOnce 0 (claimLine 0x61))).flatten) ++
    lateWrite (releaseLine 0x62) (claimLine 0x61) (claimLine 0x62)

theorem isLine_releaseLine : IsLine (releaseLine 0x62) := by decide

/-- A sink with one file, and two processes. -/
private def oneFile (content : Bytes) (written : List Bytes) : World :=
  { World.empty with
    dir := (∅ : Table Text Nat).set recordFilename 0
    files := [content]
    running := [1, 0]
    started := [1, 0]
    written := written }

/-- The sink behind a release that came too late. -/
private def behindRelease (content : Bytes) (written : List Bytes) : World :=
  { oneFile content written with
    dir := (replaceName recordFilename (rotatedName recordFilename 0 0 0)
      ((∅ : Table Text Nat).set recordFilename 0)).set recordFilename 1
    files := [content ++ claimLine 0x61 ++ releaseLine 0x62, claimLine 0x62]
    counter := Function.update (fun _ => 0) 0 1
    written := releaseLine 0x62 :: claimLine 0x62 :: claimLine 0x61 :: written
    built := [(0, 0, 0)] }

/-- Behind a rename an append writes to the new sink and another one to the old. -/
private theorem run_twoWrites (name : Text) (pid : Nat → Nat) (s : World)
    (hnone : s.dir.get name = none) (content line late : Bytes) :
    Machine.run (worldStep name pid)
      { s with files := [content], tasks := [⟨0, line, .open_⟩, ⟨1, late, .write 0⟩] }
      [.step 0 .open_, .step 0 .write, .step 0 .write] =
      some { s with
        dir := s.dir.set name 1
        files := [content ++ late, line]
        tasks := []
        written := late :: line :: s.written } := by
  have hcreate : World.create name { s with files := [content], tasks := [⟨1, late, .write 0⟩] } =
      { s with dir := s.dir.set name 1, files := [content, []], tasks := [⟨1, late, .write 0⟩] } := by
    rw [World.create, hnone]
    rfl
  have hopen := step_open name pid { s with files := [content], tasks := [⟨1, late, .write 0⟩] } 0
    line [⟨1, late, .write 0⟩] (f := 1) (by rw [hcreate]; exact Table.get_set_self ..)
  rw [hcreate] at hopen
  rw [Machine.run_cons, hopen]
  rfl

private theorem run_lateWrite {content : Bytes} {written : List Bytes}
    (hbelow : content.length < maxRecordBytes) (habove : maxRecordBytes ≤ content.length + 62) :
    Machine.run (worldStep recordFilename id) (oneFile content written)
      (lateWrite (releaseLine 0x62) (claimLine 0x61) (claimLine 0x62)) =
      some (behindRelease content written) := by
  have hget : (oneFile content written).dir.get recordFilename = some 0 := Table.get_set_self ..
  have hover : oversized recordFilename (oneFile content written) = false := by
    rw [oversized, hget]
    simpa [oneFile] using hbelow
  have hcreate : (oneFile content written).create recordFilename = oneFile content written := by
    rw [World.create, hget]
  have hopened : Machine.run (worldStep recordFilename id) (oneFile content written)
      [.begin_ 1 (releaseLine 0x62), .step 0 .stat, .step 0 .open_] =
      some { oneFile content written with tasks := [⟨1, releaseLine 0x62, .write 0⟩] } := by
    rw [Machine.run_cons, step_begin _ _ _ List.mem_cons_self isLine_releaseLine, Option.bind_some,
      Machine.run_cons, step_stat, hover, Option.bind_some, Machine.run_cons,
      if_neg Bool.false_ne_true, step_open _ _ _ _ _ _ (by rw [hcreate]; exact hget), hcreate]
    rfl
  have hfill := run_appendOnce recordFilename id
    { oneFile content written with tasks := [⟨1, releaseLine 0x62, .write 0⟩] }
    (List.mem_cons_of_mem _ List.mem_cons_self) isLine_claimLine.1 hget hover
  have hlarge : oversized recordFilename
      { oneFile (content ++ claimLine 0x61) (claimLine 0x61 :: written) with
        tasks := [⟨1, releaseLine 0x62, .write 0⟩] } = true := by
    have hget' : (oneFile (content ++ claimLine 0x61) (claimLine 0x61 :: written)).dir.get
      recordFilename = some 0 := hget
    rw [oversized, hget']
    simpa [oneFile, length_claimLine.1] using habove
  have hrotate := run_rotateOnce recordFilename id
    { oneFile (content ++ claimLine 0x61) (claimLine 0x61 :: written) with
      tasks := [⟨1, releaseLine 0x62, .write 0⟩] }
    (List.mem_cons_of_mem _ List.mem_cons_self) isLine_claimLine.2 hlarge 0
  refine Machine.run_append_eq_some.mpr ⟨_, Machine.run_append_eq_some.mpr ⟨_, hopened, hfill⟩,
    Machine.run_append_eq_some.mpr ⟨_, hrotate, ?_⟩⟩
  have hnone : (replaceName recordFilename (rotatedName recordFilename 0 0 0)
      ((∅ : Table Text Nat).set recordFilename 0)).get recordFilename = none := by decide
  exact run_twoWrites recordFilename id { behindRelease content written with
    dir := replaceName recordFilename (rotatedName recordFilename 0 0 0)
      ((∅ : Table Text Nat).set recordFilename 0)
    written := claimLine 0x61 :: written } hnone (content ++ claimLine 0x61) _ _

private theorem along_lateWrite {name : Text} {pid : Nat → Nat} {fill : List Action}
    (hfill : ∀ a ∈ fill, builds a = false) (late line last : Bytes) :
    Machine.Along (worldStep name pid) (FreshName pid) World.empty
      (fill ++ lateWrite late line last) := by
  have hsplit : fill ++ lateWrite late line last =
      (fill ++ ([.begin_ 1 late, .step 0 .stat, .step 0 .open_] ++ appendOnce 0 line ++
        [.begin_ 0 last, .step 0 .stat])) ++
      .step 0 (.clock 0) :: [.step 0 (.rename true), .step 0 .open_, .step 0 .write,
        .step 0 .write] := by
    rw [lateWrite, rotateOnce]
    simp only [List.cons_append, List.append_assoc, List.nil_append]
  rw [hsplit]
  refine along_first ?_ (by simp [builds]) 0 le_rfl
  simp only [List.mem_append, List.mem_cons, List.not_mem_nil, or_false]
  rintro a (h | (((rfl | rfl | rfl) | h) | (rfl | rfl)))
  · exact hfill a h
  · rfl
  · rfl
  · rfl
  · revert a
    simp [appendOnce, builds]
  · rfl
  · rfl

private theorem along_touchThenRelease :
    Machine.Along (worldStep recordFilename id) (FreshName id) World.empty touchThenRelease := by
  have honce : ∀ a ∈ appendOnce 0 (claimLine 0x61), builds a = false := by
    simp [appendOnce, builds]
  refine along_lateWrite (fun a ha => ?_) (releaseLine 0x62) (claimLine 0x61) (claimLine 0x62)
  rcases List.mem_append.mp ha with ha | ha
  · rcases List.mem_cons.mp ha with rfl | ha
    · rfl
    · rw [List.mem_singleton.mp ha]
      rfl
  · rcases List.mem_append.mp ha with ha | ha
    · exact honce a ha
    · obtain ⟨acts, hacts, ha⟩ := List.mem_flatten.mp ha
      rw [(List.mem_replicate.mp hacts).2] at ha
      exact honce a ha

private theorem run_touchThenRelease : ∃ content written,
    Machine.run (worldStep recordFilename id) World.empty touchThenRelease =
      some (behindRelease content written) := by
  have hstart : Machine.run (worldStep recordFilename id) World.empty [.start 0, .start 1] =
      some { World.empty with running := [1, 0], started := [1, 0] } := rfl
  have honce := run_appendOnce recordFilename id
    { World.empty with running := [1, 0], started := [1, 0] }
    (List.mem_cons_of_mem _ List.mem_cons_self) isLine_claimLine.1 (f := 0) rfl rfl
  have hmany := run_appends recordFilename id (oneFile (claimLine 0x61) [claimLine 0x61])
    (List.mem_cons_of_mem _ List.mem_cons_self) isLine_claimLine.1 (f := 0) (Table.get_set_self ..)
    (n := 4227) rfl (by rw [length_claimLine.1]; decide)
  have hlength : (claimLine 0x61 ++ (List.replicate 4227 (claimLine 0x61)).flatten).length =
      262136 := by
    rw [List.length_append, List.length_flatten, List.map_replicate, List.sum_replicate_nat,
      length_claimLine.1]
  refine ⟨claimLine 0x61 ++ (List.replicate 4227 (claimLine 0x61)).flatten,
    List.replicate 4227 (claimLine 0x61) ++ [claimLine 0x61],
    Machine.run_append_eq_some.mpr ⟨_, Machine.run_append_eq_some.mpr ⟨_, hstart,
      Machine.run_append_eq_some.mpr ⟨_, honce, hmany⟩⟩, ?_⟩⟩
  exact run_lateWrite (by rw [hlength]; decide) (by rw [hlength]; decide)

/-- The path was released last, and the reader reports the touch. -/
theorem newest_not_last : ∃ s,
    Machine.Along (worldStep recordFilename id) (FreshName id) World.empty touchThenRelease ∧
      Machine.run (worldStep recordFilename id) World.empty touchThenRelease = some s ∧
      s.written.head? = some (releaseLine 0x62) ∧
      ((claimsOf (eventsOf (familyLines recordFilename s))).get [0x62]).map (·.verb) =
        some Verb.touch ∧
      ¬ NewestLast recordFilename s := by
  obtain ⟨content, written, hrun⟩ := run_touchThenRelease
  have hsound := Machine.run_invariant_along (fun _ _ _ => sound_step recordFilename_ne_nil
    newline_not_mem_recordFilename) along_touchThenRelease (sound_empty recordFilename id) hrun
  have hids : familyIds recordFilename (behindRelease content written).dir = [0, 1] := by
    change familyIds recordFilename ((replaceName recordFilename (rotatedName recordFilename 0 0 0)
      ((∅ : Table Text Nat).set recordFilename 0)).set recordFilename 1) = _
    decide +kernel
  have htouch : (lastOn [0x62] (eventsOf (iterCompleteLines (claimLine 0x62)))).map (·.verb) =
      some Verb.touch := by decide +kernel
  have hrelease : (lastOn [0x62] (eventsOf [releaseLine 0x62])).map (·.verb) =
      some Verb.release := by decide +kernel
  have hreported : ((claimsOf (eventsOf (familyLines recordFilename
      (behindRelease content written)))).get [0x62]).map (·.verb) = some Verb.touch := by
    rw [eventsOf_familyLines recordFilename_ne_nil newline_not_mem_recordFilename hsound, hids,
      get_claimsOf, List.flatMap_cons, List.flatMap_singleton, lastOn_append]
    change ((lastOn [0x62] (eventsOf (iterCompleteLines (claimLine 0x62)))).or _).map _ = _
    obtain ⟨e, he, hverb⟩ := Option.map_eq_some_iff.mp htouch
    rw [he, Option.some_or, Option.map_some, hverb]
  refine ⟨_, along_touchThenRelease, hrun, rfl, hreported, fun hnewest => ?_⟩
  have hwritten : (lastOn [0x62] (eventsOf (behindRelease content written).written.reverse)).map
      (·.verb) = some Verb.release := by
    change (lastOn _ (eventsOf (releaseLine 0x62 :: claimLine 0x62 :: claimLine 0x61 ::
      written).reverse)).map _ = _
    rw [List.reverse_cons, eventsOf_append, lastOn_append]
    obtain ⟨e, he, hverb⟩ := Option.map_eq_some_iff.mp hrelease
    rw [he, Option.some_or, Option.map_some, hverb]
  rw [← hnewest [0x62], hreported] at hwritten
  cases hwritten

end Touch

end CoordinatorCore
