import CoordinatorCore.Machine.Run
import Mathlib.Data.Finset.Basic
import Mathlib.Data.Finset.Card
import Mathlib.Algebra.BigOperators.Group.Finset.Defs
import Mathlib.Data.Fin.VecNotation
import Mathlib.Data.Fintype.Basic
import Mathlib.Order.Preorder.Finite
import Mathlib.Algebra.GroupWithZero.Nat

/-!
# Folding packs

`flush_object_batch` and `_flush_pack` of `git/git_objects.py`, by any number of flushes of any
number of processes on one pack directory. A flush reads the marker, which names the tail pack, packs
its objects together with those of the tail, places the new pair, pack before index, removes the
old one, index before pack, and writes the marker; each of these is a step of its own, and a process
may stop in front of any of them. A small flush, and one that would get too large, writes its objects
loose.

A pack is the set of its objects: its name is the hash of its content, and the content of an entry is
determined by its object. So a pack that is removed has been outgrown: a pack that contains it, and
more, was placed before. Of the packs ever placed that contain an object a largest one has not been
outgrown, so nobody removes it, and it is whole (`Inv.exists_whole`).
-/

namespace CoordinatorCore

open Machine

namespace Git

namespace PackFold

/-! ### Flushes -/

/-- What the code computes from the objects: the lengths of a payload and of a pack entry, and the
name of a pack. -/
structure Format (ω ν : Type*) where
  payload : ω → Nat
  entry : ω → Nat
  name : Finset ω → ν

/-- `_LOOSE_BATCH_MAX`. -/
def looseBatchMax : Nat := 8

/-- `_PACK_OFFSET_LIMIT`. -/
def packOffsetLimit : Nat := 0x7fffffff

/-- `_FOLD_MAX_BYTES`. -/
def foldMaxBytes : Nat := 4 * 1024 * 1024

/-- What a flush has decided: the new pack, the marker it read, and the tail it folds. -/
structure Fold (ω ν : Type*) where
  pack : Finset ω
  tail : Option ν
  stale : List ν
  folded : Option ν
deriving DecidableEq

/-- Where a flush stands: what it does next. -/
inductive Phase (ω ν : Type*)
  | start
  | loose (rest : List ω)
  | marker
  | size (tail : ν) (stale : List ν)
  | readIdx (tail : ν) (stale : List ν)
  | readPack (tail : ν) (stale : List ν) (idx : Finset ω)
  | place (f : Fold ω ν)
  | placePack (f : Fold ω ν)
  | placeIdx (f : Fold ω ν)
  | remove (f : Fold ω ν) (rest left : List ν)
  | removePack (f : Fold ω ν) (n : ν) (rest left : List ν)
  | mark (f : Fold ω ν) (left : List ν)
  | done (packed : Bool)
  | failed
deriving DecidableEq

/-- The loose objects, the `.pack` and the `.idx` files, the marker, where the flushes stand, and
the packs that have been placed so far. -/
structure State (ι ω ν : Type*) where
  loose : Finset ω
  pack : ν → Option (Finset ω)
  idx : ν → Option (Finset ω)
  marker : Option (ν × List ν)
  phase : ι → Phase ω ν
  placed : List (Finset ω)

section

variable {ι ω ν : Type*} [DecidableEq ι] [DecidableEq ω] [DecidableEq ν] (F : Format ω ν)
  (pending : ι → List ω)

/-- `st_size` of a pack: the header, the entries and the trailer. -/
def Format.packSize (p : Finset ω) : Nat := 12 + ∑ x ∈ p, F.entry x + 20

/-- `doomed`. -/
def Fold.doomed (f : Fold ω ν) : List ν :=
  (f.stale ++ f.folded.toList).filter (· ≠ F.name f.pack)

def State.goTo (s : State ι ω ν) (i : ι) (p : Phase ω ν) : State ι ω ν :=
  { s with phase := Function.update s.phase i p }

/-- The entries are together: the objects of the flush and those of the tail. -/
def assembled (i : ι) (tail : Option ν) (stale : List ν) (fold : Option (ν × Finset ω)) :
    Phase ω ν :=
  let pack := (pending i).toFinset ∪ (fold.map Prod.snd).getD ∅
  if packOffsetLimit ≤ ∑ x ∈ pack, F.entry x then .loose (pending i)
  else .place ⟨pack, tail, stale, fold.map Prod.fst⟩

/-- The file goes away. -/
def without (files : ν → Option (Finset ω)) (n : ν) : ν → Option (Finset ω) :=
  Function.update files n none

/-- One step of a flush. The flag says whether the operating system lets it happen. -/
def step (s : State ι ω ν) (a : ι × Bool) : Option (State ι ω ν) :=
  let i := a.1
  let ok := a.2
  match s.phase i with
  | .start =>
    some (s.goTo i (if (pending i).length ≤ looseBatchMax ∨
        packOffsetLimit ≤ ((pending i).map F.payload).sum then .loose (pending i) else .marker))
  | .loose (x :: rest) =>
    if ok then some ({ s with loose := insert x s.loose }.goTo i (.loose rest))
    else some (s.goTo i .failed)
  | .loose [] => some (s.goTo i (.done false))
  | .marker =>
    match if ok then s.marker else none with
    | none => some (s.goTo i (assembled F pending i none [] none))
    | some (tail, stale) => some (s.goTo i (.size tail stale))
  | .size tail stale =>
    match if ok then s.pack tail else none with
    | some p =>
      some (s.goTo i (if F.packSize p < foldMaxBytes then .readIdx tail stale
        else assembled F pending i (some tail) stale none))
    | none => some (s.goTo i (assembled F pending i (some tail) stale none))
  | .readIdx tail stale =>
    match if ok then s.idx tail else none with
    | some p => some (s.goTo i (.readPack tail stale p))
    | none => some (s.goTo i (assembled F pending i (some tail) stale none))
  | .readPack tail stale p =>
    some (s.goTo i (assembled F pending i (some tail) stale
      (if ok ∧ s.pack tail = some p then some (tail, p) else none)))
  | .place f =>
    some (s.goTo i (if (s.idx (F.name f.pack)).isSome then .remove f (f.doomed F) []
      else .placePack f))
  | .placePack f =>
    if ok then
      some ({ s with pack := Function.update s.pack (F.name f.pack) (some f.pack) }.goTo i
        (.placeIdx f))
    else if (s.pack (F.name f.pack)).isSome then some (s.goTo i (.placeIdx f))
    else some (s.goTo i .failed)
  | .placeIdx f =>
    if ok then
      some ((⟨s.loose, s.pack, Function.update s.idx (F.name f.pack) (some f.pack), s.marker,
        s.phase, s.placed ++ [f.pack]⟩ : State ι ω ν).goTo i (.remove f (f.doomed F) []))
    else if (s.idx (F.name f.pack)).isSome then some (s.goTo i (.remove f (f.doomed F) []))
    else some (s.goTo i .failed)
  | .remove f (n :: rest) left =>
    if ok then some ({ s with idx := without s.idx n }.goTo i (.removePack f n rest left))
    else some (s.goTo i (.remove f rest (left ++ [n])))
  | .remove f [] left => some (s.goTo i (.mark f left))
  | .removePack f n rest left =>
    if ok then some ({ s with pack := without s.pack n }.goTo i (.remove f rest left))
    else some (s.goTo i (.remove f rest (left ++ [n])))
  | .mark f left =>
    if ok ∧ (some (F.name f.pack), left) ≠ (f.tail, f.stale) then
      some ({ s with marker := some (F.name f.pack, left) }.goTo i (.done true))
    else some (s.goTo i (.done true))
  | .done _ | .failed => none

/-- The file that is unlinked next is one of this name. -/
def Phase.unlinks : Phase ω ν → Option ν
  | .remove _ (n :: _) _ => some n
  | .removePack _ n _ _ => some n
  | _ => none

/-- What a flush is about to remove. -/
def Phase.removing : Phase ω ν → List ν
  | .remove _ rest _ => rest
  | .removePack _ n rest _ => n :: rest
  | _ => []

/-- Both files of the pack are there. -/
def State.Whole (s : State ι ω ν) (p : Finset ω) : Prop :=
  s.idx (F.name p) = some p ∧ s.pack (F.name p) = some p

/-- A listed pack holds the object. -/
def State.Readable (s : State ι ω ν) (x : ω) : Prop := ∃ p, s.Whole F p ∧ x ∈ p

/-- Where a flush unlinks a file of a pack, another pack is whole that contains this one, and that
no flush is about to remove. -/
def RemovesCovered (s : State ι ω ν) (a : ι × Bool) : Prop :=
  ∀ n ∈ (s.phase a.1).unlinks, ∀ p, F.name p = n →
    ∃ q, p ⊂ q ∧ s.Whole F q ∧ ∀ j, F.name q ∉ (s.phase j).removing

/-- An empty object store, and no flush yet. -/
def init : State ι ω ν := ⟨∅, fun _ => none, fun _ => none, none, fun _ => .start, []⟩

end

/-! ### Outgrown packs -/

section

variable {ι ω ν : Type*} {F : Format ω ν} {pending : ι → List ω}

/-- A pack that contains it, and more, was placed. -/
def Outgrown (placed : List (Finset ω)) (p : Finset ω) : Prop := ∃ q ∈ placed, p ⊂ q

/-- A name that nothing is lost with. -/
def Doomed (F : Format ω ν) (placed : List (Finset ω)) (n : ν) : Prop :=
  ∀ p, F.name p = n → Outgrown placed p

theorem Outgrown.mono {placed placed' : List (Finset ω)} (h : placed ⊆ placed') {p : Finset ω}
    (hp : Outgrown placed p) : Outgrown placed' p := by
  obtain ⟨q, hq, hpq⟩ := hp
  exact ⟨q, h hq, hpq⟩

theorem Doomed.mono {placed placed' : List (Finset ω)} (h : placed ⊆ placed') {n : ν}
    (hn : Doomed F placed n) : Doomed F placed' n := fun p hp => (hn p hp).mono h

variable [DecidableEq ω]

/-- Above every placed pack there is one that was not outgrown. -/
theorem exists_not_outgrown {placed : List (Finset ω)} {p : Finset ω} (hp : p ∈ placed) :
    ∃ q ∈ placed, p ⊆ q ∧ ¬ Outgrown placed q := by
  obtain ⟨q, hpq, hmax⟩ := Finset.exists_le_maximal placed.toFinset (List.mem_toFinset.mpr hp)
  refine ⟨q, List.mem_toFinset.mp hmax.prop, hpq, ?_⟩
  rintro ⟨r, hr, hqr⟩
  exact hqr.not_subset (hmax.le_of_ge (List.mem_toFinset.mpr hr) hqr.subset)

/-! ### The invariant -/

/-- What a flush has decided fits: it packs its own objects, it folds what it contains, and what the
marker left to remove was outgrown. -/
structure FoldOk (F : Format ω ν) (placed : List (Finset ω)) (own : List ω) (f : Fold ω ν) :
    Prop where
  own : own.toFinset ⊆ f.pack
  stale : ∀ n ∈ f.stale, Doomed F placed n
  folded : ∀ n ∈ f.folded, ∃ p, F.name p = n ∧ p ⊆ f.pack

/-- The new pack was placed, and nothing is lost with what is left to remove. -/
structure Placed (F : Format ω ν) (placed : List (Finset ω)) (own : List ω) (f : Fold ω ν)
    (names : List ν) : Prop where
  own : own.toFinset ⊆ f.pack
  mem : f.pack ∈ placed
  names : ∀ n ∈ names, Doomed F placed n

/-- What holds of a flush, by where it stands. -/
def PhaseOk (F : Format ω ν) (loose : Finset ω) (pack : ν → Option (Finset ω))
    (placed : List (Finset ω)) (own : List ω) : Phase ω ν → Prop
  | .start | .marker | .failed => True
  | .loose rest => ∀ x ∈ own, x ∈ rest ∨ x ∈ loose
  | .size _ stale | .readIdx _ stale => ∀ n ∈ stale, Doomed F placed n
  | .readPack tail stale p => (∀ n ∈ stale, Doomed F placed n) ∧ F.name p = tail
  | .place f | .placePack f => FoldOk F placed own f
  | .placeIdx f => FoldOk F placed own f ∧
      (pack (F.name f.pack) = some f.pack ∨ Outgrown placed f.pack)
  | .remove f rest left => Placed F placed own f (rest ++ left)
  | .removePack f n rest left => Placed F placed own f (n :: rest ++ left)
  | .mark f left => Placed F placed own f left
  | .done true => ∃ p ∈ placed, own.toFinset ⊆ p
  | .done false => ∀ x ∈ own, x ∈ loose

/-- A file is named after its content, an index belongs to a placed pack, and a placed pack is whole
or outgrown. -/
structure Inv (F : Format ω ν) (pending : ι → List ω) (s : State ι ω ν) : Prop where
  pack_name : ∀ n p, s.pack n = some p → F.name p = n
  idx_name : ∀ n p, s.idx n = some p → F.name p = n
  idx_placed : ∀ n p, s.idx n = some p → p ∈ s.placed
  whole : ∀ p ∈ s.placed,
    (s.idx (F.name p) = some p ∧ s.pack (F.name p) = some p) ∨ Outgrown s.placed p
  marker : ∀ tail stale, s.marker = some (tail, stale) → ∀ n ∈ stale, Doomed F s.placed n
  phase : ∀ i, PhaseOk F s.loose s.pack s.placed (pending i) (s.phase i)

/-- What holds of the others goes on to hold, when nothing is taken away but outgrown packs. -/
theorem PhaseOk.mono {loose loose' : Finset ω} {pack pack' : ν → Option (Finset ω)}
    {placed placed' : List (Finset ω)} {own : List ω} {p : Phase ω ν} (hloose : loose ⊆ loose')
    (hplaced : placed ⊆ placed')
    (hpack : ∀ q, pack (F.name q) = some q → pack' (F.name q) = some q ∨ Outgrown placed' q)
    (h : PhaseOk F loose pack placed own p) : PhaseOk F loose' pack' placed' own p := by
  have hfold : ∀ {f}, FoldOk F placed own f → FoldOk F placed' own f := fun h =>
    ⟨h.own, fun n hn => (h.stale n hn).mono hplaced, h.folded⟩
  have hdone : ∀ {f names}, Placed F placed own f names → Placed F placed' own f names := fun h =>
    ⟨h.own, hplaced h.mem, fun n hn => (h.names n hn).mono hplaced⟩
  cases p with
  | start | marker | failed => trivial
  | loose rest => exact fun x hx => (h x hx).imp_right (hloose ·)
  | size _ stale | readIdx _ stale => exact fun n hn => (h n hn).mono hplaced
  | readPack tail stale p => exact ⟨fun n hn => (h.1 n hn).mono hplaced, h.2⟩
  | place f | placePack f => exact hfold h
  | placeIdx f => exact ⟨hfold h.1, h.2.elim (hpack _) fun ho => .inr (ho.mono hplaced)⟩
  | remove f rest left | removePack f n rest left | mark f left => exact hdone h
  | done packed =>
    cases packed with
    | true =>
      obtain ⟨q, hq, hown⟩ := h
      exact ⟨q, hplaced hq, hown⟩
    | false => exact fun x hx => hloose (h x hx)

theorem PhaseOk.doomed {loose : Finset ω} {pack : ν → Option (Finset ω)}
    {placed : List (Finset ω)} {own : List ω} {p : Phase ω ν}
    (h : PhaseOk F loose pack placed own p) : ∀ n ∈ p.removing, Doomed F placed n := by
  intro n hn
  cases p with
  | remove f rest left => exact h.names n (List.mem_append_left _ hn)
  | removePack f m rest left => exact h.names n (List.mem_append_left _ hn)
  | _ => cases hn

/-- A largest placed pack around a placed one is whole, and no flush is about to remove it. -/
theorem Inv.exists_whole {s : State ι ω ν} (h : Inv F pending s) {p : Finset ω} (hp : p ∈ s.placed) :
    ∃ q ∈ s.placed, p ⊆ q ∧ s.Whole F q ∧ ∀ j, F.name q ∉ (s.phase j).removing := by
  obtain ⟨q, hq, hpq, hlast⟩ := exists_not_outgrown hp
  exact ⟨q, hq, hpq, (h.whole q hq).resolve_right hlast,
    fun j hj => hlast ((h.phase j).doomed _ hj q rfl)⟩

theorem Inv.removesCovered {s : State ι ω ν} (h : Inv F pending s) (a : ι × Bool) : RemovesCovered F s a := by
  intro n hn p hp
  have hrem : n ∈ (s.phase a.1).removing := by
    cases hphase : s.phase a.1 with
    | remove f rest left =>
      rw [hphase] at hn
      cases rest with
      | nil => cases hn
      | cons m rest =>
        rw [← Option.mem_some_iff.mp hn]
        exact List.mem_cons_self
    | removePack f m rest left =>
      rw [hphase] at hn
      rw [← Option.mem_some_iff.mp hn]
      exact List.mem_cons_self
    | _ =>
      rw [hphase] at hn
      cases hn
  obtain ⟨q, hq, hpq⟩ := (h.phase a.1).doomed n hrem p hp
  obtain ⟨r, -, hqr, hwhole, hfree⟩ := h.exists_whole hq
  exact ⟨r, hpq.trans_subset hqr, hwhole, hfree⟩

theorem inv_init : Inv F pending (init : State ι ω ν) where
  pack_name := nofun
  idx_name := nofun
  idx_placed := nofun
  whole := nofun
  marker := nofun
  phase := fun _ => trivial

/-- The entries are together. -/
theorem assembled_ok {i : ι} {loose : Finset ω} {pack : ν → Option (Finset ω)}
    {placed : List (Finset ω)} {tail : Option ν} {stale : List ν} {fold : Option (ν × Finset ω)}
    (hstale : ∀ n ∈ stale, Doomed F placed n) (hfold : ∀ q ∈ fold, F.name q.2 = q.1) :
    PhaseOk F loose pack placed (pending i) (assembled F pending i tail stale fold) := by
  rw [assembled]
  split_ifs
  · exact fun x hx => .inl hx
  · refine ⟨Finset.subset_union_left, hstale, fun n hn => ?_⟩
    obtain ⟨q, rfl, rfl⟩ := Option.map_eq_some_iff.mp hn
    exact ⟨q.2, hfold q rfl, Finset.subset_union_right⟩

variable [DecidableEq ι] {s s' : State ι ω ν}

/-- A flush goes on. -/
theorem Inv.goTo (h : Inv F pending s) {i : ι} {p : Phase ω ν}
    (hp : PhaseOk F s.loose s.pack s.placed (pending i) p) : Inv F pending (s.goTo i p) := by
  refine ⟨h.pack_name, h.idx_name, h.idx_placed, h.whole, h.marker, fun j => ?_⟩
  rcases eq_or_ne j i with rfl | hne
  · simpa [State.goTo] using hp
  · simpa [State.goTo, hne] using h.phase j

variable [DecidableEq ν]

/-- Nothing is lost with what a placed pack dooms. -/
theorem FoldOk.placed {placed : List (Finset ω)} {own : List ω} {f : Fold ω ν}
    (hname : Function.Injective F.name) (h : FoldOk F placed own f) (hf : f.pack ∈ placed) :
    Placed F placed own f (f.doomed F ++ []) := by
  refine ⟨h.own, hf, fun n hn => ?_⟩
  rw [List.append_nil, Fold.doomed, List.mem_filter, decide_eq_true_eq] at hn
  obtain ⟨hn, hne⟩ := hn
  rcases List.mem_append.mp hn with hn | hn
  · exact h.stale n hn
  · obtain ⟨p, rfl, hsub⟩ := h.folded n (Option.mem_toList.mp hn)
    intro q hq
    obtain rfl := hname hq
    exact ⟨f.pack, hf, hsub.ssubset_of_ne fun heq => hne (by rw [heq])⟩

/-- A pack that a flush places is whole, or it was outgrown. -/
theorem Inv.place (h : Inv F pending s) (hname : Function.Injective F.name) {i : ι} {f : Fold ω ν}
    (hi : s.phase i = .placeIdx f) :
    Inv F pending ((⟨s.loose, s.pack, Function.update s.idx (F.name f.pack) (some f.pack), s.marker,
      s.phase, s.placed ++ [f.pack]⟩ : State ι ω ν).goTo i (.remove f (f.doomed F) [])) := by
  have hok := h.phase i
  rw [hi] at hok
  have hmono : s.placed ⊆ s.placed ++ [f.pack] := List.subset_append_left ..
  have hmem : f.pack ∈ s.placed ++ [f.pack] := by simp
  have hidx : ∀ n p, Function.update s.idx (F.name f.pack) (some f.pack) n = some p →
      (n = F.name f.pack ∧ p = f.pack) ∨ s.idx n = some p := by
    intro n p hn
    rcases eq_or_ne n (F.name f.pack) with rfl | hne
    · rw [Function.update_self] at hn
      exact .inl ⟨rfl, (Option.some.inj hn).symm⟩
    · rw [Function.update_of_ne hne] at hn
      exact .inr hn
  refine ⟨h.pack_name, fun n p hn => ?_, fun n p hn => ?_, fun p hp => ?_, fun tail stale hm n hn =>
    (h.marker tail stale hm n hn).mono hmono, fun j => ?_⟩
  · rcases hidx n p hn with ⟨rfl, rfl⟩ | hn
    · rfl
    · exact h.idx_name n p hn
  · rcases hidx n p hn with ⟨rfl, rfl⟩ | hn
    · exact hmem
    · exact hmono (h.idx_placed n p hn)
  · rcases eq_or_ne p f.pack with rfl | hne
    · exact hok.2.imp (fun hpack => ⟨Function.update_self .., hpack⟩) (·.mono hmono)
    · have hp' : p ∈ s.placed :=
        (List.mem_append.mp hp).resolve_right fun h => hne (List.mem_singleton.mp h)
      refine (h.whole p hp').imp (fun hw => ⟨?_, hw.2⟩) (·.mono hmono)
      exact (Function.update_of_ne (fun e => hne (hname e)) ..).trans hw.1
  · rcases eq_or_ne j i with rfl | hne
    · have hfold : FoldOk F (s.placed ++ [f.pack]) (pending j) f :=
        ⟨hok.1.own, fun n hn => (hok.1.stale n hn).mono hmono, hok.1.folded⟩
      simpa [State.goTo, PhaseOk] using hfold.placed hname hmem
    · simpa [State.goTo, hne] using
        (h.phase j).mono (Finset.Subset.refl _) hmono fun _ hq => .inl hq

/-- A name that nothing is lost with loses a file, and the flush goes on. -/
theorem Inv.remove (h : Inv F pending s) {i : ι} {n : ν} {p : Phase ω ν} {idx pack}
    (hn : Doomed F s.placed n) (hidx : idx = s.idx ∨ idx = without s.idx n)
    (hpack : pack = s.pack ∨ pack = without s.pack n)
    (hp : PhaseOk F s.loose pack s.placed (pending i) p) :
    Inv F pending ((⟨s.loose, pack, idx, s.marker, s.phase, s.placed⟩ : State ι ω ν).goTo i p) := by
  have hless : ∀ {files files' : ν → Option (Finset ω)},
      (files' = files ∨ files' = without files n) → ∀ m q, files' m = some q → files m = some q := by
    rintro files _ (rfl | rfl) m q hq
    · exact hq
    · rcases eq_or_ne m n with rfl | hne
      · simp [without] at hq
      · simpa [without, hne] using hq
  have hkeep : ∀ {files files' : ν → Option (Finset ω)},
      (files' = files ∨ files' = without files n) → ∀ q, files (F.name q) = some q →
        files' (F.name q) = some q ∨ Outgrown s.placed q := by
    rintro files _ (rfl | rfl) q hq
    · exact .inl hq
    · rcases eq_or_ne (F.name q) n with rfl | hne
      · exact .inr (hn q rfl)
      · exact .inl (by simpa [without, hne] using hq)
  refine ⟨fun m q hq => h.pack_name m q (hless hpack m q hq),
    fun m q hq => h.idx_name m q (hless hidx m q hq),
    fun m q hq => h.idx_placed m q (hless hidx m q hq), fun q hq => ?_, h.marker, fun j => ?_⟩
  · rcases h.whole q hq with ⟨hi, hp⟩ | ho
    · rcases hkeep hidx q hi with hi | ho
      · exact (hkeep hpack q hp).imp_left fun hp => ⟨hi, hp⟩
      · exact .inr ho
    · exact .inr ho
  · rcases eq_or_ne j i with rfl | hne
    · simpa [State.goTo] using hp
    · simpa [State.goTo, hne] using
        (h.phase j).mono (Finset.Subset.refl _) (List.Subset.refl _) (hkeep hpack)

/-- What a step preserves. -/
theorem Inv.step (h : Inv F pending s) (hname : Function.Injective F.name) {a : ι × Bool}
    (hs : step F pending s a = some s') : Inv F pending s' := by
  obtain ⟨i, ok⟩ := a
  have hok := h.phase i
  -- an index that is already there was placed with its pack
  have hdone : ∀ f, FoldOk F s.placed (pending i) f → (s.idx (F.name f.pack)).isSome = true →
      Placed F s.placed (pending i) f (f.doomed F ++ []) := by
    intro f hf hsome
    obtain ⟨p, hp⟩ := Option.isSome_iff_exists.mp hsome
    obtain rfl := hname (h.idx_name _ p hp)
    exact hf.placed hname (h.idx_placed _ _ hp)
  cases hi : s.phase i with
  | start =>
    simp only [PackFold.step, hi, Option.some.injEq] at hs
    subst hs
    refine h.goTo ?_
    split_ifs
    · exact fun x hx => .inl hx
    · trivial
  | loose rest =>
    rw [hi] at hok
    cases rest with
    | nil =>
      simp only [PackFold.step, hi, Option.some.injEq] at hs
      subst hs
      exact h.goTo fun x hx => (hok x hx).resolve_left (by simp)
    | cons x rest =>
      cases ok with
      | false =>
        simp only [PackFold.step, hi, Bool.false_eq_true, if_false, Option.some.injEq] at hs
        subst hs
        exact h.goTo trivial
      | true =>
        simp only [PackFold.step, hi, if_true, Option.some.injEq] at hs
        subst hs
        -- a loose object more keeps every promise made so far
        have hmore : Inv F pending { s with loose := insert x s.loose } :=
          ⟨h.pack_name, h.idx_name, h.idx_placed, h.whole, h.marker, fun j =>
            (h.phase j).mono (Finset.subset_insert x _) (List.Subset.refl _) fun _ hq => .inl hq⟩
        refine hmore.goTo fun y hy => ?_
        rcases hok y hy with hy | hy
        · rcases List.mem_cons.mp hy with rfl | hy
          · exact .inr (Finset.mem_insert_self ..)
          · exact .inl hy
        · exact .inr (Finset.mem_insert_of_mem hy)
  -- without a readable marker there is no earlier fold to take up
  | marker =>
    simp only [PackFold.step, hi] at hs
    cases hm : (if ok then s.marker else none) with
    | none =>
      simp only [hm, Option.some.injEq] at hs
      subst hs
      exact h.goTo (assembled_ok nofun nofun)
    | some m =>
      obtain ⟨tail, stale⟩ := m
      simp only [hm, Option.some.injEq] at hs
      subst hs
      refine h.goTo (h.marker tail stale ?_)
      split_ifs at hm
      exact hm
  | size tail stale =>
    rw [hi] at hok
    simp only [PackFold.step, hi] at hs
    cases hm : (if ok then s.pack tail else none) with
    | none =>
      simp only [hm, Option.some.injEq] at hs
      subst hs
      exact h.goTo (assembled_ok hok nofun)
    | some p =>
      simp only [hm, Option.some.injEq] at hs
      subst hs
      refine h.goTo ?_
      split_ifs
      · exact hok
      · exact assembled_ok hok nofun
  | readIdx tail stale =>
    rw [hi] at hok
    simp only [PackFold.step, hi] at hs
    cases hm : (if ok then s.idx tail else none) with
    | none =>
      simp only [hm, Option.some.injEq] at hs
      subst hs
      exact h.goTo (assembled_ok hok nofun)
    | some p =>
      simp only [hm, Option.some.injEq] at hs
      subst hs
      refine h.goTo ⟨hok, h.idx_name tail p ?_⟩
      split_ifs at hm
      exact hm
  | readPack tail stale p =>
    rw [hi] at hok
    simp only [PackFold.step, hi, Option.some.injEq] at hs
    subst hs
    refine h.goTo (assembled_ok hok.1 fun q hq => ?_)
    split_ifs at hq
    · rw [← Option.mem_some_iff.mp hq]
      exact hok.2
    · cases hq
  | place f =>
    rw [hi] at hok
    simp only [PackFold.step, hi, Option.some.injEq] at hs
    subst hs
    refine h.goTo ?_
    split_ifs with hsome
    · exact hdone f hok hsome
    · exact hok
  | placePack f =>
    rw [hi] at hok
    cases ok with
    | true =>
      simp only [PackFold.step, hi, if_true, Option.some.injEq] at hs
      subst hs
      -- packs stand under their own names, before and after
      have hset : ∀ n p, Function.update s.pack (F.name f.pack) (some f.pack) n = some p →
          F.name p = n := by
        intro n p hn
        rcases eq_or_ne n (F.name f.pack) with rfl | hne
        · rw [Function.update_self] at hn
          rw [Option.some.inj hn]
        · rw [Function.update_of_ne hne] at hn
          exact h.pack_name n p hn
      -- no other pack has this name
      have hkeep : ∀ q, s.pack (F.name q) = some q →
          Function.update s.pack (F.name f.pack) (some f.pack) (F.name q) = some q := by
        intro q hq
        rcases eq_or_ne q f.pack with rfl | hne
        · exact Function.update_self ..
        · exact (Function.update_of_ne (fun e => hne (hname e)) ..).trans hq
      have hmore : Inv F pending
          { s with pack := Function.update s.pack (F.name f.pack) (some f.pack) } :=
        ⟨hset, h.idx_name, h.idx_placed,
          fun p hp => (h.whole p hp).imp_left fun hw => ⟨hw.1, hkeep p hw.2⟩, h.marker, fun j =>
            (h.phase j).mono (Finset.Subset.refl _) (List.Subset.refl _) fun q hq =>
              .inl (hkeep q hq)⟩
      exact hmore.goTo ⟨hok, .inl (Function.update_self ..)⟩
    | false =>
      simp only [PackFold.step, hi, Bool.false_eq_true, if_false] at hs
      -- the rename failed: another fold may have put the same pack there
      split_ifs at hs with hsome
      · cases hs
        obtain ⟨p, hp⟩ := Option.isSome_iff_exists.mp hsome
        obtain rfl := hname (h.pack_name _ p hp)
        exact h.goTo ⟨hok, .inl hp⟩
      · cases hs
        exact h.goTo trivial
  | placeIdx f =>
    rw [hi] at hok
    cases ok with
    | true =>
      simp only [PackFold.step, hi, if_true, Option.some.injEq] at hs
      subst hs
      exact h.place hname hi
    | false =>
      simp only [PackFold.step, hi, Bool.false_eq_true, if_false] at hs
      split_ifs at hs with hsome
      · cases hs
        exact h.goTo (hdone f hok.1 hsome)
      · cases hs
        exact h.goTo trivial
  -- the objects of a doomed pack stand in the one just placed
  | remove f rest left =>
    rw [hi] at hok
    cases rest with
    | nil =>
      simp only [PackFold.step, hi, Option.some.injEq] at hs
      subst hs
      exact h.goTo hok
    | cons n rest =>
      cases ok with
      | true =>
        simp only [PackFold.step, hi, if_true, Option.some.injEq] at hs
        subst hs
        exact h.remove (hok.names n (by simp)) (.inr rfl) (.inl rfl) hok
      | false =>
        simp only [PackFold.step, hi, Bool.false_eq_true, if_false, Option.some.injEq] at hs
        subst hs
        exact h.goTo ⟨hok.own, hok.mem, fun m hm => hok.names m (by simp at hm ⊢; tauto)⟩
  | removePack f n rest left =>
    rw [hi] at hok
    cases ok with
    | true =>
      simp only [PackFold.step, hi, if_true, Option.some.injEq] at hs
      subst hs
      exact h.remove (hok.names n (by simp)) (.inl rfl) (.inr rfl)
        ⟨hok.own, hok.mem, fun m hm => hok.names m (by simp at hm ⊢; tauto)⟩
    | false =>
      simp only [PackFold.step, hi, Bool.false_eq_true, if_false, Option.some.injEq] at hs
      subst hs
      exact h.goTo ⟨hok.own, hok.mem, fun m hm => hok.names m (by simp at hm ⊢; tauto)⟩
  | mark f left =>
    rw [hi] at hok
    have hown : ∃ p ∈ s.placed, (pending i).toFinset ⊆ p := ⟨f.pack, hok.mem, hok.own⟩
    simp only [PackFold.step, hi] at hs
    split_ifs at hs
    · cases hs
      have hmore : Inv F pending { s with marker := some (F.name f.pack, left) } :=
        ⟨h.pack_name, h.idx_name, h.idx_placed, h.whole, fun tail stale hm => by
          cases hm
          exact hok.names, h.phase⟩
      exact hmore.goTo hown
    · cases hs
      exact h.goTo hown
  | done packed => simp only [PackFold.step, hi, reduceCtorEq] at hs
  | failed => simp only [PackFold.step, hi, reduceCtorEq] at hs

/-! ### What is kept -/

/-- **Folding loses nothing.** In every run of any number of flushes, what a flush that is done has
stored is in a listed pack that is whole, or loose where the flush wrote it loose; and whenever a
file of a pack is unlinked, another pack is whole that contains it, and that nobody is about to
remove. -/
theorem flush_keeps_objects (F : Format ω ν) (hname : Function.Injective F.name)
    (pending : ι → List ω) (as : List (ι × Bool)) :
    (∀ s, run (PackFold.step F pending) init as = some s → ∀ i packed, s.phase i = .done packed →
      ∀ x ∈ pending i, if packed then s.Readable F x else x ∈ s.loose) ∧
      Along (PackFold.step F pending) (RemovesCovered F) init as := by
  refine ⟨fun s hrun i packed hi x hx => ?_, ?_⟩
  · have h := run_invariant (fun _ _ _ h => h.step hname) inv_init hrun
    have hok := h.phase i
    rw [hi] at hok
    cases packed with
    | true =>
      obtain ⟨p, hp, hown⟩ := hok
      obtain ⟨q, -, hpq, hwhole, -⟩ := h.exists_whole hp
      exact ⟨q, hwhole, hpq (hown (List.mem_toFinset.mpr hx))⟩
    | false => exact hok x hx
  · have htrue : Along (PackFold.step F pending) (fun _ _ => True) init as := by
      have : ∀ s, Along (PackFold.step F pending) (fun _ _ => True) s as := by
        induction as with
        | nil => exact fun _ => trivial
        | cons a as ih => exact fun _ => ⟨trivial, fun t _ => ih t⟩
      exact this init
    exact Along.of_invariant (fun _ _ _ _ h => h.step hname) (fun _ a h => h.removesCovered a)
      htrue inv_init

end

/-! ### Two flushes -/

/-- Packs are named by themselves. -/
def plainFormat : Format Nat (Finset Nat) := ⟨fun _ => 1, fun _ => 10, id⟩

def twoBatches : Fin 2 → List Nat := ![List.range 9, List.range' 9 9]

/-- The second flush folds the pack of the first. -/
def foldRun : List (Fin 2 × Bool) :=
  List.replicate 7 (0, true) ++ List.replicate 12 (1, true)

theorem flush_keeps_objects_folded :
    ∃ s, run (step plainFormat twoBatches) init foldRun = some s ∧
      s.idx (List.range 9).toFinset = none ∧ ∀ x ∈ List.range 9, s.Readable plainFormat x := by
  obtain ⟨s, hs⟩ : ∃ s, run (step plainFormat twoBatches) init foldRun = some s :=
    Option.isSome_iff_exists.mp (by decide)
  have hend : (run (step plainFormat twoBatches) init foldRun).all fun s =>
      s.phase 0 = .done true ∧ s.idx (List.range 9).toFinset = none := by decide
  rw [hs, Option.all_some, decide_eq_true_eq] at hend
  exact ⟨s, hs, hend.2, (flush_keeps_objects plainFormat Function.injective_id twoBatches
    foldRun).1 s hs 0 true hend.1⟩

/-- A flush of one object is done, and no listed pack holds it. -/
theorem flush_goes_loose :
    ∃ s, run (step plainFormat fun _ : Fin 1 => [0]) init [(0, true), (0, true), (0, true)] =
        some s ∧ s.phase 0 = .done false ∧ ¬ s.Readable plainFormat 0 := by
  refine ⟨_, rfl, rfl, ?_⟩
  rintro ⟨p, ⟨hidx, -⟩, -⟩
  cases hidx

end PackFold

end Git

end CoordinatorCore
