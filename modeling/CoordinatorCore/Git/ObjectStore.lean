import CoordinatorCore.Git.PackFold
import CoordinatorCore.Machine.Recent
import Mathlib.Data.List.Sort

/-!
# The object store reads what it wrote

`write_object`, `object_batch`, `flush_object_batch` and `_read_object` of `git/git_objects.py`, as
one thread calls them in any order, on any number of repositories. Four places can answer a read:
the open batch, the cache, the loose objects and the packs, and behind them the alternates.

A written object is in the open batch or in the store; a fold takes a pack away only when another
one contains it (`exists_cover`). So a read finds what was written, and finds nothing else, as long
as it does not meet one of two things (`reads_own_writes`): the cache keeps the answer "there is no
such object" and does not forget it when the object is written (`read_remembers_miss`), and the open
batch answers for every repository, not only for the one it is bound to.
-/

namespace CoordinatorCore

open Machine

namespace Git

namespace ObjectStore

/-! ### The store of a repository -/

/-- What the code computes from an object: its sha, the length of its payload, and that of its pack
entry. -/
structure Format (ω ν : Type*) where
  name : ω → ν
  payload : ω → Nat
  entry : ω → Nat

/-- The objects of a repository: the loose ones, the packs, newest first, each with its objects in
the order of their shas, and the marker, which names the tail pack and the packs left to remove. -/
structure Directory (ω : Type*) where
  loose : List ω
  packs : List (List ω)
  marker : Option (List ω × List (List ω))

def Directory.objects {ω : Type*} (d : Directory ω) : List ω := d.loose ++ d.packs.flatten

/-- `_OBJECT_CACHE_MAX_ENTRIES`. -/
def objectCacheMaxEntries : Nat := 4096

/-- The batch, with the repository it is bound to and what it has queued; for each
`with object_batch()` that was entered, innermost first, whether it opened the batch; the
stores; the listings of the packs, as they were read last; and the cache. -/
structure State (ρ ν ω : Type*) where
  batch : Option (Option ρ × List ω)
  scopes : List Bool
  store : ρ → Directory ω
  listing : ρ → Option (List (List ω))
  cache : Table (ρ × ν) (Option ω)

section

variable {ρ ν ω : Type*} [DecidableEq ρ] [DecidableEq ω] [LinearOrder ν] (F : Format ω ν)

/-- The object of this sha. -/
def lookup (objects : List ω) (sha : ν) : Option ω := objects.find? fun o => F.name o = sha

/-- `_place`: a loose object that is there is not written again. -/
def place (d : Directory ω) (o : ω) : Directory ω :=
  if (lookup F d.loose (F.name o)).isSome then d else { d with loose := d.loose ++ [o] }

/-- `sorted(entries)`. -/
def assemblePack (objects : List ω) : List ω :=
  objects.insertionSort fun a b => F.name a ≤ F.name b

/-- `st_size` of a pack. -/
def packSize (p : List ω) : Nat := 12 + (p.map F.entry).sum + 20

/-- The tail pack, where it is there and small. -/
def foldedTail (d : Directory ω) : Option (List ω) :=
  (d.marker.map Prod.fst).filter fun t => t ∈ d.packs ∧ packSize F t < PackFold.foldMaxBytes

/-- The objects of the new pack: those of the batch, and those of the tail that it lacks. -/
def foldEntries (d : Directory ω) (pending : List ω) : List ω :=
  pending ++ ((foldedTail F d).getD []).filter fun o => (lookup F pending (F.name o)).isNone

/-- The packs that go when `pack` has been placed. -/
def doomed (d : Directory ω) (pack : List ω) : List (List ω) :=
  ((d.marker.map Prod.snd).getD [] ++ (foldedTail F d).toList).filter (· ≠ pack)

/-- What the operating system lets a flush do: how many loose writes, where one fails, and which
packs cannot be removed. -/
structure Os (ω : Type*) where
  stop : Option Nat
  locked : List ω → Bool

/-- The loose writes of a flush. -/
def placeAll (os : Os ω) (d : Directory ω) (pending : List ω) : Directory ω :=
  (pending.take (os.stop.getD pending.length)).foldl (place F) d

/-- The new pack is there, the packs it replaces are gone, and the marker is written. -/
def placePack (os : Os ω) (d : Directory ω) (pack : List ω) : Directory ω :=
  let packs := if pack ∈ d.packs then d.packs else pack :: d.packs
  { d with
    packs := packs.filter fun p => p ∉ doomed F d pack ∨ os.locked p
    marker := some (pack, (doomed F d pack).filter fun p => os.locked p) }

/-- `_flush_pack`. -/
def flushPack (os : Os ω) (d : Directory ω) (pending : List ω) : Directory ω :=
  if PackFold.packOffsetLimit ≤ ((foldEntries F d pending).map F.entry).sum then
    placeAll F os d pending
  -- a pair that cannot be placed leaves the directory as it is
  else if os.stop.isSome then d
  else placePack F os d (assemblePack F (foldEntries F d pending))

/-- The queued objects are written, loose or as one pack. -/
def flush (os : Os ω) (d : Directory ω) (pending : List ω) : Directory ω :=
  if pending = [] then d
  else if pending.length ≤ PackFold.looseBatchMax ∨
      PackFold.packOffsetLimit ≤ (pending.map F.payload).sum then
    placeAll F os d pending
  else flushPack F os d pending

/-! ### Reads -/

/-- `_pack_listing`: the listing that was read last, or a new one. -/
def packListing (d : Directory ω) (listing : Option (List (List ω))) (revalidate : Bool) :
    List (List ω) :=
  if revalidate then d.packs else listing.getD d.packs

/-- `_locate_packed`: the first pack with the sha. -/
def locatePacked (packs : List (List ω)) (sha : ν) : Option (List ω) :=
  packs.find? fun p => (lookup F p sha).isSome

/-- `_search_packs_for_sha`, with the listing it leaves behind. -/
def searchPacks (d : Directory ω) (listing : Option (List (List ω))) (sha : ν)
    (revalidate : Bool) : Option ω × List (List ω) :=
  let packs := packListing d listing revalidate
  match locatePacked F packs sha with
  | none => (none, packs)
  | some p =>
    if p ∈ d.packs then (lookup F p sha, packs)
    -- the listing names a pack that was folded: the directory is listed once more
    else ((locatePacked F d.packs sha).bind fun q => lookup F q sha, d.packs)

/-- `_read_local_object`. -/
def readLocalObject (d : Directory ω) (listing : Option (List (List ω))) (sha : ν) :
    Option ω × Option (List (List ω)) :=
  match lookup F d.loose sha with
  | some o => (some o, listing)
  | none =>
    let found := searchPacks F d listing sha false
    match found.1 with
    | some o => (some o, some found.2)
    | none =>
      let found := searchPacks F d (some found.2) sha true
      (found.1, some found.2)

/-- The stores are read one after the other until one has the object. -/
def readStores (store : ρ → Directory ω) (sha : ν) :
    List ρ → (ρ → Option (List (List ω))) → Option ω × (ρ → Option (List (List ω)))
  | [], listing => (none, listing)
  | r :: rs, listing =>
    let found := readLocalObject F (store r) (listing r) sha
    match found.1 with
    | some o => (some o, Function.update listing r found.2)
    | none => readStores store sha rs (Function.update listing r found.2)

variable (alternates : ρ → List ρ)

/-- `_read_object`. -/
def readObject (s : State ρ ν ω) (r : ρ) (sha : ν) : Option ω × State ρ ν ω :=
  match s.batch.bind fun b => lookup F b.2 sha with
  | some o => (some o, s)
  | none =>
    match s.cache.get (r, sha) with
    | some answer => (answer, { s with cache := s.cache.reuse (r, sha) })
    | none =>
      let found := readStores F s.store sha (r :: alternates r) s.listing
      (found.1, { s with
        listing := found.2
        cache := s.cache.remember objectCacheMaxEntries (r, sha) found.1 })

/-! ### Writes -/

def State.setStore (s : State ρ ν ω) (r : ρ) (d : Directory ω) : State ρ ν ω :=
  { s with store := Function.update s.store r d }

/-- The open batch takes what is written to `r`. -/
def State.Joins (s : State ρ ν ω) (r : ρ) : Prop := ∃ b ∈ s.batch, b.1 = none ∨ b.1 = some r

instance (s : State ρ ν ω) (r : ρ) : Decidable (s.Joins r) :=
  inferInstanceAs (Decidable (∃ b ∈ s.batch, b.1 = none ∨ b.1 = some r))

/-- `write_object`. -/
def writeObject (s : State ρ ν ω) (r : ρ) (o : ω) : State ρ ν ω :=
  if s.Joins r then
    let pending := (s.batch.map Prod.snd).getD []
    let known := (lookup F pending (F.name o)).isSome ∨
      (lookup F (s.store r).loose (F.name o)).isSome
    { s with batch := some (some r, if known then pending else pending ++ [o]) }
  else s.setStore r (place F (s.store r) o)

/-- `flush_object_batch`. -/
def flushObjectBatch (os : Os ω) (s : State ρ ν ω) : State ρ ν ω :=
  match s.batch with
  | some (some r, pending) =>
    { s with batch := none }.setStore r (flush F os (s.store r) pending)
  | _ => { s with batch := none }

/-- What a thread does: it enters and leaves `with object_batch()`, writes, flushes and reads. -/
inductive Action (ρ ν ω : Type*)
  | enter
  | leave
  | write (r : ρ) (o : ω)
  | flush (os : Os ω)
  | read (r : ρ) (sha : ν)

/-- A state, and what was written and not discarded: into the batch that is open, and for good. -/
structure Ledger (ρ ν ω : Type*) where
  state : State ρ ν ω
  queued : List (ρ × ω)
  kept : List (ρ × ω)

def step (l : Ledger ρ ν ω) : Action ρ ν ω → Option (Ledger ρ ν ω)
  | .enter =>
    some { l with state := { l.state with
      batch := some (l.state.batch.getD (none, []))
      scopes := l.state.batch.isNone :: l.state.scopes } }
  | .leave =>
    match l.state.scopes with
    | [] => none
    | false :: scopes => some { l with state := { l.state with scopes := scopes } }
    | true :: scopes =>
      some { l with state := { l.state with batch := none, scopes := scopes }, queued := [] }
  | .write r o =>
    let l' := { l with state := writeObject F l.state r o }
    some (if l.state.Joins r then { l' with queued := l.queued ++ [(r, o)] }
      else { l' with kept := l.kept ++ [(r, o)] })
  | .flush os =>
    some {
      state := flushObjectBatch F os l.state
      queued := []
      kept := if os.stop.isNone then l.kept ++ l.queued else l.kept }
  | .read r sha => some { l with state := (readObject F alternates l.state r sha).2 }

end

/-! ### What a store holds -/

section

variable {ω ν : Type*} {F : Format ω ν}

/-- An object is loose or in a pack. -/
theorem Directory.mem_objects {d : Directory ω} {o : ω} :
    o ∈ d.objects ↔ o ∈ d.loose ∨ ∃ p ∈ d.packs, o ∈ p := by
  rw [objects, List.mem_append, List.mem_flatten]

/-- What the marker leaves to remove is contained in packs that are not to be removed. -/
def Directory.Covered (d : Directory ω) : Prop :=
  ∀ m ∈ d.marker, ∀ p ∈ m.2, ∃ q ∈ d.packs, p ⊆ q ∧ q ∉ m.2

/-- What a flush does to a directory. -/
structure Flushed (os : Os ω) (pending : List ω) (d d' : Directory ω) : Prop where
  covered : d'.Covered
  keeps : d.objects ⊆ d'.objects
  all : os.stop = none → pending ⊆ d'.objects
  only : ∀ o ∈ d'.objects, o ∈ pending ∨ o ∈ d.objects

variable [DecidableEq ω]

/-- A pack that goes is contained in one that stays. -/
theorem exists_cover (os : Os ω) {d : Directory ω} {pack : List ω} (h : d.Covered)
    (hfold : ∀ t ∈ foldedTail F d, t ⊆ pack) {p : List ω} (hp : p ∈ doomed F d pack) :
    ∃ q ∈ (placePack F os d pack).packs, p ⊆ q ∧ q ∉ doomed F d pack := by
  have hnot : pack ∉ doomed F d pack := by simp [doomed]
  have hpack : pack ∈ (placePack F os d pack).packs := by
    refine List.mem_filter.mpr ⟨?_, by simp [hnot]⟩
    split_ifs with hin
    · exact hin
    · exact List.mem_cons_self
  rcases List.mem_append.mp (List.mem_of_mem_filter hp) with hstale | hfolded
  · cases hm : d.marker with
    | none => simp [hm] at hstale
    | some m =>
      rw [hm, Option.map_some, Option.getD_some] at hstale
      obtain ⟨q, hq, hpq, hqm⟩ := h m hm p hstale
      by_cases hdoomed : q ∈ doomed F d pack
      · rw [doomed, hm, Option.map_some, Option.getD_some] at hdoomed
        have htail := (List.mem_append.mp (List.mem_of_mem_filter hdoomed)).resolve_left hqm
        exact ⟨pack, hpack, fun x hx => hfold q (Option.mem_toList.mp htail) (hpq hx), hnot⟩
      · refine ⟨q, List.mem_filter.mpr ⟨?_, by simp [hdoomed]⟩, hpq, hdoomed⟩
        split_ifs
        · exact hq
        · exact List.mem_cons_of_mem _ hq
  · exact ⟨pack, hpack, hfold p (Option.mem_toList.mp hfolded), hnot⟩

/-- A pack that holds the pending objects and the folded tail flushes them. -/
theorem flushed_placePack {os : Os ω} {d : Directory ω} {pending pack : List ω} (h : d.Covered)
    (hfold : ∀ t ∈ foldedTail F d, t ⊆ pack) (hpending : pending ⊆ pack)
    (hpack : ∀ o ∈ pack, o ∈ pending ∨ o ∈ d.objects) :
    Flushed os pending d (placePack F os d pack) := by
  have hcover : ∀ p ∈ pack :: d.packs, ∃ q ∈ (placePack F os d pack).packs, p ⊆ q := by
    intro p hp
    by_cases hdoomed : p ∈ doomed F d pack
    · obtain ⟨q, hq, hpq, -⟩ := exists_cover os h hfold hdoomed
      exact ⟨q, hq, hpq⟩
    · refine ⟨p, List.mem_filter.mpr ⟨?_, by simp [hdoomed]⟩, List.Subset.refl p⟩
      split_ifs with hin
      · exact (List.mem_cons.mp hp).elim (fun e => e ▸ hin) id
      · exact hp
  refine ⟨fun m hm p hp => ?_, fun x hx => ?_, fun _ x hx => ?_, fun x hx => ?_⟩
  · rw [← Option.mem_some_iff.mp hm] at hp ⊢
    obtain ⟨q, hq, hpq, hqd⟩ := exists_cover os h hfold (List.mem_of_mem_filter hp)
    exact ⟨q, hq, hpq, fun hmem => hqd (List.mem_of_mem_filter hmem)⟩
  · rcases Directory.mem_objects.mp hx with hx | ⟨p, hp, hx⟩
    · exact Directory.mem_objects.mpr (.inl hx)
    · obtain ⟨q, hq, hpq⟩ := hcover p (List.mem_cons_of_mem _ hp)
      exact Directory.mem_objects.mpr (.inr ⟨q, hq, hpq hx⟩)
  · obtain ⟨q, hq, hpq⟩ := hcover pack List.mem_cons_self
    exact Directory.mem_objects.mpr (.inr ⟨q, hq, hpq (hpending hx)⟩)
  · rcases Directory.mem_objects.mp hx with hx | ⟨p, hp, hx⟩
    · exact .inr (Directory.mem_objects.mpr (.inl hx))
    · have hp := List.mem_of_mem_filter hp
      split_ifs at hp
      · exact .inr (Directory.mem_objects.mpr (.inr ⟨p, hp, hx⟩))
      · rcases List.mem_cons.mp hp with he | hp
        · exact hpack x (he ▸ hx)
        · exact .inr (Directory.mem_objects.mpr (.inr ⟨p, hp, hx⟩))

end

section

variable {ω ν : Type*} [LinearOrder ν] {F : Format ω ν}

/-- What is looked up has the sha. -/
theorem lookup_eq_some {objects : List ω} {sha : ν} {o : ω} (h : lookup F objects sha = some o) :
    o ∈ objects ∧ F.name o = sha :=
  ⟨List.mem_of_find?_eq_some h, by simpa using List.find?_some h⟩

/-- Without collisions an object is found by its sha. -/
theorem lookup_name (hname : Function.Injective F.name) {objects : List ω} {o : ω}
    (h : o ∈ objects) : lookup F objects (F.name o) = some o := by
  obtain ⟨o', ho'⟩ : ∃ o', lookup F objects (F.name o) = some o' := by
    rw [← Option.isSome_iff_exists, lookup, List.find?_isSome]
    exact ⟨o, h, decide_eq_true rfl⟩
  rw [ho', hname (lookup_eq_some ho').2]

/-- An object's own sha is found where the object is. -/
theorem isSome_lookup_name (hname : Function.Injective F.name) {objects : List ω} {o : ω} :
    (lookup F objects (F.name o)).isSome ↔ o ∈ objects := by
  refine ⟨fun h => ?_, fun h => by rw [lookup_name hname h, Option.isSome_some]⟩
  obtain ⟨o', ho'⟩ := Option.isSome_iff_exists.mp h
  exact hname (lookup_eq_some ho').2 ▸ (lookup_eq_some ho').1

/-- A loose write adds its object. -/
theorem mem_place (hname : Function.Injective F.name) {d : Directory ω} {o x : ω} :
    x ∈ (place F d o).objects ↔ x = o ∨ x ∈ d.objects := by
  rw [place]
  split_ifs with h
  · have ho : o ∈ d.objects := Directory.mem_objects.mpr (.inl ((isSome_lookup_name hname).mp h))
    exact ⟨.inr, fun hx => hx.elim (fun e => e ▸ ho) id⟩
  · simp only [Directory.mem_objects, List.mem_append, List.mem_singleton]
    tauto

/-- A loose write leaves the tail covered. -/
theorem covered_place {d : Directory ω} (h : d.Covered) (o : ω) : (place F d o).Covered := by
  rw [place]
  split_ifs
  · exact h
  · exact h

/-- Loose writes add their objects and leave the tail covered. -/
theorem foldl_place (hname : Function.Injective F.name) (objects : List ω) {d : Directory ω}
    (h : d.Covered) : (objects.foldl (place F) d).Covered ∧
      ∀ x, x ∈ (objects.foldl (place F) d).objects ↔ x ∈ objects ∨ x ∈ d.objects := by
  induction objects generalizing d with
  | nil => exact ⟨h, fun x => by simp⟩
  | cons o objects ih =>
    obtain ⟨hcov, hmem⟩ := ih (covered_place (F := F) h o)
    refine ⟨hcov, fun x => ?_⟩
    rw [List.foldl_cons, hmem, mem_place hname, List.mem_cons]
    tauto

/-- Loose writes flush the pending objects. -/
theorem flushed_placeAll (hname : Function.Injective F.name) (os : Os ω) (pending : List ω)
    {d : Directory ω} (h : d.Covered) : Flushed os pending d (placeAll F os d pending) := by
  obtain ⟨hcov, hmem⟩ := foldl_place hname (pending.take (os.stop.getD pending.length)) h
  refine ⟨hcov, fun x hx => (hmem x).mpr (.inr hx), fun hstop x hx => (hmem x).mpr (.inl ?_),
    fun x hx => ((hmem x).mp hx).imp_left List.mem_of_mem_take⟩
  rw [hstop, Option.getD_none, List.take_length]
  exact hx

variable [DecidableEq ω]

/-- The new pack holds what is flushed and what the tail held, and nothing else. -/
theorem mem_foldEntries (hname : Function.Injective F.name) {d : Directory ω} {pending : List ω}
    {o : ω} : o ∈ foldEntries F d pending ↔ o ∈ pending ∨ ∃ t ∈ foldedTail F d, o ∈ t := by
  rw [foldEntries, List.mem_append, List.mem_filter, Option.isNone_iff_eq_none,
    ← Option.not_isSome_iff_eq_none, isSome_lookup_name hname]
  cases foldedTail F d with
  | none => simp
  | some t =>
    simp only [Option.getD_some, Option.mem_some_iff, exists_eq_left']
    tauto

/-- A flush, to a pack or loose, stores what was pending and loses nothing. -/
theorem flushed_flush (hname : Function.Injective F.name) (os : Os ω) (pending : List ω)
    {d : Directory ω} (h : d.Covered) : Flushed os pending d (flush F os d pending) := by
  rw [flush]
  split_ifs with hnil
  · exact ⟨h, fun x hx => hx, fun _ x hx => by simp [hnil] at hx, fun x hx => .inr hx⟩
  · exact flushed_placeAll hname os pending h
  rw [flushPack]
  split_ifs with _ hstop
  · exact flushed_placeAll hname os pending h
  · exact ⟨h, fun x hx => hx, fun hnone => by simp [hnone] at hstop, fun x hx => .inr hx⟩
  have hmem : ∀ o, o ∈ assemblePack F (foldEntries F d pending) ↔
      o ∈ pending ∨ ∃ t ∈ foldedTail F d, o ∈ t := fun o => by
    rw [assemblePack, (List.perm_insertionSort _ _).mem_iff, mem_foldEntries hname]
  refine flushed_placePack h (fun t ht o ho => (hmem o).mpr (.inr ⟨t, ht, ho⟩))
    (fun o ho => (hmem o).mpr (.inl ho)) fun o ho => ((hmem o).mp ho).imp_right ?_
  rintro ⟨t, ht, hot⟩
  have hpack := (Option.filter_eq_some_iff.mp ht).2
  rw [decide_eq_true_eq] at hpack
  exact Directory.mem_objects.mpr (.inr ⟨t, hpack.1, hot⟩)

end

/-! ### What a read finds -/

section

variable {ω ν : Type*} [LinearOrder ν] {F : Format ω ν}

/-- The pack that is located has the sha. -/
theorem locatePacked_eq_some {packs : List (List ω)} {sha : ν} {p : List ω}
    (h : locatePacked F packs sha = some p) : p ∈ packs ∧ ∃ o, lookup F p sha = some o :=
  ⟨List.mem_of_find?_eq_some h,
    Option.isSome_iff_exists.mp (@List.find?_some _ (fun p => (lookup F p sha).isSome) p packs h)⟩

/-- An object of a pack is located in some pack. -/
theorem exists_locatePacked (hname : Function.Injective F.name) {packs : List (List ω)}
    {p : List ω} {o : ω} (hp : p ∈ packs) (ho : o ∈ p) :
    ∃ q ∈ packs, locatePacked F packs (F.name o) = some q ∧ lookup F q (F.name o) = some o := by
  obtain ⟨q, hq⟩ : ∃ q, locatePacked F packs (F.name o) = some q := by
    rw [← Option.isSome_iff_exists, locatePacked, List.find?_isSome]
    exact ⟨p, hp, (isSome_lookup_name hname).mpr ho⟩
  obtain ⟨hmem, o', ho'⟩ := locatePacked_eq_some hq
  exact ⟨q, hmem, hq, by rw [ho', hname (lookup_eq_some ho').2]⟩

variable [DecidableEq ω] {d : Directory ω} {listing : Option (List (List ω))} {sha : ν} {o : ω}

/-- What the search over packs returns is stored and has the sha. -/
theorem searchPacks_eq_some {revalidate : Bool}
    (h : (searchPacks F d listing sha revalidate).1 = some o) : o ∈ d.objects ∧ F.name o = sha := by
  have hpack : ∀ {p : List ω}, p ∈ d.packs → lookup F p sha = some o →
      o ∈ d.objects ∧ F.name o = sha := fun hp ho =>
    ⟨Directory.mem_objects.mpr (.inr ⟨_, hp, (lookup_eq_some ho).1⟩), (lookup_eq_some ho).2⟩
  rw [searchPacks] at h
  split at h
  · cases h
  · split_ifs at h with hp
    · exact hpack hp h
    · obtain ⟨q, hq, ho⟩ := Option.bind_eq_some_iff.mp h
      exact hpack (locatePacked_eq_some hq).1 ho

/-- A search of a new listing misses nothing. -/
theorem searchPacks_of_mem (hname : Function.Injective F.name) {p : List ω} (hp : p ∈ d.packs)
    (ho : o ∈ p) : (searchPacks F d listing (F.name o) true).1 = some o := by
  obtain ⟨q, hq, hloc, hlook⟩ := exists_locatePacked hname hp ho
  simp only [searchPacks, packListing, if_true, hloc, hq, hlook]

/-- What a local read returns is stored and has the sha. -/
theorem readLocalObject_eq_some (h : (readLocalObject F d listing sha).1 = some o) :
    o ∈ d.objects ∧ F.name o = sha := by
  rw [readLocalObject] at h
  split at h
  · next o' ho' =>
    cases h
    exact ⟨Directory.mem_objects.mpr (.inl (lookup_eq_some ho').1), (lookup_eq_some ho').2⟩
  · dsimp only at h
    split at h
    · next o' ho' =>
      cases h
      exact searchPacks_eq_some ho'
    · exact searchPacks_eq_some h

/-- A local read finds what is stored. -/
theorem readLocalObject_of_mem (hname : Function.Injective F.name) (h : o ∈ d.objects) :
    (readLocalObject F d listing (F.name o)).1 = some o := by
  -- whatever is found under this sha is this object
  have hfound : ∀ {a : Option ω}, a.isSome → (∀ o', a = some o' → F.name o' = F.name o) →
      a = some o := by
    intro a ha hall
    obtain ⟨o', rfl⟩ := Option.isSome_iff_exists.mp ha
    rw [hname (hall o' rfl)]
  refine hfound ?_ fun o' ho' => (readLocalObject_eq_some ho').2
  rw [readLocalObject]
  split
  · rfl
  · next hloose =>
    dsimp only
    split
    · rfl
    · rcases Directory.mem_objects.mp h with hin | ⟨p, hp, hin⟩
      · rw [lookup_name hname hin] at hloose
        cases hloose
      · rw [searchPacks_of_mem hname hp hin, Option.isSome_some]

variable {ρ : Type*} [DecidableEq ρ] {store : ρ → Directory ω}

/-- What a read returns is stored in one of the stores and has the sha. -/
theorem readStores_eq_some {rs : List ρ} {listing : ρ → Option (List (List ω))}
    (h : (readStores F store sha rs listing).1 = some o) :
    (∃ r ∈ rs, o ∈ (store r).objects) ∧ F.name o = sha := by
  induction rs generalizing listing with
  | nil => cases h
  | cons r rs ih =>
    rw [readStores] at h
    split at h
    · next o' ho' =>
      cases h
      obtain ⟨hmem, hsha⟩ := readLocalObject_eq_some ho'
      exact ⟨⟨r, List.mem_cons_self, hmem⟩, hsha⟩
    · obtain ⟨⟨r', hr', hmem⟩, hsha⟩ := ih h
      exact ⟨⟨r', List.mem_cons_of_mem _ hr', hmem⟩, hsha⟩

/-- A read finds what one of the stores has. -/
theorem readStores_of_mem (hname : Function.Injective F.name) {rs : List ρ} {r : ρ}
    {listing : ρ → Option (List (List ω))} (hr : r ∈ rs) (h : o ∈ (store r).objects) :
    (readStores F store (F.name o) rs listing).1 = some o := by
  induction rs generalizing listing with
  | nil => cases hr
  | cons r' rs ih =>
    rw [readStores]
    split
    · next o' ho' => rw [hname (readLocalObject_eq_some ho').2]
    · next hnone =>
      rcases List.mem_cons.mp hr with rfl | hr
      · rw [readLocalObject_of_mem hname h] at hnone
        cases hnone
      · exact ih hr

end

/-! ### Runs -/

section

variable {ρ ν ω : Type*} [DecidableEq ρ]

/-- Setting one store leaves the others. -/
theorem store_setStore (s : State ρ ν ω) (r : ρ) (d : Directory ω) (r' : ρ) :
    (s.setStore r d).store r' = if r' = r then d else s.store r' :=
  Function.update_apply ..

/-- A store that only gains objects gains them for the whole. -/
theorem objects_setStore {s : State ρ ν ω} {r : ρ} {d : Directory ω}
    (h : (s.store r).objects ⊆ d.objects) (r' : ρ) :
    (s.store r').objects ⊆ ((s.setStore r d).store r').objects := by
  rw [store_setStore]
  split_ifs with hr
  · exact hr ▸ h
  · exact List.Subset.refl _

/-- Covered stores stay covered. -/
theorem covered_setStore {s : State ρ ν ω} {r : ρ} {d : Directory ω}
    (h : ∀ r', (s.store r').Covered) (hd : d.Covered) (r' : ρ) :
    ((s.setStore r d).store r').Covered := by
  rw [store_setStore]
  split_ifs
  · exact hd
  · exact h r'

end

section

variable {ρ ν ω : Type*} [LinearOrder ν] {F : Format ω ν} {alternates : ρ → List ρ}

/-- The store of the repository, or one of its alternates, has the object. -/
def State.Stored (alternates : ρ → List ρ) (s : State ρ ν ω) (r : ρ) (o : ω) : Prop :=
  ∃ r' ∈ r :: alternates r, o ∈ (s.store r').objects

/-- The open batch of the repository has the object. -/
def State.Queued (s : State ρ ν ω) (r : ρ) (o : ω) : Prop :=
  ∃ b ∈ s.batch, b.1 = some r ∧ o ∈ b.2

variable (F alternates) in
/-- The open batch has an object of this sha, for another repository. -/
def State.Foreign (s : State ρ ν ω) (r : ρ) (sha : ν) : Prop :=
  ∃ b ∈ s.batch, b.1 ≠ some r ∧ ∃ o ∈ b.2, F.name o = sha

variable [DecidableEq ρ]

variable (F alternates) in
/-- The cache remembers a miss, and by now the object is there. -/
def State.RemembersMiss (s : State ρ ν ω) (r : ρ) (sha : ν) : Prop :=
  s.cache.get (r, sha) = some none ∧
    ∃ r' ∈ r :: alternates r, ∃ o ∈ (s.store r').objects, F.name o = sha

variable (F alternates) in
/-- A read meets neither. -/
def Fresh (l : Ledger ρ ν ω) : Action ρ ν ω → Prop
  | .read r sha => ¬ l.state.Foreign F r sha ∧ ¬ l.state.RemembersMiss F alternates r sha
  | _ => True

variable (F alternates) in
/-- What the cache gives is in the store; what was written is in the batch or in the store. -/
structure Inv (l : Ledger ρ ν ω) : Prop where
  covered : ∀ r, (l.state.store r).Covered
  cache : ∀ r sha o, l.state.cache.get (r, sha) = some (some o) →
    F.name o = sha ∧ l.state.Stored alternates r o
  queued : ∀ r o, (r, o) ∈ l.queued →
    ∃ b ∈ l.state.batch, b.1 = some r ∧ (o ∈ b.2 ∨ o ∈ (l.state.store r).objects)
  kept : ∀ r o, (r, o) ∈ l.kept → o ∈ (l.state.store r).objects

variable {l l' : Ledger ρ ν ω}

/-- What is in the store stays there, while the cache is left alone. -/
theorem Inv.cache_mono (h : Inv F alternates l)
    (hstore : ∀ r, (l.state.store r).objects ⊆ (l'.state.store r).objects)
    (hcache : l'.state.cache = l.state.cache) (r : ρ) (sha : ν) (o : ω)
    (hget : l'.state.cache.get (r, sha) = some (some o)) :
    F.name o = sha ∧ l'.state.Stored alternates r o := by
  obtain ⟨hsha, r', hr', hmem⟩ := h.cache r sha o (hcache ▸ hget)
  exact ⟨hsha, r', hr', hstore r' hmem⟩

/-- A thread that has done nothing yet, on stores that are there. -/
def init (store : ρ → Directory ω) : Ledger ρ ν ω := ⟨⟨none, [], store, fun _ => none, ∅⟩, [], []⟩

/-- The invariant holds before any action. -/
theorem inv_init {store : ρ → Directory ω} (h : ∀ r, (store r).Covered) :
    Inv F alternates (init store : Ledger ρ ν ω) :=
  ⟨h, nofun, nofun, nofun⟩

variable [DecidableEq ω]

instance (l : Ledger ρ ν ω) (a : Action ρ ν ω) : Decidable (Fresh F alternates l a) := by
  cases a <;> unfold Fresh State.Foreign State.RemembersMiss <;> infer_instance

variable (F alternates) in
/-- A read gives what was written to the repository and not discarded, and nothing that is neither
in its open batch nor in its store. -/
def ReadsOwnWrites (l : Ledger ρ ν ω) : Action ρ ν ω → Prop
  | .read r sha =>
    (∀ o, (r, o) ∈ l.queued ++ l.kept → F.name o = sha →
      (readObject F alternates l.state r sha).1 = some o) ∧
    ∀ o, (readObject F alternates l.state r sha).1 = some o →
      F.name o = sha ∧ (l.state.Queued r o ∨ l.state.Stored alternates r o)
  | _ => True

/-- Writes keep the invariant. -/
theorem Inv.write (hname : Function.Injective F.name) (h : Inv F alternates l) (r : ρ) (o : ω)
    (hs : step F alternates l (.write r o) = some l') : Inv F alternates l' := by
  cases hs
  by_cases hjoin : l.state.Joins r
  · obtain ⟨b, hb, hbr⟩ := hjoin
    have hjoin : l.state.Joins r := ⟨b, hb, hbr⟩
    rw [Option.mem_def] at hb
    simp only [writeObject, if_pos hjoin, hb, Option.map_some, Option.getD_some]
    refine ⟨h.covered, h.cache, fun r' o' hmem => ⟨_, rfl, ?_⟩, h.kept⟩
    rw [List.mem_append, List.mem_singleton, Prod.mk.injEq] at hmem
    rcases hmem with hmem | ⟨rfl, rfl⟩
    · obtain ⟨b', hb', hr', hor⟩ := h.queued r' o' hmem
      obtain rfl : b = b' := Option.some.inj (hb.symm.trans hb')
      rw [hr', Option.some.injEq] at hbr
      refine ⟨by rw [hbr.resolve_left nofun], hor.imp_left fun hin => ?_⟩
      split_ifs
      · exact hin
      · exact List.mem_append_left _ hin
    · refine ⟨rfl, ?_⟩
      split_ifs with hknown
      · refine hknown.imp (isSome_lookup_name hname).mp fun hloose => ?_
        exact Directory.mem_objects.mpr (.inl ((isSome_lookup_name hname).mp hloose))
      · exact .inl (List.mem_append_right _ List.mem_cons_self)
  · have hplace : (l.state.store r).objects ⊆ (place F (l.state.store r) o).objects :=
      fun x hx => (mem_place hname).mpr (.inr hx)
    simp only [writeObject, if_neg hjoin]
    refine ⟨covered_setStore h.covered (covered_place (h.covered r) o),
      h.cache_mono (objects_setStore hplace) rfl, fun r' o' hmem => ?_, fun r' o' hmem => ?_⟩
    · obtain ⟨b, hb, hr', hor⟩ := h.queued r' o' hmem
      exact ⟨b, hb, hr', hor.imp_right fun hin => objects_setStore hplace r' hin⟩
    · rw [List.mem_append, List.mem_singleton, Prod.mk.injEq] at hmem
      rcases hmem with hmem | ⟨rfl, rfl⟩
      · exact objects_setStore hplace r' (h.kept r' o' hmem)
      · rw [store_setStore, if_pos rfl]
        exact (mem_place hname).mpr (.inl rfl)

/-- Flushes keep the invariant. -/
theorem Inv.flush (hname : Function.Injective F.name) (h : Inv F alternates l) (os : Os ω)
    (hs : step F alternates l (.flush os) = some l') : Inv F alternates l' := by
  cases hs
  rw [flushObjectBatch]
  split
  · next r pending hbatch =>
    have hflush := flushed_flush hname os pending (h.covered r)
    refine ⟨covered_setStore h.covered hflush.covered,
      h.cache_mono (objects_setStore hflush.keeps) rfl, nofun, fun r' o' hmem => ?_⟩
    split_ifs at hmem with hstop
    · rcases List.mem_append.mp hmem with hmem | hmem
      · exact objects_setStore hflush.keeps r' (h.kept r' o' hmem)
      obtain ⟨b, hb, hr', hor⟩ := h.queued r' o' hmem
      obtain rfl : (some r, pending) = b := Option.some.inj (hbatch.symm.trans hb)
      cases hr'
      rcases hor with hin | hin
      · rw [store_setStore, if_pos rfl]
        exact hflush.all (Option.isNone_iff_eq_none.mp hstop) hin
      · exact objects_setStore hflush.keeps r hin
    · exact objects_setStore hflush.keeps r' (h.kept r' o' hmem)
  · next hbatch =>
    refine ⟨h.covered, h.cache, nofun, fun r' o' hmem => ?_⟩
    split_ifs at hmem
    · rcases List.mem_append.mp hmem with hmem | hmem
      · exact h.kept r' o' hmem
      · obtain ⟨⟨_, pending⟩, hb, rfl, -⟩ := h.queued r' o' hmem
        exact absurd hb (hbatch r' pending)
    · exact h.kept r' o' hmem

/-- Reads keep the invariant. -/
theorem Inv.read (h : Inv F alternates l) (r : ρ) (sha : ν)
    (hs : step F alternates l (.read r sha) = some l') : Inv F alternates l' := by
  cases hs
  rw [readObject]
  split
  · exact ⟨h.covered, h.cache, h.queued, h.kept⟩
  · split
    · refine ⟨h.covered, fun r' sha' o hget => h.cache r' sha' o ?_, h.queued, h.kept⟩
      rwa [Table.get_reuse] at hget
    · refine ⟨h.covered, fun r' sha' o hget => ?_, h.queued, h.kept⟩
      rcases Table.get_remember_eq_some hget with ⟨hkey, hfound⟩ | hget
      · cases hkey
        obtain ⟨hmem, hsha⟩ := readStores_eq_some hfound.symm
        exact ⟨hsha, hmem⟩
      · exact h.cache r' sha' o hget

/-- Every action keeps the invariant. -/
theorem Inv.step (hname : Function.Injective F.name) (h : Inv F alternates l) (a : Action ρ ν ω)
    (hs : step F alternates l a = some l') : Inv F alternates l' := by
  cases a with
  | enter =>
    cases hs
    refine ⟨h.covered, h.cache, fun r o hmem => ?_, h.kept⟩
    obtain ⟨b, hb, hor⟩ := h.queued r o hmem
    exact ⟨b, by rw [Option.mem_def.mp hb]; rfl, hor⟩
  | leave =>
    simp only [ObjectStore.step] at hs
    split at hs
    · cases hs
    · cases hs
      exact ⟨h.covered, h.cache, h.queued, h.kept⟩
    · cases hs
      exact ⟨h.covered, h.cache, nofun, h.kept⟩
  | write r o => exact h.write hname r o hs
  | flush os => exact h.flush hname os hs
  | read r sha => exact h.read r sha hs

/-- In a state with the invariant a fresh read answers by what is stored or pending. -/
theorem Inv.readsOwnWrites (hname : Function.Injective F.name) (h : Inv F alternates l)
    (a : Action ρ ν ω) (hfresh : Fresh F alternates l a) : ReadsOwnWrites F alternates l a := by
  cases a with
  | read r sha =>
    obtain ⟨hforeign, hmiss⟩ := hfresh
    constructor
    · rintro o hmem rfl
      rw [readObject]
      split
      · next o' ho' =>
        obtain ⟨b, -, hlook⟩ := Option.bind_eq_some_iff.mp ho'
        rw [hname (lookup_eq_some hlook).2]
      · next hnone =>
        -- the batch does not have it, so it is in the store
        have hin : o ∈ (l.state.store r).objects := by
          rcases List.mem_append.mp hmem with hmem | hmem
          · obtain ⟨b, hb, -, hor⟩ := h.queued r o hmem
            refine hor.resolve_left fun hb2 => ?_
            rw [Option.mem_def.mp hb, Option.bind_some, lookup_name hname hb2] at hnone
            cases hnone
          · exact h.kept r o hmem
        split
        · next answer hget =>
          cases answer with
          | none => exact absurd ⟨hget, r, List.mem_cons_self, o, hin, rfl⟩ hmiss
          | some o' => rw [hname (h.cache r _ o' hget).1]
        · exact readStores_of_mem hname List.mem_cons_self hin
    · intro o ho
      rw [readObject] at ho
      split at ho
      · next o' ho' =>
        cases ho
        obtain ⟨b, hb, hlook⟩ := Option.bind_eq_some_iff.mp ho'
        obtain ⟨hmem, hsha⟩ := lookup_eq_some hlook
        exact ⟨hsha, .inl ⟨b, hb, not_not.mp fun hr => hforeign ⟨b, hb, hr, o, hmem, hsha⟩, hmem⟩⟩
      · split at ho
        · next answer hget =>
          cases ho
          obtain ⟨hsha, hmem⟩ := h.cache r sha o hget
          exact ⟨hsha, .inr hmem⟩
        · obtain ⟨hmem, hsha⟩ := readStores_eq_some ho
          exact ⟨hsha, .inr hmem⟩
  | _ => trivial

/-- **A read gives what was written**, and nothing else, in every run of writes, batches, flushes
and reads in which no read asks for an object that the cache remembers as missing and that was
stored since, and none asks for one that is queued for another repository. -/
theorem reads_own_writes (hname : Function.Injective F.name) {store : ρ → Directory ω}
    (hstore : ∀ r, (store r).Covered) {as : List (Action ρ ν ω)}
    (hfresh : Along (ObjectStore.step F alternates) (Fresh F alternates) (init store) as) :
    Along (ObjectStore.step F alternates) (ReadsOwnWrites F alternates) (init store) as :=
  Along.of_condition (fun _ _ _ _ h => h.step hname _)
    (fun _ a hfresh h => h.readsOwnWrites hname a hfresh) hfresh (inv_init hstore)

end

/-! ### Two ways to read something else -/

/-- Objects are named by themselves. -/
def plainFormat : Format Nat Nat := ⟨id, fun _ => 1, fun _ => 10⟩

def emptyStore (_ : Fin 2) : Directory Nat := ⟨[], [], none⟩

/-- Nine objects are packed, nine more are folded into the pack, and both are read, with a listing
that is out of date. -/
def foldRun : List (Action (Fin 2) Nat Nat) :=
  [.enter] ++ (List.range 9).map (.write 0) ++ [.flush ⟨none, fun _ => false⟩, .leave, .read 0 3] ++
    [.enter] ++ (List.range' 9 9).map (.write 0) ++
    [.flush ⟨none, fun _ => false⟩, .leave, .read 0 4, .read 0 12, .read 1 4]

theorem reads_own_writes_fold :
    Along (step plainFormat fun _ => []) (ReadsOwnWrites plainFormat fun _ => [])
      (init emptyStore) foldRun :=
  reads_own_writes Function.injective_id (fun _ _ hm => by cases hm) (by decide)

/-- An object that was not there when it was asked for is written, and is not read; and an object
that is queued for one repository is read from another one. -/
theorem read_remembers_miss :
    (∃ l, run (step plainFormat fun _ => []) (init emptyStore) [.read 0 5, .write 0 5] = some l ∧
      (0, 5) ∈ l.kept ∧ (readObject plainFormat (fun _ => []) l.state (0 : Fin 2) 5).1 = none) ∧
    ∃ l, run (step plainFormat fun _ => []) (init emptyStore) [.enter, .write 0 5] = some l ∧
      (readObject plainFormat (fun _ => []) l.state (1 : Fin 2) 5).1 = some 5 ∧
      ¬ l.state.Queued 1 5 ∧ ¬ l.state.Stored (fun _ => []) 1 5 := by
  refine ⟨⟨_, rfl, by decide, by decide⟩, _, rfl, by decide, ?_, ?_⟩
  · rintro ⟨b, hb, hr, -⟩
    cases hb
    cases hr
  · rintro ⟨r, hr, hmem⟩
    cases List.mem_singleton.mp hr
    cases hmem

end ObjectStore

end Git

end CoordinatorCore
