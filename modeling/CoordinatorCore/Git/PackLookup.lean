import CoordinatorCore.Machine.Run
import CoordinatorCore.Machine.Table
import Mathlib.Data.List.Basic

/-!
# Looking a sha up in the packs

`_pack_listing`, `_LookupSource` and `_locate_packed` of `git/git_objects.py`, for one repository,
over any sequence of lookups and of changes of its pack directory. A source answers for one listing:
the multi-pack-index first, then the packs that it does not name, one by one while they are few, and
from one merged table when they are many. The table of the source before is carried on, as long as
none of its packs has gone.

With `revalidate` the listing is the one that is there; without it the listing is the one that was
read last, and that is on purpose. For the packs of its listing a lookup finds a sha if and only if
one of them holds it, with the offset that this one gives (`locatePacked_finds`), unless the
multi-pack-index answers with a pack that has gone, while another of its packs still has the sha.
-/

namespace CoordinatorCore

open Machine

namespace Git

namespace PackLookup

/-- A multi-pack-index: the packs that it names, and for a sha the number of one of them, with the
offset there. -/
structure Midx (ν σ : Type*) where
  names : List ν
  find : σ → Option (Nat × Nat)

/-- `_LookupSource`: the names of the listing, newest first, the indexes parsed so far, the
multi-pack-index, the merged table, how often the newest packs were probed, the segments with their
positions, and the table of the source before. -/
structure Source (ν σ : Type*) where
  listing : List ν
  parsed : Table Nat (Option (Table σ Nat))
  midx : Option (Midx ν σ)
  merged : Option (Table σ (Nat × Nat))
  probes : Nat
  sids : Table ν Nat
  sidPos : Table Nat Nat
  prior : Option (Table σ (Nat × Nat) × Table ν Nat)

/-- The pack directory with its generation, and what the process remembers of it. -/
structure State (ν σ : Type*) where
  packs : List ν
  midx : Option (Midx ν σ)
  generation : Nat
  listing : Option (Nat × List ν)
  source : Option (Source ν σ)
  retired : Option (Source ν σ)
  lastHit : Option Nat
  nextSid : Nat

/-- `_UNCOVERED_LAZY_MAX`. -/
def uncoveredLazyMax : Nat := 8

/-- `_PROBE_NEWEST`. -/
def probeNewest : Nat := 64

/-- `_PROBES_BEFORE_MERGE`. -/
def probesBeforeMerge : Nat := 32

section

variable {ν σ : Type*} [DecidableEq ν]

/-- The multi-pack-index does not name the pack. -/
def Source.Uncovered (src : Source ν σ) (n : ν) : Prop := ∀ m ∈ src.midx, n ∉ m.names

instance (src : Source ν σ) : DecidablePred src.Uncovered := fun n =>
  inferInstanceAs (Decidable (∀ m ∈ src.midx, n ∉ m.names))

/-- The positions of the packs that the multi-pack-index does not name, with their names. -/
def Source.uncovered (src : Source ν σ) : List (ν × Nat) :=
  src.listing.zipIdx.filter fun e => src.Uncovered e.1

/-- `_LookupSource.__init__`. -/
def Source.new (listing : List ν) (midx : Option (Midx ν σ)) (prior : Option (Source ν σ)) :
    Source ν σ :=
  ⟨listing, ∅, midx, none, 0, ∅, ∅, prior.bind fun p => p.merged.map fun t => (t, p.sids)⟩

variable (idx : ν → Option (Table σ Nat)) (packs : List ν)

/-- `_LazyPackIndexes.__getitem__`: an index is read when it is asked for the first time. -/
def Source.parse (src : Source ν σ) (i : Nat) : Option (Table σ Nat) × Source ν σ :=
  match src.parsed.get i with
  | some p => (p, src)
  | none =>
    let p := src.listing[i]?.bind fun n => if n ∈ packs then idx n else none
    (p, { src with parsed := src.parsed.set i p })

variable [DecidableEq σ]

/-- The packs are asked one after the other. -/
def Source.probe (sha : σ) : List Nat → Source ν σ → Option (Nat × Nat) × Source ν σ
  | [], src => (none, src)
  | i :: order, src =>
    let (p, src) := src.parse idx packs i
    match p.bind (·.get sha) with
    | some offset => (some (i, offset), src)
    | none => Source.probe sha order src

/-- The pack at this position takes the sha: it is newer than all packs of the table, or than the
one that has the sha. -/
def Takes (sidPos : Table Nat Nat) (floor : Option Nat) (i : Nat) (t : Table σ (Nat × Nat))
    (sha : σ) : Prop :=
  (∀ f ∈ floor, i < f) ∨ ∀ held ∈ t.get sha, i < (sidPos.get held.1).getD (i + 1)

instance (sidPos : Table Nat Nat) (floor : Option Nat) (i : Nat) (t : Table σ (Nat × Nat))
    (sha : σ) : Decidable (Takes sidPos floor i t sha) :=
  inferInstanceAs (Decidable (_ ∨ _))

/-- The entries of a pack join the table. -/
def mergePack (sidPos : Table Nat Nat) (floor : Option Nat) (i sid : Nat) (p : Table σ Nat)
    (t : Table σ (Nat × Nat)) : Table σ (Nat × Nat) :=
  p.entries.zipIdx.foldl
    (fun t e => if Takes sidPos floor i t e.1.1 then t.set e.1.1 (sid, e.2) else t) t

/-- The added packs join the table, oldest first. -/
def Source.mergePacks : List (ν × Nat) → Option Nat → Source ν σ → Table σ (Nat × Nat) →
    Source ν σ × Table σ (Nat × Nat)
  | [], _, src, t => (src, t)
  | e :: es, floor, src, t =>
    let (p, src) := src.parse idx packs e.2
    match p with
    | none => Source.mergePacks es floor src t
    | some p =>
      Source.mergePacks es (if ∀ f ∈ floor, e.2 < f then some e.2 else floor) src
        (mergePack src.sidPos floor e.2 ((src.sids.get e.1).getD 0) p t)

/-- The table and the segments that are carried on: those of the source before, when none of its
packs has gone. -/
def Source.carried (src : Source ν σ) : Table σ (Nat × Nat) × Table ν Nat :=
  match src.prior with
  | some (t, sids) => if ∀ n ∈ sids.keys, n ∈ src.uncovered.map Prod.fst then (t, sids) else (∅, ∅)
  | none => (∅, ∅)

/-- `_merged_table`, with the number of the next segment. -/
def Source.mergedTable (src : Source ν σ) (nextSid : Nat) :
    Table σ (Nat × Nat) × Source ν σ × Nat :=
  match src.merged with
  | some t => (t, src, nextSid)
  | none =>
    let (t, old) := src.carried
    let added := src.uncovered.filter fun e => e.1 ∉ old.keys
    let floor := ((src.uncovered.filter fun e => e.1 ∈ old.keys).map Prod.snd).min?
    let sids := (added.zipIdx nextSid).foldl (fun s e => s.set e.1.1 e.2) old
    let sidPos := src.uncovered.foldl (fun t e => t.set ((sids.get e.1).getD 0) e.2) ∅
    let (src, t) := Source.mergePacks idx packs added.reverse floor
      { src with sids := sids, sidPos := sidPos, prior := none } t
    (t, { src with merged := some t }, nextSid + added.length)

/-- What the multi-pack-index gives, when it is a pack of the listing. -/
def Source.midxHit (src : Source ν σ) (sha : σ) : Option (Nat × Nat) :=
  src.midx.bind fun m => (m.find sha).bind fun hit => m.names[hit.1]?.bind fun n =>
    (src.listing.idxOf? n).map fun i => (i, hit.2)

/-- The packs that are probed, the one of the last hit first. -/
def probeOrder (order : List Nat) (lastHit : Option Nat) : List Nat :=
  match lastHit with
  | some i => if i ∈ order then i :: order.filter (· ≠ i) else order
  | none => order

/-- What the merged table gives. -/
def Source.tableHit (src : Source ν σ) (nextSid : Nat) (sha : σ) :
    Option (Nat × Nat) × Source ν σ × Nat :=
  let (t, src, nextSid) := src.mergedTable idx packs nextSid
  match t.get sha with
  | none => (none, src, nextSid)
  | some (sid, entry) =>
    let i := (src.sidPos.get sid).getD 0
    let (p, src) := src.parse idx packs i
    (p.bind fun p => p.entries[entry]?.map fun e => (i, e.2), src, nextSid)

/-- `_LookupSource.find`: position and offset, with the source, the pack of the last hit and the
next segment. -/
def Source.find (src : Source ν σ) (lastHit : Option Nat) (nextSid : Nat) (sha : σ) :
    Option (Nat × Nat) × Source ν σ × Option Nat × Nat :=
  match src.midxHit sha with
  | some hit => (some hit, src, lastHit, nextSid)
  | none =>
    let uncovered := src.uncovered.map Prod.snd
    let few := uncovered.length ≤ uncoveredLazyMax
    let probing := ¬ few ∧ src.merged = none ∧ src.probes < probesBeforeMerge
    if few ∨ probing then
      let order := probeOrder (if few then uncovered else uncovered.take probeNewest) lastHit
      let found := Source.probe idx packs sha order
        (if few then src else { src with probes := src.probes + 1 })
      match found.1 with
      | some hit => (some hit, found.2, some hit.1, nextSid)
      | none =>
        if few then (none, found.2, lastHit, nextSid)
        else
          let (hit, src, nextSid) := found.2.tableHit idx packs nextSid sha
          (hit, src, lastHit, nextSid)
    else
      let (hit, src, nextSid) := src.tableHit idx packs nextSid sha
      (hit, src, lastHit, nextSid)

/-! ### The process -/

/-- `_pack_listing`: a listing that is out of date goes, and the source with it. -/
def State.listed (s : State ν σ) (revalidate : Bool) : State ν σ :=
  if s.listing.any fun l => !revalidate || l.1 == s.generation then s
  else { s with
    listing := some (s.generation, s.packs)
    source := none
    retired := s.source <|> s.retired
    lastHit := none }

/-- The source for the listing. -/
def State.openSource (s : State ν σ) : Source ν σ :=
  s.source.getD (Source.new ((s.listing.map Prod.snd).getD []) s.midx s.retired)

/-- `_locate_packed`: the pack and the offset, and what is remembered. -/
def locatePacked (s : State ν σ) (sha : σ) (revalidate : Bool) :
    Option (ν × Nat) × State ν σ :=
  let s := s.listed revalidate
  let src := s.openSource
  let (hit, src', lastHit, nextSid) := src.find idx s.packs s.lastHit s.nextSid sha
  (hit.bind fun h => src.listing[h.1]?.map fun n => (n, h.2), { s with
    source := some src'
    retired := if s.source.isSome then s.retired else none
    lastHit := lastHit
    nextSid := nextSid })

/-- The pack directory changes, or a sha is looked up. -/
inductive Action (ν σ : Type*)
  | change (packs : List ν) (midx : Option (Midx ν σ))
  | lookup (sha : σ) (revalidate : Bool)

def step (s : State ν σ) : Action ν σ → Option (State ν σ)
  | .change packs midx =>
    some { s with packs := packs, midx := midx, generation := s.generation + 1 }
  | .lookup sha revalidate => some (locatePacked idx s sha revalidate).2

end

/-! ### What a source holds -/

section

variable {ν σ : Type*} {idx : ν → Option (Table σ Nat)}

section

variable [DecidableEq σ]

variable (idx) in
/-- The offset that the index of a pack gives. -/
def offsetIn (n : ν) (sha : σ) : Option Nat := (idx n).bind (·.get sha)

/-- The multi-pack-index says of the packs that it names what their own indexes say. -/
structure Midx.Describes (idx : ν → Option (Table σ Nat)) (m : Midx ν σ) : Prop where
  sound : ∀ sha k offset, m.find sha = some (k, offset) →
    ∃ n, m.names[k]? = some n ∧ offsetIn idx n sha = some offset
  complete : ∀ n ∈ m.names, ∀ sha, (offsetIn idx n sha).isSome → (m.find sha).isSome

/-- Every entry of a table of segments is one of its pack, and no sha of its packs is missing. -/
structure TableOk [DecidableEq ν] (idx : ν → Option (Table σ Nat)) (t : Table σ (Nat × Nat))
    (sids : Table ν Nat) (nextSid : Nat) : Prop where
  lt : ∀ n k, sids.get n = some k → k < nextSid
  inj : ∀ n n' k, sids.get n = some k → sids.get n' = some k → n = n'
  sound : ∀ sha k e, t.get sha = some (k, e) → ∃ n p offset, sids.get n = some k ∧
    idx n = some p ∧ p.entries[e]? = some (sha, offset)
  complete : ∀ n ∈ sids.keys, ∀ sha, (offsetIn idx n sha).isSome → (t.get sha).isSome

theorem foldl_merge (sid : Nat) (C : Table σ (Nat × Nat) → (σ × Nat) × Nat → Prop)
    [∀ t e, Decidable (C t e)] (hC : ∀ t e, ¬ C t e → (t.get e.1.1).isSome)
    (es : List ((σ × Nat) × Nat)) (t : Table σ (Nat × Nat)) (sha : σ) :
    (∀ v, (es.foldl (fun t e => if C t e then t.set e.1.1 (sid, e.2) else t) t).get sha = some v →
      t.get sha = some v ∨ ∃ e ∈ es, e.1.1 = sha ∧ v = (sid, e.2)) ∧
    (((t.get sha).isSome ∨ ∃ e ∈ es, e.1.1 = sha) →
      ((es.foldl (fun t e => if C t e then t.set e.1.1 (sid, e.2) else t) t).get sha).isSome) := by
  induction es generalizing t with
  | nil => exact ⟨fun v => .inl, fun h => h.resolve_right nofun⟩
  | cons e es ih =>
    obtain ⟨hsound, hkeep⟩ := ih (if C t e then t.set e.1.1 (sid, e.2) else t)
    rw [List.foldl_cons]
    refine ⟨fun v hv => ?_, fun h => hkeep ?_⟩
    · rcases hsound v hv with hget | ⟨e', he', h'⟩
      · split_ifs at hget with hc
        · rw [Table.get_set] at hget
          split_ifs at hget with heq
          · exact .inr ⟨e, List.mem_cons_self, heq.symm, (Option.some.inj hget).symm⟩
          · exact .inl hget
        · exact .inl hget
      · exact .inr ⟨e', List.mem_cons_of_mem e he', h'⟩
    · have hset : (t.get sha).isSome ∨ e.1.1 = sha →
          ((if C t e then t.set e.1.1 (sid, e.2) else t).get sha).isSome := by
        intro hor
        split_ifs with hc
        · rw [Table.get_set]
          split_ifs with heq
          · rfl
          · exact hor.resolve_right fun h => heq h.symm
        · exact hor.elim id fun heq => heq ▸ hC t e hc
      rcases h with hsome | ⟨e', he', heq⟩
      · exact .inl (hset (.inl hsome))
      · rcases List.mem_cons.mp he' with rfl | he'
        · exact .inl (hset (.inr heq))
        · exact .inr ⟨e', he', heq⟩

/-- A pack that joins the table brings its entries, and takes away none. -/
theorem get_mergePack (sidPos : Table Nat Nat) (floor : Option Nat) (i sid : Nat)
    (p : Table σ Nat) (t : Table σ (Nat × Nat)) (sha : σ) :
    (∀ v, (mergePack sidPos floor i sid p t).get sha = some v → t.get sha = some v ∨
      ∃ e offset, p.entries[e]? = some (sha, offset) ∧ v = (sid, e)) ∧
    (((t.get sha).isSome ∨ (p.get sha).isSome) →
      ((mergePack sidPos floor i sid p t).get sha).isSome) := by
  obtain ⟨hsound, hkeep⟩ := foldl_merge sid
    (fun t e => Takes sidPos floor i t e.1.1)
    (fun t e hc => by
      rw [Option.isSome_iff_ne_none]
      exact fun hnone => hc (.inr fun held hheld => by simp [hnone] at hheld))
    p.entries.zipIdx t sha
  refine ⟨fun v hv => (hsound v hv).imp_right ?_, fun h => hkeep (h.imp_right fun hp => ?_)⟩
  · rintro ⟨⟨⟨s, offset⟩, e⟩, he, rfl, rfl⟩
    exact ⟨e, offset, List.mem_zipIdx_iff_getElem?.mp he, rfl⟩
  · obtain ⟨offset, hoffset⟩ := Option.isSome_iff_exists.mp hp
    obtain ⟨e, he⟩ := List.mem_iff_getElem?.mp (Table.get_eq_some_iff.mp hoffset)
    exact ⟨((sha, offset), e), List.mem_zipIdx_iff_getElem?.mpr he, rfl⟩

variable [DecidableEq ν]

/-- What was parsed is what the indexes of the listed packs say. -/
def Parsed (idx : ν → Option (Table σ Nat)) (listing : List ν)
    (parsed : Table Nat (Option (Table σ Nat))) : Prop :=
  ∀ i n p, listing[i]? = some n → parsed.get i = some p → p = idx n

variable {packs : List ν} {src : Source ν σ}

omit [DecidableEq σ] in
/-- An index of a pack that is there is read as it is. -/
theorem exists_parse (hpacks : ∀ n ∈ src.listing, n ∈ packs)
    (hparsed : Parsed idx src.listing src.parsed) {i : Nat} {n : ν}
    (hi : src.listing[i]? = some n) :
    ∃ parsed, src.parse idx packs i = (idx n, { src with parsed := parsed }) ∧
      Parsed idx src.listing parsed := by
  rw [Source.parse]
  split
  · next p hp =>
    exact ⟨src.parsed, by rw [hparsed i n p hi hp], hparsed⟩
  · refine ⟨src.parsed.set i (idx n), ?_, fun j m p hj hp => ?_⟩
    · simp only [hi, Option.bind_some, if_pos (hpacks n (List.mem_of_getElem? hi))]
    · rw [Table.get_set] at hp
      split_ifs at hp with heq
      · subst heq
        rw [hi, Option.some.injEq] at hj
        rw [← hj, Option.some.inj hp]
      · exact hparsed j m p hj hp

/-- A probe asks the packs in order and remembers the indexes it parses. -/
theorem exists_probe (hpacks : ∀ n ∈ src.listing, n ∈ packs)
    (hparsed : Parsed idx src.listing src.parsed) (sha : σ) {order : List Nat}
    (horder : ∀ i ∈ order, ∃ n, src.listing[i]? = some n) :
    ∃ hit parsed, src.probe idx packs sha order = (hit, { src with parsed := parsed }) ∧
      Parsed idx src.listing parsed ∧
      (∀ i offset, hit = some (i, offset) →
        ∃ n, src.listing[i]? = some n ∧ offsetIn idx n sha = some offset) ∧
      (hit = none → ∀ i ∈ order, ∀ n, src.listing[i]? = some n → offsetIn idx n sha = none) := by
  induction order generalizing src with
  | nil => exact ⟨none, src.parsed, rfl, hparsed, nofun, fun _ => nofun⟩
  | cons i order ih =>
    obtain ⟨n, hi⟩ := horder i List.mem_cons_self
    obtain ⟨parsed, hparse, hparsed'⟩ := exists_parse hpacks hparsed hi
    rw [Source.probe, hparse]
    dsimp only
    cases hfound : (idx n).bind (·.get sha) with
    | some offset =>
      refine ⟨some (i, offset), parsed, rfl, hparsed', fun j o hj => ?_, nofun⟩
      cases hj
      exact ⟨n, hi, hfound⟩
    | none =>
      obtain ⟨hit, parsed', hprobe, hp, hsome, hnone⟩ := @ih
        { src with parsed := parsed } hpacks hparsed'
        fun j hj => horder j (List.mem_cons_of_mem i hj)
      refine ⟨hit, parsed', hprobe, hp, hsome, fun hn j hj m hm => ?_⟩
      rcases List.mem_cons.mp hj with rfl | hj
      · rw [hi, Option.some.injEq] at hm
        exact hm ▸ hfound
      · exact hnone hn j hj m hm

/-- The added packs bring their entries. -/
theorem exists_mergePacks (hpacks : ∀ n ∈ src.listing, n ∈ packs)
    (hparsed : Parsed idx src.listing src.parsed) {es : List (ν × Nat)}
    (hes : ∀ e ∈ es, src.listing[e.2]? = some e.1 ∧ ∃ k, src.sids.get e.1 = some k)
    (floor : Option Nat) (t : Table σ (Nat × Nat)) :
    ∃ t' parsed, src.mergePacks idx packs es floor t = ({ src with parsed := parsed }, t') ∧
      Parsed idx src.listing parsed ∧
      (∀ sha k e, t'.get sha = some (k, e) → t.get sha = some (k, e) ∨
        ∃ n p offset, src.sids.get n = some k ∧ idx n = some p ∧
          p.entries[e]? = some (sha, offset)) ∧
      ∀ sha, ((t.get sha).isSome ∨ ∃ e ∈ es, (offsetIn idx e.1 sha).isSome) →
        (t'.get sha).isSome := by
  induction es generalizing src floor t with
  | nil =>
    exact ⟨t, src.parsed, rfl, hparsed, fun _ _ _ => .inl, fun _ h => h.resolve_right nofun⟩
  | cons e es ih =>
    obtain ⟨hi, k, hk⟩ := hes e List.mem_cons_self
    obtain ⟨parsed, hparse, hparsed'⟩ := exists_parse hpacks hparsed hi
    have hrest : ∀ e' ∈ es, src.listing[e'.2]? = some e'.1 ∧ ∃ k, src.sids.get e'.1 = some k :=
      fun e' he' => hes e' (List.mem_cons_of_mem e he')
    rw [Source.mergePacks, hparse]
    dsimp only
    -- an index that is gone adds nothing
    cases hp : idx e.1 with
    | none =>
      obtain ⟨t', parsed', hrun, hpar, hsound, hkeep⟩ :=
        @ih { src with parsed := parsed } hpacks hparsed' hrest floor t
      refine ⟨t', parsed', hrun, hpar, hsound, fun sha h => hkeep sha (h.imp_right ?_)⟩
      rintro ⟨e', he', hsome⟩
      rcases List.mem_cons.mp he' with rfl | he'
      · simp [offsetIn, hp] at hsome
      · exact ⟨e', he', hsome⟩
    | some p =>
      obtain ⟨t', parsed', hrun, hpar, hsound, hkeep⟩ :=
        @ih { src with parsed := parsed } hpacks hparsed' hrest
          (if ∀ f ∈ floor, e.2 < f then some e.2 else floor)
          (mergePack src.sidPos floor e.2 ((src.sids.get e.1).getD 0) p t)
      refine ⟨t', parsed', hrun, hpar, fun sha k' e' hget => ?_, fun sha h => hkeep sha ?_⟩
      · rcases hsound sha k' e' hget with hget | hnew
        · refine ((get_mergePack src.sidPos floor e.2 ((src.sids.get e.1).getD 0) p t sha).1 _
            hget).imp_right ?_
          rintro ⟨e'', offset, hentry, heq⟩
          rw [hk, Option.getD_some, Prod.mk.injEq] at heq
          obtain ⟨rfl, rfl⟩ := heq
          exact ⟨e.1, p, offset, hk, hp, hentry⟩
        · exact .inr hnew
      · have hmerge := (get_mergePack src.sidPos floor e.2 ((src.sids.get e.1).getD 0) p t sha).2
        rcases h with hsome | ⟨e', he', hsome⟩
        · exact .inl (hmerge (.inl hsome))
        · rcases List.mem_cons.mp he' with rfl | he'
          · rw [offsetIn, hp, Option.bind_some] at hsome
            exact .inl (hmerge (.inr hsome))
          · exact .inr ⟨e', he', hsome⟩

/-- What holds of a source: what was parsed is right, and so are the merged table, which has all
packs that the multi-pack-index does not name, and the table of the source before. -/
structure SourceOk (idx : ν → Option (Table σ Nat)) (src : Source ν σ) (nextSid : Nat) : Prop where
  nodup : src.listing.Nodup
  parsed : Parsed idx src.listing src.parsed
  merged : ∀ t ∈ src.merged, TableOk idx t src.sids nextSid ∧
    (∀ e ∈ src.uncovered, e.1 ∈ src.sids.keys) ∧
    ∀ n k, src.sids.get n = some k → ∃ i, src.sidPos.get k = some i ∧ src.listing[i]? = some n
  prior : ∀ q ∈ src.prior, TableOk idx q.1 q.2 nextSid

omit [DecidableEq σ] in
/-- The packs no multi-pack-index covers. -/
theorem mem_uncovered {e : ν × Nat} :
    e ∈ src.uncovered ↔ src.listing[e.2]? = some e.1 ∧ src.Uncovered e.1 := by
  rw [Source.uncovered, List.mem_filter, List.mem_zipIdx_iff_getElem?, decide_eq_true_eq]

omit [DecidableEq σ] in
/-- Each pack that is not covered is there once. -/
theorem nodup_uncovered (h : src.listing.Nodup) : (src.uncovered.map Prod.fst).Nodup := by
  refine List.Nodup.sublist (List.filter_sublist.map Prod.fst) ?_
  rw [List.zipIdx_map_fst]
  exact h

/-- An empty table is right. -/
theorem TableOk.empty (nextSid : Nat) : TableOk idx (∅ : Table σ (Nat × Nat)) ∅ nextSid :=
  ⟨nofun, nofun, nofun, nofun⟩

/-- What is carried on fits, and its packs are listed. -/
theorem carried_ok {nextSid : Nat} (h : SourceOk idx src nextSid) :
    TableOk idx src.carried.1 src.carried.2 nextSid ∧
      ∀ n ∈ src.carried.2.keys, n ∈ src.uncovered.map Prod.fst := by
  rw [Source.carried]
  split
  · next t sids hprior =>
    split_ifs with hin
    · exact ⟨h.prior (t, sids) hprior, hin⟩
    · exact ⟨TableOk.empty nextSid, nofun⟩
  · exact ⟨TableOk.empty nextSid, nofun⟩

/-- The segments of the added packs are new, and the others stay. -/
theorem get_addedSids {old : Table ν Nat} {nextSid : Nat} {added : List (ν × Nat)}
    (hold : ∀ n k, old.get n = some k → k < nextSid) (hinj : ∀ n n' k, old.get n = some k →
      old.get n' = some k → n = n') (hadded : (added.map Prod.fst).Nodup)
    (hnew : ∀ e ∈ added, e.1 ∉ old.keys) :
    let sids := (added.zipIdx nextSid).foldl (fun s e => s.set e.1.1 e.2) old
    (∀ n k, old.get n = some k → sids.get n = some k) ∧
      (∀ e ∈ added, ∃ k, sids.get e.1 = some k) ∧
      (∀ n k, sids.get n = some k → old.get n = some k ∨ n ∈ added.map Prod.fst) ∧
      (∀ n k, sids.get n = some k → k < nextSid + added.length) ∧
      ∀ n n' k, sids.get n = some k → sids.get n' = some k → n = n' := by
  intro sids
  have hkeys : ((added.zipIdx nextSid).map fun e => (e.1.1, e.2)).map Prod.fst =
      added.map Prod.fst := by
    rw [List.map_map, ← List.zipIdx_map_fst nextSid added, List.map_map]
    simp only [List.zipIdx_map_fst]
    rfl
  obtain ⟨hset, hkeep⟩ := @Table.get_foldl_set _ _ _
    ((added.zipIdx nextSid).map fun e => (e.1.1, e.2)) (hkeys ▸ hadded) old
  rw [List.foldl_map] at hset hkeep
  rw [hkeys] at hkeep
  -- a number is an old one, or the place of an added pack
  have hcases : ∀ n k, sids.get n = some k → old.get n = some k ∨
      ∃ i, nextSid ≤ k ∧ added[k - nextSid]? = some (n, i) := by
    intro n k hk
    by_cases hn : n ∈ added.map Prod.fst
    · right
      obtain ⟨e, he, rfl⟩ := List.mem_map.mp hn
      obtain ⟨j, hj⟩ := List.mem_iff_getElem?.mp he
      have hmem : (e.1, nextSid + j) ∈ (added.zipIdx nextSid).map fun e => (e.1.1, e.2) :=
        List.mem_map.mpr ⟨(e, nextSid + j), List.mk_add_mem_zipIdx_iff_getElem?.mpr hj, rfl⟩
      have hkj := (hset e.1 (nextSid + j) hmem).symm.trans hk
      rw [Option.some.injEq] at hkj
      subst hkj
      refine ⟨e.2, by omega, ?_⟩
      rw [Nat.add_sub_cancel_left]
      exact hj
    · exact .inl ((hkeep n hn).symm.trans hk)
  -- no old name is added again
  have hfresh : ∀ n k, old.get n = some k → n ∉ added.map Prod.fst := by
    intro n k hk hn
    obtain ⟨e, he, rfl⟩ := List.mem_map.mp hn
    exact hnew e he (Table.mem_keys_iff.mpr ⟨k, hk⟩)
  refine ⟨fun n k hk => (hkeep n (hfresh n k hk)).trans hk, fun e he => ?_, fun n k hk => ?_,
    fun n k hk => ?_, fun n n' k hk hk' => ?_⟩
  · obtain ⟨j, hj⟩ := List.mem_iff_getElem?.mp he
    exact ⟨nextSid + j, hset e.1 (nextSid + j)
      (List.mem_map.mpr ⟨(e, nextSid + j), List.mk_add_mem_zipIdx_iff_getElem?.mpr hj, rfl⟩)⟩
  · refine (hcases n k hk).imp_right fun ⟨i, _, hi⟩ => ?_
    exact List.mem_map_of_mem (f := Prod.fst) (List.mem_of_getElem? hi)
  · rcases hcases n k hk with hk | ⟨i, hle, hi⟩
    · have := hold n k hk
      omega
    · have := (List.getElem?_eq_some_iff.mp hi).1
      omega
  · rcases hcases n k hk with hk | ⟨i, hle, hi⟩
    · rcases hcases n' k hk' with hk' | ⟨i', hle', hi'⟩
      · exact hinj n n' k hk hk'
      · have := hold n k hk
        omega
    · rcases hcases n' k hk' with hk' | ⟨i', hle', hi'⟩
      · have := hold n' k hk'
        omega
      · rw [hi, Option.some.injEq] at hi'
        exact congrArg Prod.fst hi'

/-- The position of a segment is the one of its pack. -/
theorem get_sidPos {sids : Table ν Nat} {es : List (ν × Nat)} (hes : (es.map Prod.fst).Nodup)
    (hsids : ∀ e ∈ es, ∃ k, sids.get e.1 = some k)
    (hinj : ∀ n n' k, sids.get n = some k → sids.get n' = some k → n = n') {e : ν × Nat} {k : Nat}
    (he : e ∈ es) (hk : sids.get e.1 = some k) :
    (es.foldl (fun t e => t.set ((sids.get e.1).getD 0) e.2) (∅ : Table Nat Nat)).get k =
      some e.2 := by
  have hnodup : ((es.map fun e => ((sids.get e.1).getD 0, e.2)).map Prod.fst).Nodup := by
    have hmap := hes.map_on (f := fun n => (sids.get n).getD 0) fun n hn n' hn' heq => by
      obtain ⟨e, he, rfl⟩ := List.mem_map.mp hn
      obtain ⟨e', he', rfl⟩ := List.mem_map.mp hn'
      obtain ⟨k, hk⟩ := hsids e he
      obtain ⟨k', hk'⟩ := hsids e' he'
      rw [hk, hk', Option.getD_some, Option.getD_some] at heq
      exact hinj e.1 e'.1 k hk (heq ▸ hk')
    rw [List.map_map] at hmap ⊢
    exact hmap
  have hget := (Table.get_foldl_set hnodup ∅).1 k e.2
    (List.mem_map.mpr ⟨e, he, by rw [hk, Option.getD_some]⟩)
  rw [List.foldl_map] at hget
  exact hget

/-- The merged table has all packs that the multi-pack-index does not name. -/
theorem exists_mergedTable {nextSid : Nat} (hpacks : ∀ n ∈ src.listing, n ∈ packs)
    (h : SourceOk idx src nextSid) :
    ∃ t src' nextSid', src.mergedTable idx packs nextSid = (t, src', nextSid') ∧
      SourceOk idx src' nextSid' ∧ nextSid ≤ nextSid' ∧ src'.merged = some t ∧
      src'.listing = src.listing ∧ src'.midx = src.midx := by
  rw [Source.mergedTable]
  split
  · next t ht => exact ⟨t, src, nextSid, rfl, h, Nat.le_refl _, ht, rfl, rfl⟩
  · obtain ⟨hold, hlisted⟩ := carried_ok h
    rcases hcar : src.carried with ⟨t, old⟩
    rw [hcar] at hold hlisted
    dsimp only
    -- the packs without a number get the next ones
    set added := src.uncovered.filter fun e => e.1 ∉ old.keys with hadded
    have hsub : added.Sublist src.uncovered := List.filter_sublist
    obtain ⟨hkeep, hfresh, hcases, hlt, hinj⟩ := get_addedSids hold.lt hold.inj
      ((nodup_uncovered h.nodup).sublist (hsub.map Prod.fst))
      fun e he => by simpa using (List.mem_filter.mp he).2
    set sids := (added.zipIdx nextSid).foldl (fun s e => s.set e.1.1 e.2) old
    -- each pack that is searched has a number, and no other
    have hsids : ∀ e ∈ src.uncovered, ∃ k, sids.get e.1 = some k := by
      intro e he
      by_cases hin : e.1 ∈ old.keys
      · obtain ⟨k, hk⟩ := Table.mem_keys_iff.mp hin
        exact ⟨k, hkeep e.1 k hk⟩
      · exact hfresh e (List.mem_filter.mpr ⟨he, by simpa using hin⟩)
    have hunc : ∀ n k, sids.get n = some k → ∃ e ∈ src.uncovered, e.1 = n := by
      intro n k hk
      rcases hcases n k hk with hk | hn
      · exact List.mem_map.mp (hlisted n (Table.mem_keys_iff.mpr ⟨k, hk⟩))
      · obtain ⟨e, he, heq⟩ := List.mem_map.mp hn
        exact ⟨e, hsub.subset he, heq⟩
    set sidPos := src.uncovered.foldl (fun t e => t.set ((sids.get e.1).getD 0) e.2)
      (∅ : Table Nat Nat)
    -- the run over the new indexes finds what they hold and invents nothing
    obtain ⟨t', parsed, hrun, hparsed, hsound, hcomplete⟩ := @exists_mergePacks _ _ idx _ _ packs
      ⟨src.listing, src.parsed, src.midx, src.merged, src.probes, sids, sidPos, none⟩ hpacks
      h.parsed added.reverse
      (fun e he => ⟨(mem_uncovered.mp (hsub.subset (List.mem_reverse.mp he))).1,
        hsids e (hsub.subset (List.mem_reverse.mp he))⟩)
      ((src.uncovered.filter fun e => e.1 ∈ old.keys).map Prod.snd).min? t
    rw [hrun]
    refine ⟨t', _, _, rfl, ⟨h.nodup, hparsed, fun u hu => ?_, nofun⟩, Nat.le_add_right _ _, rfl,
      rfl, rfl⟩
    cases hu
    refine ⟨⟨hlt, hinj, fun sha k e hget => ?_, fun n hn sha hsome => ?_⟩, fun e he => ?_,
      fun n k hk => ?_⟩
    · rcases hsound sha k e hget with hget | hnew
      · obtain ⟨n, p, offset, hn, hp⟩ := hold.sound sha k e hget
        exact ⟨n, p, offset, hkeep n k hn, hp⟩
      · exact hnew
    · refine hcomplete sha ?_
      obtain ⟨k, hk⟩ := Table.mem_keys_iff.mp hn
      rcases hcases n k hk with hk | hn
      · exact .inl (hold.complete n (Table.mem_keys_iff.mpr ⟨k, hk⟩) sha hsome)
      · obtain ⟨e, he, rfl⟩ := List.mem_map.mp hn
        exact .inr ⟨e, List.mem_reverse.mpr he, hsome⟩
    · exact Table.mem_keys_iff.mpr (hsids e he)
    · obtain ⟨e, he, rfl⟩ := hunc n k hk
      exact ⟨e.2, get_sidPos (nodup_uncovered h.nodup) hsids hinj he hk, (mem_uncovered.mp he).1⟩

/-- What a source answers is the offset in a pack of the listing, and where it answers nothing no
pack has the sha of those that the multi-pack-index does not name. -/
structure Answers (idx : ν → Option (Table σ Nat)) (src : Source ν σ) (sha : σ)
    (hit : Option (Nat × Nat)) : Prop where
  sound : ∀ i offset, hit = some (i, offset) →
    ∃ n, src.listing[i]? = some n ∧ offsetIn idx n sha = some offset
  complete : hit = none → ∀ e ∈ src.uncovered, offsetIn idx e.1 sha = none

/-- The merged table answers for the packs it has. -/
theorem exists_tableHit {nextSid : Nat} (hpacks : ∀ n ∈ src.listing, n ∈ packs)
    (h : SourceOk idx src nextSid) (sha : σ) :
    ∃ hit src' nextSid', src.tableHit idx packs nextSid sha = (hit, src', nextSid') ∧
      SourceOk idx src' nextSid' ∧ nextSid ≤ nextSid' ∧ src'.listing = src.listing ∧
      src'.midx = src.midx ∧ Answers idx src sha hit := by
  obtain ⟨t, src', nextSid', hrun, hok, hle, hmerged, hlisting, hmidx⟩ :=
    exists_mergedTable hpacks h
  obtain ⟨htable, hkeys, hpos⟩ := hok.merged t hmerged
  have huncovered : ∀ e ∈ src.uncovered, e ∈ src'.uncovered := by
    intro e he
    rw [mem_uncovered, hlisting, Source.Uncovered, hmidx]
    exact mem_uncovered.mp he
  rw [Source.tableHit, hrun]
  dsimp only
  rcases hget : t.get sha with _ | ⟨sid, entry⟩
  · refine ⟨none, src', nextSid', rfl, hok, hle, hlisting, hmidx, nofun, fun _ e he => ?_⟩
    have hnone := mt (htable.complete e.1 (hkeys e (huncovered e he)) sha)
    rw [hget] at hnone
    exact Option.not_isSome_iff_eq_none.mp (hnone nofun)
  · obtain ⟨n, p, offset, hn, hp, hentry⟩ := htable.sound sha sid entry hget
    obtain ⟨i, hi, hin⟩ := hpos n sid hn
    obtain ⟨parsed, hparse, hparsed⟩ := exists_parse (hlisting ▸ hpacks) hok.parsed hin
    dsimp only
    rw [hi, Option.getD_some, hparse, hp, Option.bind_some, hentry, Option.map_some]
    refine ⟨some (i, offset), _, nextSid', rfl, ⟨hok.nodup, hparsed, hok.merged, hok.prior⟩, hle,
      hlisting, hmidx, fun j o heq => ?_, nofun⟩
    cases heq
    refine ⟨n, hlisting ▸ hin, ?_⟩
    rw [offsetIn, hp, Option.bind_some]
    exact Table.get_eq_some_iff.mpr (List.mem_of_getElem? hentry)

/-- The last hit is probed first, and no pack is lost by it. -/
theorem mem_probeOrder {order : List Nat} {lastHit : Option Nat} {i : Nat} :
    i ∈ probeOrder order lastHit ↔ i ∈ order := by
  unfold probeOrder
  split
  · next j =>
    split_ifs with hj
    · rw [List.mem_cons, List.mem_filter, decide_eq_true_eq]
      constructor
      · rintro (rfl | ⟨hi, -⟩)
        · exact hj
        · exact hi
      · exact fun hi => (eq_or_ne i j).imp_right fun hne => ⟨hi, hne⟩
    · exact Iff.rfl
  · exact Iff.rfl

/-- What the multi-pack-index gives is a pack of the listing, and the offset there. -/
theorem midxHit_sound (hmidx : ∀ m ∈ src.midx, m.Describes idx) {sha : σ} {i offset : Nat}
    (h : src.midxHit sha = some (i, offset)) :
    ∃ n, src.listing[i]? = some n ∧ offsetIn idx n sha = some offset := by
  obtain ⟨m, hm, h⟩ := Option.bind_eq_some_iff.mp h
  obtain ⟨⟨k, o⟩, hfind, h⟩ := Option.bind_eq_some_iff.mp h
  obtain ⟨n, hn, h⟩ := Option.bind_eq_some_iff.mp h
  obtain ⟨j, hj, heq⟩ := Option.map_eq_some_iff.mp h
  cases heq
  obtain ⟨n', hn', hoffset⟩ := (hmidx m hm).sound sha k o hfind
  cases hn.symm.trans hn'
  obtain ⟨hlt, hbeq, -⟩ := List.idxOf?_eq_some_iff.mp hj
  exact ⟨n, List.getElem?_eq_some_iff.mpr ⟨hlt, by simpa using hbeq⟩, hoffset⟩

/-- A source answers for its listing, when the multi-pack-index does not. -/
theorem exists_find {nextSid : Nat} (hpacks : ∀ n ∈ src.listing, n ∈ packs)
    (hmidx : ∀ m ∈ src.midx, m.Describes idx) (h : SourceOk idx src nextSid)
    (lastHit : Option Nat) (sha : σ) :
    ∃ hit src' lastHit' nextSid',
      src.find idx packs lastHit nextSid sha = (hit, src', lastHit', nextSid') ∧
      SourceOk idx src' nextSid' ∧ nextSid ≤ nextSid' ∧ src'.listing = src.listing ∧
      src'.midx = src.midx ∧ (hit = none → src.midxHit sha = none) ∧
      (∀ i offset, hit = some (i, offset) →
        ∃ n, src.listing[i]? = some n ∧ offsetIn idx n sha = some offset) ∧
      (hit = none → ∀ e ∈ src.uncovered, offsetIn idx e.1 sha = none) := by
  rw [Source.find]
  split
  · next hit hhit =>
    refine ⟨some hit, src, lastHit, nextSid, rfl, h, Nat.le_refl _, rfl, rfl, nofun,
      fun i o heq => ?_, nofun⟩
    cases heq
    exact midxHit_sound hmidx hhit
  · next hnone =>
    dsimp only
    split_ifs with hprobe hfew
    · -- the packs that the index does not name are few, and all are probed
      have horder : ∀ i ∈ probeOrder (src.uncovered.map Prod.snd) lastHit,
          ∃ n, src.listing[i]? = some n := by
        intro i hi
        obtain ⟨e, he, rfl⟩ := List.mem_map.mp (mem_probeOrder.mp hi)
        exact ⟨e.1, (mem_uncovered.mp he).1⟩
      obtain ⟨hit, parsed, hrun, hparsed, hsound, hcomplete⟩ :=
        exists_probe hpacks h.parsed sha horder
      rw [hrun]
      have hok : SourceOk idx { src with parsed := parsed } nextSid :=
        ⟨h.nodup, hparsed, h.merged, h.prior⟩
      cases hit with
      | some hit =>
        exact ⟨some hit, _, some hit.1, nextSid, rfl, hok, Nat.le_refl _, rfl, rfl, nofun, hsound,
          nofun⟩
      | none =>
        exact ⟨none, _, lastHit, nextSid, rfl, hok, Nat.le_refl _, rfl, rfl, fun _ => hnone, nofun,
          fun _ e he => hcomplete rfl e.2 (mem_probeOrder.mpr (List.mem_map_of_mem he)) e.1
            (mem_uncovered.mp he).1⟩
    · -- the newest are probed, and then the table is asked
      have horder : ∀ i ∈ probeOrder ((src.uncovered.map Prod.snd).take probeNewest) lastHit,
          ∃ n, src.listing[i]? = some n := by
        intro i hi
        obtain ⟨e, he, rfl⟩ := List.mem_map.mp (List.mem_of_mem_take (mem_probeOrder.mp hi))
        exact ⟨e.1, (mem_uncovered.mp he).1⟩
      obtain ⟨hit, parsed, hrun, hparsed, hsound, -⟩ :=
        @exists_probe _ _ idx _ _ packs { src with probes := src.probes + 1 } hpacks h.parsed sha _
          horder
      rw [hrun]
      have hok : SourceOk idx { src with parsed := parsed, probes := src.probes + 1 } nextSid :=
        ⟨h.nodup, hparsed, h.merged, h.prior⟩
      cases hit with
      | some hit =>
        exact ⟨some hit, _, some hit.1, nextSid, rfl, hok, Nat.le_refl _, rfl, rfl, nofun, hsound,
          nofun⟩
      | none =>
        obtain ⟨hit, src', nextSid', htable, hok', hle, hlisting, hmidx', hans⟩ :=
          @exists_tableHit _ _ idx _ _ packs
            { src with parsed := parsed, probes := src.probes + 1 } nextSid hpacks hok sha
        dsimp only
        rw [htable]
        exact ⟨hit, src', lastHit, nextSid', rfl, hok', hle, hlisting, hmidx', fun _ => hnone,
          hans.sound, hans.complete⟩
    · obtain ⟨hit, src', nextSid', htable, hok', hle, hlisting, hmidx', hans⟩ :=
        exists_tableHit hpacks h sha
      rw [htable]
      exact ⟨hit, src', lastHit, nextSid', rfl, hok', hle, hlisting, hmidx', fun _ => hnone,
        hans.sound, hans.complete⟩

/-- A table stays right as numbers are given out. -/
theorem TableOk.mono {t : Table σ (Nat × Nat)} {sids : Table ν Nat} {k k' : Nat}
    (h : TableOk idx t sids k) (hle : k ≤ k') : TableOk idx t sids k' :=
  ⟨fun n j hj => Nat.lt_of_lt_of_le (h.lt n j hj) hle, h.inj, h.sound, h.complete⟩

/-! ### What holds of the process -/

/-- What holds between two actions: a listing of this generation is what is there, the source is one
for the listing, and every table is right. -/
structure StateOk (idx : ν → Option (Table σ Nat)) (s : State ν σ) : Prop where
  nodup : s.packs.Nodup
  midx : ∀ m ∈ s.midx, m.Describes idx
  listing : ∀ l ∈ s.listing, l.2.Nodup ∧ l.1 ≤ s.generation ∧ (l.1 = s.generation → l.2 = s.packs)
  source : ∀ src ∈ s.source, SourceOk idx src s.nextSid ∧ (∀ m ∈ src.midx, m.Describes idx) ∧
    ∃ g, s.listing = some (g, src.listing)
  retired : ∀ src ∈ s.retired, ∀ t ∈ src.merged, TableOk idx t src.sids s.nextSid

/-- The packs that a lookup is about: those that are there, or without `revalidate` those of the
listing that was read last. -/
def State.searched (s : State ν σ) (revalidate : Bool) : List ν :=
  if revalidate then s.packs else (s.listing.map Prod.snd).getD s.packs

variable {s : State ν σ}

/-- Listing the packs keeps the state right. -/
theorem StateOk.listed (h : StateOk idx s) (revalidate : Bool) :
    StateOk idx (s.listed revalidate) ∧
      ∃ g, (s.listed revalidate).listing = some (g, s.searched revalidate) := by
  unfold State.listed
  split_ifs with hany
  · rw [Option.any_eq_true] at hany
    obtain ⟨⟨g, l⟩, hl, hfresh⟩ := hany
    refine ⟨h, g, ?_⟩
    rw [hl, State.searched, hl, Option.map_some, Option.getD_some]
    cases revalidate with
    | false => rfl
    | true =>
      have hgen : g = s.generation := by simpa using hfresh
      rw [← (h.listing (g, l) hl).2.2 hgen]
      rfl
  · refine ⟨⟨h.nodup, h.midx, fun l hl => ?_, nofun, fun src hsrc t ht => ?_⟩, s.generation, ?_⟩
    · cases hl
      exact ⟨h.nodup, Nat.le_refl _, fun _ => rfl⟩
    · rcases hs : s.source with _ | src'
      · rw [hs] at hsrc
        exact h.retired src hsrc t ht
      · rw [hs] at hsrc
        cases hsrc
        exact ((h.source src hs).1.merged t ht).1
    · cases revalidate with
      | true => rfl
      | false =>
        have hnone : s.listing = none := by
          rcases hl : s.listing with _ | l
          · rfl
          · rw [hl] at hany
            exact absurd rfl hany
        rw [State.searched, hnone]
        rfl

/-- The source that is asked is one for the listing. -/
theorem StateOk.openSource (h : StateOk idx s) {g : Nat} {l : List ν}
    (hl : s.listing = some (g, l)) :
    SourceOk idx s.openSource s.nextSid ∧ (∀ m ∈ s.openSource.midx, m.Describes idx) ∧
      s.openSource.listing = l := by
  unfold State.openSource
  rcases hs : s.source with _ | src
  · rw [Option.getD_none, hl, Option.map_some, Option.getD_some]
    refine ⟨⟨(h.listing (g, l) hl).1, nofun, nofun, fun q hq => ?_⟩, h.midx, rfl⟩
    obtain ⟨p, hp, hq⟩ := Option.bind_eq_some_iff.mp hq
    obtain ⟨t, ht, rfl⟩ := Option.map_eq_some_iff.mp hq
    exact h.retired p hp t ht
  · obtain ⟨hok, hmidx, g', hg'⟩ := h.source src hs
    rw [hl] at hg'
    cases hg'
    exact ⟨hok, hmidx, rfl⟩

/-- A lookup of packs that are all there keeps what holds, and answers for all packs, when the
multi-pack-index does not answer, which it does not name. -/
theorem StateOk.locatePacked (h : StateOk idx s) (sha : σ) {revalidate : Bool}
    (hthere : ∀ n ∈ s.searched revalidate, n ∈ s.packs) :
    StateOk idx (locatePacked idx s sha revalidate).2 ∧
      (∀ n offset, (locatePacked idx s sha revalidate).1 = some (n, offset) →
        n ∈ s.searched revalidate ∧ offsetIn idx n sha = some offset) ∧
      ((locatePacked idx s sha revalidate).1 = none →
        (s.listed revalidate).openSource.midxHit sha = none ∧
          ∀ n ∈ s.searched revalidate, (s.listed revalidate).openSource.Uncovered n →
            offsetIn idx n sha = none) := by
  obtain ⟨hok, g, hg⟩ := h.listed revalidate
  obtain ⟨hsrc, hmidx, hlisting⟩ := hok.openSource hg
  have hpacks : (s.listed revalidate).packs = s.packs := by
    unfold State.listed
    split_ifs <;> rfl
  obtain ⟨hit, src', lastHit, nextSid, hrun, hsrc', hle, hlisting', hmidx', hnone, hsound,
    hcomplete⟩ := @exists_find _ _ idx _ _ (s.listed revalidate).packs _ _
      (fun n hn => hpacks ▸ hthere n (hlisting ▸ hn)) hmidx hsrc (s.listed revalidate).lastHit sha
  rw [PackLookup.locatePacked, hrun]
  dsimp only
  refine ⟨⟨hok.nodup, hok.midx, hok.listing, fun src heq => ?_, fun src hret t ht => ?_⟩,
    fun n offset heq => ?_, fun heq => ?_⟩
  · cases heq
    exact ⟨hsrc', hmidx' ▸ hmidx, g, by rw [hlisting', hlisting]; exact hg⟩
  · split_ifs at hret with hsome
    · exact (hok.retired src hret t ht).mono hle
    · cases hret
  · obtain ⟨⟨i, o⟩, hhit, heq⟩ := Option.bind_eq_some_iff.mp heq
    obtain ⟨m, hm, heq⟩ := Option.map_eq_some_iff.mp heq
    cases heq
    obtain ⟨m', hm', hoffset⟩ := hsound i o hhit
    cases hm.symm.trans hm'
    exact ⟨hlisting ▸ List.mem_of_getElem? hm, hoffset⟩
  · have hhit : hit = none := by
      rcases hit with _ | ⟨i, o⟩
      · rfl
      · obtain ⟨m, hm, -⟩ := hsound i o rfl
        rw [Option.bind_some, hm] at heq
        cases heq
    refine ⟨hnone hhit, fun n hn hunc => ?_⟩
    obtain ⟨i, hi⟩ := List.mem_iff_getElem?.mp (hlisting.symm ▸ hn)
    exact hcomplete hhit (n, i) (mem_uncovered.mpr ⟨hi, hunc⟩)

variable (idx) in
/-- The packs that the lookup is about are there, and where the multi-pack-index answers with a pack
that has gone, none of its packs has the sha that is still there. -/
def Settled (s : State ν σ) : Action ν σ → Prop
  | .change _ _ => True
  | .lookup sha revalidate => (∀ n ∈ s.searched revalidate, n ∈ s.packs) ∧
    ∀ m ∈ (s.listed revalidate).openSource.midx, ∀ hit ∈ m.find sha, ∀ gone ∈ m.names[hit.1]?,
      gone ∉ s.searched revalidate →
        ∀ n ∈ s.searched revalidate, n ∈ m.names → offsetIn idx n sha = none

instance (s : State ν σ) : DecidablePred (Settled idx s)
  | .change _ _ => inferInstanceAs (Decidable True)
  | .lookup _ _ => inferInstanceAs (Decidable (_ ∧ _))

variable (idx) in
/-- A lookup finds a sha if and only if one of the packs has it, and gives a pack that is there and
the offset of its index. -/
def Finds (s : State ν σ) : Action ν σ → Prop
  | .change _ _ => True
  | .lookup sha revalidate =>
    ((PackLookup.locatePacked idx s sha revalidate).1.isSome ↔
      ∃ n ∈ s.searched revalidate, (offsetIn idx n sha).isSome) ∧
    ∀ n offset, (PackLookup.locatePacked idx s sha revalidate).1 = some (n, offset) →
      n ∈ s.packs ∧ offsetIn idx n sha = some offset

/-- A pack directory holds no pack twice, and its multi-pack-index describes its packs. -/
def Action.Formed (idx : ν → Option (Table σ Nat)) : Action ν σ → Prop
  | .change packs midx => packs.Nodup ∧ ∀ m ∈ midx, m.Describes idx
  | .lookup _ _ => True

/-- Every action keeps the state right. -/
theorem StateOk.step (h : StateOk idx s) {a : Action ν σ} (hsettled : Settled idx s a)
    (hformed : a.Formed idx) {s' : State ν σ} (hs : step idx s a = some s') : StateOk idx s' := by
  cases a with
  | change packs midx =>
    cases hs
    refine ⟨hformed.1, hformed.2, fun l hl => ?_, h.source, h.retired⟩
    obtain ⟨hnodup, hle, -⟩ := h.listing l hl
    exact ⟨hnodup, Nat.le_succ_of_le hle, fun heq => absurd hle (by dsimp only at heq; omega)⟩
  | lookup sha revalidate =>
    cases hs
    exact (h.locatePacked sha hsettled.1).1

/-- A lookup in a right state is a plain search. -/
theorem StateOk.finds (h : StateOk idx s) {a : Action ν σ} (hsettled : Settled idx s a) :
    Finds idx s a := by
  cases a with
  | change => trivial
  | lookup sha revalidate =>
    obtain ⟨hthere, hgone⟩ := hsettled
    obtain ⟨-, hsome, hnone⟩ := h.locatePacked sha hthere
    obtain ⟨hok, g, hg⟩ := h.listed revalidate
    obtain ⟨-, hmidx, hlisting⟩ := hok.openSource hg
    refine ⟨⟨fun hhit => ?_, ?_⟩, fun n offset hhit => ?_⟩
    · obtain ⟨⟨n, offset⟩, hhit⟩ := Option.isSome_iff_exists.mp hhit
      obtain ⟨hn, hoffset⟩ := hsome n offset hhit
      exact ⟨n, hn, hoffset ▸ rfl⟩
    · rintro ⟨n, hn, hoffset⟩
      rw [Option.isSome_iff_ne_none] at hoffset ⊢
      intro hmiss
      obtain ⟨hhit, huncovered⟩ := hnone hmiss
      refine hoffset (huncovered n hn fun m hm hname => ?_)
      -- the multi-pack-index names the pack and gives none that is listed
      rcases hfind : m.find sha with _ | ⟨k, o⟩
      · have := (hmidx m hm).complete n hname sha (Option.isSome_iff_ne_none.mpr hoffset)
        rw [hfind] at this
        cases this
      · obtain ⟨n', hn', -⟩ := (hmidx m hm).sound sha k o hfind
        refine hoffset (hgone m hm (k, o) hfind n' hn' (fun hin => ?_) n hn hname)
        rw [Source.midxHit, Option.mem_def.mp hm, Option.bind_some, hfind, Option.bind_some, hn',
          Option.bind_some, Option.map_eq_none_iff, List.idxOf?_eq_none_iff, hlisting] at hhit
        exact hhit hin
    · obtain ⟨hn, hoffset⟩ := hsome n offset hhit
      exact ⟨hthere n hn, hoffset⟩

/-- A process that has looked up nothing. -/
def init (packs : List ν) (midx : Option (Midx ν σ)) : State ν σ :=
  ⟨packs, midx, 0, none, none, none, none, 0⟩

/-- **A lookup is a plain search of the packs**, in every run of lookups and of changes of the pack
directory in which the packs of the lookups are there, and no pack that has gone hides another one
behind the multi-pack-index. -/
theorem locatePacked_finds {packs : List ν} {midx : Option (Midx ν σ)} {as : List (Action ν σ)}
    (hformed : ∀ a ∈ Action.change packs midx :: as, a.Formed idx)
    (hsettled : Along (PackLookup.step idx) (Settled idx) (init packs midx) as) :
    Along (PackLookup.step idx) (Finds idx) (init packs midx) as := by
  obtain ⟨hnodup, hmidx⟩ := hformed _ List.mem_cons_self
  have hok : StateOk idx (init packs midx) := ⟨hnodup, hmidx, nofun, nofun, nofun⟩
  have hboth := hsettled.and_forall fun a ha => hformed a (List.mem_cons_of_mem _ ha)
  exact Along.of_condition (fun _ _ _ hC h => h.step hC.1 hC.2)
    (fun _ _ hC h => h.finds hC.1) hboth hok

end

end

/-! ### A run, and two ways to miss a pack -/

/-- Pack `n` has the one object `n / 2`. -/
def halfIdx (n : Nat) : Option (Table Nat Nat) := some ⟨[(n / 2, 12 + n)], List.nodup_singleton _⟩

/-- The multi-pack-index of some packs: the first that has a sha gives it. -/
def halfMidx (names : List Nat) : Midx Nat Nat where
  names := names
  find sha := (names.findIdx? fun n => n / 2 = sha).bind fun k => names[k]?.map fun n => (k, 12 + n)

theorem offsetIn_halfIdx (n sha : Nat) :
    offsetIn halfIdx n sha = if n / 2 = sha then some (12 + n) else none := by
  rw [offsetIn, halfIdx, Option.bind_some, Table.get, List.find?_singleton]
  by_cases h : n / 2 = sha
  · simp [h]
  · simp [h]

/-- The multi-pack-index says what the packs' own indexes say. -/
theorem halfMidx_describes (names : List Nat) : (halfMidx names).Describes halfIdx := by
  refine ⟨fun sha k offset hfind => ?_, fun n hn sha hoffset => ?_⟩
  · obtain ⟨j, hj, hfind⟩ := Option.bind_eq_some_iff.mp hfind
    obtain ⟨n, hn, heq⟩ := Option.map_eq_some_iff.mp hfind
    cases heq
    obtain ⟨hlt, hhalf, -⟩ := List.findIdx?_eq_some_iff_getElem.mp hj
    refine ⟨n, hn, ?_⟩
    rw [offsetIn_halfIdx, if_pos]
    rw [List.getElem?_eq_getElem hlt, Option.some.injEq] at hn
    exact hn ▸ of_decide_eq_true hhalf
  · rw [offsetIn_halfIdx] at hoffset
    split_ifs at hoffset with hhalf
    · rcases hfound : names.findIdx? fun n => n / 2 = sha with _ | k
      · exact absurd hhalf (by simpa using List.findIdx?_eq_none_iff.mp hfound n hn)
      · have hlt := (List.findIdx?_eq_some_iff_getElem.mp hfound).1
        simp [halfMidx, hfound, hlt]
    · cases hoffset

/-- Twelve packs, two of them named by the multi-pack-index, are looked up until there is a table;
then one of the two goes, others come, and the table is carried on. -/
def lookupRun : List (Action Nat Nat) :=
  [.lookup 3 true, .lookup 40 true, .lookup 2 false,
    .change (13 :: 12 :: (List.range 12).erase 1) (some (halfMidx [1, 2])), .lookup 6 true,
    .lookup 41 true, .lookup 0 true, .lookup 1 true, .lookup 5 false]

theorem locatePacked_finds_lookupRun :
    Along (step halfIdx) (Finds halfIdx) (init (List.range 12) (some (halfMidx [1, 2])))
      lookupRun :=
  locatePacked_finds (fun a ha => by
      simp only [lookupRun, List.mem_cons, List.not_mem_nil, or_false] at ha
      have hmidx : ∀ m ∈ some (halfMidx [1, 2]), m.Describes halfIdx :=
        fun m hm => Option.mem_some_iff.mp hm ▸ halfMidx_describes [1, 2]
      rcases ha with rfl | rfl | rfl | rfl | rfl | rfl | rfl | rfl | rfl | rfl
      · exact ⟨List.nodup_range, hmidx⟩
      all_goals trivial)
    (by decide)

/-- Without `revalidate` a pack that came later is not found, though it is there; and with it the
multi-pack-index gives a pack that has gone, and hides another of its packs that has the sha. -/
theorem locatePacked_misses :
    (∃ s, run (step halfIdx) (init [0] none) [.lookup 0 true, .change [2, 0] none] = some s ∧
      (locatePacked halfIdx s 1 false).1 = none ∧
      ∃ n ∈ s.packs, (offsetIn halfIdx n 1).isSome) ∧
    (locatePacked halfIdx (init [0] (some (halfMidx [1, 0]))) 0 true).1 = none ∧
      (offsetIn halfIdx 0 0).isSome :=
  ⟨⟨_, rfl, by decide, 2, by decide, rfl⟩, by decide, rfl⟩

end PackLookup

end Git

end CoordinatorCore
