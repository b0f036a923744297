import CoordinatorCore.Git.TreeSpine

/-!
# What the spine holds

The spine of some paths holds the listings of the root and of every directory of the head that leads
to one of them (`Read`); with the missing directories added it holds a directory for every part of
the way to a new file, as long as nothing of the head stands there (`Filled`).
-/

namespace CoordinatorCore

open PyStr

namespace Git

variable {σ : Type} {read : σ → Option (List (TreeEntry σ))} {head : σ}

/-- A listing without two lines of one name is read as it is. -/
theorem get_parseTreeEntries {es : List (TreeEntry σ)} (h : TreeOk es) {n : PyStr} {m : Nat}
    {s : σ} : (parseTreeEntries es).get n = some (m, s) ↔
      ∃ e ∈ es, e.text = n ∧ e.mode = m ∧ e.sha = s := by
  have hnodup : ((es.map fun e => (e.text, (e.mode, e.sha))).map Prod.fst).Nodup := by
    rw [List.map_map]
    have := h.distinct.map fsDecode_injective
    rwa [List.map_map] at this
  rw [parseTreeEntries, Table.get_ofPairs_of_nodup hnodup, List.mem_map]
  refine exists_congr fun e => and_congr_right fun _ => ?_
  simp only [Prod.mk.injEq]

/-- The directory is in the head. -/
def InHead (read : σ → Option (List (TreeEntry σ))) (head : σ) (d : Dir) : Prop :=
  ∃ s, Reaches read head d s

/-- The listing is that of a directory of the head. -/
def IsListing (read : σ → Option (List (TreeEntry σ))) (head : σ) (d : Dir) (l : Listing σ) :
    Prop :=
  ∃ s es, Reaches read head d s ∧ read s = some es ∧ l = parseTreeEntries es

/-- A name with the mode of a tree is a directory of the head, and the other way round. -/
theorem IsListing.tree_iff (hwf : WellFormed read head) {d : Dir} {l : Listing σ}
    (h : IsListing read head d l) {n : PyStr} {s : σ} :
    l.get n = some (treeMode, s) ↔ Reaches read head (d ++ [n]) s := by
  obtain ⟨t, es, hd, hes, rfl⟩ := h
  cases hwf.of_reaches hd with
  | mk hes' hok _ _ =>
    rw [hes] at hes'
    cases hes'
    rw [get_parseTreeEntries hok, reaches_append_iff]
    constructor
    · rintro ⟨e, he, hn, hmode, rfl⟩
      exact ⟨t, hd, reaches_cons_iff.mpr ⟨es, hes, e, he, hn, hmode, .root⟩⟩
    · rintro ⟨t', hd', h⟩
      obtain rfl := Reaches.unique hwf hd' hd
      obtain ⟨es', hes', e, he, hn, hmode, hs⟩ := reaches_cons_iff.mp h
      rw [hes] at hes'
      cases hes'
      exact ⟨e, he, hn, hmode, (reaches_nil_iff.mp hs).symm⟩

/-- A name with another mode is a file of the head, and the other way round. -/
theorem IsListing.file_iff (hwf : WellFormed read head) {d : Dir} {l : Listing σ}
    (h : IsListing read head d l) {n : PyStr} {v : Nat × σ} :
    l.get n = some v ∧ v.1 ≠ treeMode ↔ FileAt read head (d ++ [n]) v := by
  obtain ⟨t, es, hd, hes, rfl⟩ := h
  cases hwf.of_reaches hd with
  | mk hes' hok _ _ =>
    rw [hes] at hes'
    cases hes'
    obtain ⟨m, s⟩ := v
    rw [get_parseTreeEntries hok, at_append_iff (List.cons_ne_nil _ _)]
    constructor
    · rintro ⟨⟨e, he, hn, rfl, rfl⟩, hmode⟩
      exact ⟨t, hd, at_cons_iff.mpr ⟨es, hes, e, he, hn, .inl ⟨rfl, hmode, rfl⟩⟩⟩
    · rintro ⟨t', hd', h⟩
      obtain rfl := Reaches.unique hwf hd' hd
      obtain ⟨es', hes', e, he, hn, ⟨-, hmode, hv⟩ | ⟨-, hat⟩⟩ := at_cons_iff.mp h
      · rw [hes] at hes'
        cases hes'
        cases hv
        exact ⟨⟨e, he, hn, rfl, rfl⟩, hmode⟩
      · exact absurd hat not_at_nil

/-! ### Reading -/

/-- Directories that lead to a path. -/
def LeadsTo (paths : List RepoPath) (d : Dir) : Prop := d = [] ∨ ∃ p ∈ paths, d <+: p.parent

theorem LeadsTo.parent {paths : List RepoPath} {d : Dir} {n : PyStr} (h : LeadsTo paths (d ++ [n])) :
    LeadsTo paths d := by
  rcases h with h | ⟨p, hp, h⟩
  · exact absurd h (by simp)
  · exact .inr ⟨p, hp, (List.prefix_append d [n]).trans h⟩

/-- What is read so far. -/
structure ReadSome (read : σ → Option (List (TreeEntry σ))) (head : σ) (paths : List RepoPath)
    (r : Reading σ) : Prop where
  listing : ∀ d l, r.spine.get d = some l → IsListing read head d l
  sha : ∀ d s, r.dirSha.get d = some s → Reaches read head d s
  closed : ∀ d n, d ++ [n] ∈ r.spine.keys → d ∈ r.spine.keys
  leads : ∀ d ∈ r.spine.keys, LeadsTo paths d

variable {paths : List RepoPath}

/-- A directory is loaded when its parent is. -/
theorem loadDir_ok {r r' : Reading σ} {cur : Dir} {l : Listing σ} (h : ReadSome read head paths r)
    (hparent : ∀ d n, cur = d ++ [n] → d ∈ r.spine.keys) (hleads : LeadsTo paths cur)
    (hok : loadDir read r cur = some (r', l)) :
    ReadSome read head paths r' ∧ (∀ d ∈ r.spine.keys, d ∈ r'.spine.keys) ∧
      cur ∈ r'.spine.keys ∧ IsListing read head cur l := by
  rw [loadDir] at hok
  cases hget : r.spine.get cur with
  | some entries =>
    rw [hget] at hok
    cases hok
    exact ⟨h, fun d hd => hd, Table.mem_keys_iff.mpr ⟨l, hget⟩, h.listing cur l hget⟩
  | none =>
    rw [hget] at hok
    obtain ⟨s, hs, hok⟩ := Option.bind_eq_some_iff.mp hok
    obtain ⟨es, hes, hok⟩ := Option.bind_eq_some_iff.mp hok
    cases hok
    have hl : IsListing read head cur (parseTreeEntries es) := ⟨s, es, h.sha cur s hs, hes, rfl⟩
    have hkeys : ∀ d, d ∈ (r.spine.set cur (parseTreeEntries es)).keys ↔
        d = cur ∨ d ∈ r.spine.keys := by
      intro d
      rw [Table.mem_keys_iff, Table.mem_keys_iff]
      simp only [Table.get_set]
      by_cases hd : d = cur <;> simp [hd]
    refine ⟨⟨fun d l' hd => ?_, h.sha, fun d n hd => ?_, fun d hd => ?_⟩,
      fun d hd => (hkeys d).mpr (.inr hd), (hkeys cur).mpr (.inl rfl), hl⟩
    · rw [Table.get_set] at hd
      split_ifs at hd with heq
      · cases hd
        rw [heq]
        exact hl
      · exact h.listing d l' hd
    · refine (hkeys d).mpr (.inr ?_)
      rcases (hkeys _).mp hd with heq | hd
      · exact hparent d n heq.symm
      · exact h.closed d n hd
    · rcases (hkeys d).mp hd with rfl | hd
      · exact hleads
      · exact h.leads d hd

/-- The walk along the parts of a path loads every directory of the head on the way but the
last. -/
theorem descend_ok (hwf : WellFormed read head) {parts : List PyStr} {r r' : Reading σ} {cur : Dir}
    {out : Option Dir} (h : ReadSome read head paths r)
    (hparent : ∀ d n, cur = d ++ [n] → d ∈ r.spine.keys) (hleads : LeadsTo paths (cur ++ parts))
    (hok : descend read r cur parts = some (r', out)) :
    ReadSome read head paths r' ∧ (∀ d ∈ r.spine.keys, d ∈ r'.spine.keys) ∧
      (∀ pre, pre <+: parts → (out = none ∨ pre ≠ parts) → InHead read head (cur ++ pre) →
        cur ++ pre ∈ r'.spine.keys) ∧
      ∀ d, out = some d → d = cur ++ parts ∧ ∀ e n, d = e ++ [n] → e ∈ r'.spine.keys := by
  induction parts generalizing r cur with
  | nil =>
    cases hok
    refine ⟨h, fun d hd => hd, fun pre hpre hor _ => ?_, ?_⟩
    · rcases hor with hor | hne
      · cases hor
      · exact absurd (List.prefix_nil.mp hpre) hne
    · rintro d hd
      cases hd
      rw [List.append_nil]
      exact ⟨rfl, hparent⟩
  | cons part parts ih =>
    rw [descend] at hok
    obtain ⟨⟨r₁, l⟩, hload, hok⟩ := Option.bind_eq_some_iff.mp hok
    dsimp only at hok
    have hcur : LeadsTo paths cur := by
      rcases hleads with hnil | ⟨p, hp, hpre⟩
      · exact absurd hnil (by simp)
      · exact .inr ⟨p, hp, (List.prefix_append _ _).trans hpre⟩
    obtain ⟨h₁, hmono, hin, hl⟩ := loadDir_ok h hparent hcur hload
    -- Where the walk ends early, no directory of the head is further down.
    have hend : (¬∃ s, l.get part = some (treeMode, s)) → ∀ pre, pre <+: part :: parts →
        InHead read head (cur ++ pre) → cur ++ pre ∈ r₁.spine.keys := by
      rintro hno pre hpre ⟨s, hs⟩
      cases pre with
      | nil => rwa [List.append_nil]
      | cons part' pre =>
        obtain ⟨rfl, -⟩ := List.cons_prefix_cons.mp hpre
        rw [List.append_cons, reaches_append_iff] at hs
        obtain ⟨t, ht, -⟩ := hs
        exact absurd ⟨t, (hl.tree_iff hwf).mpr ht⟩ hno
    cases hget : l.get part with
    | none =>
      rw [hget] at hok
      cases hok
      exact ⟨h₁, hmono, fun pre hpre _ => hend (by simp [hget]) pre hpre, nofun⟩
    | some v =>
      obtain ⟨mode, sha⟩ := v
      rw [hget] at hok
      dsimp only at hok
      split_ifs at hok with hmode
      · subst hmode
        have hsha := (hl.tree_iff hwf).mp hget
        have h₂ : ReadSome read head paths
            { r₁ with dirSha := r₁.dirSha.set (cur ++ [part]) sha } := by
          refine ⟨h₁.listing, fun d s hd => ?_, h₁.closed, h₁.leads⟩
          rw [Table.get_set] at hd
          split_ifs at hd with heq
          · cases hd
            rw [heq]
            exact hsha
          · exact h₁.sha d s hd
        have hparent₂ : ∀ d n, cur ++ [part] = d ++ [n] → d ∈ r₁.spine.keys := by
          intro d n heq
          rwa [← List.append_inj_left' heq rfl]
        obtain ⟨h', hmono', hpre', hout⟩ :=
          ih h₂ hparent₂ (by rwa [← List.append_cons]) hok
        refine ⟨h', fun d hd => hmono' d (hmono d hd), fun pre hpre hor hhead => ?_, fun d hd => ?_⟩
        · cases pre with
          | nil =>
            rw [List.append_nil]
            exact hmono' cur hin
          | cons part' pre =>
            obtain ⟨rfl, hpre₂⟩ := List.cons_prefix_cons.mp hpre
            rw [List.append_cons] at hhead ⊢
            exact hpre' pre hpre₂ (hor.imp_right fun hne heq => hne (by rw [heq])) hhead
        · obtain ⟨hd, hpar⟩ := hout d hd
          exact ⟨by rw [hd, ← List.append_cons], hpar⟩
      · cases hok
        refine ⟨h₁, hmono, fun pre hpre _ => hend ?_ pre hpre, nofun⟩
        rintro ⟨s, hs⟩
        rw [hget] at hs
        cases hs
        exact hmode rfl

/-- Every directory of the head that leads to these paths is read. -/
def Complete (read : σ → Option (List (TreeEntry σ))) (head : σ) (paths : List RepoPath)
    (keys : List Dir) : Prop :=
  ∀ p ∈ paths, ∀ d, d <+: p.parent → InHead read head d → d ∈ keys

theorem readPath_ok (hwf : WellFormed read head) {r r' : Reading σ} {p : RepoPath}
    (h : ReadSome read head paths r) (hp : p ∈ paths) (hok : readPath read r p = some r') :
    ReadSome read head paths r' ∧ (∀ d ∈ r.spine.keys, d ∈ r'.spine.keys) ∧
      Complete read head [p] r'.spine.keys := by
  rw [readPath] at hok
  obtain ⟨⟨r₁, cur⟩, hdesc, hok⟩ := Option.bind_eq_some_iff.mp hok
  have hleads : LeadsTo paths ([] ++ p.parent) := .inr ⟨p, hp, List.prefix_rfl⟩
  obtain ⟨h₁, hmono, hpre, hout⟩ := descend_ok hwf h (by simp) hleads hdesc
  cases cur with
  | none =>
    cases hok
    refine ⟨h₁, hmono, fun q hq d hd hhead => ?_⟩
    rw [List.mem_singleton.mp hq] at hd
    exact hpre d hd (.inl rfl) hhead
  | some d =>
    obtain ⟨rfl, hparent⟩ := hout d rfl
    obtain ⟨⟨r₂, l⟩, hload, hr⟩ := Option.map_eq_some_iff.mp hok
    cases hr
    obtain ⟨h₂, hmono₂, hin, -⟩ := loadDir_ok h₁ hparent hleads hload
    refine ⟨h₂, fun d hd => hmono₂ d (hmono d hd), fun q hq d hd hhead => ?_⟩
    rw [List.mem_singleton.mp hq] at hd
    by_cases heq : d = p.parent
    · rw [heq]
      exact hin
    · exact hmono₂ d (hpre d hd (.inr heq) hhead)

theorem foldlM_readPath_ok (hwf : WellFormed read head) {ps : List RepoPath} {r r' : Reading σ}
    (h : ReadSome read head paths r) (hps : ∀ p ∈ ps, p ∈ paths)
    (hok : ps.foldlM (readPath read) r = some r') :
    ReadSome read head paths r' ∧ (∀ d ∈ r.spine.keys, d ∈ r'.spine.keys) ∧
      Complete read head ps r'.spine.keys := by
  induction ps generalizing r with
  | nil =>
    cases hok
    exact ⟨h, fun d hd => hd, nofun⟩
  | cons p ps ih =>
    rw [List.foldlM_cons] at hok
    obtain ⟨r₁, hread, hok⟩ := Option.bind_eq_some_iff.mp hok
    obtain ⟨h₁, hmono₁, hcomplete₁⟩ := readPath_ok hwf h (hps p List.mem_cons_self) hread
    obtain ⟨h₂, hmono₂, hcomplete₂⟩ := ih h₁ (fun q hq => hps q (List.mem_cons_of_mem p hq)) hok
    refine ⟨h₂, fun d hd => hmono₂ d (hmono₁ d hd), fun q hq d hd hhead => ?_⟩
    rcases List.mem_cons.mp hq with rfl | hq
    · exact hmono₂ d (hcomplete₁ q (List.mem_singleton_self q) d hd hhead)
    · exact hcomplete₂ q hq d hd hhead

/-! ### The spine of a call -/

/-- The call puts a file somewhere below the directory. -/
def Creates (assembled : Table RepoPath (Change σ)) (d : Dir) : Prop :=
  ∃ p m s, assembled.get p = some (.set m s) ∧ d <+: p.parent

/-- A spine: directories of the head with their listings, and empty ones where the head has
nothing. -/
structure SpineOk (read : σ → Option (List (TreeEntry σ))) (head : σ)
    (assembled : Table RepoPath (Change σ)) (spine : Spine σ) : Prop where
  root : [] ∈ spine.keys
  closed : ∀ d n, d ++ [n] ∈ spine.keys → d ∈ spine.keys
  leads : ∀ d ∈ spine.keys, LeadsTo assembled.keys d
  complete : Complete read head assembled.keys spine.keys
  listing : ∀ d l, spine.get d = some l → IsListing read head d l ∨
    (l = ∅ ∧ ¬InHead read head d ∧ (∀ v, ¬FileAt read head d v) ∧ Creates assembled d)

/-- `read_tree_spine` gives a spine. -/
theorem spineOk_readTreeSpine (hwf : WellFormed read head) {assembled : Table RepoPath (Change σ)}
    {spine : Spine σ} (hok : readTreeSpine read head assembled.keys = some spine) :
    SpineOk read head assembled spine := by
  rw [readTreeSpine] at hok
  obtain ⟨⟨r₀, l⟩, hload, hok⟩ := Option.bind_eq_some_iff.mp hok
  obtain ⟨r, hfold, hok⟩ := Option.bind_eq_some_iff.mp hok
  cases hok
  have hstart : ReadSome read head assembled.keys ⟨∅, Table.set ∅ [] head⟩ := by
    refine ⟨nofun, fun d s hd => ?_, nofun, nofun⟩
    rw [Table.get_set] at hd
    split_ifs at hd with heq
    · cases hd
      rw [heq]
      exact .root
    · cases hd
  obtain ⟨h₀, -, hroot, -⟩ := loadDir_ok hstart (by simp) (.inl rfl) hload
  obtain ⟨h, hmono, hcomplete⟩ := foldlM_readPath_ok hwf h₀ (fun p hp => hp) hfold
  exact ⟨hmono [] hroot, h.closed, h.leads, hcomplete, fun d l hl => .inl (h.listing d l hl)⟩

variable {assembled : Table RepoPath (Change σ)}

/-- A missing directory is added below a directory of the spine. -/
theorem SpineOk.addDir (hwf : WellFormed read head) {spine : Spine σ}
    (h : SpineOk read head assembled spine) {p : RepoPath} {m : Nat} {s : σ}
    (hp : assembled.get p = some (.set m s)) {d : Dir} {n : PyStr} (hd : d ++ [n] <+: p.parent)
    {l : Listing σ} (hl : spine.get d = some l) (hnone : spine.get (d ++ [n]) = none)
    (hfree : ∀ v, l.get n = some v → v.1 = treeMode) :
    SpineOk read head assembled (spine.set (d ++ [n]) ∅) := by
  have hpk : p ∈ assembled.keys := Table.mem_keys_iff.mpr ⟨_, hp⟩
  have hkeys : ∀ c, c ∈ (spine.set (d ++ [n]) ∅).keys ↔ c = d ++ [n] ∨ c ∈ spine.keys := by
    intro c
    rw [Table.mem_keys_iff, Table.mem_keys_iff]
    simp only [Table.get_set]
    by_cases hc : c = d ++ [n] <;> simp [hc]
  have hhead : ¬InHead read head (d ++ [n]) := by
    intro hin
    exact Table.get_eq_none_iff.mp hnone (h.complete p hpk _ hd hin)
  have hno : ∀ v, ¬FileAt read head (d ++ [n]) v := by
    intro v hv
    rcases h.listing d l hl with hlist | ⟨-, hnot, -, -⟩
    · obtain ⟨hget, hmode⟩ := (hlist.file_iff hwf).mpr hv
      exact hmode (hfree v hget)
    · obtain ⟨t, ht, -⟩ := (at_append_iff (List.cons_ne_nil _ _)).mp hv
      exact hnot ⟨t, ht⟩
  refine ⟨(hkeys _).mpr (.inr h.root), fun c k hc => ?_, fun c hc => ?_, fun q hq c hc hin => ?_,
    fun c l' hc => ?_⟩
  · rcases (hkeys _).mp hc with heq | hc
    · rw [List.append_inj_left' heq rfl]
      exact (hkeys d).mpr (.inr (Table.mem_keys_iff.mpr ⟨l, hl⟩))
    · exact (hkeys c).mpr (.inr (h.closed c k hc))
  · rcases (hkeys c).mp hc with rfl | hc
    · exact .inr ⟨p, hpk, hd⟩
    · exact h.leads c hc
  · exact (hkeys c).mpr (.inr (h.complete q hq c hc hin))
  · rw [Table.get_set] at hc
    split_ifs at hc with heq
    · cases hc
      subst heq
      exact .inr ⟨rfl, hhead, hno, p, m, s, hp, hd⟩
    · exact h.listing c l' hc

theorem spineOk_fillLevels (hwf : WellFormed read head) {p : RepoPath} {m : Nat} {s : σ}
    (hp : assembled.get p = some (.set m s)) (count k : Nat) {spine : Spine σ}
    (h : SpineOk read head assembled spine)
    (hbefore : ∀ j < k, p.parent.take j ∈ spine.keys) (hle : k + count ≤ p.parent.length + 1) :
    SpineOk read head assembled (fillLevels p.parent (List.range' k count) spine).1 := by
  induction count generalizing k spine with
  | zero => exact h
  | succ count ih =>
    rw [List.range'_succ, fillLevels]
    dsimp only
    split_ifs with hsome hzero hocc
    · refine ih (k + 1) h (fun j hj => ?_) (by omega)
      rcases Nat.lt_succ_iff_lt_or_eq.mp hj with hj | rfl
      · exact hbefore j hj
      · exact Table.mem_keys_iff.mpr (Option.isSome_iff_exists.mp hsome)
    · exact h
    · exact h
    · obtain ⟨j, rfl⟩ : ∃ j, k = j + 1 := ⟨k - 1, by omega⟩
      have hj : j < p.parent.length := by omega
      rw [Nat.add_sub_cancel] at hocc
      have htake : p.parent.take (j + 1) = p.parent.take j ++ [p.parent.getD j []] := by
        rw [List.take_add_one, List.getD_eq_getElem?_getD, List.getElem?_eq_getElem hj]
        rfl
      obtain ⟨l, hl⟩ := Table.mem_keys_iff.mp (hbefore j (by omega))
      rw [hl, Option.getD_some, Bool.not_eq_true, Option.any_eq_false] at hocc
      rw [Option.not_isSome_iff_eq_none] at hsome
      have hadd : SpineOk read head assembled (spine.set (p.parent.take (j + 1)) ∅) := by
        rw [htake] at hsome ⊢
        refine h.addDir hwf hp (htake ▸ List.take_prefix _ _) hl hsome fun v hv => ?_
        simpa using hocc v hv
      refine ih (j + 1 + 1) hadd (fun i hi => ?_) (by omega)
      rw [Table.mem_keys_iff]
      simp only [Table.get_set]
      split_ifs with heq
      · exact ⟨∅, rfl⟩
      · refine Table.mem_keys_iff.mp (hbefore i ?_)
        rcases Nat.lt_succ_iff_lt_or_eq.mp hi with hi | rfl
        · exact hi
        · exact absurd rfl heq

/-- Adding the missing directories leaves a spine, also when it refuses half-way. -/
theorem spineOk_synthesize (hwf : WellFormed read head) {changes : List (RepoPath × Change σ)}
    (hchanges : ∀ e ∈ changes, assembled.get e.1 = some e.2) {spine : Spine σ}
    (h : SpineOk read head assembled spine) :
    SpineOk read head assembled (synthesizeAbsentSpineDirs changes spine).1 := by
  induction changes generalizing spine with
  | nil => exact h
  | cons e changes ih =>
    obtain ⟨p, change⟩ := e
    have hrest : ∀ e ∈ changes, assembled.get e.1 = some e.2 := fun e he =>
      hchanges e (List.mem_cons_of_mem _ he)
    rw [synthesizeAbsentSpineDirs.eq_def]
    dsimp only
    split_ifs with hin
    · exact ih hrest h
    · cases change with
      | absent => exact h
      | set m s =>
        have hp : assembled.get p = some (.set m s) := hchanges (p, .set m s) List.mem_cons_self
        have hfill := spineOk_fillLevels hwf hp (p.parent.length + 1) 0 h (by simp) (by omega)
        rw [← List.range_eq_range'] at hfill
        dsimp only
        generalize fillLevels p.parent (List.range (p.parent.length + 1)) spine = filled at hfill
        obtain ⟨spine', ok⟩ := filled
        cases ok with
        | true => exact ih hrest hfill
        | false => exact hfill

end Git

end CoordinatorCore
