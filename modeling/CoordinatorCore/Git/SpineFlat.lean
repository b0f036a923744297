import CoordinatorCore.Git.SpineRewrite

/-!
# The rewrite as a flat update

A tree read as the map from its files to their modes and hashes, the rewrite should be an update of
that map. It is, exactly when every changed path that is a directory of the head is made absent and
has another changed path below it (`rewriteHead_flat_iff`): a file that takes the place of a
directory is dropped with the emptied directory, and a directory that is named absent goes with all
its files.
-/

namespace CoordinatorCore

open PyStr

namespace Git

variable {σ : Type} {read : σ → Option (List (TreeEntry σ))} {head root : σ}
  {assembled : Table RepoPath (Change σ)}

/-- The flattened head with the changes applied. -/
def Updated (read : σ → Option (List (TreeEntry σ))) (head : σ)
    (assembled : Table RepoPath (Change σ)) (path : Dir) (v : Nat × σ) : Prop :=
  (∃ p, p.parts = path ∧ (assembled.get p).bind Change.value = some v) ∨
    ((∀ p ∈ assembled.keys, p.parts ≠ path) ∧ FileAt read head path v)

/-- No file is a directory on the way to another. -/
def PrefixFree (files : Dir → Nat × σ → Prop) : Prop :=
  ∀ p q v w, files p v → files q w → p <+: q → p = q

/-- The root is the head with the changes applied. -/
structure FlatUpdate (read : σ → Option (List (TreeEntry σ))) (head : σ)
    (assembled : Table RepoPath (Change σ)) (root : σ) : Prop where
  files : ∀ path v, FileAt read root path v ↔ Updated read head assembled path v
  wellFormed : WellFormed read root
  kept : ∀ d s, d ≠ [] → Reaches read head d s → Untouched assembled d → Reaches read root d s

/-- A directory of the head that a change names is made absent, with a change below it. -/
def DirsEmptied (read : σ → Option (List (TreeEntry σ))) (head : σ)
    (assembled : Table RepoPath (Change σ)) : Prop :=
  ∀ p ∈ assembled.keys, InHead read head p.parts →
    assembled.get p = some .absent ∧ Below assembled p.parts

theorem RepoPath.parts_ne_nil (p : RepoPath) : p.parts ≠ [] := by simp [parts]

/-- A directory of the head below the root has a file. -/
theorem exists_file (hwf : WellFormed read head) {d : Dir} (hd : d ≠ []) (h : InHead read head d) :
    ∃ rest v, rest ≠ [] ∧ FileAt read head (d ++ rest) v := by
  obtain ⟨s, hs⟩ := h
  obtain ⟨rest, v, hv⟩ := (hwf.of_reaches hs).exists_at (hwf.read_ne_nil hs hd)
  have hrest : rest ≠ [] := by
    rintro rfl
    exact not_at_nil hv
  exact ⟨rest, v, hrest, (at_append_iff hrest).mpr ⟨s, hs, hv⟩⟩

/-- A path above a file is a directory. -/
theorem inHead_of_isInit {c path : Dir} {v : Nat × σ} (hat : FileAt read head path v)
    (h : c <+: path) (hne : c ≠ path) : InHead read head c := by
  obtain ⟨rest, rfl⟩ := h
  have hrest : rest ≠ [] := by
    rintro rfl
    exact hne (List.append_nil c).symm
  obtain ⟨s, hs, -⟩ := (at_append_iff hrest).mp hat
  exact ⟨s, hs⟩

/-- The rewrite is a flat update of a map without conflicts exactly when the directories of the
head that it names are emptied by it. -/
theorem rewriteHead_flat_iff {hash : List (TreeEntry σ) → σ} (hread : ∀ es, read (hash es) = some es)
    (hwf : WellFormed read head) (hmodes : ∀ p m s, assembled.get p = some (.set m s) → m ≠ treeMode)
    (hfree : PrefixFree (Updated read head assembled))
    (hok : rewriteHead read hash head assembled = .ok (some root)) :
    FlatUpdate read head assembled root ↔ DirsEmptied read head assembled := by
  obtain ⟨hroot, hways⟩ := rewriteHead_ok hread hwf hmodes hok
  have hfiles : ∀ path v, FileAt read root path v ↔
      path ≠ [] ∧ Result read head assembled path v := by
    intro path v
    by_cases hpath : path = []
    · subst hpath
      exact iff_of_false not_at_nil fun h => h.1 rfl
    · rw [hroot.files root rfl path v hpath, List.nil_append]
      exact (and_iff_right hpath).symm
  constructor
  · intro hflat p hp hdir
    obtain ⟨rest, v, hrest, hat⟩ := exists_file hwf p.parts_ne_nil hdir
    obtain ⟨c, hc⟩ := Table.mem_keys_iff.mp hp
    -- Without a change below it a named directory would keep a file.
    have hbelow : Below assembled p.parts := by
      by_contra hno
      have hup : Updated read head assembled (p.parts ++ rest) v :=
        .inr ⟨fun q hq heq => hno (below_of_append hrest hq heq), hat⟩
      rcases ((hfiles _ v).mp ((hflat.files _ v).mpr hup)).2 with ⟨q, hq, hval, -⟩ | ⟨-, -, hclear⟩
      · obtain ⟨c', hc', -⟩ := Option.bind_eq_some_iff.mp hval
        exact hno (below_of_append hrest (Table.mem_keys_iff.mpr ⟨c', hc'⟩) hq)
      · exact hno (hclear p hp (List.prefix_append _ _))
    refine ⟨?_, hbelow⟩
    cases c with
    | absent => exact hc
    | set m s =>
      have hup : Updated read head assembled p.parts (m, s) := .inl ⟨p, rfl, by rw [hc]; rfl⟩
      rcases ((hfiles _ _).mp ((hflat.files _ _).mpr hup)).2 with ⟨-, -, -, hno⟩ | ⟨hno, -⟩
      · exact absurd hbelow hno
      · exact absurd rfl (hno p hp)
  · intro hdirs
    have hclear : ∀ path, InHead read head path ∨ (∃ v, FileAt read head path v) →
        (∀ p ∈ assembled.keys, p.parts ≠ path) → Clear assembled path := by
      intro path hpath hno p hp hpre
      refine (hdirs p hp ?_).2
      rcases hpath with ⟨s, hs⟩ | ⟨v, hat⟩
      · obtain ⟨rest, rfl⟩ := hpre
        obtain ⟨t, ht, -⟩ := reaches_append_iff.mp hs
        exact ⟨t, ht⟩
      · exact inHead_of_isInit hat hpre (hno p hp)
    refine ⟨fun path v => ?_, (hroot.wellFormed root rfl).1, fun d s hd hs hun => ?_⟩
    · rw [hfiles]
      constructor
      · rintro ⟨-, ⟨p, hp, hval, -⟩ | ⟨hno, hat, -⟩⟩
        · exact .inl ⟨p, hp, hval⟩
        · exact .inr ⟨hno, hat⟩
      · rintro (⟨p, rfl, hval⟩ | ⟨hno, hat⟩)
        · refine ⟨p.parts_ne_nil, .inl ⟨p, rfl, hval, ?_⟩⟩
          rintro ⟨q, hq, hpre⟩
          obtain ⟨c, hc, hcv⟩ := Option.bind_eq_some_iff.mp hval
          rcases hways q hq p.parts hpre with hnil | hdir | ⟨q', m, s, hq', hpre'⟩
          · exact p.parts_ne_nil hnil
          · rw [(hdirs p (Table.mem_keys_iff.mpr ⟨c, hc⟩) hdir).1] at hc
            cases hc
            cases hcv
          · -- A file on the way to a new one.
            have hfile : Updated read head assembled q'.parts (m, s) :=
              .inl ⟨q', rfl, by rw [hq']; rfl⟩
            have hlen := hpre'.length_le
            have heq := hfree _ _ v _ (.inl ⟨p, rfl, hval⟩) hfile
              (hpre'.trans (List.prefix_append _ _))
            rw [heq, RepoPath.parts, List.length_append, List.length_singleton] at hlen
            omega
        · refine ⟨?_, .inr ⟨hno, hat, hclear path (.inr ⟨v, hat⟩) hno⟩⟩
          rintro rfl
          exact not_at_nil hat
    · have hno : ∀ p ∈ assembled.keys, p.parts ≠ d := fun p hp heq =>
        hun p hp (heq ▸ List.prefix_rfl)
      obtain ⟨t, ht, hkept⟩ := hroot.kept d s hd hs hun (hclear d (.inl ⟨s, hs⟩) hno)
      cases ht
      exact hkept

/-! ### Runs -/

/-- Hashes that never collide: a tree is its own. -/
inductive SampleSha
  | blob (n : Nat)
  | tree (es : List (TreeEntry SampleSha))

def SampleSha.listing : SampleSha → Option (List (TreeEntry SampleSha))
  | .blob _ => none
  | .tree es => some es

/-- One directory `a` with one file `b`. -/
def sampleHead : SampleSha :=
  .tree [⟨[0x61], treeMode, .tree [⟨[0x62], 0o100644, .blob 0⟩]⟩]

theorem wellFormed_sampleHead : WellFormed SampleSha.listing sampleHead := by
  have hone : ∀ e : TreeEntry SampleSha, e.name ≠ [] ∧ 0x2f ∉ e.name → TreeOk [e] := fun e h =>
    ⟨List.pairwise_singleton _ _, List.nodup_singleton _, by simpa using h⟩
  have hsub : WellFormed SampleSha.listing (.tree [⟨[0x62], 0o100644, .blob 0⟩]) := by
    refine .mk rfl (hone _ (by decide)) ?_ ?_ <;> simp [treeMode]
  refine .mk rfl (hone _ (by decide)) ?_ ?_
  · simpa using hsub
  · simp [SampleSha.listing]

theorem fileAt_sampleHead {path : Dir} {v : Nat × SampleSha}
    (h : FileAt SampleSha.listing sampleHead path v) : path = [ofText ['a'], ofText ['b']] := by
  have htext : fsDecode [0x61] = ofText ['a'] ∧ fsDecode [0x62] = ofText ['b'] := by decide
  cases path with
  | nil => exact absurd h not_at_nil
  | cons n path =>
    obtain ⟨es, hes, e, he, rfl, hor⟩ := at_cons_iff.mp h
    cases hes
    obtain rfl := List.mem_singleton.mp he
    rcases hor with ⟨-, hmode, -⟩ | ⟨-, h⟩
    · exact absurd rfl hmode
    · cases path with
      | nil => exact absurd h not_at_nil
      | cons n path =>
        obtain ⟨es, hes, e, he, rfl, ⟨rfl, -⟩ | ⟨hmode, -⟩⟩ := at_cons_iff.mp h
        · cases hes
          obtain rfl := List.mem_singleton.mp he
          rw [TreeEntry.text, TreeEntry.text, htext.1, htext.2]
        · cases hes
          obtain rfl := List.mem_singleton.mp he
          exact absurd hmode (by decide)

/-- A file `c` beside the directory. -/
def widerHead : SampleSha :=
  .tree [⟨[0x61], treeMode, .tree [⟨[0x62], 0o100644, .blob 0⟩]⟩, ⟨[0x63], 0o100644, .blob 0⟩]

theorem wellFormed_widerHead : WellFormed SampleSha.listing widerHead := by
  have hsub : WellFormed SampleSha.listing (.tree [⟨[0x62], 0o100644, .blob 0⟩]) := by
    refine .mk rfl ⟨List.pairwise_singleton _ _, List.nodup_singleton _, by simp⟩ ?_ ?_ <;>
      simp [treeMode]
  refine .mk rfl ⟨by decide, by decide, by decide⟩ (fun e he hmode => ?_) fun e he hmode => ?_
  all_goals
    rcases List.mem_cons.mp he with rfl | he
  · exact hsub
  · obtain rfl := List.mem_singleton.mp he
    exact absurd hmode (by decide)
  · simp [SampleSha.listing]
  · obtain rfl := List.mem_singleton.mp he
    exact absurd hmode (by decide)

theorem fileAt_widerHead {path : Dir} {v : Nat × SampleSha}
    (h : FileAt SampleSha.listing widerHead path v) :
    path = [ofText ['a'], ofText ['b']] ∨ path = [ofText ['c']] := by
  cases path with
  | nil => exact absurd h not_at_nil
  | cons n path =>
    obtain ⟨es, hes, e, he, hn, hor⟩ := at_cons_iff.mp h
    cases hes
    rcases List.mem_cons.mp he with rfl | he
    · -- below the directory, as in the smaller head
      exact .inl (fileAt_sampleHead (at_cons_iff.mpr
        ⟨_, rfl, _, List.mem_singleton_self _, hn, hor⟩))
    · obtain rfl := List.mem_singleton.mp he
      have htext : fsDecode [0x63] = ofText ['c'] := by decide
      rcases hor with ⟨rfl, -⟩ | ⟨hmode, -⟩
      · rw [← hn, TreeEntry.text, htext]
        exact .inr rfl
      · exact absurd hmode (by decide)

theorem inHead_widerHead {n : PyStr} {rest : Dir}
    (h : InHead SampleSha.listing widerHead (n :: rest)) : n = ofText ['a'] ∧ rest = [] := by
  obtain ⟨s, hs⟩ := h
  obtain ⟨es, hes, e, he, rfl, hmode, hs⟩ := reaches_cons_iff.mp hs
  cases hes
  rcases List.mem_cons.mp he with rfl | he
  · have htext : fsDecode [0x61] = ofText ['a'] := by decide
    refine ⟨by rw [TreeEntry.text, htext], ?_⟩
    cases rest with
    | nil => rfl
    | cons m rest =>
      obtain ⟨es, hes, e, he, -, hmode, -⟩ := reaches_cons_iff.mp hs
      cases hes
      obtain rfl := List.mem_singleton.mp he
      exact absurd hmode (by decide)
  · obtain rfl := List.mem_singleton.mp he
    exact absurd hmode (by decide)

/-- The directory and its one file go, and the file beside them is changed. -/
def emptiedChanges : Table RepoPath (Change SampleSha) :=
  ⟨[(⟨[ofText ['a']], ofText ['b'], by decide⟩, .absent),
    (⟨[], ofText ['a'], by decide⟩, .absent),
    (⟨[], ofText ['c'], by decide⟩, .set 0o100644 (.blob 1))], by decide⟩

theorem dirsEmptied_emptiedChanges :
    DirsEmptied SampleSha.listing widerHead emptiedChanges := by
  have hkeys : ∀ p ∈ emptiedChanges.keys, p.parts = [ofText ['a']] →
      emptiedChanges.get p = some .absent ∧ Below emptiedChanges p.parts := by
    intro p hp hpath
    rw [hpath]
    refine ⟨?_, ⟨[ofText ['a']], ofText ['b'], by decide⟩, List.mem_cons_self ..,
      List.prefix_rfl⟩
    have hall : ∀ q ∈ emptiedChanges.keys, q.parts = [ofText ['a']] →
      q = ⟨[], ofText ['a'], by decide⟩ := by decide
    rw [hall p hp hpath]
    exact Table.get_eq_some_iff.mpr (List.mem_cons_of_mem _ (List.mem_cons_self ..))
  intro p hp hdir
  obtain ⟨n, rest, heq⟩ := List.exists_cons_of_ne_nil p.parts_ne_nil
  rw [heq] at hdir
  obtain ⟨rfl, rfl⟩ := inHead_widerHead hdir
  exact hkeys p hp heq

/-- A directory that is emptied, with a change beside it. -/
theorem rewriteHead_flat_sample :
    InHead SampleSha.listing widerHead [ofText ['a']] ∧
      ∃ root, rewriteHead SampleSha.listing .tree widerHead emptiedChanges = .ok (some root) ∧
        FlatUpdate SampleSha.listing widerHead emptiedChanges root := by
  have hrun : ((rewriteHead SampleSha.listing .tree widerHead emptiedChanges).toOption.bind
      id).isSome = true := by decide
  have hset : ∀ p m s, emptiedChanges.get p = some (.set m s) →
      p.parts = [ofText ['c']] ∧ m ≠ treeMode := by
    intro p m s hc
    have hmem := Table.get_eq_some_iff.mp hc
    simp only [emptiedChanges, List.mem_cons, List.not_mem_nil, or_false, Prod.mk.injEq,
      reduceCtorEq, and_false, false_or, Change.set.injEq] at hmem
    obtain ⟨rfl, rfl, -⟩ := hmem
    exact ⟨rfl, by decide⟩
  -- the changed file is all that is left
  have hup : ∀ path v, Updated SampleSha.listing widerHead emptiedChanges path v →
      path = [ofText ['c']] := by
    rintro path v (⟨p, rfl, hval⟩ | ⟨hno, hat⟩)
    · obtain ⟨c, hc, hcv⟩ := Option.bind_eq_some_iff.mp hval
      cases c with
      | absent => cases hcv
      | set m s => exact (hset p m s hc).1
    · refine (fileAt_widerHead hat).resolve_left fun hpath => ?_
      exact hno _ (List.mem_cons_self ..) hpath.symm
  refine ⟨⟨_, reaches_cons_iff.mpr ⟨_, rfl, _, List.mem_cons_self .., by decide, rfl,
    reaches_nil_iff.mpr rfl⟩⟩, ?_⟩
  cases hroot : rewriteHead SampleSha.listing .tree widerHead emptiedChanges with
  | error err =>
    rw [hroot] at hrun
    cases hrun
  | ok r =>
    cases r with
    | none =>
      rw [hroot] at hrun
      cases hrun
    | some root =>
      refine ⟨root, rfl, (rewriteHead_flat_iff (fun _ => rfl) wellFormed_widerHead
        (fun p m s hc => (hset p m s hc).2) ?_ hroot).mpr dirsEmptied_emptiedChanges⟩
      intro p q v w hp hq _
      rw [hup p v hp, hup q w hq]

/-- The file `a` takes the place of the directory `a`. -/
def replacedChanges : Table RepoPath (Change SampleSha) :=
  ⟨[(⟨[ofText ['a']], ofText ['b'], by decide⟩, .absent),
    (⟨[], ofText ['a'], by decide⟩, .set 0o100644 (.blob 1))], by decide⟩

/-- The new file goes with the directory that it replaces: the tree is empty. -/
theorem rewriteHead_drops_file :
    WellFormed SampleSha.listing sampleHead ∧
      PrefixFree (Updated SampleSha.listing sampleHead replacedChanges) ∧
      ∃ root, rewriteHead SampleSha.listing .tree sampleHead replacedChanges = .ok (some root) ∧
        Updated SampleSha.listing sampleHead replacedChanges [ofText ['a']] (0o100644, .blob 1) ∧
        ∀ path v, ¬FileAt SampleSha.listing root path v := by
  have hup : ∀ path v, Updated SampleSha.listing sampleHead replacedChanges path v →
      path = [ofText ['a']] := by
    rintro path v (⟨p, rfl, hval⟩ | ⟨hno, hat⟩)
    · obtain ⟨c, hc, hcv⟩ := Option.bind_eq_some_iff.mp hval
      rcases List.mem_cons.mp (Table.get_eq_some_iff.mp hc) with heq | hmem
      · cases heq
        cases hcv
      · cases List.mem_singleton.mp hmem
        rfl
    · exact absurd (fileAt_sampleHead hat).symm (hno _ List.mem_cons_self)
  refine ⟨wellFormed_sampleHead, fun p q v w hp hq _ => by rw [hup p v hp, hup q w hq],
    .tree [], rfl, .inl ⟨⟨[], ofText ['a'], by decide⟩, rfl, rfl⟩, ?_⟩
  intro path v hat
  cases path with
  | nil => exact not_at_nil hat
  | cons n path =>
    obtain ⟨es, hes, e, he, -⟩ := at_cons_iff.mp hat
    cases hes
    cases he

end Git

end CoordinatorCore
