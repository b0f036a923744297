import CoordinatorCore.Git.SpineRead

/-!
# What the rewrite makes of a tree

The root that `_rewrite_head_spine` returns, flattened (`rewriteHead_ok`): a changed path has its
value unless another change is below it, and a file of the head stays unless a change stands in its
place or above it with none below. The directories that no change touches keep their objects. The
proof is a pass from the deepest directory up (`BottomUp.pass_spec`); what a directory knows of its
children is `Rewritten`.
-/

namespace CoordinatorCore

open PyStr

namespace Git

variable {σ : Type} {read : σ → Option (List (TreeEntry σ))} {head : σ}
  {assembled : Table RepoPath (Change σ)}

/-! ### Changes by directory -/

theorem RepoPath.eq_of {p q : RepoPath} (hparent : p.parent = q.parent) (hname : p.name = q.name) :
    p = q :=
  RepoPath.ext_parts (by rw [parts, parts, hparent, hname])

/-- The changes of a directory are those of the paths in it. -/
theorem get_dirLeafChanges {d : Dir} {n : PyStr} {c : Change σ} :
    (((dirLeafChanges assembled).get d).getD ∅).get n = some c ↔
      ∃ p, p.parent = d ∧ p.name = n ∧ assembled.get p = some c := by
  simp only [Table.get_eq_some_iff (t := assembled)]
  obtain ⟨es, hes⟩ := assembled
  unfold dirLeafChanges
  dsimp only
  induction es using List.reverseRecOn with
  | nil => simp
  | append_singleton es e ih =>
    rw [List.map_append, List.nodup_append] at hes
    obtain ⟨hes, -, hne⟩ := hes
    rw [List.foldl_append, List.foldl_cons, List.foldl_nil, Table.get_set]
    by_cases hd : d = e.1.parent
    · rw [if_pos hd, Option.getD_some, Table.get_set, ← hd]
      by_cases hn : n = e.1.name
      · rw [if_pos hn, Option.some.injEq]
        constructor
        · rintro rfl
          exact ⟨e.1, hd.symm, hn.symm, by simp⟩
        · rintro ⟨p, hp, hpn, hmem⟩
          obtain rfl : p = e.1 := RepoPath.eq_of (hp.trans hd) (hpn.trans hn)
          rcases List.mem_append.mp hmem with hmem | hmem
          · exact absurd rfl (hne _ (List.mem_map_of_mem hmem) _ (by simp))
          · rw [← List.mem_singleton.mp hmem]
      · rw [if_neg hn, ih hes]
        refine exists_congr fun p => and_congr_right fun _ => and_congr_right fun hpn => ?_
        rw [List.mem_append, List.mem_singleton]
        refine (or_iff_left fun heq => hn ?_).symm
        rw [← hpn, ← heq]
    · rw [if_neg hd, ih hes]
      refine exists_congr fun p => and_congr_right fun hp => and_congr_right fun _ => ?_
      rw [List.mem_append, List.mem_singleton]
      refine (or_iff_left fun heq => hd ?_).symm
      rw [← hp, ← heq]

theorem mem_keys_dirLeafChanges {d : Dir} :
    d ∈ (dirLeafChanges assembled).keys ↔ ∃ p ∈ assembled.keys, p.parent = d := by
  obtain ⟨es, hes⟩ := assembled
  unfold dirLeafChanges Table.keys
  dsimp only
  clear hes
  induction es using List.reverseRecOn with
  | nil => simp [EmptyCollection.emptyCollection]
  | append_singleton es e ih =>
    rw [List.foldl_append, List.foldl_cons, List.foldl_nil]
    change d ∈ (Table.set _ _ _).keys ↔ _
    rw [Table.mem_keys_iff]
    simp only [Table.get_set]
    by_cases hd : d = e.1.parent
    · subst hd
      simp only [if_true, Option.some.injEq, exists_eq', true_iff]
      exact ⟨e.1, by simp, rfl⟩
    · simp only [if_neg hd, ← Table.mem_keys_iff]
      rw [show d ∈ Table.keys _ ↔ _ from ih, List.map_append]
      simp only [List.mem_append, List.map_cons, List.map_nil, List.mem_singleton]
      refine exists_congr fun p => and_congr_left fun hp => (or_iff_left fun heq => hd ?_).symm
      rw [← hp, heq]

/-! ### One listing -/

/-- What a change leaves of a name. -/
def Change.value : Change σ → Option (Nat × σ)
  | .absent => none
  | .set mode sha => some (mode, sha)

theorem applyChange_eq (l : Listing σ) (change : PyStr × Change σ) :
    applyChange l change = l.put change.1 change.2.value := by
  obtain ⟨n, c⟩ := change
  cases c <;> rfl

theorem mergeChild_eq (l : Listing σ) (child : Dir × Option σ) :
    mergeChild l child =
      l.put (child.1.getLast?.getD []) (child.2.map fun sha => (treeMode, sha)) := by
  obtain ⟨d, r⟩ := child
  cases r <;> rfl

/-- The changes of one directory are applied. -/
theorem get_foldl_applyChange (changes : Table PyStr (Change σ)) (l : Listing σ) (n : PyStr) :
    (changes.entries.foldl applyChange l).get n =
      match changes.get n with
      | none => l.get n
      | some c => c.value := by
  have hfold : changes.entries.foldl applyChange l =
      (changes.entries.map fun e => (e.1, e.2.value)).foldl (fun t p => t.put p.1 p.2) l := by
    rw [List.foldl_map]
    exact congrArg (fun f => List.foldl f l changes.entries)
      (funext fun t => funext fun e => applyChange_eq t e)
  have hfst : (changes.entries.map fun e => (e.1, e.2.value)).map Prod.fst = changes.keys := by
    rw [List.map_map]
    rfl
  obtain ⟨hmem, hnot⟩ := Table.get_foldl_put (by rw [hfst]; exact changes.nodup) l
  rw [hfold]
  cases hget : changes.get n with
  | none => exact hnot n (hfst ▸ Table.get_eq_none_iff.mp hget)
  | some c => exact hmem n c.value (List.mem_map_of_mem (Table.get_eq_some_iff.mp hget))

/-- The results of the subdirectories are merged. -/
theorem get_foldl_mergeChild {Good : Dir → Option σ → Prop} {nodes : List Dir} {d : Dir}
    {children : List (Dir × Option σ)} (h : BottomUp.Children Good nodes d children)
    (l : Listing σ) (n : PyStr) :
    (∃ r, Good (d ++ [n]) r ∧ d ++ [n] ∈ nodes ∧
        (children.foldl mergeChild l).get n = r.map fun sha => (treeMode, sha)) ∨
      d ++ [n] ∉ nodes ∧ (children.foldl mergeChild l).get n = l.get n := by
  have hfold : children.foldl mergeChild l =
      (children.map fun c => (c.1.getLast?.getD [], c.2.map fun sha => (treeMode, sha))).foldl
        (fun t p => t.put p.1 p.2) l := by
    rw [List.foldl_map]
    exact congrArg (fun f => List.foldl f l children)
      (funext fun t => funext fun e => mergeChild_eq t e)
  have hlast : ∀ c ∈ children, d ++ [c.1.getLast?.getD []] = c.1 := by
    intro c hc
    obtain ⟨k, hk, -⟩ := h.below c.1 c.2 hc
    simp [hk]
  have hnodup : ((children.map fun c =>
      (c.1.getLast?.getD [], c.2.map fun sha => (treeMode, sha))).map Prod.fst).Nodup := by
    refine List.Nodup.of_map (fun k => d ++ [k]) ?_
    rw [List.map_map, List.map_map, List.map_congr_left (g := Prod.fst)]
    · exact h.nodup
    · exact fun c hc => hlast c hc
  obtain ⟨hmem, hnot⟩ := Table.get_foldl_put hnodup l
  rw [hfold]
  by_cases hn : d ++ [n] ∈ nodes
  · obtain ⟨r, hr⟩ := h.all n hn
    obtain ⟨-, -, -, hgood⟩ := h.below _ r hr
    refine .inl ⟨r, hgood, hn, hmem n _ (List.mem_map.mpr ⟨(d ++ [n], r), hr, ?_⟩)⟩
    simp
  · refine .inr ⟨hn, hnot n fun hin => hn ?_⟩
    rw [List.map_map, List.mem_map] at hin
    obtain ⟨c, hc, rfl⟩ := hin
    obtain ⟨-, -, hin, -⟩ := h.below c.1 c.2 hc
    rw [Function.comp_apply, hlast c hc]
    exact hin

/-! ### Writing a listing -/

/-- The name of a line is a plain one. -/
theorem plainName_text {e : TreeEntry σ} (h : e.name ≠ [] ∧ 0x2f ∉ e.name) : PlainName e.text := by
  have henc : fsEncode e.text = some e.name := fsEncode_fsDecode e.name
  refine ⟨fun hnil => h.1 ?_, fun hslash => h.2 ?_⟩
  · rw [hnil] at henc
    exact (Option.some.inj henc).symm
  · exact (ascii_mem_of_fsEncode (a := 0x2f) (by decide) henc).mpr hslash

theorem encodeStrict_append {s t : PyStr} {b b' : Bytes} (h : encodeStrict s = some b)
    (h' : encodeStrict t = some b') : encodeStrict (s ++ t) = some (b ++ b') := by
  induction s generalizing b with
  | nil =>
    cases h
    exact h'
  | cons c s ih =>
    obtain ⟨hc, front, rest, hfront, hrest, rfl⟩ := encodeStrict_cons h
    have hst := ih hrest
    rw [encodeStrict] at hst ⊢
    split_ifs at hst with hany
    rw [List.cons_append, List.any_cons, hc, Bool.false_or, if_neg hany, fsEncode, hfront, hst]
    rw [List.append_assoc]
    rfl

/-- The line of an entry. -/
theorem encodeEntry_ok {e : PyStr × (Nat × σ)} {line : TreeEntry σ} (h : encodeEntry e = .ok line) :
    encodeStrict e.1 = some line.name ∧ line.text = e.1 ∧ line.mode = e.2.1 ∧ line.sha = e.2.2 ∧
      encodeStrict (sortName e) = some line.key := by
  rw [encodeEntry] at h
  cases henc : encodeStrict e.1 with
  | none =>
    rw [henc] at h
    cases h
  | some name =>
    rw [henc] at h
    cases h
    refine ⟨rfl, fsDecode_of_encodeStrict henc, rfl, rfl, ?_⟩
    unfold sortName TreeEntry.key
    dsimp only
    split_ifs
    · exact encodeStrict_append henc (by decide)
    · exact henc

/-- Different plain names stay different with their slashes. -/
theorem sortName_injOn {a b : PyStr × (Nat × σ)} (ha : PlainName a.1) (hb : PlainName b.1)
    (h : sortName a = sortName b) : a.1 = b.1 := by
  unfold sortName at h
  split_ifs at h with h1 h2 h2
  · exact List.append_cancel_right h
  · exact absurd (h ▸ List.mem_append_right _ (List.mem_singleton_self _)) hb.2
  · exact absurd (h ▸ List.mem_append_right _ (List.mem_singleton_self _)) ha.2
  · exact h

/-- A written listing is in git order and holds the entries. -/
theorem writeTreeLevel_ok {hash : List (TreeEntry σ) → σ} {entries : Listing σ} {sha : σ}
    (hplain : ∀ n ∈ entries.keys, PlainName n) (h : writeTreeLevel hash entries = .ok sha) :
    ∃ lines, sha = hash lines ∧ TreeOk lines ∧ (lines = [] ↔ entries.entries = []) ∧
      ∀ n m s, (∃ e ∈ lines, e.text = n ∧ e.mode = m ∧ e.sha = s) ↔
        entries.get n = some (m, s) := by
  obtain ⟨items, hitems⟩ : ∃ items, items = entries.entries.insertionSort
      fun a b => sortName a ≤ sortName b := ⟨_, rfl⟩
  have hperm : items.Perm entries.entries := hitems ▸ List.perm_insertionSort _ _
  have hsorted : items.Pairwise fun a b => sortName a ≤ sortName b :=
    hitems ▸ List.pairwise_insertionSort _ _
  have hnodup : (items.map Prod.fst).Nodup := (hperm.map _).nodup_iff.mpr entries.nodup
  obtain ⟨lines, hlines, hsha⟩ := except_bind_eq_ok.mp h
  rw [← hitems, answers_eq_ok] at hlines
  have hkey : ∀ a ∈ items, PlainName a.1 := fun a ha =>
    hplain _ (List.mem_map_of_mem (hperm.mem_iff.mp ha))
  -- no two names sort alike, a directory as if it ended in a slash
  have hstrict : items.Pairwise fun a b => sortName a < sortName b := by
    have hne : items.Pairwise fun a b => a.1 ≠ b.1 := List.pairwise_map.mp hnodup
    refine (hsorted.and hne).imp_of_mem fun {a b} ha hb hab => ?_
    exact Std.lt_of_le_of_ne hab.1 fun heq => hab.2 (sortName_injOn (hkey a ha) (hkey b hb) heq)
  refine ⟨lines, (Except.ok.inj hsha).symm, ⟨?_, ?_, ?_⟩, ?_, fun n m s => ?_⟩
  · clear hitems hperm hsorted hnodup hkey hsha
    -- the lines stand as the items do, in the order of the encoded names
    induction hlines with
    | nil => exact List.Pairwise.nil
    | @cons a line items lines hline hlines ih =>
      obtain ⟨hfirst, hrest⟩ := List.pairwise_cons.mp hstrict
      refine List.pairwise_cons.mpr ⟨fun line' hline' => ?_, ih hrest⟩
      obtain ⟨b, hb, hline'⟩ := (forall₂_counterpart hlines).2 _ hline'
      exact lt_of_encodeStrict (encodeEntry_ok hline).2.2.2.2 (encodeEntry_ok hline').2.2.2.2
        (hfirst b hb)
  · have hnames : lines.map TreeEntry.text = items.map Prod.fst := by
      clear hitems hperm hsorted hnodup hkey hstrict hsha
      induction hlines with
      | nil => rfl
      | cons hline _ ih => rw [List.map_cons, List.map_cons, ih, (encodeEntry_ok hline).2.1]
    refine List.Nodup.of_map fsDecode ?_
    rw [List.map_map]
    exact hnames ▸ hnodup
  · intro line hline
    obtain ⟨a, ha, hline⟩ := (forall₂_counterpart hlines).2 _ hline
    obtain ⟨henc, -, -, -, -⟩ := encodeEntry_ok hline
    have hfs := fsEncode_of_encodeStrict henc
    -- a plain name is not empty and has no slash when encoded
    refine ⟨fun hnil => (hkey a ha).1 ?_, fun hslash => (hkey a ha).2 ?_⟩
    · rw [← fsDecode_of_encodeStrict henc, hnil]
      rfl
    · exact (ascii_mem_of_fsEncode (a := 0x2f) (by decide) hfs).mp hslash
  · rw [← List.length_eq_zero_iff, ← hlines.length_eq, hperm.length_eq, List.length_eq_zero_iff]
  · rw [Table.get_eq_some_iff, ← hperm.mem_iff]
    constructor
    · rintro ⟨line, hline, rfl, rfl, rfl⟩
      obtain ⟨a, ha, hline⟩ := (forall₂_counterpart hlines).2 _ hline
      obtain ⟨-, htext, hmode, hsha, -⟩ := encodeEntry_ok hline
      rw [htext, hmode, hsha]
      exact ha
    · intro ha
      obtain ⟨line, hmem, hline⟩ := (forall₂_counterpart hlines).1 _ ha
      obtain ⟨-, htext, hmode, hsha, -⟩ := encodeEntry_ok hline
      exact ⟨line, hmem, htext, hmode, hsha⟩

/-! ### The effect of the changes -/

/-- A changed path is below the directory. -/
def Below (assembled : Table RepoPath (Change σ)) (d : Dir) : Prop :=
  ∃ p ∈ assembled.keys, d <+: p.parent

/-- No changed path is the directory, or below it. -/
def Untouched (assembled : Table RepoPath (Change σ)) (d : Dir) : Prop :=
  ∀ p ∈ assembled.keys, ¬d <+: p.parts

/-- Whatever changes in the way of a path is overruled by a change below it. -/
def Clear (assembled : Table RepoPath (Change σ)) (path : Dir) : Prop :=
  ∀ p ∈ assembled.keys, p.parts <+: path → Below assembled p.parts

/-- The file that the rewrite leaves at a path. -/
def Result (read : σ → Option (List (TreeEntry σ))) (head : σ)
    (assembled : Table RepoPath (Change σ)) (path : Dir) (v : Nat × σ) : Prop :=
  (∃ p, p.parts = path ∧ (assembled.get p).bind Change.value = some v ∧ ¬Below assembled path) ∨
    ((∀ p ∈ assembled.keys, p.parts ≠ path) ∧ FileAt read head path v ∧ Clear assembled path)

/-- What is left of a directory. -/
structure Rewritten (read : σ → Option (List (TreeEntry σ))) (head : σ)
    (assembled : Table RepoPath (Change σ)) (d : Dir) (r : Option σ) : Prop where
  gone : r = none → ∀ rest v, rest ≠ [] → ¬Result read head assembled (d ++ rest) v
  files : ∀ sha, r = some sha → ∀ rest v, rest ≠ [] →
    (FileAt read sha rest v ↔ Result read head assembled (d ++ rest) v)
  wellFormed : ∀ sha, r = some sha → WellFormed read sha ∧ (d ≠ [] → read sha ≠ some [])
  kept : ∀ rest s, rest ≠ [] → Reaches read head (d ++ rest) s → Untouched assembled (d ++ rest) →
    Clear assembled (d ++ rest) → ∃ sha, r = some sha ∧ Reaches read sha rest s

theorem prefix_parts_iff {c : Dir} {p : RepoPath} : c <+: p.parts ↔ c = p.parts ∨ c <+: p.parent :=
  List.prefix_concat_iff

theorem below_of_append {d rest : Dir} (hrest : rest ≠ []) {p : RepoPath} (hp : p ∈ assembled.keys)
    (h : p.parts = d ++ rest) : Below assembled d := by
  refine ⟨p, hp, ?_⟩
  rcases prefix_parts_iff.mp (h ▸ List.prefix_append d rest) with heq | hpre
  · rw [h] at heq
    exact absurd (List.self_eq_append_right.mp heq) hrest
  · exact hpre

section

variable {spine : Spine σ}

/-- The spine is closed under prefixes. -/
theorem SpineOk.of_prefix (h : SpineOk read head assembled spine) {c d : Dir} (hcd : c <+: d)
    (hd : d ∈ spine.keys) : c ∈ spine.keys := by
  obtain ⟨rest, rfl⟩ := hcd
  induction rest using List.reverseRecOn with
  | nil => rwa [List.append_nil] at hd
  | append_singleton rest n ih =>
    rw [← List.append_assoc] at hd
    exact ih (h.closed _ n hd)

/-- Where every changed path has its parent in the spine, the spine is what leads to them. -/
theorem SpineOk.mem_iff (h : SpineOk read head assembled spine)
    (hparents : ∀ p ∈ assembled.keys, p.parent ∈ spine.keys) {d : Dir} (hd : d ≠ []) :
    d ∈ spine.keys ↔ Below assembled d := by
  constructor
  · exact fun hin => (h.leads d hin).resolve_left hd
  · rintro ⟨p, hp, hpre⟩
    exact h.of_prefix hpre (hparents p hp)

/-- A listing is what the tree says below its directory. -/
theorem IsListing.fileAt_iff (hwf : WellFormed read head) {d : Dir} {l : Listing σ}
    (h : IsListing read head d l) {n : PyStr} {rest : Dir} {v : Nat × σ} :
    FileAt read head (d ++ n :: rest) v ↔ ∃ m s, l.get n = some (m, s) ∧
      ((rest = [] ∧ m ≠ treeMode ∧ v = (m, s)) ∨ (m = treeMode ∧ FileAt read s rest v)) := by
  by_cases hrest : rest = []
  · subst hrest
    rw [← h.file_iff hwf]
    constructor
    · rintro ⟨hget, hmode⟩
      exact ⟨v.1, v.2, hget, .inl ⟨rfl, hmode, rfl⟩⟩
    · rintro ⟨m, s, hget, ⟨-, hmode, rfl⟩ | ⟨-, hat⟩⟩
      · exact ⟨hget, hmode⟩
      · exact absurd hat not_at_nil
  · rw [List.append_cons, at_append_iff hrest]
    constructor
    · rintro ⟨t, ht, hat⟩
      exact ⟨treeMode, t, (h.tree_iff hwf).mpr ht, .inr ⟨rfl, hat⟩⟩
    · rintro ⟨m, s, hget, ⟨hnil, -⟩ | ⟨rfl, hat⟩⟩
      · exact absurd hnil hrest
      · exact ⟨s, (h.tree_iff hwf).mp hget, hat⟩

/-- The entries of one directory after the loop, name by name. -/
inductive EntryCase (read : σ → Option (List (TreeEntry σ))) (head : σ)
    (assembled : Table RepoPath (Change σ)) (spine : Spine σ) (l : Listing σ) (d : Dir) (n : PyStr) :
    Option (Nat × σ) → Prop
  /-- A subdirectory of the spine. -/
  | child (r : Option σ) : d ++ [n] ∈ spine.keys → Rewritten read head assembled (d ++ [n]) r →
      EntryCase read head assembled spine l d n (r.map fun sha => (treeMode, sha))
  /-- A changed name. -/
  | changed (p : RepoPath) (c : Change σ) : d ++ [n] ∉ spine.keys → p.parts = d ++ [n] →
      assembled.get p = some c → EntryCase read head assembled spine l d n c.value
  /-- Another name. -/
  | other : d ++ [n] ∉ spine.keys → (∀ p ∈ assembled.keys, p.parts ≠ d ++ [n]) →
      EntryCase read head assembled spine l d n (l.get n)

theorem entryCase_foldl {d : Dir} {l : Listing σ} (hl : spine.get d = some l)
    {children : List (Dir × Option σ)}
    (h : BottomUp.Children (Rewritten read head assembled) spine.keys d children) (n : PyStr) :
    EntryCase read head assembled spine l d n ((children.foldl mergeChild
      ((((dirLeafChanges assembled).get d).getD ∅).entries.foldl applyChange
        ((spine.get d).getD ∅))).get n) := by
  rcases get_foldl_mergeChild h ((((dirLeafChanges assembled).get d).getD ∅).entries.foldl
    applyChange ((spine.get d).getD ∅)) n with ⟨r, hr, hn, hget⟩ | ⟨hn, hget⟩
  · rw [hget]
    exact .child r hn hr
  · rw [hget, get_foldl_applyChange, hl, Option.getD_some]
    cases hc : (((dirLeafChanges assembled).get d).getD ∅).get n with
    | some c =>
      obtain ⟨p, hparent, hname, hp⟩ := get_dirLeafChanges.mp hc
      exact .changed p c hn (by rw [RepoPath.parts, hparent, hname]) hp
    | none =>
      refine .other hn fun p hp heq => ?_
      obtain ⟨c, hpc⟩ := Table.mem_keys_iff.mp hp
      obtain ⟨hparent, hname⟩ := List.append_inj' heq rfl
      have := get_dirLeafChanges.mpr ⟨p, hparent, (List.cons.inj hname).1, hpc⟩
      rw [hc] at this
      cases this

variable (hwf : WellFormed read head) (hspine : SpineOk read head assembled spine)
  (hparents : ∀ p ∈ assembled.keys, p.parent ∈ spine.keys)
  (hmodes : ∀ p m s, assembled.get p = some (.set m s) → m ≠ treeMode)

include hwf hspine hparents hmodes

/-- Name by name, what is left below the name is what the changes leave. -/
theorem EntryCase.files {d : Dir} {l : Listing σ} (hl : spine.get d = some l) {n : PyStr}
    {o : Option (Nat × σ)} (h : EntryCase read head assembled spine l d n o) (rest : Dir)
    (v : Nat × σ) :
    (∃ m s, o = some (m, s) ∧
        ((rest = [] ∧ m ≠ treeMode ∧ v = (m, s)) ∨ (m = treeMode ∧ FileAt read s rest v))) ↔
      Result read head assembled (d ++ n :: rest) v := by
  have hsplit : d ++ n :: rest = d ++ [n] ++ rest := List.append_cons d n rest
  have hmem : ∀ {c : Dir}, c ≠ [] → (c ∈ spine.keys ↔ Below assembled c) :=
    fun hc => hspine.mem_iff hparents hc
  have hne : d ++ [n] ≠ [] := by simp
  -- Off the spine no change is below the name.
  have hoff : d ++ [n] ∉ spine.keys → ∀ p ∈ assembled.keys, p.parts = d ++ [n] ++ rest →
      rest = [] := by
    intro hn p hp heq
    by_contra hrest
    exact hn ((hmem hne).mpr (below_of_append hrest hp heq))
  cases h with
  | child r hn hr =>
    by_cases hrest : rest = []
    · subst hrest
      refine iff_of_false ?_ ?_
      · rintro ⟨m, s, ho, ⟨-, hmode, -⟩ | ⟨-, hat⟩⟩
        · obtain ⟨sha, -, heq⟩ := Option.map_eq_some_iff.mp ho
          cases heq
          exact hmode rfl
        · exact not_at_nil hat
      · rintro (⟨p, -, -, hno⟩ | ⟨-, hat, -⟩)
        · exact hno ((hmem hne).mp hn)
        · obtain ⟨lc, hlc⟩ := Table.mem_keys_iff.mp hn
          rcases hspine.listing _ lc hlc with ⟨t, -, ht, -⟩ | ⟨-, -, hno, -⟩
          · obtain ⟨t', ht', hfile⟩ := (at_append_iff (List.cons_ne_nil n [])).mp hat
            obtain ⟨t'', ht'', hdir⟩ := reaches_append_iff.mp ht
            obtain rfl := Reaches.unique hwf ht' ht''
            obtain ⟨es, hes, e, he, htext, ⟨-, hmode, -⟩ | ⟨-, hnil⟩⟩ := at_cons_iff.mp hfile
            · obtain ⟨es', hes', e', he', htext', hmode', -⟩ := reaches_cons_iff.mp hdir
              rw [hes] at hes'
              cases hes'
              cases hwf.of_reaches ht' with
              | mk hes' hok _ _ =>
                rw [hes] at hes'
                cases hes'
                rw [hok.eq_of_text he he' (htext.trans htext'.symm)] at hmode
                exact hmode hmode'
            · exact not_at_nil hnil
          · exact hno v hat
    · rw [hsplit]
      cases r with
      | none =>
        refine iff_of_false ?_ (hr.gone rfl rest v hrest)
        rintro ⟨m, s, ho, -⟩
        cases ho
      | some sha =>
        rw [← hr.files sha rfl rest v hrest]
        constructor
        · rintro ⟨m, s, ho, ⟨hnil, -⟩ | ⟨-, hat⟩⟩
          · exact absurd hnil hrest
          · cases ho
            exact hat
        · exact fun hat => ⟨treeMode, sha, rfl, .inr ⟨rfl, hat⟩⟩
  | changed p c hn hp hc =>
    have hpk : p ∈ assembled.keys := Table.mem_keys_iff.mpr ⟨c, hc⟩
    rw [hsplit]
    constructor
    · rintro ⟨m, s, ho, hor⟩
      have hset : c = .set m s := by
        cases c with
        | absent => cases ho
        | set m' s' =>
          cases ho
          rfl
      subst hset
      rcases hor with ⟨rfl, -, rfl⟩ | ⟨htree, -⟩
      · rw [List.append_nil]
        refine .inl ⟨p, hp, by rw [hc]; rfl, ?_⟩
        exact fun hb => hn ((hmem hne).mpr hb)
      · exact absurd htree (hmodes p m s hc)
    · rintro (⟨p', hp', hv, -⟩ | ⟨hno, -, hclear⟩)
      · obtain ⟨c', hc', hval⟩ := Option.bind_eq_some_iff.mp hv
        obtain rfl := hoff hn p' (Table.mem_keys_iff.mpr ⟨c', hc'⟩) hp'
        rw [List.append_nil] at hp'
        obtain rfl := RepoPath.ext_parts (hp'.trans hp.symm)
        rw [hc] at hc'
        cases hc'
        cases c with
        | absent => cases hval
        | set m s => exact ⟨m, s, rfl, .inl ⟨rfl, hmodes p' m s hc, (Option.some.inj hval).symm⟩⟩
      · have := hclear p hpk (hp ▸ List.prefix_append _ _)
        rw [hp] at this
        exact absurd ((hmem hne).mpr this) hn
  | other hn hno =>
    have hleft : ¬∃ p, p.parts = d ++ [n] ++ rest ∧
        (assembled.get p).bind Change.value = some v ∧ ¬Below assembled (d ++ [n] ++ rest) := by
      rintro ⟨p, hp, hv, -⟩
      obtain ⟨c, hc, -⟩ := Option.bind_eq_some_iff.mp hv
      have hpk := Table.mem_keys_iff.mpr ⟨c, hc⟩
      obtain rfl := hoff hn p hpk hp
      exact hno p hpk (by rw [hp, List.append_nil])
    have hnot : ∀ p ∈ assembled.keys, p.parts ≠ d ++ [n] ++ rest := by
      intro p hp heq
      obtain rfl := hoff hn p hp heq
      exact hno p hp (by rw [heq, List.append_nil])
    have hclear : Clear assembled (d ++ [n] ++ rest) := by
      intro p hp hpre
      rcases List.prefix_or_prefix_of_prefix hpre (List.prefix_append (d ++ [n]) rest) with h | h
      · rcases List.prefix_concat_iff.mp h with heq | hd
        · exact absurd heq (hno p hp)
        · refine (hmem (by simp [RepoPath.parts])).mp (hspine.of_prefix hd ?_)
          exact Table.mem_keys_iff.mpr ⟨l, hl⟩
      · rcases prefix_parts_iff.mp h with heq | hb
        · exact absurd heq.symm (hno p hp)
        · exact absurd ((hmem hne).mpr ⟨p, hp, hb⟩) hn
    rw [Result, hsplit, or_iff_right hleft, and_iff_right hnot, and_iff_left hclear, ← hsplit]
    rcases hspine.listing d l hl with hlist | ⟨rfl, hnohead, -, -⟩
    · exact (hlist.fileAt_iff hwf).symm
    · refine iff_of_false ?_ ?_
      · rintro ⟨m, s, ho, -⟩
        cases ho
      · intro hat
        obtain ⟨t, ht, -⟩ := (at_append_iff (List.cons_ne_nil _ _)).mp hat
        exact hnohead ⟨t, ht⟩

omit hmodes in
/-- Name by name, a directory that no change touches is kept. -/
theorem EntryCase.kept {d : Dir} {l : Listing σ} (hl : spine.get d = some l) {n : PyStr}
    {o : Option (Nat × σ)} (h : EntryCase read head assembled spine l d n o) {rest : Dir} {s : σ}
    (hs : Reaches read head (d ++ n :: rest) s) (hfree : Untouched assembled (d ++ n :: rest))
    (hclear : Clear assembled (d ++ n :: rest)) :
    ∃ t, o = some (treeMode, t) ∧ Reaches read t rest s := by
  have hsplit : d ++ n :: rest = d ++ [n] ++ rest := List.append_cons d n rest
  have hne : d ++ [n] ≠ [] := by simp
  have hmem := hspine.mem_iff hparents hne
  rw [hsplit] at hs hfree hclear
  cases h with
  | child r hn hr =>
    have hrest : rest ≠ [] := by
      rintro rfl
      obtain ⟨p, hp, hpre⟩ := hmem.mp hn
      rw [List.append_nil] at hfree
      exact hfree p hp (prefix_parts_iff.mpr (.inr hpre))
    obtain ⟨t, rfl, ht⟩ := hr.kept rest s hrest hs hfree hclear
    exact ⟨t, rfl, ht⟩
  | changed p c hn hp hc =>
    have hpk : p ∈ assembled.keys := Table.mem_keys_iff.mpr ⟨c, hc⟩
    have := hclear p hpk (hp ▸ List.prefix_append _ _)
    rw [hp] at this
    exact absurd (hmem.mpr this) hn
  | other hn hno =>
    obtain ⟨t, ht, hrest⟩ := reaches_append_iff.mp hs
    rcases hspine.listing d l hl with hlist | ⟨-, hnohead, -, -⟩
    · exact ⟨t, (hlist.tree_iff hwf).mpr ht, hrest⟩
    · obtain ⟨t', ht', -⟩ := reaches_append_iff.mp ht
      exact absurd ⟨t', ht'⟩ hnohead

/-- Name by name, the names are plain and the subdirectories are well formed. -/
theorem EntryCase.wellFormed {d : Dir} {l : Listing σ} (hl : spine.get d = some l) {n : PyStr}
    {m : Nat} {s : σ} (h : EntryCase read head assembled spine l d n (some (m, s))) :
    PlainName n ∧ (m = treeMode → WellFormed read s ∧ read s ≠ some []) := by
  have hne : d ++ [n] ≠ [] := by simp
  generalize ho : some (m, s) = o at h
  cases h with
  | child r hn hr =>
    obtain ⟨sha, rfl, heq⟩ := Option.map_eq_some_iff.mp ho.symm
    cases heq
    obtain ⟨p, hp, hpre⟩ := (hspine.mem_iff hparents hne).mp hn
    refine ⟨p.plain n (List.mem_append_left _ (hpre.subset (by simp))), fun _ => ?_⟩
    obtain ⟨hsha, hsub⟩ := hr.wellFormed s rfl
    exact ⟨hsha, hsub hne⟩
  | changed p c hn hp hc =>
    have hname : p.name = n := (List.cons.inj (List.append_inj' hp rfl).2).1
    refine ⟨p.plain n (by simp [hname]), fun hmode => ?_⟩
    cases c with
    | absent => cases ho
    | set m' s' =>
      cases ho
      exact absurd hmode (hmodes p m s hc)
  | other hn hno =>
    rcases hspine.listing d l hl with hlist | ⟨rfl, -⟩
    · constructor
      · obtain ⟨t, es, ht, hes, rfl⟩ := hlist
        cases hwf.of_reaches ht with
        | mk hes' hok _ _ =>
          rw [hes] at hes'
          cases hes'
          obtain ⟨e, he, rfl, -⟩ := (get_parseTreeEntries hok).mp ho.symm
          exact plainName_text (hok.plain e he)
      · rintro rfl
        have hreach := (hlist.tree_iff hwf).mp ho.symm
        exact ⟨hwf.of_reaches hreach, hwf.read_ne_nil hreach hne⟩
    · cases ho

/-- One directory of the loop. -/
theorem rewriteDir_ok {hash : List (TreeEntry σ) → σ} (hread : ∀ es, read (hash es) = some es)
    {d : Dir} (hd : d ∈ spine.keys) {children : List (Dir × Option σ)} {r : Option σ}
    (h : BottomUp.Children (Rewritten read head assembled) spine.keys d children)
    (hok : rewriteDir hash spine (dirLeafChanges assembled) d children = .ok r) :
    Rewritten read head assembled d r := by
  obtain ⟨l, hl⟩ := Table.mem_keys_iff.mp hd
  have hcase := entryCase_foldl hl h
  rw [rewriteDir] at hok
  generalize children.foldl mergeChild ((((dirLeafChanges assembled).get d).getD ∅).entries.foldl
    applyChange ((spine.get d).getD ∅)) = entries at hok hcase
  have hfiles := fun n rest v => (hcase n).files hwf hspine hparents hmodes hl rest v
  have hkept := fun n rest s (hs : Reaches read head (d ++ n :: rest) s) hfree hclear =>
    EntryCase.kept hwf hspine hparents hl (hcase n) hs hfree hclear
  have hsub : ∀ n m s, entries.get n = some (m, s) →
      PlainName n ∧ (m = treeMode → WellFormed read s ∧ read s ≠ some []) := by
    intro n m s hget
    exact EntryCase.wellFormed hwf hspine hparents hmodes hl (hget ▸ hcase n)
  split_ifs at hok with hempty
  · cases hok
    have hnone : ∀ n, entries.get n = none := by
      intro n
      rw [Table.get_eq_none_iff, Table.keys, hempty.1]
      exact List.not_mem_nil
    refine ⟨fun _ rest v hrest hres => ?_, fun _ h => (by cases h), fun _ h => (by cases h),
      fun rest s hrest hs hfree hclear => ?_⟩
    · obtain ⟨n, rest, rfl⟩ := List.exists_cons_of_ne_nil hrest
      obtain ⟨m, s, hget, -⟩ := (hfiles n rest v).mpr hres
      rw [hnone] at hget
      cases hget
    · obtain ⟨n, rest, rfl⟩ := List.exists_cons_of_ne_nil hrest
      obtain ⟨t, hget, -⟩ := hkept n rest s hs hfree hclear
      rw [hnone] at hget
      cases hget
  · obtain ⟨sha, hwrite, hr⟩ := except_map_eq_ok.mp hok
    subst hr
    have hplain : ∀ n ∈ entries.keys, PlainName n := by
      intro n hn
      obtain ⟨⟨m, s⟩, hget⟩ := Table.mem_keys_iff.mp hn
      exact (hsub n m s hget).1
    obtain ⟨lines, rfl, htree, hnil, hget⟩ := writeTreeLevel_ok hplain hwrite
    have hentry : ∀ e ∈ lines, entries.get e.text = some (e.mode, e.sha) := fun e he =>
      (hget _ _ _).mp ⟨e, he, rfl, rfl, rfl⟩
    refine ⟨fun h => (by cases h), fun sha hsha rest v hrest => ?_, fun sha hsha => ?_,
      fun rest s hrest hs hfree hclear => ?_⟩
    · cases hsha
      obtain ⟨n, rest, rfl⟩ := List.exists_cons_of_ne_nil hrest
      rw [← hfiles, at_cons_iff, hread]
      constructor
      · rintro ⟨es, hes, e, he, rfl, hor⟩
        cases hes
        exact ⟨e.mode, e.sha, hentry e he, hor⟩
      · rintro ⟨m, s, hs, hor⟩
        obtain ⟨e, he, htext, rfl, rfl⟩ := (hget _ _ _).mpr hs
        exact ⟨lines, rfl, e, he, htext, hor⟩
    · cases hsha
      refine ⟨.mk (hread lines) htree (fun e he hmode => ?_) (fun e he hmode => ?_), fun hdne => ?_⟩
      · exact ((hsub _ _ _ (hentry e he)).2 hmode).1
      · exact ((hsub _ _ _ (hentry e he)).2 hmode).2
      · rw [hread, ne_eq, Option.some.injEq, hnil]
        exact fun hemp => hempty ⟨hemp, hdne⟩
    · obtain ⟨n, rest, rfl⟩ := List.exists_cons_of_ne_nil hrest
      obtain ⟨t, hgett, ht⟩ := hkept n rest s hs hfree hclear
      obtain ⟨e, he, htext, hmode, rfl⟩ := (hget _ _ _).mpr hgett
      exact ⟨_, rfl, reaches_cons_iff.mpr ⟨lines, hread lines, e, he, htext, hmode, ht⟩⟩

end

/-- The root that `_rewrite_head_spine` returns, whichever way it got its spine. -/
theorem rewriteHeadSpine_ok {hash : List (TreeEntry σ) → σ}
    (hread : ∀ es, read (hash es) = some es) (hwf : WellFormed read head)
    (hmodes : ∀ p m s, assembled.get p = some (.set m s) → m ≠ treeMode) {spine : Spine σ}
    (hspine : SpineOk read head assembled spine) {root : σ}
    (hok : rewriteHeadSpine hash spine assembled = .ok (some root)) :
    Rewritten read head assembled [] (some root) ∧
      ∀ p ∈ assembled.keys, ∀ d, d <+: p.parent → d = [] ∨ InHead read head d ∨
        Creates assembled d := by
  rw [rewriteHeadSpine] at hok
  dsimp only at hok
  have hmissing : ¬∃ d ∈ (dirLeafChanges assembled).keys, spine.get d = none := by
    intro hex
    rw [if_pos hex] at hok
    cases hok
  rw [if_neg hmissing] at hok
  obtain ⟨subtrees, hfold, hroot⟩ := except_bind_eq_ok.mp hok
  -- the directory of each change is on the spine
  have hparents : ∀ p ∈ assembled.keys, p.parent ∈ spine.keys := by
    intro p hp
    by_contra hno
    exact hmissing ⟨p.parent, mem_keys_dirLeafChanges.mpr ⟨p, hp, rfl⟩,
      Table.get_eq_none_iff.mpr hno⟩
  have hperm := List.perm_insertionSort (fun a b : Dir => b.length ≤ a.length) spine.keys
  have hsorted := List.pairwise_insertionSort (fun a b : Dir => b.length ≤ a.length) spine.keys
  generalize spine.keys.insertionSort (fun a b : Dir => b.length ≤ a.length) = nodes
    at hfold hperm hsorted
  -- directories are rewritten below first: when one is due its children are done
  have hstep : ∀ d ∈ nodes, ∀ children r,
      BottomUp.Children (Rewritten read head assembled) nodes d children →
      rewriteDir hash spine (dirLeafChanges assembled) d children = .ok r →
      Rewritten read head assembled d r := by
    intro d hd children r hch hdir
    refine rewriteDir_ok hwf hspine hparents hmodes hread (hperm.mem_iff.mp hd)
      ⟨fun c v hcv => ?_, fun n hn => hch.all n (hperm.mem_iff.mpr hn), hch.nodup⟩ hdir
    obtain ⟨n, hn, hin, hgood⟩ := hch.below c v hcv
    exact ⟨n, hn, hperm.mem_iff.mp hin, hgood⟩
  obtain ⟨r, hr, hgood⟩ := BottomUp.pass_spec (hperm.nodup_iff.mpr spine.nodup) hsorted hstep
    hfold (hperm.mem_iff.mpr hspine.root)
  have hroot := Except.ok.inj hroot
  rw [hr] at hroot
  obtain rfl : r = some root := hroot
  refine ⟨hgood, fun p hp d hd => ?_⟩
  obtain ⟨l, hl⟩ := Table.mem_keys_iff.mp (hspine.of_prefix hd (hparents p hp))
  rcases hspine.listing d l hl with ⟨s, -, hs, -⟩ | ⟨-, -, -, hcr⟩
  · exact .inr (.inl ⟨s, hs⟩)
  · exact .inr (.inr hcr)

/-- The spine of a call, read from the head and filled. -/
theorem spineOk_filled (hwf : WellFormed read head) {spine : Spine σ}
    (hspine : SpineOk read head assembled spine) :
    SpineOk read head assembled (synthesizeAbsentSpineDirs assembled.entries spine).1 :=
  spineOk_synthesize hwf (fun _ he => Table.get_eq_some_iff.mpr he) hspine

/-- The root that a rewrite of the head returns. -/
theorem rewriteHead_ok {hash : List (TreeEntry σ) → σ} (hread : ∀ es, read (hash es) = some es)
    (hwf : WellFormed read head) (hmodes : ∀ p m s, assembled.get p = some (.set m s) → m ≠ treeMode)
    {root : σ} (hok : rewriteHead read hash head assembled = .ok (some root)) :
    Rewritten read head assembled [] (some root) ∧
      ∀ p ∈ assembled.keys, ∀ d, d <+: p.parent → d = [] ∨ InHead read head d ∨
        Creates assembled d := by
  rw [rewriteHead] at hok
  cases hspine : readTreeSpine read head assembled.keys with
  | none =>
    rw [hspine] at hok
    cases hok
  | some spine =>
    rw [hspine] at hok
    exact rewriteHeadSpine_ok hread hwf hmodes
      (spineOk_filled hwf (spineOk_readTreeSpine hwf hspine)) hok

end Git

end CoordinatorCore
