import CoordinatorCore.Machine.EditScript
import CoordinatorCore.Text.ByteLines

/-!
# A row's delta on the bytes of `HEAD`

`apply_own_delta` of `git/own_delta_merge.py`: the edits from `pre` to `post` and those from `pre`
to `head` are carried out together, line by line. The line matcher is a parameter, of which
`IsOpcodes` says what is known: its opcodes cover both lists from front to back, those tagged
`equal` cover equal lines, and no two others stand side by side.

The lines are joined without a look at their ends. Where edits of the two sides touch, a last line
without a line feed may come to stand in front of another line, and a carriage return in front of a
line feed; `keepsBoth_iff` says that this is all that can go wrong.
-/

namespace CoordinatorCore

namespace Git

namespace OwnDelta

open ByteLines EditScript

/-! ### The line matcher -/

/-- The tags of `difflib`. -/
inductive Tag
  | equal
  | replace
  | delete
  | insert
deriving DecidableEq

/-- An opcode: `base[i1:i2]` becomes `other[j1:j2]`. -/
structure Opcode where
  tag : Tag
  i1 : ℕ
  i2 : ℕ
  j1 : ℕ
  j2 : ℕ

/-- `l[i:j]`. -/
def slice {α : Type*} (l : List α) (i j : ℕ) : List α := (l.take j).drop i

/-- The opcodes of two lists from `i` and `j` on; `changed` says that a change stands in front. -/
inductive IsOpcodes {α : Type*} (base other : List α) : Bool → ℕ → ℕ → List Opcode → Prop
  | done {changed : Bool} : IsOpcodes base other changed base.length other.length []
  | equal {changed : Bool} {i i' j j' : ℕ} {ops : List Opcode} : i < i' → j < j' →
      slice base i i' = slice other j j' → IsOpcodes base other false i' j' ops →
      IsOpcodes base other changed i j (⟨.equal, i, i', j, j'⟩ :: ops)
  | change {tag : Tag} {i i' j j' : ℕ} {ops : List Opcode} : tag ≠ .equal → i ≤ i' → j ≤ j' →
      IsOpcodes base other true i' j' ops →
      IsOpcodes base other false i j (⟨tag, i, i', j, j'⟩ :: ops)

/-- A line matcher: `SequenceMatcher(None, base, other).get_opcodes()`. -/
abbrev Matcher := List Bytes → List Bytes → List Opcode

/-- Its opcodes are correct. -/
def Matcher.Correct (M : Matcher) : Prop :=
  ∀ base other, IsOpcodes base other false 0 0 (M base other)

/-! ### The source -/

def maxMergeLines : ℕ := 2000

/-- `_edits`. -/
def edits (M : Matcher) (base other : List Bytes) : List (Edit Bytes) :=
  ((M base other).filter fun op => op.tag ≠ .equal).map fun op =>
    ⟨op.i1, op.i2, slice other op.j1 op.j2⟩

/-- `_collide`. -/
def collide (a b : Edit Bytes) : Bool :=
  if a.start = a.stop ∧ b.start = b.stop then a.start = b.start
  else if a.start = a.stop then b.start < a.start ∧ a.start < b.stop
  else if b.start = b.stop then a.start < b.start ∧ b.start < a.stop
  else a.start < b.stop ∧ b.start < a.stop

/-- The loop over our edits. -/
def mergeOurs (theirs : List (Edit Bytes)) :
    List (Edit Bytes) → List (Edit Bytes) → Option (List (Edit Bytes))
  | merged, [] => some merged
  | merged, o :: ours =>
    if o ∈ theirs then mergeOurs theirs merged ours
    else if theirs.any (collide o) then none
    else mergeOurs theirs (merged ++ [o]) ours

/-- The order of the keys `(e[0], e[1])`. -/
def keyLE (a b : Edit Bytes) : Prop := a.start < b.start ∨ a.start = b.start ∧ a.stop ≤ b.stop

instance : DecidableRel keyLE := fun a b =>
  inferInstanceAs (Decidable (a.start < b.start ∨ a.start = b.start ∧ a.stop ≤ b.stop))

/-- The loop over the sorted edits, with the lines that `out` gets. -/
def putOut (base : List Bytes) : ℕ → List (Edit Bytes) → List Bytes → List Bytes
  | pos, [], out => out ++ base.drop pos
  | pos, e :: es, out => putOut base e.stop es (out ++ slice base pos e.start ++ e.lines)

/-- A text is above the cap. -/
def overCap (b : Bytes) : Bool := maxMergeLines < (splitlinesKeep b).length

/-- `apply_own_delta`. -/
def applyOwnDelta (M : Matcher) (pre post head : Bytes) : Option Bytes :=
  if pre = head then some post
  else if pre = post then some head
  else if [pre, post, head].any overCap then none
  else
    let base := splitlinesKeep pre
    let ours := edits M base (splitlinesKeep post)
    let theirs := edits M base (splitlinesKeep head)
    (mergeOurs theirs theirs ours).map fun merged =>
      (putOut base 0 (merged.insertionSort keyLE) []).flatten

/-! ### What is promised -/

/-- The edits of a side; nothing is matched when the side is `pre` itself. -/
def sideEdits (M : Matcher) (pre other : Bytes) : List (Edit Bytes) :=
  if pre = other then [] else edits M (splitlinesKeep pre) (splitlinesKeep other)

/-- An edit of `post` and another one of `head` are in each other's way. -/
def Collision (M : Matcher) (pre post head : Bytes) : Prop :=
  ∃ o ∈ sideEdits M pre post, ∃ t ∈ sideEdits M pre head, o ≠ t ∧ Conflict o t

/-- Both sides are kept, or the merge is refused. -/
structure KeepsBoth (M : Matcher) (pre post head : Bytes) : Prop where
  kept : ∀ content, applyOwnDelta M pre post head = some content →
    ∃ m, InOrder (sideEdits M pre post) (sideEdits M pre head) m ∧
      splitlinesKeep content = realize (splitlinesKeep pre) 0 m
  lines : ∀ content, applyOwnDelta M pre post head = some content →
    ∀ e, e ∈ sideEdits M pre post ∨ e ∈ sideEdits M pre head →
      e.lines <:+: splitlinesKeep content
  refused : applyOwnDelta M pre post head = none →
    [pre, post, head].any overCap = true ∨ Collision M pre post head
  onto_pre : applyOwnDelta M pre post pre = some post
  of_pre : applyOwnDelta M pre pre head = some head
  swap : ∀ content content', applyOwnDelta M pre post head = some content →
    applyOwnDelta M pre head post = some content' → content = content'

/-- Where edits of the two sides touch, each line ends before the next begins. -/
def Seams (M : Matcher) (pre post head : Bytes) : Prop :=
  ∀ m, InOrder (sideEdits M pre post) (sideEdits M pre head) m → ∀ run, Run m run →
    2 ≤ run.length → (around (splitlinesKeep pre) run).IsChain Apart

/-! ### The edits of a side -/

section Opcodes

variable {α : Type*} {base other : List α}

/-- What is known of the edits from `i` and `j` on. -/
structure Covers (base other : List α) (changed : Bool) (i j : ℕ) (es : List (Edit α)) :
    Prop where
  i_le : i ≤ base.length
  j_le : j ≤ other.length
  within : ∀ e ∈ es, e.Within base.length
  le_start : ∀ e ∈ es, i ≤ e.start ∧ (changed = true → i < e.start)
  apart : es.Pairwise fun a b => a.stop < b.start
  realize_eq : realize base i es = other.drop j

/-- A list from a place on is a slice and the rest. -/
theorem drop_eq_slice_append {i i' : ℕ} (h : i ≤ i') (l : List α) :
    l.drop i = slice l i i' ++ l.drop i' := by
  rw [slice, List.drop_take]
  nth_rewrite 1 [← List.take_append_drop (i' - i) (l.drop i)]
  rw [List.drop_drop, Nat.add_sub_cancel' h]

/-- Lines that stay, in front of the first edit. -/
theorem realize_from {i i' : ℕ} {es : List (Edit α)} (h : i ≤ i') (hes : ∀ e ∈ es, i' ≤ e.start) :
    realize base i es = slice base i i' ++ realize base i' es := by
  cases es with
  | nil => exact drop_eq_slice_append h base
  | cons e es =>
    have hle := hes e List.mem_cons_self
    rw [realize, realize, drop_eq_slice_append h, slice, slice, List.take_take, min_eq_left hle]
    simp only [List.append_assoc]

/-- The edits among opcodes. -/
def editsOf (other : List α) (ops : List Opcode) : List (Edit α) :=
  (ops.filter fun op => op.tag ≠ .equal).map fun op => ⟨op.i1, op.i2, slice other op.j1 op.j2⟩

/-- Opcodes cover both lists. -/
theorem IsOpcodes.covers {changed : Bool} {i j : ℕ} {ops : List Opcode}
    (h : IsOpcodes base other changed i j ops) :
    Covers base other changed i j (editsOf other ops) := by
  induction h with
  | done =>
    refine ⟨le_rfl, le_rfl, by simp [editsOf], by simp [editsOf], List.Pairwise.nil, ?_⟩
    rw [List.drop_length]
    exact List.drop_length
  | @equal changed i i' j j' ops hi hj heq _ ih =>
    have hes : editsOf other (⟨.equal, i, i', j, j'⟩ :: ops) = editsOf other ops := by
      simp [editsOf]
    rw [hes]
    refine ⟨hi.le.trans ih.i_le, hj.le.trans ih.j_le, ih.within, fun e he => ?_, ih.apart, ?_⟩
    · have := (ih.le_start e he).1
      exact ⟨hi.le.trans this, fun _ => hi.trans_le this⟩
    · rw [realize_from hi.le fun e he => (ih.le_start e he).1, ih.realize_eq, heq,
        ← drop_eq_slice_append hj.le]
  | @change tag i i' j j' ops htag hi hj _ ih =>
    have hes : editsOf other (⟨tag, i, i', j, j'⟩ :: ops) =
        ⟨i, i', slice other j j'⟩ :: editsOf other ops := by
      simp [editsOf, htag]
    rw [hes]
    refine ⟨hi.trans ih.i_le, hj.trans ih.j_le, ?_, ?_, ?_, ?_⟩
    · exact List.forall_mem_cons.mpr ⟨⟨hi, ih.i_le⟩, ih.within⟩
    · refine List.forall_mem_cons.mpr ⟨⟨le_rfl, fun h => absurd h Bool.false_ne_true⟩, ?_⟩
      exact fun e he => ⟨hi.trans (ih.le_start e he).1, fun h => absurd h Bool.false_ne_true⟩
    · exact List.pairwise_cons.mpr ⟨fun e he => (ih.le_start e he).2 rfl, ih.apart⟩
    · have hgap : (base.take i).drop i = [] :=
        List.drop_eq_nil_of_le (List.length_take_le _ _)
      rw [realize, ih.realize_eq, hgap, List.nil_append, ← drop_eq_slice_append hj]

end Opcodes

variable {M : Matcher}

/-- The edits of a correct matcher are a script. -/
theorem script_edits (hM : M.Correct) (base other : List Bytes) :
    Script base other (edits M base other) := by
  have h := (hM base other).covers
  exact ⟨h.within, h.apart, h.realize_eq⟩

/-- The edits of a side are a script on the lines before it. -/
theorem script_sideEdits (hM : M.Correct) (pre other : Bytes) :
    Script (splitlinesKeep pre) (splitlinesKeep other) (sideEdits M pre other) := by
  rw [sideEdits]
  split_ifs with h
  · rw [h]
    exact ⟨by simp, List.Pairwise.nil, rfl⟩
  · exact script_edits hM _ _

/-! ### The loops -/

/-- On edits whose ends are in order, the test finds the conflicts. -/
theorem collide_iff {a b : Edit Bytes} (ha : a.start ≤ a.stop) (hb : b.start ≤ b.stop) :
    collide a b = true ↔ Conflict a b := by
  rw [collide, Conflict]
  constructor
  · intro h
    split_ifs at h with hboth hains hbins
    · exact .inr (.inl ⟨hboth.1, hboth.2, by simpa using h⟩)
    · exact .inr (.inr (.inl ⟨hains, by simpa using h⟩))
    · exact .inr (.inr (.inr ⟨hbins, by simpa using h⟩))
    · simp only [Bool.decide_and, Bool.and_eq_true, decide_eq_true_eq] at h
      exact .inl ⟨max a.start b.start, ⟨by omega, by omega⟩, by omega, by omega⟩
  · rintro (⟨i, hia, hib⟩ | h | h | h)
    · split_ifs with hboth hains hbins
      · omega
      · omega
      · omega
      · simp
        omega
    · rw [if_pos ⟨h.1, h.2.1⟩]
      simpa using h.2.2
    · rw [if_neg (by omega), if_pos h.1]
      simpa using h.2
    · rw [if_neg (by omega), if_neg (by omega), if_pos h.1]
      simpa using h.2

/-- The loop gives up at the first of our edits that collides with one of theirs. -/
theorem mergeOurs_eq_none_iff {theirs merged ours : List (Edit Bytes)} :
    mergeOurs theirs merged ours = none ↔
      ∃ o ∈ ours, o ∉ theirs ∧ ∃ t ∈ theirs, collide o t = true := by
  induction ours generalizing merged with
  | nil => simp [mergeOurs]
  | cons o ours ih =>
    rw [mergeOurs]
    split_ifs with hmem hany
    · rw [ih]
      simp [hmem]
    · refine iff_of_true rfl ⟨o, List.mem_cons_self, hmem, ?_⟩
      exact List.any_eq_true.mp hany
    · rw [ih]
      constructor
      · rintro ⟨o', ho', h⟩
        exact ⟨o', List.mem_cons_of_mem o ho', h⟩
      · rintro ⟨o', ho', hout, hcol⟩
        obtain rfl | ho' := List.mem_cons.mp ho'
        · exact absurd (List.any_eq_true.mpr hcol) hany
        · exact ⟨o', ho', hout, hcol⟩

/-- Otherwise it adds those of our edits that are not theirs. -/
theorem mergeOurs_eq_some {theirs merged ours r : List (Edit Bytes)}
    (h : mergeOurs theirs merged ours = some r) :
    r = merged ++ ours.filter fun o => o ∉ theirs := by
  induction ours generalizing merged with
  | nil =>
    obtain rfl : merged = r := by simpa [mergeOurs] using h
    exact (List.append_nil merged).symm
  | cons o ours ih =>
    rw [mergeOurs] at h
    split_ifs at h with hmem hany
    · rw [ih h]
      simp [hmem]
    · rw [ih h]
      simp [hmem]

/-- The merged lines are the base with the edits realized. -/
theorem putOut_eq (base : List Bytes) (pos : ℕ) (es : List (Edit Bytes)) (out : List Bytes) :
    putOut base pos es out = out ++ realize base pos es := by
  induction es generalizing pos out with
  | nil => rfl
  | cons e es ih =>
    rw [putOut, ih, realize, slice]
    simp only [List.append_assoc]

/-! ### Both sides in one order -/

section Merge

variable {base post head : List Bytes} {ours theirs : List (Edit Bytes)}

/-- The loop gives up for a conflict, and for nothing else. -/
theorem mergeOurs_eq_none_iff_conflict (ho : Script base post ours) (ht : Script base head theirs)
    (merged : List (Edit Bytes)) :
    mergeOurs theirs merged ours = none ↔ ∃ o ∈ ours, ∃ t ∈ theirs, o ≠ t ∧ Conflict o t := by
  rw [mergeOurs_eq_none_iff]
  constructor
  · rintro ⟨o, hoo, hout, t, htt, hcol⟩
    refine ⟨o, hoo, t, htt, ?_, ?_⟩
    · rintro rfl
      exact hout htt
    · exact (collide_iff (ho.within o hoo).start_le (ht.within t htt).start_le).mp hcol
  · rintro ⟨o, hoo, t, htt, hne, hconf⟩
    refine ⟨o, hoo, fun hot => ht.not_conflict hot htt hne hconf, t, htt, ?_⟩
    exact (collide_iff (ho.within o hoo).start_le (ht.within t htt).start_le).mpr hconf

/-- The sort brings the edits of both sides in order. -/
theorem inOrder_sort (ho : Script base post ours) (ht : Script base head theirs)
    (hc : ¬ ∃ o ∈ ours, ∃ t ∈ theirs, o ≠ t ∧ Conflict o t) :
    InOrder ours theirs
      ((theirs ++ ours.filter fun o => o ∉ theirs).insertionSort keyLE) := by
  have hperm := List.perm_insertionSort keyLE (theirs ++ ours.filter fun o => o ∉ theirs)
  have hnodup : (theirs ++ ours.filter fun o => o ∉ theirs).Nodup := by
    refine List.Nodup.append ht.nodup (ho.nodup.filter _) fun e het heo => ?_
    exact absurd het (by simpa using (List.mem_filter.mp heo).2)
  have hmem : ∀ e, e ∈ (theirs ++ ours.filter fun o => o ∉ theirs).insertionSort keyLE ↔
      e ∈ ours ∨ e ∈ theirs := by
    intro e
    rw [hperm.mem_iff, List.mem_append, List.mem_filter]
    by_cases het : e ∈ theirs <;> simp [het]
  have htotal : Std.Total keyLE := ⟨fun a b => by unfold keyLE; omega⟩
  have htrans : IsTrans (Edit Bytes) keyLE := ⟨fun a b c hab hbc => by unfold keyLE at *; omega⟩
  refine ⟨hmem, hperm.nodup_iff.mpr hnodup, ?_⟩
  have hsorted := List.pairwise_insertionSort keyLE (theirs ++ ours.filter fun o => o ∉ theirs)
  refine (hsorted.and (hperm.nodup_iff.mpr hnodup)).imp_of_mem fun {a b} ha hb h => ?_
  have hb' := ((hmem b).mp hb).elim (fun h => (ho.within b h).start_le)
    fun h => (ht.within b h).start_le
  refine stop_le_of_not_conflict hb' h.1 fun hab => ?_
  rcases (hmem a).mp ha with hao | hat <;> rcases (hmem b).mp hb with hbo | hbt
  · exact ho.not_conflict hao hbo h.2 hab
  · exact hc ⟨a, hao, b, hbt, h.2, hab⟩
  · exact hc ⟨b, hbo, a, hat, Ne.symm h.2, hab.symm⟩
  · exact ht.not_conflict hat hbt h.2 hab

end Merge

/-! ### The merge -/

/-- Above the cap nothing is merged. -/
theorem eq_of_overCap {pre post head content : Bytes}
    (hcap : [pre, post, head].any overCap = true)
    (h : applyOwnDelta M pre post head = some content) : pre = head ∨ pre = post := by
  rw [applyOwnDelta, if_pos hcap] at h
  split_ifs at h with hhead hpost
  · exact .inl hhead
  · exact .inr hpost

section Law

variable (hM : M.Correct) {pre post head content : Bytes}

include hM

/-- What the merge gives. -/
theorem applyOwnDelta_eq_some (h : applyOwnDelta M pre post head = some content) :
    ¬ Collision M pre post head ∧
      ∃ m, InOrder (sideEdits M pre post) (sideEdits M pre head) m ∧
        content = (realize (splitlinesKeep pre) 0 m).flatten := by
  have ho := script_sideEdits hM pre post
  have ht := script_sideEdits hM pre head
  rw [applyOwnDelta] at h
  split_ifs at h with hhead hpost hcap
  · have hnil : sideEdits M pre head = [] := by rw [sideEdits, if_pos hhead]
    rw [Collision, hnil]
    refine ⟨by simp, sideEdits M pre post, ho.inOrder, ?_⟩
    rw [ho.realize_eq, flatten_splitlinesKeep, Option.some.inj h]
  · have hnil : sideEdits M pre post = [] := by rw [sideEdits, if_pos hpost]
    rw [Collision, hnil]
    refine ⟨by simp, sideEdits M pre head, ht.inOrder.symm, ?_⟩
    rw [ht.realize_eq, flatten_splitlinesKeep, Option.some.inj h]
  · have hours : sideEdits M pre post = edits M (splitlinesKeep pre) (splitlinesKeep post) := by
      rw [sideEdits, if_neg hpost]
    have htheirs : sideEdits M pre head = edits M (splitlinesKeep pre) (splitlinesKeep head) := by
      rw [sideEdits, if_neg hhead]
    rw [Collision]
    simp only [← hours, ← htheirs] at h
    obtain ⟨merged, hmerged, rfl⟩ := Option.map_eq_some_iff.mp h
    have hcol : ¬ ∃ o ∈ sideEdits M pre post, ∃ t ∈ sideEdits M pre head,
        o ≠ t ∧ Conflict o t := by
      rw [← mergeOurs_eq_none_iff_conflict ho ht (sideEdits M pre head), hmerged]
      exact Option.some_ne_none merged
    refine ⟨hcol, _, inOrder_sort ho ht hcol, ?_⟩
    rw [mergeOurs_eq_some hmerged, putOut_eq, List.nil_append]

/-- Why the merge is refused. -/
theorem applyOwnDelta_eq_none (h : applyOwnDelta M pre post head = none) :
    [pre, post, head].any overCap = true ∨ Collision M pre post head := by
  rw [applyOwnDelta] at h
  split_ifs at h with hhead hpost hcap
  · exact .inl hcap
  · right
    rw [Collision, sideEdits, sideEdits, if_neg hhead, if_neg hpost]
    exact (mergeOurs_eq_none_iff_conflict (script_edits hM _ _) (script_edits hM _ _) _).mp
      (Option.map_eq_none_iff.mp h)

/-- The lines of the result are those of the merge when all of them end before the next begins. -/
theorem kept_iff {m : List (Edit Bytes)}
    (hm : InOrder (sideEdits M pre post) (sideEdits M pre head) m) :
    splitlinesKeep (realize (splitlinesKeep pre) 0 m).flatten = realize (splitlinesKeep pre) 0 m ↔
      ∀ run, Run m run → 2 ≤ run.length → (around (splitlinesKeep pre) run).IsChain Apart := by
  have ho := script_sideEdits hM pre post
  have ht := script_sideEdits hM pre head
  have hin : ∀ e ∈ m, e.Within (splitlinesKeep pre).length := fun e he =>
    ((hm.mem_iff e).mp he).elim (ho.within e) (ht.within e)
  have hlines : ∀ l ∈ realize (splitlinesKeep pre) 0 m, IsLine l := by
    intro l hl
    obtain hl | ⟨e, he, hl⟩ := mem_or_of_mem_realize hl
    · exact isLine_of_mem hl
    · obtain he | he := (hm.mem_iff e).mp he
      · refine isLine_of_mem (s := post) ?_
        rw [← ho.realize_eq]
        exact (lines_infix_realize he _ 0).subset hl
      · refine isLine_of_mem (s := head) ?_
        rw [← ht.realize_eq]
        exact (lines_infix_realize he _ 0).subset hl
  rw [splitlinesKeep_flatten_iff hlines,
    isChain_realize_iff (isChain_splitlinesKeep pre) hin hm.before]
  refine ⟨fun h run hrun _ => h run hrun, fun h run hrun => ?_⟩
  by_cases hlen : 2 ≤ run.length
  · exact h run hrun hlen
  · -- an edit by itself stands in its own side's text
    obtain ⟨p, q, hcut, hne, -⟩ := hrun
    obtain ⟨a, g, rfl⟩ := List.exists_cons_of_ne_nil hne
    obtain rfl : g = [] := by
      rw [List.length_cons] at hlen
      exact List.eq_nil_of_length_eq_zero (by omega)
    obtain ha | ha := (hm.mem_iff a).mp (by rw [hcut]; simp)
    · exact ho.isChain_around ha (isChain_splitlinesKeep post)
    · exact ht.isChain_around ha (isChain_splitlinesKeep head)

/-- There is one order of the edits of both sides, unless two of them are in each other's way. -/
theorem inOrder_unique (hc : ¬ Collision M pre post head) {m m' : List (Edit Bytes)}
    (hm : InOrder (sideEdits M pre post) (sideEdits M pre head) m)
    (hm' : InOrder (sideEdits M pre post) (sideEdits M pre head) m') : m = m' :=
  hm.unique (script_sideEdits hM pre post) (script_sideEdits hM pre head)
    (fun o ho t ht hne hconf => hc ⟨o, ho, t, ht, hne, hconf⟩) hm'

/-- Where one side is `pre` itself, no edits of two sides touch. -/
theorem seams_of_eq (h : pre = head ∨ pre = post) : Seams M pre post head := by
  intro m hm
  have ho := script_sideEdits hM pre post
  have ht := script_sideEdits hM pre head
  rw [← kept_iff hM hm]
  obtain h | h := h
  · have hnil : sideEdits M pre head = [] := by rw [sideEdits, if_pos h]
    rw [hnil] at hm
    have hone := hm.unique ho (hnil ▸ ht) (by simp) ho.inOrder
    rw [hone, ho.realize_eq, flatten_splitlinesKeep]
  · have hnil : sideEdits M pre post = [] := by rw [sideEdits, if_pos h]
    rw [hnil] at hm
    have hone := hm.unique (hnil ▸ ho) ht (by simp) ht.inOrder.symm
    rw [hone, ht.realize_eq, flatten_splitlinesKeep]

/-- Both orders of the sides give the same bytes. -/
theorem applyOwnDelta_swap {content' : Bytes} (h : applyOwnDelta M pre post head = some content)
    (h' : applyOwnDelta M pre head post = some content') : content = content' := by
  obtain ⟨hc, m, hm, rfl⟩ := applyOwnDelta_eq_some hM h
  obtain ⟨-, m', hm', rfl⟩ := applyOwnDelta_eq_some hM h'
  rw [inOrder_unique hM hc hm hm'.symm]

/-- Where no edits of the two sides touch there is nothing to see to. -/
theorem seams_of_not_touch (h : ∀ o ∈ sideEdits M pre post, ∀ t ∈ sideEdits M pre head,
    ¬ Touch o t ∧ ¬ Touch t o) : Seams M pre post head := by
  rintro m hm run ⟨p, q, rfl, -, hrun, -⟩ hlen
  have ho := script_sideEdits hM pre post
  have ht := script_sideEdits hM pre head
  obtain ⟨a, b, g, rfl⟩ : ∃ a b g, run = a :: b :: g := by
    match run, hlen with
    | a :: b :: g, _ => exact ⟨a, b, g, rfl⟩
  have htouch := (List.isChain_cons_cons.mp hrun).1
  have hne : a ≠ b := by
    have := hm.nodup
    rw [List.append_assoc] at this
    have := (List.nodup_append.mp this).2.1
    simp at this
    exact this.1.1
  have ha := (hm.mem_iff a).mp (by simp)
  have hb := (hm.mem_iff b).mp (by simp)
  obtain ha | ha := ha <;> obtain hb | hb := hb
  · exact absurd htouch (ho.not_touch ha hb hne)
  · exact absurd htouch (h a ha b hb).1
  · exact absurd htouch (h b hb a ha).2
  · exact absurd htouch (ht.not_touch ha hb hne)

/-- **The merge keeps both sides or refuses**, but where edits of the two sides touch and a line
there does not end before the next begins. -/
theorem keepsBoth_iff (pre post head : Bytes) :
    KeepsBoth M pre post head ↔
      [pre, post, head].any overCap = true ∨ Collision M pre post head ∨
        Seams M pre post head := by
  constructor
  · intro h
    by_contra! hnot
    obtain ⟨hcap, hc, hseams⟩ := hnot
    obtain ⟨content, hsome⟩ : ∃ content, applyOwnDelta M pre post head = some content := by
      refine Option.ne_none_iff_exists'.mp fun hnone => ?_
      obtain hover | hcol := h.refused hnone
      · exact hcap hover
      · exact hc hcol
    obtain ⟨m, hm, hkept⟩ := h.kept content hsome
    obtain ⟨-, m', hm', rfl⟩ := applyOwnDelta_eq_some hM hsome
    refine hseams fun m'' hm'' => ?_
    obtain rfl := inOrder_unique hM hc hm hm'
    obtain rfl := inOrder_unique hM hc hm hm''
    exact (kept_iff hM hm).mp hkept
  · intro h
    have hkept : ∀ content, applyOwnDelta M pre post head = some content →
        ∃ m, InOrder (sideEdits M pre post) (sideEdits M pre head) m ∧
          splitlinesKeep content = realize (splitlinesKeep pre) 0 m := by
      intro content hsome
      obtain ⟨hc, m, hm, rfl⟩ := applyOwnDelta_eq_some hM hsome
      have hseams : Seams M pre post head := by
        obtain hcap | hcol | hseams := h
        · exact seams_of_eq hM (eq_of_overCap hcap hsome)
        · exact absurd hcol hc
        · exact hseams
      exact ⟨m, hm, (kept_iff hM hm).mpr (hseams m hm)⟩
    refine ⟨hkept, fun content hsome e he => ?_, applyOwnDelta_eq_none hM, ?_, ?_,
      fun content content' => applyOwnDelta_swap hM⟩
    · obtain ⟨m, hm, heq⟩ := hkept content hsome
      rw [heq]
      exact lines_infix_realize ((hm.mem_iff e).mpr he) _ 0
    · exact if_pos rfl
    · rw [applyOwnDelta, if_pos rfl]
      split_ifs with hhead
      · rw [hhead]
      · rfl

end Law

/-! ### A run -/

/-- How many lines two texts begin with. -/
def commonPrefix : List Bytes → List Bytes → ℕ
  | a :: as, b :: bs => if a = b then commonPrefix as bs + 1 else 0
  | _, _ => 0

/-- A common prefix is one of both lists. -/
theorem commonPrefix_spec (base other : List Bytes) :
    commonPrefix base other ≤ base.length ∧ commonPrefix base other ≤ other.length ∧
      base.take (commonPrefix base other) = other.take (commonPrefix base other) := by
  fun_induction commonPrefix base other with
  | case1 a as bs ih => simpa using ih
  | case2 a as b bs h => simp
  | case3 => simp

/-- The opcodes of texts of `n` and `m` lines that share `k` lines at the front and `t` at the
end. -/
def trimmedOpcodes (n m k t : ℕ) : List Opcode :=
  (if 0 < k then [⟨.equal, 0, k, 0, k⟩] else []) ++
    (if k < n - t ∧ k < m - t then [⟨.replace, k, n - t, k, m - t⟩]
      else if k < n - t then [⟨.delete, k, n - t, k, m - t⟩]
      else if k < m - t then [⟨.insert, k, n - t, k, m - t⟩]
      else []) ++
    if 0 < t then [⟨.equal, n - t, n, m - t, m⟩] else []

/-- A matcher that keeps the common lines at both ends only. -/
def trimMatcher : Matcher := fun base other =>
  let k := commonPrefix base other
  trimmedOpcodes base.length other.length k
    (commonPrefix (base.drop k).reverse (other.drop k).reverse)

/-- Cutting a common front and end leaves opcodes. -/
theorem isOpcodes_trimmed {base other : List Bytes} {k t : ℕ} (hkb : k + t ≤ base.length)
    (hko : k + t ≤ other.length) (hk : base.take k = other.take k)
    (ht : base.drop (base.length - t) = other.drop (other.length - t)) :
    IsOpcodes base other false 0 0 (trimmedOpcodes base.length other.length k t) := by
  -- from the end: the common tail, what lies between, and the common front
  have hend : ∀ changed, IsOpcodes base other changed (base.length - t) (other.length - t)
      (if 0 < t then [⟨.equal, base.length - t, base.length, other.length - t, other.length⟩]
        else []) := by
    intro changed
    split_ifs with hpos
    · refine .equal (by omega) (by omega) ?_ .done
      rw [slice, slice, List.take_length, List.take_length, ht]
    · obtain rfl : t = 0 := by omega
      exact .done
  have hmid : IsOpcodes base other false k k
      ((if k < base.length - t ∧ k < other.length - t then
          [⟨.replace, k, base.length - t, k, other.length - t⟩]
        else if k < base.length - t then [⟨.delete, k, base.length - t, k, other.length - t⟩]
        else if k < other.length - t then [⟨.insert, k, base.length - t, k, other.length - t⟩]
        else []) ++
        if 0 < t then [⟨.equal, base.length - t, base.length, other.length - t, other.length⟩]
        else []) := by
    have hkb' : k ≤ base.length - t := by omega
    have hko' : k ≤ other.length - t := by omega
    by_cases hreplace : k < base.length - t ∧ k < other.length - t
    · rw [if_pos hreplace]
      exact .change (by decide) hkb' hko' (hend true)
    · rw [if_neg hreplace]
      by_cases hdelete : k < base.length - t
      · rw [if_pos hdelete]
        exact .change (by decide) hkb' hko' (hend true)
      · rw [if_neg hdelete]
        by_cases hinsert : k < other.length - t
        · rw [if_pos hinsert]
          exact .change (by decide) hkb' hko' (hend true)
        · have h := hend false
          rw [show base.length - t = k by omega, show other.length - t = k by omega] at h ⊢
          rw [if_neg (lt_irrefl k)]
          exact h
  rw [trimmedOpcodes, List.append_assoc]
  by_cases hpos : 0 < k
  · rw [if_pos hpos]
    refine .equal hpos hpos ?_ hmid
    rw [slice, slice, hk]
  · obtain rfl : k = 0 := by omega
    exact hmid

/-- The matcher that trims both ends is correct. -/
theorem trimMatcher_correct : trimMatcher.Correct := by
  intro base other
  obtain ⟨hkb, hko, hk⟩ := commonPrefix_spec base other
  obtain ⟨htb, hto, ht⟩ := commonPrefix_spec (base.drop (commonPrefix base other)).reverse
    (other.drop (commonPrefix base other)).reverse
  rw [List.length_reverse, List.length_drop] at htb hto
  rw [List.take_reverse, List.take_reverse, List.reverse_inj, List.drop_drop, List.drop_drop,
    List.length_drop, List.length_drop] at ht
  refine isOpcodes_trimmed (by omega) (by omega) hk ?_
  convert ht using 2 <;> omega

theorem keepsBoth_both_ends : KeepsBoth trimMatcher [0x61, 0x0a, 0x62, 0x0a, 0x63]
    [0x41, 0x0a, 0x62, 0x0a, 0x63] [0x61, 0x0a, 0x62, 0x0a, 0x43, 0x0a] :=
  (keepsBoth_iff trimMatcher_correct _ _ _).mpr
    (.inr (.inr (seams_of_not_touch trimMatcher_correct (by
      unfold Touch
      decide))))

/-- The last line of `post` has no line feed, and `head` has a line more. -/
theorem fused_lines : ¬ KeepsBoth trimMatcher [0x61, 0x0a, 0x62, 0x0a] [0x61, 0x0a, 0x42]
    [0x61, 0x0a, 0x62, 0x0a, 0x63, 0x0a] := by
  intro h
  have hrun : applyOwnDelta trimMatcher [0x61, 0x0a, 0x62, 0x0a] [0x61, 0x0a, 0x42]
      [0x61, 0x0a, 0x62, 0x0a, 0x63, 0x0a] = some [0x61, 0x0a, 0x42, 0x63, 0x0a] := by decide
  have hline := h.lines _ hrun ⟨1, 2, [[0x42]]⟩ (by decide)
  revert hline
  decide

end OwnDelta

end Git

end CoordinatorCore
