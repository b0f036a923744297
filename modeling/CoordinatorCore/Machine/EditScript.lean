import Mathlib.Data.List.Chain
import Mathlib.Data.List.Perm.Basic
import Mathlib.Data.List.Sort
import Mathlib.Data.List.SplitBy

/-!
# Edit scripts

An edit puts other items in the place of a stretch of a list, and a script is a list of edits that
is carried out in one pass from front to back (`realize`). Two scripts of the same list are put
together when no edit of one gets in the way of an edit of the other: `InOrder` says what the edits
of both are in the order of the list, and there is one such order at most (`InOrder.unique`).

Edits that touch end to end form runs. Whether a relation holds of all neighbours in the result can
be seen from the list itself and from its runs, each between the two items that stay beside it
(`isChain_realize_iff`).
-/

namespace EditScript

variable {α : Type*}

/-- The items from `start` up to `stop` make place for `lines`. -/
structure Edit (α : Type*) where
  start : ℕ
  stop : ℕ
  lines : List α
deriving DecidableEq

/-- The list with the edits carried out, from `pos` on. -/
def realize (base : List α) : ℕ → List (Edit α) → List α
  | pos, [] => base.drop pos
  | pos, e :: es => (base.take e.start).drop pos ++ e.lines ++ realize base e.stop es

/-- An edit of a list of `n` items. -/
structure Edit.Within (n : ℕ) (e : Edit α) : Prop where
  start_le : e.start ≤ e.stop
  stop_le : e.stop ≤ n

/-- The edits that make `other` of `base`, with an item between any two of them that stays. -/
structure Script (base other : List α) (es : List (Edit α)) : Prop where
  within : ∀ e ∈ es, e.Within base.length
  apart : es.Pairwise fun a b => a.stop < b.start
  realize_eq : realize base 0 es = other

/-- Two edits that cannot both be carried out: an item falls to both, they insert at one place, or
one inserts inside the other's stretch. -/
def Conflict (a b : Edit α) : Prop :=
  (∃ i, (a.start ≤ i ∧ i < a.stop) ∧ b.start ≤ i ∧ i < b.stop) ∨
    (a.start = a.stop ∧ b.start = b.stop ∧ a.start = b.start) ∨
    (a.start = a.stop ∧ b.start < a.start ∧ a.start < b.stop) ∨
    b.start = b.stop ∧ a.start < b.start ∧ b.start < a.stop

/-- The edits of two scripts in the order of the list, an edit of both once. -/
structure InOrder (ours theirs m : List (Edit α)) : Prop where
  mem_iff : ∀ e, e ∈ m ↔ e ∈ ours ∨ e ∈ theirs
  nodup : m.Nodup
  before : m.Pairwise fun a b => a.stop ≤ b.start

/-- One edit begins where the other stops. -/
def Touch (a b : Edit α) : Prop := a.stop = b.start

/-! ### Conflicts -/

theorem Conflict.symm {a b : Edit α} (h : Conflict a b) : Conflict b a := by
  obtain ⟨i, ha, hb⟩ | ⟨ha, hb, hab⟩ | h | h := h
  · exact .inl ⟨i, hb, ha⟩
  · exact .inr (.inl ⟨hb, ha, hab.symm⟩)
  · exact .inr (.inr (.inr h))
  · exact .inr (.inr (.inl h))

/-- Edits with room between them. -/
theorem not_conflict_of_lt {a b : Edit α} (h : a.stop < b.start) : ¬ Conflict a b := by
  rintro (⟨i, hia, hib⟩ | h' | h' | h') <;> omega

/-- Of two edits that do not conflict, the one that begins first, or is the shorter, ends before
the other begins. -/
theorem stop_le_of_not_conflict {a b : Edit α} (hb : b.start ≤ b.stop)
    (hab : a.start < b.start ∨ a.start = b.start ∧ a.stop ≤ b.stop) (h : ¬ Conflict a b) :
    a.stop ≤ b.start := by
  by_contra hlt
  refine h ?_
  rcases Nat.eq_or_lt_of_le hb with hins | hspan
  · exact .inr (.inr (.inr ⟨hins, by omega, by omega⟩))
  · exact .inl ⟨b.start, ⟨by omega, by omega⟩, le_rfl, hspan⟩

/-- Two members of a list of pairs in relation. -/
private theorem rel_of_pairwise {β : Type*} {r : β → β → Prop} {l : List β} (h : l.Pairwise r)
    {a b : β} (ha : a ∈ l) (hb : b ∈ l) (hne : a ≠ b) : r a b ∨ r b a := by
  induction h with
  | nil => cases ha
  | @cons x l hx _ ih =>
    rcases List.mem_cons.mp ha with rfl | hal <;> rcases List.mem_cons.mp hb with rfl | hbl
    · exact absurd rfl hne
    · exact .inl (hx b hbl)
    · exact .inr (hx a hal)
    · exact ih hal hbl

theorem Script.not_conflict {base other : List α} {es : List (Edit α)} (hs : Script base other es)
    {a b : Edit α} (ha : a ∈ es) (hb : b ∈ es) (hne : a ≠ b) : ¬ Conflict a b := by
  obtain h | h := rel_of_pairwise hs.apart ha hb hne
  · exact not_conflict_of_lt h
  · exact fun hc => not_conflict_of_lt h hc.symm

/-- Edits of one script do not touch. -/
theorem Script.not_touch {base other : List α} {es : List (Edit α)} (hs : Script base other es)
    {a b : Edit α} (ha : a ∈ es) (hb : b ∈ es) (hne : a ≠ b) : ¬ Touch a b := by
  intro htouch
  have hwa := (hs.within a ha).start_le
  have hwb := (hs.within b hb).start_le
  unfold Touch at htouch
  obtain h | h := rel_of_pairwise hs.apart ha hb hne <;> omega

theorem Script.nodup {base other : List α} {es : List (Edit α)} (hs : Script base other es) :
    es.Nodup := by
  refine hs.apart.imp_of_mem fun {a b} ha _ h => ?_
  rintro rfl
  have := (hs.within a ha).start_le
  omega

/-! ### Two scripts in one order -/

theorem InOrder.symm {ours theirs m : List (Edit α)} (h : InOrder ours theirs m) :
    InOrder theirs ours m := ⟨fun e => (h.mem_iff e).trans or_comm, h.nodup, h.before⟩

/-- A script is in order by itself. -/
theorem Script.inOrder {base other : List α} {es : List (Edit α)} (hs : Script base other es) :
    InOrder es [] es := ⟨by simp, hs.nodup, hs.apart.imp fun h => h.le⟩

/-- There is one order only. -/
theorem InOrder.unique {base post head : List α} {ours theirs m m' : List (Edit α)}
    (ho : Script base post ours) (ht : Script base head theirs)
    (hc : ∀ o ∈ ours, ∀ t ∈ theirs, o ≠ t → ¬ Conflict o t) (h : InOrder ours theirs m)
    (h' : InOrder ours theirs m') : m = m' := by
  have hperm : m.Perm m' :=
    (List.perm_ext_iff_of_nodup h.nodup h'.nodup).mpr fun e =>
      (h.mem_iff e).trans (h'.mem_iff e).symm
  have hwithin : ∀ e ∈ m, e.start ≤ e.stop := fun e he =>
    ((h.mem_iff e).mp he).elim (fun he => (ho.within e he).start_le)
      fun he => (ht.within e he).start_le
  have hall : ∀ a ∈ m, ∀ b ∈ m, a ≠ b → ¬ Conflict a b := by
    intro a ha b hb hne
    rcases (h.mem_iff a).mp ha with hao | hat <;> rcases (h.mem_iff b).mp hb with hbo | hbt
    · exact ho.not_conflict hao hbo hne
    · exact hc a hao b hbt hne
    · exact fun hab => hc b hbo a hat hne.symm hab.symm
    · exact ht.not_conflict hat hbt hne
  refine List.Perm.eq_of_pairwise (fun a b ha hb hab hba => ?_) h.before h'.before hperm
  -- both would insert at one place
  by_contra hne
  have hb := (hperm.mem_iff (a := b)).mpr hb
  have hwa := hwithin a ha
  have hwb := hwithin b hb
  exact hall a ha b hb hne (.inr (.inl ⟨by omega, by omega, by omega⟩))

/-! ### The items of the result -/

/-- What an edit puts in is found in the result. -/
theorem lines_infix_realize {es : List (Edit α)} {e : Edit α} (h : e ∈ es) (base : List α)
    (pos : ℕ) : e.lines <:+: realize base pos es := by
  induction es generalizing pos with
  | nil => cases h
  | cons e' es ih =>
    obtain rfl | h := List.mem_cons.mp h
    · exact ⟨(base.take e.start).drop pos, realize base e.stop es, rfl⟩
    · exact (ih h e'.stop).trans (List.suffix_append _ _).isInfix

/-- All items of the result are old or put in. -/
theorem mem_or_of_mem_realize {base : List α} {pos : ℕ} {es : List (Edit α)} {x : α}
    (h : x ∈ realize base pos es) : x ∈ base ∨ ∃ e ∈ es, x ∈ e.lines := by
  induction es generalizing pos with
  | nil => exact .inl (List.mem_of_mem_drop h)
  | cons e es ih =>
    rw [realize, List.mem_append, List.mem_append] at h
    obtain (h | h) | h := h
    · exact .inl (List.mem_of_mem_take (List.mem_of_mem_drop h))
    · exact .inr ⟨e, List.mem_cons_self, h⟩
    · obtain h | ⟨e', he', h⟩ := ih h
      · exact .inl h
      · exact .inr ⟨e', List.mem_cons_of_mem e he', h⟩

/-! ### Runs -/

/-- What stays in front of an edit. -/
def Edit.lineBefore (base : List α) (a : Edit α) : List α :=
  (base.take a.start).drop (a.start - 1)

/-- What stays behind an edit. -/
def Edit.lineBehind (base : List α) (z : Edit α) : List α := (base.drop z.stop).take 1

/-- The items of a run of edits, between those that stay beside it. -/
def around (base : List α) (run : List (Edit α)) : List α :=
  run.head?.elim [] (Edit.lineBefore base) ++ run.flatMap Edit.lines ++
    run.getLast?.elim [] (Edit.lineBehind base)

/-- A list from `pos` on, behind the edits of `p`. -/
theorem exists_realize_append (base : List α) (pos : ℕ) (p q : List (Edit α)) :
    ∃ x, realize base pos (p ++ q) = x ++ realize base (p.getLast?.elim pos Edit.stop) q := by
  induction p generalizing pos with
  | nil => exact ⟨[], rfl⟩
  | cons e p ih =>
    obtain ⟨x, hx⟩ := ih e.stop
    refine ⟨(base.take e.start).drop pos ++ e.lines ++ x, ?_⟩
    have hlast : (e :: p).getLast?.elim pos Edit.stop = p.getLast?.elim e.stop Edit.stop := by
      rw [List.getLast?_cons]
      cases p.getLast? <;> rfl
    rw [List.cons_append, realize, hx, hlast, List.append_assoc _ x]

/-- A run is carried out at one place. -/
theorem realize_run (base : List α) (pos : ℕ) {a : Edit α} {g : List (Edit α)}
    (h : (a :: g).IsChain Touch) (q : List (Edit α)) :
    realize base pos (a :: g ++ q) = (base.take a.start).drop pos ++ (a :: g).flatMap Edit.lines ++
      realize base ((a :: g).getLast (List.cons_ne_nil a g)).stop q := by
  induction g generalizing a pos with
  | nil => simp [realize]
  | cons b g ih =>
    obtain ⟨hab, hg⟩ := List.isChain_cons_cons.mp h
    have hgap : (base.take b.start).drop a.stop = [] := by
      rw [← show a.stop = b.start from hab]
      exact List.drop_eq_nil_of_le (List.length_take_le _ _)
    rw [List.cons_append, realize, ih a.stop hg, hgap, List.getLast_cons (List.cons_ne_nil b g)]
    simp only [List.nil_append, List.flatMap_cons, List.append_assoc]

/-- What stays behind a run comes first behind it. -/
theorem lineBehind_prefix {base : List α} {z : Edit α} {q : List (Edit α)}
    (h : ∀ e ∈ q.head?, z.stop < e.start ∧ e.start ≤ base.length) :
    z.lineBehind base <+: realize base z.stop q := by
  cases q with
  | nil => exact List.take_prefix _ _
  | cons e q =>
    obtain ⟨hlt, hle⟩ := h e rfl
    refine List.IsPrefix.trans ?_
      ((List.prefix_append _ e.lines).trans (List.prefix_append _ (realize base e.stop q)))
    rw [Edit.lineBehind, List.drop_take]
    exact List.take_prefix_take_left (by omega)

/-- What stays in front of a run comes last in front of it. -/
theorem lineBefore_suffix (base : List α) {a : Edit α} {pos : ℕ} (h : pos < a.start ∨ pos = 0) :
    a.lineBefore base <:+ (base.take a.start).drop pos := by
  have hsplit : (base.take a.start).drop (a.start - 1) =
      ((base.take a.start).drop pos).drop (a.start - 1 - pos) := by
    rw [List.drop_drop]
    congr 1
    omega
  rw [Edit.lineBefore, hsplit]
  exact List.drop_suffix _ _

/-- Edits that touch end to end, as far as they go. -/
def Run (m run : List (Edit α)) : Prop :=
  ∃ p q, m = p ++ run ++ q ∧ run ≠ [] ∧ run.IsChain Touch ∧
    (∀ e ∈ p.getLast?, ∀ a ∈ run.head?, ¬ Touch e a) ∧
    ∀ z ∈ run.getLast?, ∀ e ∈ q.head?, ¬ Touch z e

/-- A longest run of edits is found in the result, between what stays beside it. -/
theorem around_isInfix (base : List α) {p q : List (Edit α)} {a : Edit α} {g : List (Edit α)}
    (hg : (a :: g).IsChain Touch) (hp : ∀ e ∈ p.getLast?, e.stop < a.start)
    (hq : ∀ e ∈ q.head?, ((a :: g).getLast (List.cons_ne_nil a g)).stop < e.start ∧
      e.start ≤ base.length) :
    around base (a :: g) <:+: realize base 0 (p ++ (a :: g) ++ q) := by
  obtain ⟨x, hx⟩ := exists_realize_append base 0 p ((a :: g) ++ q)
  have hpos : p.getLast?.elim 0 Edit.stop < a.start ∨ p.getLast?.elim 0 Edit.stop = 0 := by
    cases hlast : p.getLast? with
    | none => exact .inr rfl
    | some e => exact .inl (hp e hlast)
  obtain ⟨y, hy⟩ := lineBefore_suffix base hpos
  obtain ⟨z, hz⟩ := lineBehind_prefix hq
  refine ⟨x ++ y, z, ?_⟩
  rw [List.append_assoc p, hx, realize_run base _ hg, ← hy, ← hz, around, List.head?_cons,
    List.getLast?_eq_some_getLast (List.cons_ne_nil a g)]
  simp only [Option.elim_some, List.append_assoc]

/-- About a single edit of a script the neighbours are those of the script's result. -/
theorem Script.isChain_around {base other : List α} {es : List (Edit α)} {a : Edit α}
    {r : α → α → Prop} (hs : Script base other es) (ha : a ∈ es) (h : other.IsChain r) :
    (around base [a]).IsChain r := by
  obtain ⟨p, q, rfl⟩ := List.append_of_mem ha
  obtain ⟨-, haq, hpa⟩ := List.pairwise_append.mp hs.apart
  rw [← hs.realize_eq] at h
  refine h.infix ?_
  have hinf := around_isInfix base (p := p) (q := q) (List.isChain_singleton a)
    (fun e he => hpa e (List.mem_of_getLast? he) a List.mem_cons_self) fun e he => ?_
  · simpa using hinf
  · have heq := List.mem_of_head? he
    have hwe := hs.within e (by simp [heq])
    exact ⟨(List.pairwise_cons.mp haq).1 e heq, hwe.start_le.trans hwe.stop_le⟩

/-- The first run of a list of edits. -/
theorem exists_run_prefix (a : Edit α) (m : List (Edit α)) :
    ∃ g q, a :: m = a :: g ++ q ∧ (a :: g).IsChain Touch ∧
      ∀ z ∈ (a :: g).getLast?, ∀ e ∈ q.head?, ¬ Touch z e := by
  induction m generalizing a with
  | nil => exact ⟨[], [], rfl, List.isChain_singleton a, by simp⟩
  | cons b m ih =>
    by_cases hab : Touch a b
    · obtain ⟨g, q, hm, hg, hq⟩ := ih b
      refine ⟨b :: g, q, by rw [hm]; rfl, List.isChain_cons_cons.mpr ⟨hab, hg⟩, ?_⟩
      rw [List.getLast?_cons_cons]
      exact hq
    · exact ⟨[], b :: m, rfl, List.isChain_singleton a, by simpa using hab⟩

/-- Chains that overlap in one item at each end. -/
private theorem isChain_glue {r : α → α → Prop} {y b f c z : List α} (hy : (y ++ b).IsChain r)
    (hf : (b ++ f ++ c).IsChain r) (hz : (c ++ z).IsChain r) (hb : b = [] → y = [])
    (hc : c = [] → z = []) : (y ++ b ++ f ++ (c ++ z)).IsChain r := by
  have hleft : (y ++ b ++ f ++ c).IsChain r := by
    by_cases hnil : b = []
    · rw [hb hnil]
      exact hf
    · rw [List.append_assoc b] at hf
      simpa only [List.append_assoc] using hy.append_overlap hf hnil
  by_cases hnil : c = []
  · simpa only [hc hnil, hnil, List.append_nil] using hleft
  · simpa only [List.append_assoc] using
      (List.IsChain.append_overlap hleft hz hnil : (y ++ b ++ f ++ c ++ z).IsChain r)

section Chains

variable {base : List α} {m : List (Edit α)} {r : α → α → Prop}

/-- Behind a stretch that is left off, the edits are in order too. -/
private theorem head_lt {p q : List (Edit α)} (hin : ∀ e ∈ p ++ q, e.Within base.length)
    (hm : (p ++ q).Pairwise fun a b => a.stop ≤ b.start)
    (h : ∀ z ∈ p.getLast?, ∀ e ∈ q.head?, ¬ Touch z e) :
    ∀ z ∈ p.getLast?, ∀ e ∈ q.head?, z.stop < e.start ∧ e.start ≤ base.length := by
  intro z hz e he
  have hzp := List.mem_of_getLast? hz
  have heq := List.mem_of_head? he
  have hle := (List.pairwise_append.mp hm).2.2 z hzp e heq
  have hwe := hin e (List.mem_append_right p heq)
  exact ⟨lt_of_le_of_ne hle (h z hz e he), hwe.start_le.trans hwe.stop_le⟩

/-- The result from a run on. -/
private theorem isChain_realize_from (hbase : base.IsChain r) (hin : ∀ e ∈ m, e.Within base.length)
    (hm : m.Pairwise fun a b => a.stop ≤ b.start)
    (hr : ∀ run, Run m run → (around base run).IsChain r) (n : ℕ) :
    ∀ p q : List (Edit α), q.length ≤ n → m = p ++ q →
      (∀ e ∈ p.getLast?, ∀ a ∈ q.head?, ¬ Touch e a) →
      (realize base (p.getLast?.elim 0 Edit.stop) q).IsChain r := by
  induction n with
  | zero =>
    intro p q hlen _ _
    rw [List.eq_nil_of_length_eq_zero (Nat.le_zero.mp hlen)]
    exact hbase.suffix (List.drop_suffix _ _)
  | succ n ih =>
    intro p q hlen hpq hfront
    cases q with
    | nil => exact hbase.suffix (List.drop_suffix _ _)
    | cons a q =>
      obtain ⟨g, q, hcut, hg, hback⟩ := exists_run_prefix a q
      rw [hcut] at hpq hlen hfront ⊢
      have hne := List.cons_ne_nil a g
      have hlast := List.getLast?_eq_some_getLast hne
      have hpq' : m = p ++ (a :: g) ++ q := by rw [hpq, List.append_assoc]
      have hfront' : ∀ e ∈ p.getLast?, ∀ a' ∈ (a :: g).head?, ¬ Touch e a' := hfront
      have hrun := hr (a :: g) ⟨p, q, hpq', hne, hg, hfront', hback⟩
      have hrest := ih (p ++ (a :: g)) q (by simp at hlen ⊢; omega) hpq'
        (by rw [List.getLast?_append_of_ne_nil _ hne]; exact hback)
      rw [List.getLast?_append_of_ne_nil _ hne, hlast] at hrest
      -- what stays beside the run
      have hbefore : p.getLast?.elim 0 Edit.stop < a.start ∨ p.getLast?.elim 0 Edit.stop = 0 := by
        cases hp : p.getLast? with
        | none => exact .inr rfl
        | some e =>
          rw [hpq] at hin hm
          exact .inl (head_lt hin hm hfront e hp a rfl).1
      have hbehind : ∀ e ∈ q.head?,
          ((a :: g).getLast hne).stop < e.start ∧ e.start ≤ base.length := by
        rw [hpq', List.append_assoc] at hin hm
        exact head_lt (fun e he => hin e (List.mem_append_right p he))
          (List.pairwise_append.mp hm).2.1 hback _ hlast
      obtain ⟨y, hy⟩ := lineBefore_suffix base hbefore
      obtain ⟨z, hz⟩ := lineBehind_prefix hbehind
      have hfront : (base.take a.start).IsChain r := hbase.infix (List.take_prefix _ _).isInfix
      have hgap : ((base.take a.start).drop (p.getLast?.elim 0 Edit.stop)).IsChain r :=
        hfront.suffix (List.drop_suffix _ _)
      have hwa := hin a (by rw [hpq]; simp)
      have hwz := hin ((a :: g).getLast hne) (by
        rw [hpq']
        exact List.mem_append_left q (List.mem_append_right p (List.getLast_mem hne)))
      rw [around, List.head?_cons, hlast] at hrun
      rw [Option.elim_some, ← hz] at hrest
      rw [realize_run base _ hg, ← hy, ← hz]
      rw [← hy] at hgap
      refine isChain_glue hgap hrun hrest (fun hnil => ?_) fun hnil => ?_
      · -- nothing stands in front of the run
        have hzero : a.start = 0 := by
          have := congrArg List.length hnil
          have := hwa.start_le.trans hwa.stop_le
          simp [Edit.lineBefore] at *
          omega
        simpa [hzero, hnil] using hy
      · have hend : base.length ≤ ((a :: g).getLast hne).stop := by
          simpa [Edit.lineBehind] using hnil
        cases q with
        | nil => simpa [realize, hnil, List.drop_eq_nil_of_le hend] using hz
        | cons e q =>
          obtain ⟨hlt, hle⟩ := hbehind e rfl
          omega

/-- All neighbours in the result are in relation when those about each longest run are. -/
theorem isChain_realize_iff (hbase : base.IsChain r) (hin : ∀ e ∈ m, e.Within base.length)
    (hm : m.Pairwise fun a b => a.stop ≤ b.start) :
    (realize base 0 m).IsChain r ↔ ∀ run, Run m run → (around base run).IsChain r := by
  constructor
  · rintro h run ⟨p, q, rfl, hne, hrun, hfront, hback⟩
    obtain ⟨a, g, rfl⟩ := List.exists_cons_of_ne_nil hne
    rw [List.append_assoc] at hin hm
    have hp : ∀ e ∈ p.getLast?, e.stop < a.start := fun e he =>
      (head_lt hin hm (by simpa using hfront) e he a rfl).1
    have hq := head_lt (fun e he => hin e (List.mem_append_right p he))
      (List.pairwise_append.mp hm).2.1 hback _ (List.getLast?_eq_some_getLast hne)
    exact h.infix (around_isInfix base hrun hp hq)
  · exact fun hr => isChain_realize_from hbase hin hm hr m.length [] m le_rfl rfl (by simp)

end Chains

end EditScript
