import CoordinatorCore.Machine.SuccGraph
import CoordinatorCore.Machine.Run
import Mathlib.Logic.Function.Basic
import Mathlib.Algebra.BigOperators.Group.List.Basic
import Mathlib.Algebra.GroupWithZero.Nat

/-!
# Strongly connected components

The search of Tarjan with an explicit stack of frames. A node gets an index when it is met, a low
link that falls while its frame is open, and a component when the frame of the component's first
node closes.

`Inv` says what every step keeps. `components_eq_iff` is the result: two nodes get the same
component exactly when each reaches the other.
-/

open Relation Machine

namespace SuccGraph

variable {α : Type*} [DecidableEq α]

/-- The variables of the search. The top of either stack comes first. -/
structure Search (α : Type*) where
  index : α → Option Nat
  low : α → Nat
  counter : Nat
  stack : List α
  work : List (α × List α)
  comp : α → Option α

namespace Search

/-- Nothing is met yet. -/
def start : Search α := ⟨fun _ => none, fun _ => 0, 0, [], [], fun _ => none⟩

/-- Open the frame of a node met for the first time. -/
def enter (G : SuccGraph α) (node : α) (st : Search α) : Search α :=
  { st with
    index := Function.update st.index node (some st.counter)
    low := Function.update st.low node st.counter
    counter := st.counter + 1
    stack := node :: st.stack
    work := (node, G.succ node) :: st.work }

/-- The parent of a closed frame takes over its low link. -/
def passLow (low : α → Nat) (node : α) : List (α × List α) → α → Nat
  | [] => low
  | (parent, _) :: _ => Function.update low parent (min (low parent) (low node))

/-- The frame of a node is closed. A node whose low link is its own index takes its component off
the stack. -/
def leave (node : α) (st : Search α) : Search α :=
  let low := passLow st.low node st.work
  if st.index node = some (st.low node) then
    { st with
      low := low
      stack := (st.stack.dropWhile (· ≠ node)).tail
      comp := fun x =>
        if x ∈ node :: st.stack.takeWhile (· ≠ node) then some node else st.comp x }
  else { st with low := low }

/-- One successor of the top frame, or the end of the frame. -/
def step (G : SuccGraph α) (st : Search α) : Option (Search α) :=
  match st.work with
  | [] => none
  | (node, []) :: work => some (leave node { st with work := work })
  | (node, succ :: it) :: work =>
    let st := { st with work := (node, it) :: work }
    if succ ∉ G.nodes then some st
    else
      match st.index succ with
      | none => some (enter G succ st)
      | some i =>
        if succ ∈ st.stack then
          some { st with low := Function.update st.low node (min (st.low node) i) }
        else some st

/-- What a step can do. -/
theorem step_cases {G : SuccGraph α} {st st' : Search α} (h : step G st = some st') :
    (∃ node work, st.work = (node, []) :: work ∧ st' = leave node { st with work := work }) ∨
    ∃ node succ it work, st.work = (node, succ :: it) :: work ∧
      ((succ ∉ G.nodes ∧ st' = { st with work := (node, it) :: work }) ∨
      (succ ∈ G.nodes ∧ st.index succ = none ∧
        st' = enter G succ { st with work := (node, it) :: work }) ∨
      (∃ i, st.index succ = some i ∧ succ ∈ st.stack ∧
        st' = { st with
          work := (node, it) :: work
          low := Function.update st.low node (min (st.low node) i) }) ∨
      (st.index succ ≠ none ∧ succ ∉ st.stack ∧ st' = { st with work := (node, it) :: work })) := by
  rw [step] at h
  split at h
  · cases h
  · next node work hw => exact Or.inl ⟨node, work, hw, (Option.some.inj h).symm⟩
  · next node succ it work hw =>
    refine Or.inr ⟨node, succ, it, work, hw, ?_⟩
    simp only at h
    by_cases hn : succ ∈ G.nodes
    · rw [if_neg (not_not_intro hn)] at h
      cases hi : st.index succ with
      | none =>
        rw [hi] at h
        exact Or.inr (Or.inl ⟨hn, rfl, (Option.some.inj h).symm⟩)
      | some i =>
        rw [hi] at h
        simp only at h
        by_cases hs : succ ∈ st.stack
        · rw [if_pos hs] at h
          exact Or.inr (Or.inr (Or.inl ⟨i, rfl, hs, (Option.some.inj h).symm⟩))
        · rw [if_neg hs] at h
          exact Or.inr (Or.inr (Or.inr ⟨by simp, hs, (Option.some.inj h).symm⟩))
    · rw [if_pos hn] at h
      exact Or.inl ⟨hn, (Option.some.inj h).symm⟩

/-- The search halts when no frame is open. -/
theorem work_of_step_eq_none {G : SuccGraph α} {st : Search α} (h : step G st = none) :
    st.work = [] := by
  rw [step] at h
  split at h
  · assumption
  · cases h
  · simp only at h
    split_ifs at h
    all_goals split at h <;> cases h

@[simp] theorem leave_index (node : α) (st : Search α) : (leave node st).index = st.index := by
  rw [leave]
  split_ifs <;> rfl

@[simp] theorem leave_work (node : α) (st : Search α) : (leave node st).work = st.work := by
  rw [leave]
  split_ifs <;> rfl

/-- The nodes still to meet, with their successors. -/
def unmet (G : SuccGraph α) (index : α → Option Nat) : List α → Nat
  | [] => 0
  | n :: ns => (if (index n).isNone then (G.succ n).length + 2 else 0) + unmet G index ns

private theorem unmet_update_le (G : SuccGraph α) (index : α → Option Nat) (s : α) (i : Nat)
    (ns : List α) : unmet G (Function.update index s (some i)) ns ≤ unmet G index ns := by
  induction ns with
  | nil => exact le_rfl
  | cons n ns ih =>
    rw [unmet, unmet]
    rcases eq_or_ne n s with rfl | hn
    · simp only [Function.update_self, Option.isNone_some, Bool.false_eq_true, if_false]
      omega
    · rw [Function.update_of_ne hn]
      omega

private theorem unmet_update {G : SuccGraph α} {index : α → Option Nat} {s : α} {ns : List α}
    (hs : s ∈ ns) (hi : index s = none) (i : Nat) :
    unmet G (Function.update index s (some i)) ns + ((G.succ s).length + 2) ≤
      unmet G index ns := by
  induction ns with
  | nil => cases hs
  | cons n ns ih =>
    rw [unmet, unmet]
    rcases eq_or_ne n s with rfl | hn
    · have := unmet_update_le G index n i ns
      simp only [Function.update_self, Option.isNone_some, Bool.false_eq_true, if_false, hi,
        Option.isNone_none, if_true]
      omega
    · have := ih ((List.mem_cons.mp hs).resolve_left (Ne.symm hn))
      rw [Function.update_of_ne hn]
      omega

/-- What is left to do: the nodes to meet and the successors to look at. -/
def measure (G : SuccGraph α) (st : Search α) : Nat :=
  unmet G st.index G.nodes + (st.work.map fun f => f.2.length + 1).sum

/-- Every step leaves less to do. -/
theorem measure_step {G : SuccGraph α} {st st' : Search α} (h : step G st = some st') :
    measure G st' < measure G st := by
  rcases step_cases h with ⟨node, work, hw, rfl⟩ | ⟨node, succ, it, work, hw, h⟩
  · simp [measure, hw]
  · rcases h with ⟨-, rfl⟩ | ⟨hn, hi, rfl⟩ | ⟨i, -, -, rfl⟩ | ⟨-, -, rfl⟩
    · simp [measure, hw]
    · -- the node is met, and its successors wait in its frame instead
      have hmet := unmet_update (G := G) hn hi st.counter
      simp only [measure, enter, hw, List.map_cons, List.sum_cons, List.length_cons]
      omega
    · simp [measure, hw]
    · simp [measure, hw]

/-- Visit a root, unless it was met before. -/
def visitRoot (G : SuccGraph α) (st : Search α) (root : α) : Search α :=
  if (st.index root).isSome then st
  else drain (step G) (measure G) (fun _ _ => measure_step) (enter G root st)

/-- The search from every node. -/
def search (G : SuccGraph α) : Search α := G.nodes.foldl (visitRoot G) start

/-! ### The invariant -/

/-- The index of a node that has one. -/
def idx (st : Search α) (x : α) : Nat := (st.index x).getD 0

/-- A node whose frame is open. -/
def Gray (st : Search α) (x : α) : Prop := ∃ it, (x, it) ∈ st.work

/-- The open frame of a node on the stack: the last one opened before the node was met. -/
def Owner (st : Search α) (g x : α) : Prop :=
  st.Gray g ∧ st.idx g ≤ st.idx x ∧ ∀ h, st.Gray h → st.idx h ≤ st.idx x → st.idx h ≤ st.idx g

/-- What every step keeps. The edge `pending` was taken from the top frame and not looked at. -/
structure Inv (G : SuccGraph α) (pending : Option (α × α)) (st : Search α) : Prop where
  /-- Indices are below the counter. -/
  fresh : ∀ x, st.index x ≠ none → st.idx x < st.counter
  /-- The stack holds the nodes with an index and no component, -/
  onStack : ∀ x, x ∈ st.stack ↔ st.index x ≠ none ∧ st.comp x = none
  indexed : ∀ x, st.comp x ≠ none → st.index x ≠ none
  /-- the last one met on top. -/
  sorted : st.stack.Pairwise fun x y => st.idx y < st.idx x
  /-- So do the open frames. -/
  grayStack : ∀ x, st.Gray x → x ∈ st.stack
  graySorted : st.work.Pairwise fun f f' => st.idx f'.1 < st.idx f.1
  /-- The successors an open frame is done with have an index, not below its low link. -/
  taken : ∀ f ∈ st.work, ∃ d, G.succ f.1 = d ++ f.2 ∧ ∀ y ∈ d, pending ≠ some (f.1, y) →
    st.index y ≠ none ∧ (y ∈ st.stack → st.low f.1 ≤ st.idx y)
  /-- So have the successors of a closed frame, -/
  black : ∀ x, st.index x ≠ none → ¬ st.Gray x → ∀ y, G.Edge x y → st.index y ≠ none
  /-- not below the low link of the frame that owns it. -/
  owned : ∀ x ∈ st.stack, ¬ st.Gray x → ∀ g, st.Owner g x → ∀ y ∈ st.stack, G.Edge x y →
    st.low g ≤ st.idx y
  /-- A node on the stack reaches an open frame met no later, -/
  up : ∀ x ∈ st.stack, ∃ g, st.Gray g ∧ st.idx g ≤ st.idx x ∧ G.Reaches x g
  /-- and is reached from all of them. -/
  down : ∀ g, st.Gray g → ∀ x ∈ st.stack, st.idx g ≤ st.idx x → G.Reaches g x
  /-- A low link is the index of a node on the stack that can be reached. -/
  low : ∀ g, st.Gray g → ∃ w ∈ st.stack, st.idx w = st.low g ∧ st.low g ≤ st.idx g ∧
    G.Reaches g w
  /-- What has a component leads to nothing else. -/
  closed : ∀ x y, st.comp x ≠ none → G.Edge x y → st.comp y ≠ none
  /-- A component is named by a node that its members reach and are reached from, -/
  root : ∀ x r, st.comp x = some r → G.Reaches x r ∧ G.Reaches r x
  /-- and nodes that reach each other are in the same. -/
  same : ∀ x y, st.comp x ≠ none → st.comp y ≠ none → G.Reaches x y → G.Reaches y x →
    st.comp x = st.comp y

omit [DecidableEq α] in
/-- The invariant holds at the start. -/
theorem inv_start (G : SuccGraph α) : Inv G none (start : Search α) where
  fresh _ h := absurd rfl h
  onStack _ := ⟨fun h => absurd h List.not_mem_nil, fun h => absurd rfl h.1⟩
  indexed _ h := absurd rfl h
  sorted := .nil
  grayStack _ := fun ⟨_, h⟩ => absurd h List.not_mem_nil
  graySorted := .nil
  taken _ h := absurd h List.not_mem_nil
  black _ h := absurd rfl h
  owned _ h := absurd h List.not_mem_nil
  up _ h := absurd h List.not_mem_nil
  down _ := fun ⟨_, h⟩ => absurd h List.not_mem_nil
  low _ := fun ⟨_, h⟩ => absurd h List.not_mem_nil
  closed _ _ h := absurd rfl h
  root _ _ h := nomatch h
  same _ _ h := absurd rfl h

section

variable {G : SuccGraph α} {st : Search α} {p : Option (α × α)}

omit [DecidableEq α] in
/-- From a node with a component only such nodes are reached. -/
theorem Inv.comp_of_reaches (h : Inv G p st) {x y : α} (hx : st.comp x ≠ none)
    (hxy : G.Reaches x y) : st.comp y ≠ none := by
  induction hxy with
  | refl => exact hx
  | tail _ hyz ih => exact h.closed _ _ ih hyz

omit [DecidableEq α] in
/-- Open frames with the same index are the same. -/
theorem Inv.idx_lt_top (h : Inv G p st) {node : α} {it : List α} {work : List (α × List α)}
    (hw : st.work = (node, it) :: work) {f : α × List α} (hf : f ∈ work) :
    st.idx f.1 < st.idx node := by
  have := h.graySorted
  rw [hw] at this
  exact (List.pairwise_cons.mp this).1 f hf

omit [DecidableEq α] in
/-- The top frame is the last one met. -/
theorem Inv.idx_le_top (h : Inv G p st) {node : α} {it : List α} {work : List (α × List α)}
    (hw : st.work = (node, it) :: work) {g : α} (hg : st.Gray g) : st.idx g ≤ st.idx node := by
  obtain ⟨it', hg⟩ := hg
  rw [hw] at hg
  rcases List.mem_cons.mp hg with heq | hg
  · obtain ⟨rfl, -⟩ := Prod.mk.inj heq
    exact le_rfl
  · exact (h.idx_lt_top hw hg).le

omit [DecidableEq α] in
/-- A successor is taken from the top frame. -/
theorem Inv.take (h : Inv G none st) {node s : α} {it : List α} {work : List (α × List α)}
    (hw : st.work = (node, s :: it) :: work) :
    Inv G (some (node, s)) { st with work := (node, it) :: work } := by
  -- the node on top keeps its place, one edge further
  have hgray : ∀ x, Gray { st with work := (node, it) :: work } x ↔ st.Gray x := by
    intro x
    simp only [Gray, hw, List.mem_cons, Prod.mk.injEq, exists_or]
    simp
  have howner : ∀ g x, Owner { st with work := (node, it) :: work } g x ↔ st.Owner g x := by
    intro g x
    simp only [Owner, hgray]
    rfl
  exact {
    fresh := h.fresh
    onStack := h.onStack
    indexed := h.indexed
    sorted := h.sorted
    grayStack := fun x hx => h.grayStack x ((hgray x).mp hx)
    graySorted := by
      have := h.graySorted
      rw [hw] at this
      exact List.pairwise_cons.mpr (List.pairwise_cons.mp this)
    taken := by
      intro f hf
      rcases List.mem_cons.mp hf with rfl | hf
      · obtain ⟨d, hd, hy⟩ := h.taken (node, s :: it) (by rw [hw]; exact List.mem_cons_self ..)
        refine ⟨d ++ [s], by simpa using hd, fun y hyd hp => ?_⟩
        rcases List.mem_append.mp hyd with hyd | hyd
        · exact hy y hyd (by simp)
        · exact absurd (by rw [List.mem_singleton.mp hyd]) hp
      · obtain ⟨d, hd, hy⟩ := h.taken f (by rw [hw]; exact List.mem_cons_of_mem _ hf)
        exact ⟨d, hd, fun y hyd _ => hy y hyd (by simp)⟩
    black := fun x hx hg => h.black x hx fun hg' => hg ((hgray x).mpr hg')
    owned := fun x hx hg g hown =>
      h.owned x hx (fun hg' => hg ((hgray x).mpr hg')) g ((howner g x).mp hown)
    up := fun x hx => by
      obtain ⟨g, hg, hle⟩ := h.up x hx
      exact ⟨g, (hgray g).mpr hg, hle⟩
    down := fun g hg => h.down g ((hgray g).mp hg)
    low := fun g hg => h.low g ((hgray g).mp hg)
    closed := h.closed
    root := h.root
    same := h.same }

/-- A pending successor that has an index and is off the stack is done with. -/
theorem Inv.skip {node s : α} (h : Inv G (some (node, s)) st) (hi : st.index s ≠ none)
    (hs : s ∉ st.stack) : Inv G none st :=
  { h with
    taken := by
      intro f hf
      obtain ⟨d, hd, hy⟩ := h.taken f hf
      refine ⟨d, hd, fun y hyd _ => ?_⟩
      by_cases hp : some (node, s) = some (f.1, y)
      · obtain ⟨-, rfl⟩ := Prod.mk.inj (Option.some.inj hp)
        exact ⟨hi, fun h => absurd h hs⟩
      · exact hy y hyd hp }

/-- A pending successor on the stack lowers the link of the top frame. -/
theorem Inv.lower {node s : α} {i : Nat} {it : List α} {work : List (α × List α)}
    (h : Inv G (some (node, s)) st) (hw : st.work = (node, it) :: work) (hedge : G.Edge node s)
    (hi : st.index s = some i) (hs : s ∈ st.stack) :
    Inv G none { st with low := Function.update st.low node (min (st.low node) i) } := by
  have hidx : st.idx s = i := by rw [idx, hi]; rfl
  have hgray : st.Gray node := ⟨it, by rw [hw]; exact List.mem_cons_self ..⟩
  -- low values only sink
  have hle : ∀ x, Function.update st.low node (min (st.low node) i) x ≤ st.low x := by
    intro x
    rcases eq_or_ne x node with rfl | hx
    · simp
    · rw [Function.update_of_ne hx]
  exact {
    fresh := h.fresh
    onStack := h.onStack
    indexed := h.indexed
    sorted := h.sorted
    grayStack := h.grayStack
    graySorted := h.graySorted
    taken := by
      intro f hf
      obtain ⟨d, hd, hy⟩ := h.taken f hf
      refine ⟨d, hd, fun y hyd _ => ?_⟩
      by_cases hp : some (node, s) = some (f.1, y)
      -- the edge just taken counts from here on
      · obtain ⟨hnode, rfl⟩ := Prod.mk.inj (Option.some.inj hp)
        refine ⟨by rw [hi]; simp, fun _ => ?_⟩
        show Function.update st.low node _ f.1 ≤ st.idx s
        rw [← hnode, Function.update_self, hidx]
        exact min_le_right ..
      · obtain ⟨hy₁, hy₂⟩ := hy y hyd hp
        exact ⟨hy₁, fun h => (hle f.1).trans (hy₂ h)⟩
    black := h.black
    owned := fun x hx hg g hown y hy hxy => (hle g).trans (h.owned x hx hg g hown y hy hxy)
    up := h.up
    down := h.down
    low := by
      intro g hg
      obtain ⟨w, hw', hlow, hlt, hreach⟩ := h.low g hg
      rcases eq_or_ne g node with rfl | hne
      · rcases le_total (st.low g) i with hmin | hmin
        · exact ⟨w, hw', by simp [hmin]; exact hlow, by simp [hmin]; exact hlt, hreach⟩
        · refine ⟨s, hs, by simp [hmin]; exact hidx, ?_, .single hedge⟩
          show Function.update st.low g _ g ≤ st.idx g
          exact (hle g).trans hlt
      · refine ⟨w, hw', ?_, ?_, hreach⟩
        · show st.idx w = Function.update st.low node _ g
          rw [Function.update_of_ne hne, hlow]
        · exact (hle g).trans hlt
    closed := h.closed
    root := h.root
    same := h.same }

/-- A node is met: from a closed search, or along the pending edge of the top frame. -/
theorem Inv.enter {s : α} (h : Inv G p st) (hs : st.index s = none)
    (hp : (st.work = [] ∧ p = none) ∨ ∃ node it work, st.work = (node, it) :: work ∧
      p = some (node, s) ∧ G.Edge node s) : Inv G none (enter G s st) := by
  have hne : ∀ {x}, st.index x ≠ none → x ≠ s := by
    rintro x hx rfl
    exact hx hs
  have hstack : ∀ {x}, x ∈ st.stack → st.index x ≠ none := fun hx => ((h.onStack _).mp hx).1
  have hindex : ∀ {x}, x ≠ s → (Search.enter G s st).index x = st.index x :=
    fun hx => Function.update_of_ne hx ..
  have hidx : ∀ {x}, x ≠ s → (Search.enter G s st).idx x = st.idx x :=
    fun hx => by rw [idx, idx, hindex hx]
  have hself : (Search.enter G s st).idx s = st.counter := by
    rw [idx, Search.enter]
    simp
  have hlow : ∀ {x}, x ≠ s → (Search.enter G s st).low x = st.low x :=
    fun hx => Function.update_of_ne hx ..
  have hfresh : ∀ {x}, x ∈ st.stack → st.idx x < st.counter :=
    fun hx => h.fresh _ (hstack hx)
  have hgray : ∀ {x}, (Search.enter G s st).Gray x ↔ x = s ∨ st.Gray x := by
    intro x
    simp only [Gray, Search.enter, List.mem_cons, Prod.mk.injEq, exists_or]
    simp
  have hgs : ∀ {x}, st.Gray x → x ≠ s := fun hx => hne (hstack (h.grayStack _ hx))
  exact {
    fresh := by
      intro x hx
      rcases eq_or_ne x s with rfl | hxs
      · rw [hself]
        exact Nat.lt_succ_self _
      · rw [hidx hxs]
        rw [hindex hxs] at hx
        exact Nat.lt_succ_of_lt (h.fresh x hx)
    onStack := by
      intro x
      show x ∈ s :: st.stack ↔ (Search.enter G s st).index x ≠ none ∧ st.comp x = none
      rcases eq_or_ne x s with rfl | hxs
      · refine iff_of_true (List.mem_cons_self ..) ⟨by simp [Search.enter], ?_⟩
        by_contra hc
        exact h.indexed x hc hs
      · rw [hindex hxs, List.mem_cons, or_iff_right hxs, h.onStack]
    indexed := by
      intro x hx
      have := h.indexed x hx
      rwa [hindex (hne this)]
    sorted := by
      refine List.pairwise_cons.mpr ⟨fun x hx => ?_, h.sorted.imp_of_mem fun hx hy hlt => ?_⟩
      · rw [hself, hidx (hne (hstack hx))]
        exact hfresh hx
      · rwa [hidx (hne (hstack hx)), hidx (hne (hstack hy))]
    grayStack := by
      intro x hx
      rcases hgray.mp hx with rfl | hx
      · exact List.mem_cons_self ..
      · exact List.mem_cons_of_mem _ (h.grayStack x hx)
    graySorted := by
      refine List.pairwise_cons.mpr ⟨fun f hf => ?_, h.graySorted.imp_of_mem fun hf hf' hlt => ?_⟩
      · have hf' := h.grayStack f.1 ⟨f.2, hf⟩
        rw [hself, hidx (hne (hstack hf'))]
        exact hfresh hf'
      · rwa [hidx (hgs ⟨_, hf⟩), hidx (hgs ⟨_, hf'⟩)]
    taken := by
      intro f hf
      rcases List.mem_cons.mp hf with rfl | hold
      · exact ⟨[], rfl, fun _ hy => absurd hy List.not_mem_nil⟩
      · have hfs : f.1 ≠ s := hgs ⟨f.2, hold⟩
        obtain ⟨d, hd, hy⟩ := h.taken f hold
        refine ⟨d, hd, fun y hyd _ => ?_⟩
        rw [hlow hfs]
        rcases eq_or_ne y s with rfl | hys
        · -- the low link of an older frame is below the new index
          obtain ⟨-, -, -, hle, -⟩ := h.low f.1 ⟨f.2, hold⟩
          have := hfresh (h.grayStack f.1 ⟨f.2, hold⟩)
          refine ⟨by simp [Search.enter], fun _ => ?_⟩
          rw [hself]
          omega
        · have hpend : p ≠ some (f.1, y) := by
            rcases hp with ⟨-, rfl⟩ | ⟨node, it, work, -, rfl, -⟩
            · simp
            · intro heq
              exact hys (Prod.mk.inj (Option.some.inj heq)).2.symm
          obtain ⟨hy₁, hy₂⟩ := hy y hyd hpend
          rw [hindex hys, hidx hys]
          exact ⟨hy₁, fun hmem => hy₂ ((List.mem_cons.mp hmem).resolve_left hys)⟩
    black := by
      intro x hx hg y hxy
      have hxs : x ≠ s := fun h => hg (hgray.mpr (Or.inl h))
      rw [hindex hxs] at hx
      have hy := h.black x hx (fun h => hg (hgray.mpr (Or.inr h))) y hxy
      rwa [hindex (hne hy)]
    owned := by
      intro x hx hg g hown y hy hxy
      have hxs : x ≠ s := fun h => hg (hgray.mpr (Or.inl h))
      have hx' : x ∈ st.stack := (List.mem_cons.mp hx).resolve_left hxs
      have hxg : ¬ st.Gray x := fun h => hg (hgray.mpr (Or.inr h))
      obtain ⟨hgg, hle, hmax⟩ := hown
      have hgne : g ≠ s := by
        rintro rfl
        rw [hself, hidx hxs] at hle
        exact absurd (hfresh hx') (not_lt.mpr hle)
      have hyi := h.black x (hstack hx') hxg y hxy
      have hys := hne hyi
      rw [hidx hgne, hidx hxs] at hle
      rw [hlow hgne, hidx hys]
      refine h.owned x hx' hxg g ⟨(hgray.mp hgg).resolve_left hgne, hle, fun k hk hkx => ?_⟩ y
        ((List.mem_cons.mp hy).resolve_left hys) hxy
      have := hmax k (hgray.mpr (Or.inr hk))
      rw [hidx (hgs hk), hidx hxs, hidx hgne] at this
      exact this hkx
    up := by
      intro x hx
      rcases List.mem_cons.mp hx with rfl | hx
      · exact ⟨x, hgray.mpr (Or.inl rfl), le_rfl, .refl⟩
      · obtain ⟨g, hg, hle, hreach⟩ := h.up x hx
        refine ⟨g, hgray.mpr (Or.inr hg), ?_, hreach⟩
        rwa [hidx (hgs hg), hidx (hne (hstack hx))]
    down := by
      intro g hg x hx hle
      rcases List.mem_cons.mp hx with rfl | hx
      · rcases hgray.mp hg with rfl | hg
        · exact .refl
        · rcases hp with ⟨hw, -⟩ | ⟨node, it, work, hw, -, hedge⟩
          · obtain ⟨_, hg⟩ := hg
            rw [hw] at hg
            cases hg
          · have hnode : node ∈ st.stack :=
              h.grayStack node ⟨it, by rw [hw]; exact List.mem_cons_self ..⟩
            exact (h.down g hg node hnode (h.idx_le_top hw hg)).tail hedge
      · have hxs := hne (hstack hx)
        have hxc := hfresh hx
        rcases hgray.mp hg with rfl | hg
        · rw [hself, hidx hxs] at hle
          exact absurd hxc (not_lt.mpr hle)
        · rw [hidx (hgs hg), hidx hxs] at hle
          exact h.down g hg x hx hle
    low := by
      intro g hg
      rcases hgray.mp hg with rfl | hg
      · have hself' : (Search.enter G g st).low g = st.counter := by simp [Search.enter]
        exact ⟨g, List.mem_cons_self .., by rw [hself, hself'], by rw [hself, hself'], .refl⟩
      · obtain ⟨w, hw, heq, hle, hreach⟩ := h.low g hg
        refine ⟨w, List.mem_cons_of_mem _ hw, ?_, ?_, hreach⟩
        · rw [hlow (hgs hg), hidx (hne (hstack hw)), heq]
        · rwa [hlow (hgs hg), hidx (hgs hg)]
    closed := h.closed
    root := h.root
    same := h.same }

/-! ### Closing a frame -/

omit [DecidableEq α] in
/-- The frames that stay open. -/
private theorem Inv.gray_rest (h : Inv G p st) {node : α} {work : List (α × List α)}
    (hw : st.work = (node, []) :: work) {x : α} :
    (∃ it, (x, it) ∈ work) ↔ st.Gray x ∧ st.idx x < st.idx node := by
  constructor
  · rintro ⟨it, hx⟩
    exact ⟨⟨it, by rw [hw]; exact List.mem_cons_of_mem _ hx⟩, h.idx_lt_top hw hx⟩
  · rintro ⟨⟨it, hx⟩, hlt⟩
    rw [hw] at hx
    rcases List.mem_cons.mp hx with heq | hx
    · obtain ⟨rfl, -⟩ := Prod.mk.inj heq
      exact absurd hlt (lt_irrefl _)
    · exact ⟨it, hx⟩

omit [DecidableEq α] in
/-- The successors of the top frame, once none is left to look at. -/
private theorem Inv.top_taken (h : Inv G none st) {node : α} {work : List (α × List α)}
    (hw : st.work = (node, []) :: work) {y : α} (hy : G.Edge node y) :
    st.index y ≠ none ∧ (y ∈ st.stack → st.low node ≤ st.idx y) := by
  obtain ⟨d, hd, htaken⟩ := h.taken (node, []) (by rw [hw]; exact List.mem_cons_self ..)
  refine htaken y ?_ (by simp)
  rw [List.append_nil] at hd
  exact hd ▸ hy

omit [DecidableEq α] in
/-- Behind the top frame every successor on the stack is above its low link. -/
private theorem Inv.segment (h : Inv G none st) {node : α} {work : List (α × List α)}
    (hw : st.work = (node, []) :: work) {x y : α} (hx : x ∈ st.stack)
    (hle : st.idx node ≤ st.idx x) (hy : y ∈ st.stack) (hxy : G.Edge x y) :
    st.low node ≤ st.idx y := by
  by_cases hg : st.Gray x
  · -- an open frame that late is the top one
    have hnot := (not_congr (h.gray_rest hw (x := x))).mpr fun hlt => absurd hlt.2 (not_lt.mpr hle)
    obtain ⟨it, hx'⟩ := hg
    rw [hw] at hx'
    rcases List.mem_cons.mp hx' with heq | hx'
    · obtain ⟨rfl, -⟩ := Prod.mk.inj heq
      exact (h.top_taken hw hxy).2 hy
    · exact absurd ⟨it, hx'⟩ hnot
  · exact h.owned x hx hg node ⟨⟨[], by rw [hw]; exact List.mem_cons_self ..⟩, hle,
      fun k hk _ => h.idx_le_top hw hk⟩ y hy hxy

omit [DecidableEq α] in
/-- The successors of what is not among the frames that stay open have an index. -/
private theorem Inv.black_rest (h : Inv G none st) {node : α} {work : List (α × List α)}
    (hw : st.work = (node, []) :: work) {x y : α} (hx : st.index x ≠ none)
    (hg : ¬ ∃ it, (x, it) ∈ work) (hxy : G.Edge x y) : st.index y ≠ none := by
  by_cases hxg : st.Gray x
  · obtain ⟨it, hx'⟩ := hxg
    rw [hw] at hx'
    rcases List.mem_cons.mp hx' with heq | hx'
    · obtain ⟨rfl, -⟩ := Prod.mk.inj heq
      exact (h.top_taken hw hxy).1
    · exact absurd ⟨it, hx'⟩ hg
  · exact h.black x hx hxg y hxy

omit [DecidableEq α] in
/-- In front of the closed frame nothing changes about the owners. -/
private theorem Inv.owned_rest (h : Inv G none st) {node : α} {work : List (α × List α)}
    (hw : st.work = (node, []) :: work) {x y g : α} (hx : x ∈ st.stack)
    (hlt : st.idx x < st.idx node) (hxg : ¬ ∃ it, (x, it) ∈ work)
    (hg : ∃ it, (g, it) ∈ work) (hle : st.idx g ≤ st.idx x)
    (hmax : ∀ k, (∃ it, (k, it) ∈ work) → st.idx k ≤ st.idx x → st.idx k ≤ st.idx g)
    (hy : y ∈ st.stack) (hxy : G.Edge x y) : st.low g ≤ st.idx y := by
  refine h.owned x hx (fun hx' => hxg ((h.gray_rest hw).mpr ⟨hx', hlt⟩)) g
    ⟨((h.gray_rest hw).mp hg).1, hle, fun k hk hkx => ?_⟩ y hy hxy
  exact hmax k ((h.gray_rest hw).mpr ⟨hk, hkx.trans_lt hlt⟩) hkx

/-- A frame whose low link is older closes into its parent. -/
theorem Inv.close_into (h : Inv G none st) {node parent : α} {it : List α}
    {work : List (α × List α)} (hw : st.work = (node, []) :: (parent, it) :: work)
    (hlt : st.low node < st.idx node) :
    Inv G none { st with
      work := (parent, it) :: work
      low := Function.update st.low parent (min (st.low parent) (st.low node)) } := by
  have hle : ∀ x, Function.update st.low parent (min (st.low parent) (st.low node)) x ≤
      st.low x := by
    intro x
    rcases eq_or_ne x parent with rfl | hx
    · simp
    · rw [Function.update_of_ne hx]
  have hnode : st.Gray node := ⟨[], by rw [hw]; exact List.mem_cons_self ..⟩
  have hparent : st.Gray parent := ⟨it, by rw [hw]; simp⟩
  have hpn : st.idx parent < st.idx node := h.idx_lt_top hw (List.mem_cons_self ..)
  exact {
    fresh := h.fresh
    onStack := h.onStack
    indexed := h.indexed
    sorted := h.sorted
    grayStack := fun x hx => h.grayStack x ((h.gray_rest hw).mp hx).1
    graySorted := by
      have := h.graySorted
      rw [hw] at this
      exact (List.pairwise_cons.mp this).2
    taken := by
      intro f hf
      obtain ⟨d, hd, hy⟩ := h.taken f (by rw [hw]; exact List.mem_cons_of_mem _ hf)
      refine ⟨d, hd, fun y hyd hp => ?_⟩
      obtain ⟨hy₁, hy₂⟩ := hy y hyd hp
      exact ⟨hy₁, fun hmem => (hle f.1).trans (hy₂ hmem)⟩
    black := fun x hx hg y hxy => h.black_rest hw hx hg hxy
    owned := by
      intro x hx hg g hown y hy hxy
      obtain ⟨hgg, hgx, hmax⟩ := hown
      rcases lt_or_ge (st.idx x) (st.idx node) with hlt' | hge
      · exact (hle g).trans (h.owned_rest hw hx hlt' hg hgg hgx hmax hy hxy)
      · -- the parent is the last frame left, so it owns what the closed one did
        have hgp : g = parent := by
          obtain ⟨itg, hgw⟩ := hgg
          rcases List.mem_cons.mp hgw with heq | hgw
          · exact (Prod.mk.inj heq).1
          · have h₁ : st.idx g < st.idx parent := by
              have := h.graySorted
              rw [hw] at this
              exact (List.pairwise_cons.mp (List.pairwise_cons.mp this).2).1 _ hgw
            have h₂ := hmax parent ⟨it, List.mem_cons_self ..⟩ (hpn.le.trans hge)
            exact absurd h₁ (not_lt.mpr h₂)
        subst hgp
        show Function.update st.low g _ g ≤ st.idx y
        rw [Function.update_self]
        exact (min_le_right ..).trans (h.segment hw hx hge hy hxy)
    up := by
      intro x hx
      obtain ⟨g, hg, hgx, hreach⟩ := h.up x hx
      by_cases hgn : st.idx g < st.idx node
      · exact ⟨g, (h.gray_rest hw).mpr ⟨hg, hgn⟩, hgx, hreach⟩
      · -- the closed frame reaches an older one through its low link
        obtain ⟨w, hws, hwlow, -, hgw⟩ := h.low node hnode
        obtain ⟨k, hk, hkw, hwk⟩ := h.up w hws
        refine ⟨k, (h.gray_rest hw).mpr ⟨hk, by omega⟩, ?_, ?_⟩
        · show st.idx k ≤ st.idx x
          omega
        · have hgnode : G.Reaches g node :=
            h.down g hg node (h.grayStack node hnode) (h.idx_le_top hw hg)
          exact hreach.trans (hgnode.trans (hgw.trans hwk))
    down := fun g hg => h.down g ((h.gray_rest hw).mp hg).1
    low := by
      intro g hg
      obtain ⟨hgg, -⟩ := (h.gray_rest hw).mp hg
      obtain ⟨w, hws, heq, hlow, hreach⟩ := h.low g hgg
      rcases eq_or_ne g parent with rfl | hne
      · rcases le_total (st.low g) (st.low node) with hmin | hmin
        · refine ⟨w, hws, ?_, (hle g).trans hlow, hreach⟩
          show st.idx w = Function.update st.low g _ g
          rw [Function.update_self, min_eq_left hmin, heq]
        · obtain ⟨v, hvs, hvlow, -, hnv⟩ := h.low node hnode
          refine ⟨v, hvs, ?_, (hle g).trans hlow, ?_⟩
          · show st.idx v = Function.update st.low g _ g
            rw [Function.update_self, min_eq_right hmin, hvlow]
          · exact (h.down g hgg node (h.grayStack node hnode) hpn.le).trans hnv
      · refine ⟨w, hws, ?_, (hle g).trans hlow, hreach⟩
        show st.idx w = Function.update st.low parent _ g
        rw [Function.update_of_ne hne, heq]
    closed := h.closed
    root := h.root
    same := h.same }

/-- A frame whose low link is its own index closes a component: the stack down to its node. -/
theorem Inv.close_component (h : Inv G none st) {node : α} {work : List (α × List α)}
    (hw : st.work = (node, []) :: work) (hlow : st.low node = st.idx node) {a b : List α}
    (hstack : st.stack = a ++ node :: b) :
    Inv G none { st with
      work := work
      stack := b
      comp := fun x => if x ∈ node :: a then some node else st.comp x } := by
  have hnode : st.Gray node := ⟨[], by rw [hw]; exact List.mem_cons_self ..⟩
  have hsorted := h.sorted
  rw [hstack, List.pairwise_append] at hsorted
  obtain ⟨-, hsorted, hab⟩ := hsorted
  obtain ⟨hnb, hb⟩ := List.pairwise_cons.mp hsorted
  have hmem : ∀ {x}, x ∈ st.stack ↔ x ∈ node :: a ∨ x ∈ b := by
    intro x
    rw [hstack]
    simp only [List.mem_append, List.mem_cons]
    tauto
  -- the component lies behind the node, the rest in front of it
  have hin : ∀ {x}, x ∈ node :: a → st.idx node ≤ st.idx x := by
    intro x hx
    rcases List.mem_cons.mp hx with rfl | hx
    · exact le_rfl
    · exact (hab x hx node (List.mem_cons_self ..)).le
  have hout : ∀ {x}, x ∈ st.stack → (x ∈ b ↔ st.idx x < st.idx node) := by
    intro x hx
    refine ⟨hnb x, fun hlt => (hmem.mp hx).resolve_left fun hx => ?_⟩
    exact absurd hlt (not_lt.mpr (hin hx))
  have hcomp : ∀ {x}, x ∈ node :: a → st.index x ≠ none ∧ st.comp x = none :=
    fun hx => (h.onStack _).mp (hmem.mpr (Or.inl hx))
  have hne : ∀ x, (if x ∈ node :: a then some node else st.comp x) ≠ none ↔
      x ∈ node :: a ∨ st.comp x ≠ none := by
    intro x
    by_cases hx : x ∈ node :: a
    · simp [hx]
    · simp only [hx, if_false, false_or]
  have hsegment : ∀ {x y}, x ∈ node :: a → G.Edge x y → y ∈ node :: a ∨ st.comp y ≠ none := by
    intro x y hx hxy
    have hxg : ¬ ∃ it, (x, it) ∈ work := fun hg =>
      absurd ((h.gray_rest hw).mp hg).2 (not_lt.mpr (hin hx))
    have hy := h.black_rest hw (hcomp hx).1 hxg hxy
    by_cases hys : y ∈ st.stack
    · have := h.segment hw (hmem.mpr (Or.inl hx)) (hin hx) hys hxy
      refine Or.inl ((hmem.mp hys).resolve_right fun hyb => ?_)
      exact absurd ((hout hys).mp hyb) (not_lt.mpr (hlow ▸ this))
    · exact Or.inr fun hc => hys ((h.onStack y).mpr ⟨hy, hc⟩)
  have hmutual : ∀ {x}, x ∈ node :: a → G.Reaches x node ∧ G.Reaches node x := by
    intro x hx
    have hxs := hmem.mpr (Or.inl hx)
    obtain ⟨g, hg, -, hreach⟩ := h.up x hxs
    exact ⟨hreach.trans (h.down g hg node (h.grayStack node hnode) (h.idx_le_top hw hg)),
      h.down node hnode x hxs (hin hx)⟩
  exact {
    fresh := h.fresh
    onStack := by
      intro x
      show x ∈ b ↔ st.index x ≠ none ∧ (if x ∈ node :: a then some node else st.comp x) = none
      by_cases hx : x ∈ node :: a
      · rw [if_pos hx]
        refine iff_of_false (fun hxb => ?_) (by simp)
        exact absurd (hnb x hxb) (not_lt.mpr (hin hx))
      · rw [if_neg hx, ← h.onStack, hmem, or_iff_right hx]
    indexed := fun x hx => ((hne x).mp hx).elim (fun hx => (hcomp hx).1) (h.indexed x)
    sorted := hb
    grayStack := by
      intro x hx
      obtain ⟨hg, hlt⟩ := (h.gray_rest hw).mp hx
      exact (hout (h.grayStack x hg)).mpr hlt
    graySorted := by
      have := h.graySorted
      rw [hw] at this
      exact (List.pairwise_cons.mp this).2
    taken := by
      intro f hf
      obtain ⟨d, hd, hy⟩ := h.taken f (by rw [hw]; exact List.mem_cons_of_mem _ hf)
      refine ⟨d, hd, fun y hyd hp => ?_⟩
      obtain ⟨hy₁, hy₂⟩ := hy y hyd hp
      exact ⟨hy₁, fun hyb => hy₂ (hmem.mpr (Or.inr hyb))⟩
    black := fun x hx hg y hxy => h.black_rest hw hx hg hxy
    owned := fun x hx hg g hown y hy hxy =>
      h.owned_rest hw (hmem.mpr (Or.inr hx)) (hnb x hx) hg hown.1 hown.2.1 hown.2.2
        (hmem.mpr (Or.inr hy)) hxy
    up := by
      intro x hx
      obtain ⟨g, hg, hgx, hreach⟩ := h.up x (hmem.mpr (Or.inr hx))
      exact ⟨g, (h.gray_rest hw).mpr ⟨hg, hgx.trans_lt (hnb x hx)⟩, hgx, hreach⟩
    down := fun g hg x hx => h.down g ((h.gray_rest hw).mp hg).1 x (hmem.mpr (Or.inr hx))
    low := by
      intro g hg
      obtain ⟨hg, hlt⟩ := (h.gray_rest hw).mp hg
      obtain ⟨w, hws, heq, hle, hreach⟩ := h.low g hg
      exact ⟨w, (hout hws).mpr (by omega), heq, hle, hreach⟩
    closed := by
      intro x y hx hxy
      rcases (hne x).mp hx with hx | hx
      · exact (hne y).mpr (hsegment hx hxy)
      · exact (hne y).mpr (Or.inr (h.closed x y hx hxy))
    root := by
      intro x r hr
      by_cases hx : x ∈ node :: a
      · obtain rfl : node = r := Option.some.inj ((if_pos hx).symm.trans hr)
        exact hmutual hx
      · exact h.root x r ((if_neg hx).symm.trans hr)
    same := by
      intro x y hx hy hxy hyx
      -- no path leads from an older component into the new one
      have hcross : ∀ {x y}, x ∈ node :: a → st.comp y ≠ none → ¬ G.Reaches y x :=
        fun hx hy hyx => h.comp_of_reaches hy hyx (hcomp hx).2
      have hold : ∀ {x}, x ∉ node :: a →
          (if x ∈ node :: a then some node else st.comp x) = st.comp x := fun hx => if_neg hx
      show (if x ∈ node :: a then some node else st.comp x) =
        if y ∈ node :: a then some node else st.comp y
      by_cases hxa : x ∈ node :: a
      · by_cases hya : y ∈ node :: a
        · rw [if_pos hxa, if_pos hya]
        · exact absurd hyx (hcross hxa (((hne y).mp hy).resolve_left hya))
      · by_cases hya : y ∈ node :: a
        · exact absurd hxy (hcross hya (((hne x).mp hx).resolve_left hxa))
        · rw [hold hxa, hold hya]
          exact h.same x y (((hne x).mp hx).resolve_left hxa)
            (((hne y).mp hy).resolve_left hya) hxy hyx }

/-- The stack is cut at a node on it. -/
private theorem cut_stack {node : α} {l : List α} (h : node ∈ l) :
    l = l.takeWhile (· ≠ node) ++ node :: (l.dropWhile (· ≠ node)).tail := by
  induction l with
  | nil => cases h
  | cons x l ih =>
    rcases eq_or_ne x node with rfl | hx
    · simp
    · have hcut := ih ((List.mem_cons.mp h).resolve_left (Ne.symm hx))
      rw [List.takeWhile_cons_of_pos (by simpa using hx),
        List.dropWhile_cons_of_pos (by simpa using hx), List.cons_append, ← hcut]

/-- The end of a frame keeps the invariant. -/
theorem Inv.leave (h : Inv G none st) {node : α} {work : List (α × List α)}
    (hw : st.work = (node, []) :: work) : Inv G none (leave node { st with work := work }) := by
  have hnode : st.Gray node := ⟨[], by rw [hw]; exact List.mem_cons_self ..⟩
  have hstack := h.grayStack node hnode
  obtain ⟨w, hws, hwlow, hle, -⟩ := h.low node hnode
  obtain ⟨i, hi⟩ := Option.ne_none_iff_exists'.mp ((h.onStack node).mp hstack).1
  have hidx : st.idx node = i := by rw [idx, hi]; rfl
  rw [Search.leave]
  by_cases hroot : st.low node = st.idx node
  · -- the low link of the parent is older already
    have hsame : passLow st.low node work = st.low := by
      cases hwork : work with
      | nil => rfl
      | cons f fs =>
        obtain ⟨-, -, -, hple, -⟩ := h.low f.1 ⟨f.2, by rw [hw, hwork]; simp⟩
        have hlt := h.idx_lt_top hw (f := f) (by rw [hwork]; exact List.mem_cons_self ..)
        exact Function.update_eq_self_iff.mpr (min_eq_left (by omega))
    rw [if_pos (hi.trans (by rw [hroot, hidx]))]
    simp only [hsame]
    exact h.close_component hw hroot (cut_stack hstack)
  · rw [if_neg (fun heq => hroot (hidx.trans (Option.some.inj (hi.symm.trans heq))).symm)]
    cases work with
    | nil =>
      -- a low link below the only open frame would reach an older one
      obtain ⟨k, hk, hkw, -⟩ := h.up w hws
      have := (h.gray_rest hw).mpr ⟨hk, by omega⟩
      obtain ⟨it, hmem⟩ := this
      cases hmem
    | cons f fs => exact h.close_into hw (by omega)

/-- Every step keeps the invariant. -/
theorem Inv.step {st' : Search α} (h : Inv G none st) (hstep : step G st = some st') :
    Inv G none st' := by
  rcases step_cases hstep with ⟨node, work, hw, rfl⟩ | ⟨node, succ, it, work, hw, hcases⟩
  · exact h.leave hw
  · obtain ⟨d, hd, -⟩ := h.taken (node, succ :: it) (by rw [hw]; exact List.mem_cons_self ..)
    have hedge : G.Edge node succ := by
      rw [Edge, hd]
      simp
    rcases hcases with ⟨hn, -⟩ | ⟨-, hi, rfl⟩ | ⟨i, hi, hs, rfl⟩ | ⟨hi, hs, rfl⟩
    · exact absurd (G.target hedge) hn
    · exact (h.take hw).enter hi (Or.inr ⟨node, it, work, rfl, rfl, hedge⟩)
    · exact (h.take hw).lower rfl hedge hi hs
    · exact (h.take hw).skip hi hs

end

/-! ### The components -/

section

variable {G : SuccGraph α} {st : Search α}

/-- A node that was met stays so. -/
private theorem index_step {st' : Search α} (hstep : step G st = some st') {x : α}
    (hx : st.index x ≠ none) : st'.index x ≠ none := by
  rcases step_cases hstep with ⟨node, work, hw, rfl⟩ | ⟨node, succ, it, work, hw, hcases⟩
  · rwa [leave_index]
  · rcases hcases with ⟨-, rfl⟩ | ⟨-, -, rfl⟩ | ⟨i, -, -, rfl⟩ | ⟨-, -, rfl⟩
    · exact hx
    · rcases eq_or_ne x succ with rfl | hne
      · simp [enter]
      · simpa [enter, Function.update_of_ne hne] using hx
    · exact hx
    · exact hx

/-- Between two roots the invariant holds and no frame is open. -/
private theorem visitRoot_spec (h : Inv G none st) (hw : st.work = []) (root : α) :
    Inv G none (visitRoot G st root) ∧ (visitRoot G st root).work = [] ∧
      (visitRoot G st root).index root ≠ none ∧
        ∀ x, st.index x ≠ none → (visitRoot G st root).index x ≠ none := by
  rw [visitRoot]
  split_ifs with hi
  · exact ⟨h, hw, Option.isSome_iff_ne_none.mp hi, fun _ hx => hx⟩
  · have hroot : st.index root = none := Option.not_isSome_iff_eq_none.mp hi
    obtain ⟨hsteps, hhalt⟩ := steps_drain (fun _ _ => measure_step (G := G)) (enter G root st)
    have hinv := hsteps.invariant (P := Inv G none) (fun _ _ h hs => h.step hs)
      (h.enter hroot (Or.inl ⟨hw, rfl⟩))
    have hindex : ∀ x, (enter G root st).index x ≠ none →
        (drain (step G) (measure G) (fun _ _ => measure_step) (enter G root st)).index x ≠ none :=
      fun x hx => hsteps.invariant (P := fun st => st.index x ≠ none)
        (fun _ _ h hs => index_step hs h) hx
    refine ⟨hinv, ?_, hindex root (by simp [enter]), fun x hx => hindex x ?_⟩
    · exact work_of_step_eq_none hhalt
    · rcases eq_or_ne x root with rfl | hne
      · simp [enter]
      · simpa [enter, Function.update_of_ne hne] using hx

private theorem foldl_visitRoot (h : Inv G none st) (hw : st.work = []) (roots : List α) :
    Inv G none (roots.foldl (visitRoot G) st) ∧ (roots.foldl (visitRoot G) st).work = [] ∧
      ∀ x, x ∈ roots ∨ st.index x ≠ none → (roots.foldl (visitRoot G) st).index x ≠ none := by
  induction roots generalizing st with
  | nil => exact ⟨h, hw, fun x hx => hx.resolve_left List.not_mem_nil⟩
  | cons r rs ih =>
    obtain ⟨hinv, hwork, hroot, hmono⟩ := visitRoot_spec h hw r
    obtain ⟨hinv', hwork', hmem⟩ := ih hinv hwork
    refine ⟨hinv', hwork', fun x hx => hmem x ?_⟩
    rcases hx with hx | hx
    · rcases List.mem_cons.mp hx with rfl | hx
      · exact Or.inr hroot
      · exact Or.inl hx
    · exact Or.inr (hmono x hx)

end

end Search

/-- The component of a node, named by one of its members. -/
def component (G : SuccGraph α) (x : α) : Option α := (Search.search G).comp x

private theorem search_spec (G : SuccGraph α) : Search.Inv G none (Search.search G) ∧
    ∀ x ∈ G.nodes, (Search.search G).comp x ≠ none := by
  obtain ⟨hinv, hwork, hindex⟩ := Search.foldl_visitRoot (Search.inv_start G) rfl G.nodes
  refine ⟨hinv, fun x hx hc => ?_⟩
  -- without an open frame the stack is empty
  obtain ⟨g, ⟨it, hg⟩, -⟩ := hinv.up x ((hinv.onStack x).mpr ⟨hindex x (Or.inl hx), hc⟩)
  rw [hwork] at hg
  cases hg

/-- Two nodes are in the same component exactly when each reaches the other. -/
theorem component_eq_iff (G : SuccGraph α) {x y : α} (hx : x ∈ G.nodes) (hy : y ∈ G.nodes) :
    G.component x = G.component y ↔ G.Reaches x y ∧ G.Reaches y x := by
  obtain ⟨hinv, hcomp⟩ := search_spec G
  constructor
  · intro heq
    obtain ⟨r, hr⟩ := Option.ne_none_iff_exists'.mp (hcomp x hx)
    obtain ⟨hxr, hrx⟩ := hinv.root x r hr
    obtain ⟨hyr, hry⟩ := hinv.root y r (heq.symm.trans hr)
    exact ⟨hxr.trans hry, hyr.trans hrx⟩
  · rintro ⟨hxy, hyx⟩
    exact hinv.same x y (hcomp x hx) (hcomp y hy) hxy hyx

end SuccGraph
