import Mathlib.Data.List.Basic
import Mathlib.Data.List.Nodup
import Mathlib.Data.Finset.Card
import Mathlib.Logic.Relation

/-!
# Depth-first search

A search over a directed graph whose successors come in a listed order. A node behind a closed
gate is never entered. The search keeps a gray list, the nodes entered and not yet left, and a
black list, the nodes it is done with.

`Explore` is the big-step semantics of the search: from gray `g` and black `b`, the nodes `es`
are looked at in order, which leaves black `b'` and the trace `t`. Four results carry the
development: the search ends on every graph with finitely many nodes that have successors
(`exists_explore`), it enters the reachable nodes and no other (`mem_entered_iff`), in the order
of the recursive preorder (`Explore.preorder`), and a gray node is met again if and only if a
reachable cycle exists (`exists_back_iff`).
-/

namespace DepthFirst

variable {α : Type*}

/-- A graph as the search reads it. -/
structure Graph (α : Type*) where
  /-- Whether the node may be entered. -/
  gate : α → Bool
  /-- The successors in the order they are taken. -/
  succ : α → List α

/-- What the search notices: a node entered, or a gray node met again. -/
inductive Event (α : Type*)
  | enter (a : α)
  | back (a : α)
deriving DecidableEq

/-- The nodes entered, in order. -/
def entered : List (Event α) → List α
  | [] => []
  | .enter a :: t => a :: entered t
  | .back _ :: t => entered t

@[simp] theorem entered_append (s t : List (Event α)) :
    entered (s ++ t) = entered s ++ entered t := by
  induction s with
  | nil => rfl
  | cons e s ih => cases e <;> simp [entered, ih]

theorem mem_entered {t : List (Event α)} {a : α} : a ∈ entered t ↔ .enter a ∈ t := by
  induction t with
  | nil => simp [entered]
  | cons e t ih => cases e <;> simp [entered, ih]

namespace Graph

/-- An edge between two nodes that may be entered. -/
def Edge (G : Graph α) (a b : α) : Prop :=
  G.gate a = true ∧ G.gate b = true ∧ b ∈ G.succ a

/-- `a` is reached from `s` through nodes that may all be entered. -/
def Reaches (G : Graph α) (s a : α) : Prop :=
  G.gate s = true ∧ Relation.ReflTransGen G.Edge s a

/-- A cycle can be reached from `s`. -/
def CycleFrom (G : Graph α) (s : α) : Prop :=
  ∃ a, G.Reaches s a ∧ Relation.TransGen G.Edge a a

theorem Reaches.gate {G : Graph α} {s a : α} (h : G.Reaches s a) : G.gate a = true := by
  obtain ⟨hs, hp⟩ := h
  cases hp with
  | refl => exact hs
  | tail _ he => exact he.2.1

end Graph

/-- The search from gray `g` and black `b` looks at `es` in order; it leaves black `b'` and the
trace `t`. -/
inductive Explore (G : Graph α) : List α → List α → List α → List α → List (Event α) → Prop
  /-- Nothing is left to look at. -/
  | done {g b} : Explore G g b [] b []
  /-- A black node is passed over. -/
  | skip {g b e es b' t} : e ∈ b → Explore G g b es b' t → Explore G g b (e :: es) b' t
  /-- A gray node closes a cycle. -/
  | back {g b e es b' t} : e ∉ b → e ∈ g → Explore G g b es b' t →
      Explore G g b (e :: es) b' (.back e :: t)
  /-- A node with a closed gate turns black. -/
  | shut {g b e es b' t} : e ∉ b → e ∉ g → G.gate e = false → Explore G g (e :: b) es b' t →
      Explore G g b (e :: es) b' t
  /-- A fresh node is gray while its successors are searched, and black afterwards. -/
  | enter {g b e es b₁ b' t₁ t} : e ∉ b → e ∉ g → G.gate e = true →
      Explore G (e :: g) b (G.succ e) b₁ t₁ → Explore G g (e :: b₁) es b' t →
      Explore G g b (e :: es) b' (.enter e :: t₁ ++ t)

/-- The depth-first preorder: the fresh nodes of the trees hanging from `es`, each in front of
the trees of its successors. -/
inductive Preorder (G : Graph α) : List α → List α → List α → Prop
  | done {v} : Preorder G v [] []
  | seen {v e es o} : e ∈ v → Preorder G v es o → Preorder G v (e :: es) o
  | shut {v e es o} : e ∉ v → G.gate e = false → Preorder G v es o → Preorder G v (e :: es) o
  | enter {v e es o₁ o} : e ∉ v → G.gate e = true → Preorder G (e :: v) (G.succ e) o₁ →
      Preorder G (e :: o₁ ++ v) es o → Preorder G v (e :: es) (e :: o₁ ++ o)

/-- The preorder is determined by the graph. -/
theorem Preorder.unique {G : Graph α} {v es o o' : List α} (h : Preorder G v es o)
    (h' : Preorder G v es o') : o = o' := by
  induction h generalizing o' with
  | done => cases h'; rfl
  | seen hv _ ih =>
    cases h' with
    | seen _ h => exact ih h
    | shut hv' => exact absurd hv hv'
    | enter hv' => exact absurd hv hv'
  | shut hv hg _ ih =>
    cases h' with
    | seen hv' => exact absurd hv' hv
    | shut _ _ h => exact ih h
    | enter _ hg' => rw [hg] at hg'; cases hg'
  | enter hv hg _ _ ih₁ ih =>
    cases h' with
    | seen hv' => exact absurd hv' hv
    | shut _ hg' => rw [hg] at hg'; cases hg'
    | enter _ _ h₁ h =>
      cases ih₁ h₁
      rw [ih h]

/-- The search is determined by the graph. -/
theorem Explore.unique {G : Graph α} {g b es b' b'' : List α} {t t' : List (Event α)}
    (h : Explore G g b es b' t) (h' : Explore G g b es b'' t') : b' = b'' ∧ t = t' := by
  induction h generalizing b'' t' with
  | done => cases h'; exact ⟨rfl, rfl⟩
  | skip hb _ ih =>
    cases h' with
    | skip _ h => exact ih h
    | back hb' => exact absurd hb hb'
    | shut hb' => exact absurd hb hb'
    | enter hb' => exact absurd hb hb'
  | back hb hg _ ih =>
    cases h' with
    | skip hb' => exact absurd hb' hb
    | back _ _ h =>
      obtain ⟨rfl, rfl⟩ := ih h
      exact ⟨rfl, rfl⟩
    | shut _ hg' => exact absurd hg hg'
    | enter _ hg' => exact absurd hg hg'
  | shut hb hg hgate _ ih =>
    cases h' with
    | skip hb' => exact absurd hb' hb
    | back _ hg' => exact absurd hg' hg
    | shut _ _ _ h => exact ih h
    | enter _ _ hgate' => rw [hgate] at hgate'; cases hgate'
  | enter hb hg hgate _ _ ih₁ ih =>
    cases h' with
    | skip hb' => exact absurd hb' hb
    | back _ hg' => exact absurd hg' hg
    | shut _ _ hgate' => rw [hgate] at hgate'; cases hgate'
    | enter _ _ _ h₁ h =>
      obtain ⟨rfl, rfl⟩ := ih₁ h₁
      obtain ⟨rfl, rfl⟩ := ih h
      exact ⟨rfl, rfl⟩

/-! ### What the search leaves behind -/

section

variable {G : Graph α} {g b es b' : List α} {t : List (Event α)}

/-- Black afterwards is black before, entered, or shut out by the gate. -/
theorem Explore.mem_black (h : Explore G g b es b' t) {a : α} :
    a ∈ b' → a ∈ b ∨ a ∈ entered t ∨ G.gate a = false := by
  induction h with
  | done => exact Or.inl
  | skip _ _ ih => exact ih
  | back _ _ _ ih => exact ih
  | shut _ _ hg _ ih =>
    intro ha
    rcases ih ha with hb | h
    · rcases List.mem_cons.mp hb with rfl | hb
      · exact Or.inr (Or.inr hg)
      · exact Or.inl hb
    · exact Or.inr h
  | enter _ _ _ _ _ ih₁ ih =>
    intro ha
    simp only [List.cons_append, entered, entered_append, List.mem_cons, List.mem_append]
    rcases ih ha with hb | h | h
    · rcases List.mem_cons.mp hb with rfl | hb
      · exact Or.inr (Or.inl (Or.inl rfl))
      · rcases ih₁ hb with h | h | h
        · exact Or.inl h
        · exact Or.inr (Or.inl (Or.inr (Or.inl h)))
        · exact Or.inr (Or.inr h)
    · exact Or.inr (Or.inl (Or.inr (Or.inr h)))
    · exact Or.inr (Or.inr h)

/-- Black stays black. -/
theorem Explore.black_subset (h : Explore G g b es b' t) : b ⊆ b' := by
  induction h with
  | done => exact List.Subset.refl _
  | skip _ _ ih => exact ih
  | back _ _ _ ih => exact ih
  | shut _ _ _ _ ih => exact List.subset_of_cons_subset ih
  | enter _ _ _ _ _ ih₁ ih => exact List.Subset.trans ih₁ (List.subset_of_cons_subset ih)

/-- What is entered ends up black. -/
theorem Explore.entered_subset (h : Explore G g b es b' t) : entered t ⊆ b' := by
  induction h with
  | done => exact List.nil_subset _
  | skip _ _ ih => exact ih
  | back _ _ _ ih => exact ih
  | shut _ _ _ _ ih => exact ih
  | enter _ _ _ _ h ih₁ ih =>
    intro a ha
    simp only [List.cons_append, entered, entered_append, List.mem_cons, List.mem_append] at ha
    have hb := h.black_subset
    rcases ha with rfl | ha | ha
    · exact hb (List.mem_cons_self ..)
    · exact hb (List.mem_cons_of_mem _ (ih₁ ha))
    · exact ih ha

/-- A node is entered only when it is fresh and its gate is open. -/
theorem Explore.fresh (h : Explore G g b es b' t) {a : α} (ha : a ∈ entered t) :
    a ∉ g ∧ a ∉ b ∧ G.gate a = true := by
  induction h with
  | done => cases ha
  | skip _ _ ih => exact ih ha
  | back _ _ _ ih => exact ih ha
  | shut _ _ _ _ ih =>
    obtain ⟨hg, hb, hgate⟩ := ih ha
    exact ⟨hg, fun h => hb (List.mem_cons_of_mem _ h), hgate⟩
  | enter hb hg hgate h₁ _ ih₁ ih =>
    simp only [List.cons_append, entered, entered_append, List.mem_cons, List.mem_append] at ha
    rcases ha with rfl | ha | ha
    · exact ⟨hg, hb, hgate⟩
    · obtain ⟨hg', hb', hgate'⟩ := ih₁ ha
      exact ⟨fun h => hg' (List.mem_cons_of_mem _ h), hb', hgate'⟩
    · obtain ⟨hg', hb', hgate'⟩ := ih ha
      exact ⟨hg', fun h => hb' (List.mem_cons_of_mem _ (h₁.black_subset h)), hgate'⟩

/-- No node is entered twice. -/
theorem Explore.nodup (h : Explore G g b es b' t) : (entered t).Nodup := by
  induction h with
  | done => exact List.nodup_nil
  | skip _ _ ih => exact ih
  | back _ _ _ ih => exact ih
  | shut _ _ _ _ ih => exact ih
  | enter _ _ _ h₁ h ih₁ ih =>
    simp only [List.cons_append, entered, entered_append, List.nodup_cons, List.nodup_append,
      List.mem_append, not_or]
    refine ⟨⟨fun ha => (h₁.fresh ha).1 (List.mem_cons_self ..),
      fun ha => (h.fresh ha).2.1 (List.mem_cons_self ..)⟩, ih₁, ih, ?_⟩
    -- the second part meets only nodes that are not black, and the first left its nodes black
    rintro x hx _ hy rfl
    exact (h.fresh hy).2.1 (List.mem_cons_of_mem _ (h₁.entered_subset hx))

/-- Every node looked at ends up black, unless it is gray. -/
theorem Explore.covers (h : Explore G g b es b' t) : ∀ e ∈ es, e ∈ b' ∨ e ∈ g := by
  induction h with
  | done => exact fun e he => absurd he List.not_mem_nil
  | skip hb h ih =>
    exact List.forall_mem_cons.mpr ⟨Or.inl (h.black_subset hb), ih⟩
  | back _ hg _ ih => exact List.forall_mem_cons.mpr ⟨Or.inr hg, ih⟩
  | shut _ _ _ h ih =>
    exact List.forall_mem_cons.mpr ⟨Or.inl (h.black_subset (List.mem_cons_self ..)), ih⟩
  | enter _ _ _ _ h _ ih =>
    exact List.forall_mem_cons.mpr ⟨Or.inl (h.black_subset (List.mem_cons_self ..)), ih⟩

/-- The successors of an entered node end up black, unless they are gray. -/
theorem Explore.succ_covered (h : Explore G g b es b' t) :
    ∀ a ∈ entered t, ∀ c ∈ G.succ a, c ∈ b' ∨ c ∈ g := by
  induction h with
  | done => exact fun e he => absurd he List.not_mem_nil
  | skip _ _ ih => exact ih
  | back _ _ _ ih => exact ih
  | shut _ _ _ _ ih => exact ih
  | @enter g b e es b₁ b' t₁ t _ _ _ h₁ h ih₁ ih =>
    have lift : ∀ c, c ∈ b₁ ∨ c ∈ e :: g → c ∈ b' ∨ c ∈ g := by
      rintro c (hc | hc)
      · exact Or.inl (h.black_subset (List.mem_cons_of_mem _ hc))
      · rcases List.mem_cons.mp hc with rfl | hc
        · exact Or.inl (h.black_subset (List.mem_cons_self ..))
        · exact Or.inr hc
    intro a ha c hc
    simp only [List.cons_append, entered, entered_append, List.mem_cons, List.mem_append] at ha
    rcases ha with rfl | ha | ha
    · exact lift c (h₁.covers c hc)
    · exact lift c (ih₁ a ha c hc)
    · exact ih a ha c hc

/-- Every entered node hangs from a node looked at. -/
theorem Explore.reaches (h : Explore G g b es b' t) :
    ∀ a ∈ entered t, ∃ e ∈ es, G.Reaches e a := by
  induction h with
  | done => exact fun a ha => absurd ha List.not_mem_nil
  | skip _ _ ih =>
    intro a ha
    obtain ⟨e, he, hr⟩ := ih a ha
    exact ⟨e, List.mem_cons_of_mem _ he, hr⟩
  | back _ _ _ ih =>
    intro a ha
    obtain ⟨e, he, hr⟩ := ih a ha
    exact ⟨e, List.mem_cons_of_mem _ he, hr⟩
  | shut _ _ _ _ ih =>
    intro a ha
    obtain ⟨e, he, hr⟩ := ih a ha
    exact ⟨e, List.mem_cons_of_mem _ he, hr⟩
  | @enter g b e es b₁ b' t₁ t _ _ hgate _ _ ih₁ ih =>
    intro a ha
    simp only [List.cons_append, entered, entered_append, List.mem_cons, List.mem_append] at ha
    rcases ha with rfl | ha | ha
    · exact ⟨a, List.mem_cons_self .., hgate, .refl⟩
    · obtain ⟨c, hc, hr⟩ := ih₁ a ha
      exact ⟨e, List.mem_cons_self .., hgate, .head ⟨hgate, hr.1, hc⟩ hr.2⟩
    · obtain ⟨c, hc, hr⟩ := ih a ha
      exact ⟨c, List.mem_cons_of_mem _ hc, hr⟩

/-- The nodes are entered in preorder, gray and black ones counting as seen. -/
theorem Explore.preorder (h : Explore G g b es b' t) :
    ∀ v : List α, (∀ a, G.gate a = true → (a ∈ v ↔ a ∈ g ∨ a ∈ b)) →
      Preorder G v es (entered t) := by
  induction h with
  | done => exact fun _ _ => .done
  | @skip g b e es b' t hb h ih =>
    intro v hv
    by_cases hgate : G.gate e = true
    · exact .seen ((hv e hgate).mpr (Or.inr hb)) (ih v hv)
    · by_cases hev : e ∈ v
      · exact .seen hev (ih v hv)
      · exact .shut hev (by simpa using hgate) (ih v hv)
  -- grey and black nodes are the visited ones that the gate lets in
  | @back g b e es b' t hb hg h ih =>
    intro v hv
    by_cases hev : e ∈ v
    · exact .seen hev (ih v hv)
    · refine .shut hev ?_ (ih v hv)
      by_contra hgate
      exact hev ((hv e (by simpa using hgate)).mpr (Or.inl hg))
  | @shut g b e es b' t _ _ hgate _ ih =>
    intro v hv
    have hv' : ∀ a, G.gate a = true → (a ∈ v ↔ a ∈ g ∨ a ∈ e :: b) := by
      intro a ha
      have hne : a ≠ e := by
        rintro rfl
        rw [hgate] at ha
        cases ha
      rw [hv a ha, List.mem_cons, or_iff_right hne]
    by_cases hev : e ∈ v
    · exact .seen hev (ih v hv')
    · exact .shut hev hgate (ih v hv')
  | @enter g b e es b₁ b' t₁ t hb hg hgate h₁ _ ih₁ ih =>
    intro v hv
    have hev : e ∉ v := fun hev => ((hv e hgate).mp hev).elim hg hb
    -- under the node entered, it is grey; behind it, black with all that was entered
    have hv₁ : ∀ a, G.gate a = true → (a ∈ e :: v ↔ a ∈ e :: g ∨ a ∈ b) := by
      intro a ha
      rw [List.mem_cons, List.mem_cons, hv a ha, or_assoc]
    have hv₂ : ∀ a, G.gate a = true →
        (a ∈ e :: entered t₁ ++ v ↔ a ∈ g ∨ a ∈ e :: b₁) := by
      intro a ha
      simp only [List.cons_append, List.mem_cons, List.mem_append, hv a ha]
      constructor
      · rintro (rfl | ha₁ | hag | hab)
        · exact Or.inr (Or.inl rfl)
        · exact Or.inr (Or.inr (h₁.entered_subset ha₁))
        · exact Or.inl hag
        · exact Or.inr (Or.inr (h₁.black_subset hab))
      · rintro (hag | rfl | hab)
        · exact Or.inr (Or.inr (Or.inl hag))
        · exact Or.inl rfl
        · rcases h₁.mem_black hab with hab | ha₁ | hshut
          · exact Or.inr (Or.inr (Or.inr hab))
          · exact Or.inr (Or.inl ha₁)
          · rw [ha] at hshut
            cases hshut
    have key := Preorder.enter hev hgate (ih₁ _ hv₁) (ih _ hv₂)
    simpa [entered] using key

end

/-! ### Cycles -/

section

variable {G : Graph α} {g b es b' : List α} {t : List (Event α)}

/-- A gray node met again lies on a cycle, when every gray node leads to the nodes looked at. -/
theorem Explore.cycle_of_back (h : Explore G g b es b' t) :
    (∀ x ∈ g, ∀ e ∈ es, G.gate e = true → Relation.TransGen G.Edge x e) →
    (∀ x ∈ g, G.gate x = true) →
    ∀ a, .back a ∈ t → Relation.TransGen G.Edge a a := by
  induction h with
  | done => exact fun _ _ a ha => absurd ha List.not_mem_nil
  | skip _ _ ih =>
    exact fun hp => ih fun x hx e he => hp x hx e (List.mem_cons_of_mem _ he)
  | @back g b e es b' t _ hg _ ih =>
    intro hp hgate a ha
    rcases List.mem_cons.mp ha with heq | ha
    · obtain rfl : a = e := by simpa using heq
      exact hp a hg a (List.mem_cons_self ..) (hgate a hg)
    · exact ih (fun x hx e he => hp x hx e (List.mem_cons_of_mem _ he)) hgate a ha
  | shut _ _ _ _ ih =>
    exact fun hp => ih fun x hx e he => hp x hx e (List.mem_cons_of_mem _ he)
  | @enter g b e es b₁ b' t₁ t _ _ hgate _ _ ih₁ ih =>
    intro hp hg a ha
    simp only [List.cons_append, List.mem_cons, List.mem_append, reduceCtorEq, false_or] at ha
    rcases ha with ha | ha
    · -- below `e` the gray path is longer by `e`, and its edges lead to the successors of `e`
      refine ih₁ (fun x hx c hc hgc => ?_) (List.forall_mem_cons.mpr ⟨hgate, hg⟩) a ha
      have hec : G.Edge e c := ⟨hgate, hgc, hc⟩
      rcases List.mem_cons.mp hx with rfl | hx
      · exact .single hec
      · exact (hp x hx e (List.mem_cons_self ..) hgate).tail hec
    · exact ih (fun x hx e he => hp x hx e (List.mem_cons_of_mem _ he)) hg a ha

/-- A node met again is gray from the start or was entered. -/
theorem Explore.mem_of_back (h : Explore G g b es b' t) :
    ∀ a, .back a ∈ t → a ∈ g ∨ a ∈ entered t := by
  induction h with
  | done => exact fun a ha => absurd ha List.not_mem_nil
  | skip _ _ ih => exact ih
  | back _ hg _ ih =>
    intro a ha
    rcases List.mem_cons.mp ha with heq | ha
    · cases heq
      exact Or.inl hg
    · exact ih a ha
  | shut _ _ _ _ ih => exact ih
  | enter _ _ _ _ _ ih₁ ih =>
    intro a ha
    simp only [List.cons_append, List.mem_cons, List.mem_append, reduceCtorEq, false_or] at ha
    simp only [List.cons_append, entered, entered_append, List.mem_cons, List.mem_append]
    rcases ha with ha | ha
    · rcases ih₁ a ha with hg | h
      · rcases List.mem_cons.mp hg with rfl | hg
        · exact Or.inr (Or.inl rfl)
        · exact Or.inl hg
      · exact Or.inr (Or.inr (Or.inl h))
    · rcases ih a ha with hg | h
      · exact Or.inl hg
      · exact Or.inr (Or.inr (Or.inr h))

/-- A set of nodes no edge leaves and no cycle lies in. -/
structure Settled (G : Graph α) (b : List α) : Prop where
  closed : ∀ x ∈ b, ∀ y, G.Edge x y → y ∈ b
  acyclic : ∀ x ∈ b, ¬ Relation.TransGen G.Edge x x

theorem Settled.mem_of_reaches (h : Settled G b) {x y : α} (hx : x ∈ b)
    (hr : Relation.ReflTransGen G.Edge x y) : y ∈ b := by
  induction hr with
  | refl => exact hx
  | tail _ he ih => exact h.closed _ ih _ he

/-- A node whose successors are settled, and which is not, can be settled. -/
theorem Settled.cons (h : Settled G b) {e : α} (he : e ∉ b) (hs : ∀ c, G.Edge e c → c ∈ b) :
    Settled G (e :: b) := by
  refine ⟨List.forall_mem_cons.mpr ⟨fun y hy => List.mem_cons_of_mem _ (hs y hy),
    fun x hx y hy => List.mem_cons_of_mem _ (h.closed x hx y hy)⟩,
    List.forall_mem_cons.mpr ⟨fun hc => ?_, h.acyclic⟩⟩
  -- a cycle through `e` would return to `e` from inside the settled set
  obtain ⟨c, hec, hr⟩ := Relation.TransGen.head'_iff.mp hc
  exact he (h.mem_of_reaches (hs c hec) hr)

/-- Black nodes stay settled as long as no gray node is met again. -/
theorem Explore.settled (h : Explore G g b es b' t) :
    (∀ a, .back a ∉ t) → (∀ a ∈ g, a ∉ b) → Settled G b →
      Settled G b' ∧ (∀ e ∈ es, e ∈ b') ∧ ∀ a ∈ g, a ∉ b' := by
  induction h with
  | done => exact fun _ hd hb => ⟨hb, fun e he => absurd he List.not_mem_nil, hd⟩
  | skip hb h ih =>
    intro hn hd hs
    obtain ⟨hs', hes, hd'⟩ := ih hn hd hs
    exact ⟨hs', List.forall_mem_cons.mpr ⟨h.black_subset hb, hes⟩, hd'⟩
  | back => exact fun hn => absurd (List.mem_cons_self ..) (hn _)
  | @shut g b e es b' t hb hg hgate h ih =>
    intro hn hd hs
    have hs' : Settled G (e :: b) := hs.cons hb fun c hc => by
      have hopen := hc.1
      rw [hgate] at hopen
      cases hopen
    have hd' : ∀ a ∈ g, a ∉ e :: b := fun a ha hab =>
      (List.mem_cons.mp hab).elim (fun h => hg (h ▸ ha)) (hd a ha)
    obtain ⟨hs'', hes, hd''⟩ := ih hn hd' hs'
    exact ⟨hs'', List.forall_mem_cons.mpr ⟨h.black_subset (List.mem_cons_self ..), hes⟩, hd''⟩
  | @enter g b e es b₁ b' t₁ t hb hg hgate h₁ h ih₁ ih =>
    intro hn hd hs
    have hn₁ : ∀ a, .back a ∉ t₁ := fun a ha =>
      hn a (List.mem_append_left _ (List.mem_cons_of_mem _ ha))
    have hn₂ : ∀ a, .back a ∉ t := fun a ha => hn a (List.mem_append_right _ ha)
    obtain ⟨hs₁, hsucc, hd₁⟩ := ih₁ hn₁ (List.forall_mem_cons.mpr ⟨hb, hd⟩) hs
    have he₁ : e ∉ b₁ := hd₁ e (List.mem_cons_self ..)
    have hs' : Settled G (e :: b₁) := hs₁.cons he₁ fun c hc => hsucc c hc.2.2
    have hd' : ∀ a ∈ g, a ∉ e :: b₁ := fun a ha hab =>
      (List.mem_cons.mp hab).elim (fun h => hg (h ▸ ha))
        (hd₁ a (List.mem_cons_of_mem _ ha))
    obtain ⟨hs'', hes, hd''⟩ := ih hn₂ hd' hs'
    exact ⟨hs'', List.forall_mem_cons.mpr ⟨h.black_subset (List.mem_cons_self ..), hes⟩, hd''⟩

end

/-! ### The search from one node -/

section

variable {G : Graph α} {s : α} {b : List α} {t : List (Event α)}

/-- The search from `s` enters the nodes reached from `s` and no other. -/
theorem mem_entered_iff (h : Explore G [] [] [s] b t) {a : α} :
    a ∈ entered t ↔ G.Reaches s a := by
  constructor
  · intro ha
    obtain ⟨e, he, hr⟩ := h.reaches a ha
    cases List.mem_singleton.mp he
    exact hr
  · rintro ⟨hs, hp⟩
    have black : ∀ c, c ∈ b ∨ c ∈ [] → G.gate c = true → c ∈ entered t := by
      rintro c (hc | hc) hgate
      · rcases h.mem_black hc with hc | hc | hc
        · cases hc
        · exact hc
        · rw [hgate] at hc
          cases hc
      · cases hc
    induction hp with
    | refl => exact black s (h.covers s (List.mem_singleton_self s)) hs
    | tail _ he ih => exact black _ (h.succ_covered _ ih _ he.2.2) he.2.1

/-- A gray node is met again if and only if a cycle is reached. -/
theorem exists_back_iff (h : Explore G [] [] [s] b t) :
    (∃ a, .back a ∈ t) ↔ G.CycleFrom s := by
  constructor
  · rintro ⟨a, ha⟩
    have hmem := (h.mem_of_back a ha).resolve_left List.not_mem_nil
    refine ⟨a, (mem_entered_iff h).mp hmem, ?_⟩
    exact h.cycle_of_back (fun x hx => absurd hx List.not_mem_nil)
      (fun x hx => absurd hx List.not_mem_nil) a ha
  · rintro ⟨a, hr, hc⟩
    by_contra hn
    have hempty : Settled G ([] : List α) :=
      ⟨fun x hx => absurd hx List.not_mem_nil, fun x hx => absurd hx List.not_mem_nil⟩
    obtain ⟨hb, -, -⟩ := h.settled (fun a ha => hn ⟨a, ha⟩)
      (fun x hx => absurd hx List.not_mem_nil) hempty
    exact hb.acyclic a (h.entered_subset ((mem_entered_iff h).mpr hr)) hc

end

/-! ### Termination -/

section

variable [DecidableEq α]

/-- The nodes of `U` that are neither gray nor black. -/
private def unseen (U : Finset α) (g b : List α) : Finset α :=
  U.filter fun a => a ∉ g ∧ a ∉ b

private theorem unseen_card_le {U : Finset α} {g b b' : List α} (h : b ⊆ b') :
    (unseen U g b').card ≤ (unseen U g b).card := by
  refine Finset.card_le_card fun a ha => ?_
  obtain ⟨hU, hg, hb⟩ := Finset.mem_filter.mp ha
  exact Finset.mem_filter.mpr ⟨hU, hg, fun h' => hb (h h')⟩

private theorem unseen_card_lt {U : Finset α} {g b : List α} {e : α} (hU : e ∈ U) (hg : e ∉ g)
    (hb : e ∉ b) : (unseen U (e :: g) b).card < (unseen U g b).card := by
  refine Finset.card_lt_card ⟨fun a ha => ?_, fun hsub => ?_⟩
  · obtain ⟨hU, hg, hb⟩ := Finset.mem_filter.mp ha
    exact Finset.mem_filter.mpr ⟨hU, fun h => hg (List.mem_cons_of_mem _ h), hb⟩
  · have he := hsub (Finset.mem_filter.mpr ⟨hU, hg, hb⟩)
    exact (Finset.mem_filter.mp he).2.1 (List.mem_cons_self ..)

/-- The search ends: only nodes of the finite set `U` have successors. -/
theorem exists_explore (G : Graph α) (U : Finset α) (hU : ∀ a, a ∉ U → G.succ a = [])
    (g b es : List α) : ∃ b' t, Explore G g b es b' t := by
  -- on the number of unseen nodes of `U`, then on the nodes to look at
  induction hn : (unseen U g b).card using Nat.strong_induction_on generalizing g b es with
  | _ n ih =>
    have rest : ∀ es b₁, (unseen U g b₁).card ≤ n → ∃ b' t, Explore G g b₁ es b' t := by
      intro es
      induction es with
      | nil => exact fun b₁ _ => ⟨b₁, [], .done⟩
      | cons e es ihes =>
        intro b₁ hb₁
        by_cases heb : e ∈ b₁
        · obtain ⟨b', t, h⟩ := ihes b₁ hb₁
          exact ⟨b', t, .skip heb h⟩
        by_cases heg : e ∈ g
        · obtain ⟨b', t, h⟩ := ihes b₁ hb₁
          exact ⟨b', .back e :: t, .back heb heg h⟩
        by_cases hgate : G.gate e = true
        · have below : ∃ b₂ t₂, Explore G (e :: g) b₁ (G.succ e) b₂ t₂ := by
            by_cases heU : e ∈ U
            · exact ih _ ((unseen_card_lt heU heg heb).trans_le hb₁) (e :: g) b₁ (G.succ e) rfl
            · rw [hU e heU]
              exact ⟨b₁, [], .done⟩
          obtain ⟨b₂, t₂, h₂⟩ := below
          have hle : (unseen U g (e :: b₂)).card ≤ n :=
            (unseen_card_le fun a ha => List.mem_cons_of_mem _ (h₂.black_subset ha)).trans hb₁
          obtain ⟨b', t, h⟩ := ihes (e :: b₂) hle
          exact ⟨b', _, .enter heb heg hgate h₂ h⟩
        · have hle : (unseen U g (e :: b₁)).card ≤ n :=
            (unseen_card_le fun a ha => List.mem_cons_of_mem _ ha).trans hb₁
          obtain ⟨b', t, h⟩ := ihes (e :: b₁) hle
          exact ⟨b', t, .shut heb heg (by simpa using hgate) h⟩
    exact rest es b hn.le

end

end DepthFirst
