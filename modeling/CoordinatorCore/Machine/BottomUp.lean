import CoordinatorCore.Machine.Table

/-!
# A pass from the leaves to the root

The nodes of a tree are the paths to them. The deepest come first; the result of a node waits in a
table until its parent is visited, which takes it out. What a node may rely on of its children holds
of the root (`pass_spec`).
-/

namespace CoordinatorCore

namespace BottomUp

variable {α β ε : Type} [DecidableEq α]

/-- A node is visited: it takes the results of its children, and leaves its own. -/
def visit (f : List α → List (List α × β) → Except ε β) (waiting : Table (List α) β) (d : List α) :
    Except ε (Table (List α) β) := do
  let children := waiting.entries.filter fun c => c.1.dropLast = d
  let r ← f d children
  pure ((children.foldl (fun t c => t.erase c.1) waiting).set d r)

/-- The results of the visited nodes with an unvisited parent wait. -/
structure Inv (Good : List α → β → Prop) (done : List (List α)) (t : Table (List α) β) : Prop where
  good : ∀ c v, t.get c = some v → Good c v
  waits : ∀ c, c ∈ t.keys ↔ c ∈ done ∧ (c = [] ∨ c.dropLast ∉ done)

theorem get_foldl_erase (cs : List (List α × β)) (t : Table (List α) β) (k : List α) :
    (cs.foldl (fun t c => t.erase c.1) t).get k = if k ∈ cs.map Prod.fst then none else t.get k := by
  induction cs generalizing t with
  | nil => rfl
  | cons c cs ih =>
    rw [List.foldl_cons, ih, Table.get_erase, List.map_cons]
    by_cases hk : k = c.1 <;> by_cases hcs : k ∈ cs.map Prod.fst <;> simp [hk, hcs]

/-- What a visit is given: the results of exactly the children that are nodes. -/
structure Children (Good : List α → β → Prop) (nodes : List (List α)) (d : List α)
    (children : List (List α × β)) : Prop where
  below : ∀ c v, (c, v) ∈ children → ∃ n, c = d ++ [n] ∧ c ∈ nodes ∧ Good c v
  all : ∀ n, d ++ [n] ∈ nodes → ∃ v, (d ++ [n], v) ∈ children
  nodup : (children.map Prod.fst).Nodup

variable {Good : List α → β → Prop} {f : List α → List (List α × β) → Except ε β}

/-- One visit, no visited node being higher and no unvisited one deeper. -/
theorem inv_visit {done todo : List (List α)} {d : List α} {t t' : Table (List α) β}
    (h : Inv Good done t) (hd : d ∉ done) (hdone : ∀ c ∈ done, d.length ≤ c.length)
    (htodo : ∀ c ∈ todo, c.length ≤ d.length)
    (hstep : ∀ children r, Children Good (done ++ d :: todo) d children → f d children = .ok r →
      Good d r)
    (hok : visit f t d = .ok t') : Inv Good (done ++ [d]) t' := by
  rw [visit] at hok
  obtain ⟨children, hchildren⟩ :
      ∃ cs, cs = t.entries.filter fun c => decide (c.1.dropLast = d) := ⟨_, rfl⟩
  rw [← hchildren] at hok
  cases hr : f d children with
  | error err => simp [hr, bind, Except.bind] at hok
  | ok r =>
    simp only [hr, bind, Except.bind, pure, Except.pure, Except.ok.injEq] at hok
    subst hok
    have hmem : ∀ c v, (c, v) ∈ children ↔ t.get c = some v ∧ c.dropLast = d := by
      intro c v
      rw [hchildren, List.mem_filter, ← Table.get_eq_some_iff, decide_eq_true_eq]
    have hne : ∀ c ∈ done, c.dropLast = d → c ≠ [] := by
      rintro c hc rfl rfl
      exact hd hc
    have hkey : ∀ c, c ∈ children.map Prod.fst ↔ c ∈ t.keys ∧ c.dropLast = d := by
      intro c
      rw [List.mem_map, Table.mem_keys_iff]
      constructor
      · rintro ⟨⟨c, v⟩, hcv, rfl⟩
        exact ⟨⟨v, ((hmem c v).mp hcv).1⟩, ((hmem c v).mp hcv).2⟩
      · rintro ⟨⟨v, hv⟩, hdrop⟩
        exact ⟨(c, v), (hmem c v).mpr ⟨hv, hdrop⟩, rfl⟩
    have hgood : Good d r := by
      refine hstep children r ⟨fun c v hcv => ?_, fun n hn => ?_, ?_⟩ hr
      · obtain ⟨hv, hdrop⟩ := (hmem c v).mp hcv
        obtain ⟨hc, -⟩ := (h.waits c).mp (Table.mem_keys_iff.mpr ⟨v, hv⟩)
        have hcne := hne c hc hdrop
        refine ⟨c.getLast hcne, ?_, List.mem_append_left _ hc, h.good c v hv⟩
        rw [← hdrop]
        exact (List.dropLast_append_getLast hcne).symm
      · have hc : d ++ [n] ∈ done := by
          rcases List.mem_append.mp hn with hn | hn
          · exact hn
          · exfalso
            rcases List.mem_cons.mp hn with heq | hn
            · exact absurd (congrArg List.length heq) (by simp)
            · have := htodo _ hn
              rw [List.length_append, List.length_singleton] at this
              omega
        have hkeys : d ++ [n] ∈ t.keys := (h.waits _).mpr ⟨hc, .inr (by simpa using hd)⟩
        obtain ⟨v, hv⟩ := Table.mem_keys_iff.mp hkeys
        exact ⟨v, (hmem _ v).mpr ⟨hv, by simp⟩⟩
      · rw [hchildren]
        exact t.nodup.sublist (List.filter_sublist.map _)
    have hget : ∀ c, ((children.foldl (fun t c => t.erase c.1) t).set d r).get c =
        if c = d then some r else if c ∈ t.keys ∧ c.dropLast = d then none else t.get c := by
      intro c
      rw [Table.get_set, get_foldl_erase]
      simp only [hkey]
    refine ⟨fun c v hv => ?_, fun c => ?_⟩
    · rw [hget] at hv
      split_ifs at hv with h1 h2
      · cases hv
        rw [h1]
        exact hgood
      · exact h.good c v hv
    · have hdrop : d = [] ∨ d.dropLast ∉ done ++ [d] := by
        by_cases hnil : d = []
        · exact .inl hnil
        · have hlen : d.dropLast.length < d.length := by
            have := List.length_pos_of_ne_nil hnil
            rw [List.length_dropLast]
            omega
          refine .inr fun hin => ?_
          rcases List.mem_append.mp hin with hin | hin
          · have := hdone _ hin
            omega
          · rw [List.mem_singleton] at hin
            rw [hin] at hlen
            exact Nat.lt_irrefl _ hlen
      rw [Table.mem_keys_iff, List.mem_append, List.mem_singleton]
      simp only [hget]
      by_cases hcd : c = d
      · subst hcd
        simpa using hdrop
      · rw [if_neg hcd, or_iff_left hcd]
        have hw := h.waits c
        rw [Table.mem_keys_iff] at hw
        by_cases hch : c.dropLast = d
        · -- The children are taken.
          have hno : ¬(c ∈ done ∧ (c = [] ∨ c.dropLast ∉ done ++ [d])) := by
            rintro ⟨hc, hor⟩
            rcases hor with hnil | hnot
            · exact hne c hc hch hnil
            · exact hnot (List.mem_append_right _ (by rw [hch]; exact List.mem_singleton_self d))
          refine iff_of_false ?_ hno
          rintro ⟨v, hv⟩
          split_ifs at hv with h2
          rw [not_and_or] at h2
          exact h2.elim (fun hk => hk (Table.mem_keys_iff.mpr ⟨v, hv⟩)) fun hk => hk hch
        · rw [if_neg fun hand => hch hand.2, hw, List.mem_append, List.mem_singleton]
          simp [hch]

/-- After the pass the root has its result. -/
theorem pass_spec {nodes : List (List α)} (hnodup : nodes.Nodup)
    (hsorted : nodes.Pairwise fun a b => b.length ≤ a.length)
    (hstep : ∀ d ∈ nodes, ∀ children r, Children Good nodes d children → f d children = .ok r →
      Good d r)
    {t : Table (List α) β} (hok : nodes.foldlM (visit f) ∅ = .ok t) (hroot : [] ∈ nodes) :
    ∃ r, t.get [] = some r ∧ Good [] r := by
  have hrun : ∀ (todo done : List (List α)) (s : Table (List α) β), nodes = done ++ todo →
      Inv Good done s → todo.foldlM (visit f) s = .ok t → Inv Good nodes t := by
    intro todo
    induction todo with
    | nil =>
      intro done s hnodes hinv hfold
      cases hfold
      rwa [hnodes, List.append_nil]
    | cons d todo ih =>
      intro done s hnodes hinv hfold
      rw [List.foldlM_cons] at hfold
      cases hv : visit f s d with
      | error err => simp [hv, bind, Except.bind] at hfold
      | ok s' =>
        simp only [hv, bind, Except.bind] at hfold
        have hin : d ∈ nodes := by
          rw [hnodes]
          exact List.mem_append_right _ List.mem_cons_self
        rw [hnodes] at hnodup hsorted
        obtain ⟨-, hs', hcross⟩ := List.pairwise_append.mp hsorted
        refine ih (done ++ [d]) s' (by rw [hnodes]; simp) ?_ hfold
        refine inv_visit hinv (fun hdone => ?_) (fun c hc => ?_)
          (List.pairwise_cons.mp hs').1 ?_ hv
        · exact (List.nodup_append.mp hnodup).2.2 d hdone d List.mem_cons_self rfl
        · exact hcross c hc d List.mem_cons_self
        · intro children r hc hr
          exact hstep d hin children r (hnodes ▸ hc) hr
  have hempty : Inv Good [] (∅ : Table (List α) β) := ⟨nofun, fun c => iff_of_false nofun nofun⟩
  have hinv := hrun nodes [] ∅ rfl hempty hok
  obtain ⟨r, hr⟩ := Table.mem_keys_iff.mp ((hinv.waits []).mpr ⟨hroot, .inl rfl⟩)
  exact ⟨r, hr, hinv.good [] r hr⟩

end BottomUp

end CoordinatorCore
