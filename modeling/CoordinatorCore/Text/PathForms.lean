import CoordinatorCore.Text.Basic

/-!
# Normal forms of paths

`posixpath.normpath` over any alphabet with a slash and a dot: empty components and single dots go,
a double dot takes a component with it. A path in normal form is a fixed point (`normpath_render`),
and only normal forms are produced, so normalising twice changes nothing (`normpath_idem`).
-/

namespace CoordinatorCore

namespace PathForms

variable {α : Type*} [DecidableEq α]

/-- The slashes `normpath` keeps in front: two exactly are special, more are one. -/
def leadingSlashes (slash : α) (p : List α) : Nat :=
  match (p.takeWhile (· == slash)).length with
  | 0 => 0
  | 2 => 2
  | _ => 1

/-- One round of the loop over the components. -/
def pushComponent (dot : α) (rooted : Bool) (comps : List (List α)) (comp : List α) :
    List (List α) :=
  if comp = [] ∨ comp = [dot] then comps
  else if comp ≠ [dot, dot] ∨ (rooted = false ∧ comps = []) ∨ comps.getLast? = some [dot, dot] then
    comps ++ [comp]
  else comps.dropLast

/-- The path of some components behind some slashes; no path is empty. -/
def render (slash dot : α) (slashes : Nat) (comps : List (List α)) : List α :=
  let p := List.replicate slashes slash ++ [slash].intercalate comps
  if p = [] then [dot] else p

/-- `posixpath.normpath`. -/
def normpath (slash dot : α) (p : List α) : List α :=
  if p = [] then [dot]
  else render slash dot (leadingSlashes slash p)
    ((p.splitOn slash).foldl (pushComponent dot (decide (leadingSlashes slash p ≠ 0))) [])

/-! ### Normal forms -/

/-- The components are names, and the loop keeps them. -/
structure Normal (slash dot : α) (rooted : Bool) (comps : List (List α)) : Prop where
  names : ∀ c ∈ comps, c ≠ [] ∧ c ≠ [dot] ∧ slash ∉ c
  kept : comps.foldl (pushComponent dot rooted) [] = comps

variable {slash dot : α}

private theorem length_foldl_pushComponent (dot : α) (rooted : Bool) (cs : List (List α)) :
    (cs.foldl (pushComponent dot rooted) []).length ≤ cs.length := by
  induction cs using List.reverseRecOn with
  | nil => exact le_rfl
  | append_singleton cs c ih =>
    rw [List.foldl_concat, List.length_append, List.length_singleton, pushComponent]
    split_ifs
    · omega
    · rw [List.length_append, List.length_singleton]
      omega
    · rw [List.length_dropLast]
      omega

/-- What the loop keeps it keeps from the front. -/
private theorem foldl_of_foldl_concat {rooted : Bool} {cs : List (List α)} {c : List α}
    (h : (cs ++ [c]).foldl (pushComponent dot rooted) [] = cs ++ [c]) :
    cs.foldl (pushComponent dot rooted) [] = cs := by
  have hlen := length_foldl_pushComponent dot rooted cs
  rw [List.foldl_concat] at h
  have hlen' := congrArg List.length h
  rw [pushComponent] at h hlen'
  split_ifs at h hlen' with h₁ h₂
  · rw [List.length_append, List.length_singleton] at hlen'
    omega
  · exact (List.append_inj' h rfl).1
  · rw [List.length_dropLast, List.length_append, List.length_singleton] at hlen'
    omega

theorem Normal.nil (rooted : Bool) : Normal slash dot rooted [] :=
  ⟨fun _ h => absurd h List.not_mem_nil, rfl⟩

/-- One round of the loop keeps a normal form. -/
theorem Normal.pushComponent {rooted : Bool} {cs : List (List α)} {c : List α}
    (h : Normal slash dot rooted cs) (hc : slash ∉ c) :
    Normal slash dot rooted (pushComponent dot rooted cs c) := by
  rw [PathForms.pushComponent]
  split_ifs with h₁ h₂
  · exact h
  · refine ⟨fun d hd => ?_, ?_⟩
    · rcases List.mem_append.mp hd with hd | hd
      · exact h.names d hd
      · obtain rfl := List.mem_singleton.mp hd
        exact ⟨fun h => h₁ (Or.inl h), fun h => h₁ (Or.inr h), hc⟩
    · rw [List.foldl_concat, h.kept, PathForms.pushComponent, if_neg h₁, if_pos h₂]
  · refine ⟨fun d hd => h.names d ((List.dropLast_sublist cs).subset hd), ?_⟩
    rcases List.eq_nil_or_concat cs with rfl | ⟨ds, d, rfl⟩
    · rfl
    · rw [List.concat_eq_append] at h ⊢
      rw [List.dropLast_concat]
      exact foldl_of_foldl_concat h.kept

/-- The loop produces a normal form. -/
theorem normal_foldl (rooted : Bool) {cs : List (List α)} (h : ∀ c ∈ cs, slash ∉ c) :
    Normal slash dot rooted (cs.foldl (PathForms.pushComponent dot rooted) []) := by
  induction cs using List.reverseRecOn with
  | nil => exact .nil rooted
  | append_singleton cs c ih =>
    rw [List.foldl_concat]
    exact (ih fun d hd => h d (List.mem_append_left _ hd)).pushComponent (h c (by simp))

omit [DecidableEq α] in
private theorem head?_intercalate {c : List α} (hne : c ≠ []) (hc : slash ∉ c)
    (cs : List (List α)) : ∃ d t, [slash].intercalate (c :: cs) = d :: t ∧ d ≠ slash := by
  obtain ⟨d, t, rfl⟩ := List.exists_cons_of_ne_nil hne
  have hd : d ≠ slash := fun h => hc (h ▸ List.mem_cons_self ..)
  cases cs with
  | nil => exact ⟨d, t, by simp [List.intercalate], hd⟩
  | cons e cs => exact ⟨d, _, by simp [List.intercalate, List.intersperse]; rfl, hd⟩

/-- Leading slashes are empty components, which the loop skips. -/
private theorem foldl_splitOn_slashes (slash dot : α) (rooted : Bool) (k : Nat) (t : List α) :
    ((List.replicate k slash ++ t).splitOn slash).foldl (pushComponent dot rooted) [] =
      (t.splitOn slash).foldl (pushComponent dot rooted) [] := by
  induction k with
  | zero => rfl
  | succ k ih =>
    have h := List.splitOn_append_cons_self (a := slash) [] (List.replicate k slash ++ t)
    rw [List.nil_append] at h
    rw [List.replicate_succ, List.cons_append, h, List.foldl_append, ← ih]
    rfl

private theorem takeWhile_replicate_append (k : Nat) {t : List α} (ht : t.head? ≠ some slash) :
    (List.replicate k slash ++ t).takeWhile (· == slash) = List.replicate k slash := by
  have hnil : t.takeWhile (· == slash) = [] := by
    cases t with
    | nil => rfl
    | cons d t =>
      rw [List.head?_cons, ne_eq, Option.some.injEq] at ht
      exact List.takeWhile_cons_of_neg (by simpa using ht)
  induction k with
  | zero => exact hnil
  | succ k ih =>
    rw [List.replicate_succ, List.cons_append, List.takeWhile_cons_of_pos (by simp), ih]

private theorem leadingSlashes_replicate {k : Nat} (hk : k ≤ 2) {t : List α}
    (ht : t.head? ≠ some slash) : leadingSlashes slash (List.replicate k slash ++ t) = k := by
  rw [leadingSlashes, takeWhile_replicate_append k ht, List.length_replicate]
  obtain rfl | rfl | rfl : k = 0 ∨ k = 1 ∨ k = 2 := by omega
  all_goals rfl

theorem leadingSlashes_le (p : List α) : leadingSlashes slash p ≤ 2 := by
  unfold leadingSlashes
  split <;> omega

/-- A rendered normal form has its leading slashes and its components. -/
theorem normpath_render (hne : slash ≠ dot) {k : Nat} {cs : List (List α)} (hk : k ≤ 2)
    (h : Normal slash dot (decide (k ≠ 0)) cs) :
    normpath slash dot (render slash dot k cs) = render slash dot k cs := by
  cases cs with
  | nil =>
    by_cases hk0 : k = 0
    · subst hk0
      have hsplit : [dot].splitOn slash = [[dot]] := by
        have hmem : ∀ l ∈ [[dot]], slash ∉ l := by simp [hne]
        simpa using List.splitOn_intercalate slash hmem (by simp)
      have hdot : (dot == slash) = false := beq_eq_false_iff_ne.mpr hne.symm
      simp [render, normpath, leadingSlashes, hsplit, pushComponent, hdot, List.intercalate]
    · have hrender : render slash dot k [] = List.replicate k slash := by
        have : List.replicate k slash ≠ [] := by simpa using hk0
        simp [render, List.intercalate, this]
      have hhead : ([] : List α).head? ≠ some slash := by simp
      have hlead := leadingSlashes_replicate hk hhead
      have hcomps := foldl_splitOn_slashes slash dot true k []
      rw [List.append_nil] at hlead hcomps
      have hne' : List.replicate k slash ≠ [] := by simpa using hk0
      have hnil : ([] : List α).splitOn slash = [[]] := by simp
      rw [hrender, normpath, if_neg hne', hlead, decide_eq_true hk0, hcomps, hnil]
      exact hrender
  | cons c cs =>
    obtain ⟨hcne, -, hslash⟩ := h.names c (List.mem_cons_self ..)
    obtain ⟨d, t, ht, hd⟩ := head?_intercalate hcne hslash cs
    have hrender : render slash dot k (c :: cs) =
        List.replicate k slash ++ [slash].intercalate (c :: cs) := by
      rw [render, ht, if_neg (by simp)]
    have hlead : leadingSlashes slash (render slash dot k (c :: cs)) = k := by
      rw [hrender, ht]
      exact leadingSlashes_replicate hk (by simpa using hd)
    have hcomps : ((render slash dot k (c :: cs)).splitOn slash).foldl
        (pushComponent dot (decide (k ≠ 0))) [] = c :: cs := by
      rw [hrender, foldl_splitOn_slashes,
        List.splitOn_intercalate slash (fun l hl => (h.names l hl).2.2) (by simp), h.kept]
    rw [normpath, if_neg (by rw [hrender, ht]; simp), hlead, hcomps]

/-- What `normpath` returns is a rendered normal form. -/
theorem exists_normal (slash dot : α) (p : List α) : ∃ k cs, k ≤ 2 ∧
    Normal slash dot (decide (k ≠ 0)) cs ∧
    normpath slash dot p = render slash dot k cs := by
  by_cases hp : p = []
  · exact ⟨0, [], by omega, .nil _, by simp [normpath, hp, render, List.intercalate]⟩
  · exact ⟨_, _, leadingSlashes_le p,
      normal_foldl _ fun c hc => Text.not_mem_of_mem_splitOn (t := p) hc, by rw [normpath, if_neg hp]⟩

theorem normpath_idem (hne : slash ≠ dot) (p : List α) :
    normpath slash dot (normpath slash dot p) = normpath slash dot p := by
  obtain ⟨k, cs, hk, hcs, h⟩ := exists_normal slash dot p
  rw [h]
  exact normpath_render hne hk hcs

end PathForms

end CoordinatorCore
