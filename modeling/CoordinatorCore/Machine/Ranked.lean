import Mathlib.Data.List.DropRight
import Mathlib.Data.List.Sort

/-!
# Lists in the order of a rank

A list of named entries is kept in the order of their ranks. Three operations keep it so: leave
the entries as they are, insert one behind the last that may stand in front of it, and give the
entries new ranks and sort them again. Insertion and sort are first studied for a list of anything
that has a rank, then the operations for entries that are a name and a rank.

The three laws of an operation are `Op.ordered_step`, `Op.names_step` and `Op.sublist_step`: the
order is kept, the names are those of before and the added one, and
two entries that are left as they are do not change places.
-/

namespace Ranked

section Lists

variable {α β : Type*} {rank : α → ℕ}

/-- The ranks never fall. -/
def Ordered (rank : α → ℕ) (s : List α) : Prop := s.Pairwise fun a b => rank a ≤ rank b

/-- The order looks at the ranks only. -/
theorem ordered_map {rank' : β → ℕ} {f : α → β} (hf : ∀ a, rank' (f a) = rank a) {s : List α} :
    Ordered rank' (s.map f) ↔ Ordered rank s := by
  rw [Ordered, Ordered, List.pairwise_map]
  simp only [hf]

/-! ### Sorting -/

/-- The stable sort by rank. -/
def sort (rank : α → ℕ) (s : List α) : List α := s.insertionSort fun a b => rank a ≤ rank b

theorem sort_perm (rank : α → ℕ) (s : List α) : (sort rank s).Perm s := List.perm_insertionSort _ s

/-- The result is ordered, whatever the list was. -/
theorem ordered_sort (s : List α) : Ordered rank (sort rank s) :=
  haveI : Std.Total fun a b => rank a ≤ rank b := ⟨fun _ _ => Nat.le_total _ _⟩
  haveI : IsTrans α fun a b => rank a ≤ rank b := ⟨fun _ _ _ => Nat.le_trans⟩
  List.pairwise_insertionSort _ s

/-- Entries in the right order keep it. -/
theorem sublist_sort {a b : α} {s : List α} (hab : rank a ≤ rank b) (h : [a, b].Sublist s) :
    [a, b].Sublist (sort rank s) :=
  haveI : Std.Total fun a b => rank a ≤ rank b := ⟨fun _ _ => Nat.le_total _ _⟩
  haveI : IsTrans α fun a b => rank a ≤ rank b := ⟨fun _ _ _ => Nat.le_trans⟩
  List.pair_sublist_insertionSort hab h

/-- Sorting looks at the ranks only. -/
theorem map_sort {rank' : β → ℕ} {f : α → β} (hf : ∀ a, rank' (f a) = rank a) (s : List α) :
    (sort rank s).map f = sort rank' (s.map f) :=
  List.map_insertionSort _ _ f s fun a _ b _ => by rw [hf, hf]

/-! ### Inserting -/

/-- Insert behind the last entry of equal or lower rank. -/
def insert (rank : α → ℕ) (a : α) (s : List α) : List α :=
  let above : α → Bool := fun b => rank a < rank b
  s.rdropWhile above ++ a :: s.rtakeWhile above

theorem insert_perm (a : α) (s : List α) : (insert rank a s).Perm (a :: s) := by
  refine List.perm_middle.trans (List.Perm.cons a (List.Perm.of_eq ?_))
  exact List.rdropWhile_append_rtakeWhile

/-- The other entries keep their places. -/
theorem sublist_insert (a : α) (s : List α) : s.Sublist (insert rank a s) := by
  conv_lhs => rw [← List.rdropWhile_append_rtakeWhile (l := s)
    (p := fun b => decide (rank a < rank b))]
  exact (List.Sublist.refl _).append (List.sublist_cons_self _ _)

/-- Insertion keeps an ordered list ordered. -/
theorem Ordered.insert {s : List α} (h : Ordered rank s) (a : α) : Ordered rank (insert rank a s) := by
  have hsplit : s.rdropWhile (fun b => decide (rank a < rank b)) ++
      s.rtakeWhile (fun b => decide (rank a < rank b)) = s := List.rdropWhile_append_rtakeWhile
  rw [Ordered, ← hsplit, List.pairwise_append] at h
  obtain ⟨hfront, hback, hcross⟩ := h
  have habove : ∀ b ∈ s.rtakeWhile (fun b => decide (rank a < rank b)), rank a < rank b :=
    fun b hb => by simpa using List.mem_rtakeWhile_imp hb
  -- the last entry in front of `a` stopped the search
  have hbelow : ∀ b ∈ s.rdropWhile (fun b => decide (rank a < rank b)), rank b ≤ rank a := by
    intro b hb
    have hne := List.ne_nil_of_mem hb
    have hlast := List.rdropWhile_last_not _ _ hne
    rw [decide_eq_true_eq, not_lt] at hlast
    rw [← List.dropLast_append_getLast hne] at hb hfront
    rcases List.mem_append.mp hb with hb | hb
    · exact ((List.pairwise_append.mp hfront).2.2 b hb _ (List.mem_singleton_self _)).trans hlast
    · rwa [List.mem_singleton.mp hb]
  rw [Ordered, Ranked.insert, List.pairwise_append, List.pairwise_cons]
  refine ⟨hfront, ⟨fun b hb => (habove b hb).le, hback⟩, ?_⟩
  intro b hb c hc
  rcases List.mem_cons.mp hc with rfl | hc
  · exact hbelow b hb
  · exact hcross b hb c hc

/-- Insertion looks at the ranks only. -/
theorem map_insert {rank' : β → ℕ} {f : α → β} (hf : ∀ a, rank' (f a) = rank a) (a : α)
    (s : List α) : (insert rank a s).map f = insert rank' (f a) (s.map f) := by
  have hcomp : (fun b : β => decide (rank' (f a) < rank' b)) ∘ f =
      fun b => decide (rank a < rank b) := by
    funext b
    rw [Function.comp_apply, hf, hf]
  simp only [insert, List.rdropWhile, List.rtakeWhile, ← List.map_reverse, List.dropWhile_map,
    List.takeWhile_map, hcomp, List.map_append, List.map_cons]

end Lists

/-! ### Operations on named entries -/

section Operations

variable {ι : Type*} {s : List (ι × ℕ)}

/-- What happens to a list of names with their ranks. -/
inductive Op (ι : Type*)
  | keep
  | insert (e : ι × ℕ)
  | rerank (f : ι → ℕ → ℕ)

namespace Op

/-- The list behind the operation. -/
def step (s : List (ι × ℕ)) : Op ι → List (ι × ℕ)
  | keep => s
  | insert e => Ranked.insert Prod.snd e s
  | rerank f => sort Prod.snd (s.map fun e => (e.1, f e.1 e.2))

/-- The names that the operation adds. -/
def added : Op ι → List ι
  | insert e => [e.1]
  | _ => []

/-- An ordered list stays ordered. -/
theorem ordered_step (op : Op ι) (h : Ordered Prod.snd s) : Ordered Prod.snd (op.step s) := by
  cases op with
  | keep => exact h
  | insert e => exact h.insert e
  | rerank f => exact ordered_sort _

/-- The names are those of before and the added ones. -/
theorem names_step (op : Op ι) :
    ((op.step s).map Prod.fst).Perm (op.added ++ s.map Prod.fst) := by
  cases op with
  | keep => exact List.Perm.refl _
  | insert e => exact (insert_perm e s).map Prod.fst
  | rerank f =>
    have h := (sort_perm Prod.snd (s.map fun e => (e.1, f e.1 e.2))).map Prod.fst
    rwa [List.map_map] at h

/-- Two entries that are there before and behind, with the ranks they had, keep their order. -/
theorem sublist_step {op : Op ι} (hnodup : (s.map Prod.fst).Nodup) (hs : Ordered Prod.snd s)
    {a b : ι × ℕ} (hab : [a, b].Sublist s) (ha : a ∈ op.step s) (hb : b ∈ op.step s) :
    [a, b].Sublist (op.step s) := by
  cases op with
  | keep => exact hab
  | insert e => exact hab.trans (sublist_insert e s)
  | rerank f =>
    -- an entry that is there behind the ranking kept its rank
    have hkept : ∀ e ∈ s, e ∈ step s (rerank f) → (e.1, f e.1 e.2) = e := by
      intro e he hstep
      rw [step, (sort_perm _ _).mem_iff, List.mem_map] at hstep
      obtain ⟨e', he', heq⟩ := hstep
      have hname : e'.1 = e.1 := by rw [← heq]
      obtain rfl : e' = e := List.inj_on_of_nodup_map hnodup he' he hname
      exact heq
    have hmap := hab.map fun e => (e.1, f e.1 e.2)
    rw [List.map_cons, List.map_cons, List.map_nil, hkept a (hab.subset (by simp)) ha,
      hkept b (hab.subset (by simp)) hb] at hmap
    have hle : a.2 ≤ b.2 := by simpa using List.Pairwise.sublist hab hs
    exact sublist_sort hle hmap

end Op

/-- New ranks under the same names are a ranking. -/
theorem exists_rerank {t : List (ι × ℕ)} (hnodup : (s.map Prod.fst).Nodup)
    (h : t.map Prod.fst = s.map Prod.fst) : ∃ f : ι → ℕ → ℕ,
      t = s.map fun e => (e.1, f e.1 e.2) := by
  classical
  refine ⟨fun i r => ((t.find? fun e => e.1 = i).map Prod.snd).getD r, ?_⟩
  have hnodup' : (t.map Prod.fst).Nodup := h ▸ hnodup
  have hlen : t.length = s.length := by simpa using congrArg List.length h
  refine List.ext_getElem (by simpa using hlen) fun n h₁ h₂ => ?_
  have hn : n < s.length := hlen ▸ h₁
  have hname : t[n].1 = s[n].1 := by
    have := congrArg (·[n]?) h
    simpa [h₁, hn] using this
  have hfind : t.find? (fun e => decide (e.1 = s[n].1)) = some t[n] := by
    obtain ⟨e, he⟩ := Option.isSome_iff_exists.mp (List.find?_isSome
      (p := fun e => decide (e.1 = s[n].1)).mpr
        ⟨t[n], List.getElem_mem h₁, decide_eq_true hname⟩)
    have hmem := List.mem_of_find?_eq_some he
    have hpe : e.1 = s[n].1 := by simpa using List.find?_some he
    rw [he, List.inj_on_of_nodup_map hnodup' hmem (List.getElem_mem h₁) (hpe.trans hname.symm)]
  rw [List.getElem_map]
  simp only [hfind, Option.map_some, Option.getD_some]
  exact Prod.ext hname rfl

end Operations

end Ranked
