import Mathlib.Data.List.Chain
import Mathlib.Logic.Relation
import Mathlib.Order.Lattice

/-!
# Where chains end

In a graph with at most one edge out of each node every walk is a chain. It ends at a node without
an edge, or it runs into a cycle; there the node with the edge of the greatest rank is taken for its
end. This end is the *survivor* of the nodes on the chain.

Where ranks tell edges apart there is one survivor (`Survivor.unique`), and it is the same for two
nodes exactly if they are connected (`eq_iff_eqvGen`).
-/

namespace Chain

open Relation

variable {α κ : Type*} [LinearOrder κ] (next : α → Option α) (rank : α → κ)

/-- The edges. -/
def Edge (a b : α) : Prop := next a = some b

abbrev Reaches : α → α → Prop := ReflTransGen (Edge next)

/-- An end of the chain: a node without an edge, or the one of a cycle with the greatest rank. -/
structure Survivor (a r : α) : Prop where
  reaches : Reaches next a r
  last : ∀ b, Edge next r b → Reaches next b r ∧ ∀ c, Reaches next r c → rank c ≤ rank r

variable {next rank}

/-- Of two nodes on a chain one reaches the other. -/
theorem Reaches.total {a b c : α} (hb : Reaches next a b) (hc : Reaches next a c) :
    Reaches next b c ∨ Reaches next c b :=
  ReflTransGen.total_of_right_unique (fun _ _ _ h h' => Option.some.inj (h.symm.trans h')) hb hc

theorem Survivor.of_edge {a b r : α} (h : Survivor next rank a r) (hab : Edge next a b) :
    Survivor next rank b r := by
  refine ⟨?_, h.last⟩
  rcases h.reaches.cases_head with rfl | ⟨c, hac, hcr⟩
  · exact (h.last b hab).1
  · rwa [Option.some.inj (hab.symm.trans hac)]

theorem Survivor.self {a r : α} (h : Survivor next rank a r) : Survivor next rank r r :=
  ⟨.refl, h.last⟩

/-- A survivor that reaches another one is reached by it. -/
theorem Survivor.reaches_back {a r c : α} (h : Survivor next rank a r) (hrc : Reaches next r c) :
    Reaches next c r := by
  induction hrc with
  | refl => exact .refl
  | tail hrb hbc ih =>
    rcases ih.cases_head with rfl | ⟨d, hbd, hdr⟩
    · exact (h.last _ hbc).1
    · rwa [Option.some.inj (hbc.symm.trans hbd)]

theorem Survivor.rank_le {a r c : α} (h : Survivor next rank a r) (hrc : Reaches next r c) :
    rank c ≤ rank r := by
  rcases hrc.cases_head with rfl | ⟨b, hrb, -⟩
  · exact le_rfl
  · exact (h.last b hrb).2 c hrc

theorem Survivor.unique (hinj : ∀ a b, next a ≠ none → next b ≠ none → rank a = rank b → a = b)
    {a r r' : α} (h : Survivor next rank a r) (h' : Survivor next rank a r') : r = r' := by
  have hboth : Reaches next r r' ∧ Reaches next r' r := by
    rcases h.reaches.total h'.reaches with hr | hr
    · exact ⟨hr, h.reaches_back hr⟩
    · exact ⟨h'.reaches_back hr, hr⟩
  by_contra hne
  -- both lie on one cycle
  have hedge : ∀ {x y : α}, Reaches next x y → x ≠ y → next x ≠ none := by
    intro x y hxy hne
    rcases hxy.cases_head with rfl | ⟨z, hxz, -⟩
    · exact absurd rfl hne
    · rw [hxz]
      exact Option.some_ne_none z
  exact hne (hinj r r' (hedge hboth.1 hne) (hedge hboth.2 (Ne.symm hne))
    (le_antisymm (h'.rank_le hboth.2) (h.rank_le hboth.1)))

theorem eqvGen_of_reaches {a b : α} (h : Reaches next a b) : EqvGen (Edge next) a b := by
  induction h with
  | refl => exact .refl _
  | tail _ hbc ih => exact ih.trans _ _ _ (.rel _ _ hbc)

/-- Survivors tell exactly what is connected. -/
theorem eq_iff_eqvGen (hinj : ∀ a b, next a ≠ none → next b ≠ none → rank a = rank b → a = b)
    {a b r r' : α} (ha : Survivor next rank a r) (hb : Survivor next rank b r') :
    r = r' ↔ EqvGen (Edge next) a b := by
  constructor
  · rintro rfl
    exact (eqvGen_of_reaches ha.reaches).trans _ _ _ (eqvGen_of_reaches hb.reaches).symm
  · intro h
    suffices hiff : ∀ {r}, Survivor next rank a r ↔ Survivor next rank b r from
      (hiff.mp ha).unique hinj hb
    clear ha hb
    induction h with
    | rel a b hab =>
      refine fun {r} => ⟨fun h => h.of_edge hab, fun h => ⟨.head hab h.reaches, h.last⟩⟩
    | refl => exact Iff.rfl
    | symm a b _ ih => exact ih.symm
    | trans a b c _ _ ihab ihbc => exact ihab.trans ihbc

/-! ### Walks that run into a cycle -/

/-- A walk that comes back to a node of its own. -/
structure Loop (next : α → Option α) (l : List α) (w z : α) : Prop where
  chain : (l ++ [z]).IsChain (Edge next)
  head : (l ++ [z]).head? = some w
  back : Edge next z w

theorem Loop.reaches {l : List α} {w z : α} (h : Loop next l w z) {x y : α} (hx : x ∈ l ++ [z])
    (hy : y ∈ l ++ [z]) : Reaches next x y := by
  have hpair : (l ++ [z]).Pairwise (Reaches next) :=
    List.isChain_iff_pairwise.mp (h.chain.imp fun _ _ => ReflTransGen.single)
  -- every node reaches the last one, and the first one reaches every node
  have hlast : ∀ x ∈ l ++ [z], Reaches next x z := by
    intro x hx
    rcases List.mem_append.mp hx with hx | hx
    · exact (List.pairwise_append.mp hpair).2.2 x hx z (List.mem_singleton_self z)
    · rw [List.mem_singleton.mp hx]
  have hfirst : ∀ y ∈ l ++ [z], Reaches next w y := by
    intro y hy
    obtain ⟨rest, hrest⟩ := List.head?_eq_some_iff.mp h.head
    rw [hrest] at hpair hy
    rcases List.mem_cons.mp hy with rfl | hy
    · exact .refl
    · exact (List.pairwise_cons.mp hpair).1 y hy
  exact (hlast x hx).trans (.head h.back (hfirst y hy))

/-- The node of a loop with the greatest rank is the survivor of all of it. -/
theorem Loop.survivor {l : List α} {w z r : α} (h : Loop next l w z) (hr : r ∈ l ++ [z])
    (hmax : ∀ x ∈ l ++ [z], rank x ≤ rank r) {a : α} (ha : a ∈ l ++ [z]) :
    Survivor next rank a r := by
  have hclosed : ∀ x ∈ l ++ [z], ∀ y, Edge next x y → y ∈ l ++ [z] := by
    intro x hx y hxy
    rcases List.mem_append.mp hx with hx | hx
    · obtain ⟨s, t, rfl⟩ := List.append_of_mem hx
      have hchain := h.chain
      rw [List.append_assoc, List.cons_append] at hchain
      have htail := (List.isChain_cons.mp hchain.right_of_append).1
      obtain ⟨d, hd⟩ : ∃ d, (t ++ [z]).head? = some d :=
        ⟨_, List.head?_eq_some_head (by simp)⟩
      rw [← Option.some.inj ((htail d hd).symm.trans hxy)]
      have := List.mem_of_mem_head? hd
      simp only [List.mem_append, List.mem_cons] at this ⊢
      tauto
    · rw [List.mem_singleton.mp hx] at hxy
      rw [← Option.some.inj (h.back.symm.trans hxy)]
      exact List.mem_of_mem_head? h.head
  have hfrom : ∀ c, Reaches next r c → c ∈ l ++ [z] := by
    intro c hc
    induction hc with
    | refl => exact hr
    | tail _ hcd ih => exact hclosed _ ih _ hcd
  exact ⟨h.reaches ha hr, fun b hb => ⟨h.reaches (hclosed r hr b hb) hr,
    fun c hc => hmax c (hfrom c hc)⟩⟩

end Chain
