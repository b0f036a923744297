import Mathlib.Data.List.Basic
import Mathlib.Data.Fintype.Card
import Mathlib.Data.Set.Finite.Basic
import Mathlib.Logic.Relation

/-!
# Finite directed graphs

A graph with finitely many nodes, given by the successors of each. An acyclic one is well-founded
(`SuccGraph.Acyclic.wellFounded`).

The second half is about two kinds of edges, firm and soft. Of the soft edges those on a cycle of
the whole graph are dropped, all at once. What is left has no cycle but those of the firm edges
(`transGen_of_kept`).
-/

open Relation

/-- A finite directed graph. Edges start and end at nodes. -/
structure SuccGraph (α : Type*) where
  nodes : List α
  succ : α → List α
  source : ∀ {x y}, y ∈ succ x → x ∈ nodes
  target : ∀ {x y}, y ∈ succ x → y ∈ nodes

namespace SuccGraph

variable {α : Type*}

/-- An edge. -/
def Edge (G : SuccGraph α) (x y : α) : Prop := y ∈ G.succ x

/-- `y` can be reached from `x`, in any number of steps. -/
abbrev Reaches (G : SuccGraph α) : α → α → Prop := ReflTransGen G.Edge

/-- No node reaches itself in one step or more. -/
def Acyclic (G : SuccGraph α) : Prop := ∀ x, ¬ TransGen G.Edge x x

/-- Along the edges of a finite acyclic relation there is no infinite descent. -/
theorem wellFounded_of_acyclic {E : α → α → Prop} (nodes : List α)
    (hE : ∀ x y, E x y → x ∈ nodes ∧ y ∈ nodes) (h : ∀ x, ¬ TransGen E x x) :
    WellFounded fun y x => E x y := by
  let r : {x // x ∈ nodes} → {x // x ∈ nodes} → Prop := fun y x => TransGen E x.1 y.1
  have : Finite {x // x ∈ nodes} := (List.finite_toSet nodes).to_subtype
  have : IsTrans _ r := ⟨fun _ _ _ hab hbc => hbc.trans hab⟩
  have : Std.Irrefl r := ⟨fun x hx => h x.1 hx⟩
  have hwf : WellFounded r := Finite.wellFounded_of_trans_of_irrefl r
  have hacc : ∀ x : {x // x ∈ nodes}, Acc (fun y x => E x y) x.1 := by
    intro x
    induction x using hwf.induction with
    | _ x ih => exact .intro _ fun y hy => ih ⟨y, (hE _ _ hy).2⟩ (.single hy)
  exact ⟨fun x => .intro _ fun y hy => hacc ⟨y, (hE _ _ hy).2⟩⟩

theorem Acyclic.wellFounded {G : SuccGraph α} (h : G.Acyclic) : WellFounded fun y x => G.Edge x y :=
  wellFounded_of_acyclic G.nodes (fun _ _ hxy => ⟨G.source hxy, G.target hxy⟩) h

/-! ### Firm and soft edges -/

/-- The edges kept: every firm one, and the soft ones whose end does not lead back. -/
def Kept (firm soft : α → α → Prop) (x y : α) : Prop :=
  firm x y ∨ soft x y ∧ ¬ ReflTransGen (fun a b => firm a b ∨ soft a b) y x

theorem kept_le {firm soft : α → α → Prop} {x y : α} (h : Kept firm soft x y) :
    firm x y ∨ soft x y := h.imp_right And.left

/-- A kept path with a kept way back is a path of firm edges. -/
theorem transGen_of_kept {firm soft : α → α → Prop} {x y : α} (h : TransGen (Kept firm soft) x y)
    (hback : ReflTransGen (Kept firm soft) y x) : TransGen firm x y := by
  have hfirm : ∀ {a b}, Kept firm soft a b → ReflTransGen (Kept firm soft) b a → firm a b := by
    intro a b hab hba
    exact hab.resolve_right fun hsoft => hsoft.2 (ReflTransGen.mono (fun _ _ => kept_le) _ _ hba)
  induction h with
  | single hxy => exact .single (hfirm hxy hback)
  | tail hxz hzy ih =>
    exact (ih (.head hzy hback)).tail (hfirm hzy (hback.trans hxz.to_reflTransGen))

/-- Without a cycle of firm edges there is none of kept ones. -/
theorem acyclic_kept {firm soft : α → α → Prop} (h : ∀ x, ¬ TransGen firm x x) (x : α) :
    ¬ TransGen (Kept firm soft) x x :=
  fun hx => h x (transGen_of_kept hx hx.to_reflTransGen)

end SuccGraph
