import Mathlib.Init

/-!
# Computations that keep an invariant

A computation on a state, run in a state with the invariant `I`, keeps `I` and has a result with the
property `P`. The rules follow the computation's text. The use is for caches: where the invariant
says that all that is kept is right, the results do not depend on the state (`Ensures.result_eq`).
-/

namespace CoordinatorCore

universe u

variable {σ α β : Type u} {I : σ → Prop}

/-- From a state with `I`, `m` leads to such a state, and its result has `P`. -/
def Ensures (I : σ → Prop) (m : StateM σ α) (P : α → Prop) : Prop :=
  ∀ s, I s → P (m.run s).1 ∧ I (m.run s).2

namespace Ensures

theorem pure {a : α} {P : α → Prop} (h : P a) : Ensures I (Pure.pure a) P := fun _ hs => ⟨h, hs⟩

theorem bind {m : StateM σ α} {f : α → StateM σ β} {P : α → Prop} {Q : β → Prop}
    (hm : Ensures I m P) (hf : ∀ a, P a → Ensures I (f a) Q) : Ensures I (m >>= f) Q := by
  intro s hs
  obtain ⟨hP, hI⟩ := hm s hs
  exact hf _ hP _ hI

theorem imp {m : StateM σ α} {P Q : α → Prop} (hm : Ensures I m P) (h : ∀ a, P a → Q a) :
    Ensures I m Q := fun s hs => ⟨h _ (hm s hs).1, (hm s hs).2⟩

/-- Results that are known do not depend on the state. -/
theorem result_eq {m : StateM σ α} {a : α} (hm : Ensures I m fun b => b = a) {s : σ} (hs : I s) :
    (m.run s).1 = a := (hm s hs).1

/-- The state behind it keeps the invariant. -/
theorem state {m : StateM σ α} {P : α → Prop} (hm : Ensures I m P) {s : σ} (hs : I s) :
    I (m.run s).2 := (hm s hs).2

end Ensures

end CoordinatorCore
