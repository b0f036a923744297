import Mathlib.Data.List.Induction
import Mathlib.Order.Lattice

/-!
# Last writer wins, with summaries

A register is replayed from a list of writes, in the order of their stamps, and the last one wins. A
summary stands for writes that came before it: it gives their value, and those writes are skipped
from there on.

Where summaries are *backed* by the writes that they stand for, a replay gives the value of a write
with the latest stamp (`replay_latest`), whatever the summaries left out, and so only the writes
count, unless writes under one stamp differ (`replay_eq_of_writes`).
-/

namespace LastWrite

variable {ι τ ν : Type*}

inductive Entry (ι τ ν : Type*)
  | write (id : ι) (stamp : τ) (value : ν)
  | summary (stamp : τ) (ids : List ι) (value : Option ν)

namespace Entry

def stamp : Entry ι τ ν → τ
  | write _ stamp _ | summary stamp _ _ => stamp

end Entry

section

variable [DecidableEq ι]

/-- One entry, on the ids that are skipped and the value. -/
def step (s : List ι × Option ν) : Entry ι τ ν → List ι × Option ν
  | .write id _ value => if id ∈ s.1 then s else (s.1, some value)
  | .summary _ ids value => (s.1 ++ ids, value)

/-- The value behind all entries. -/
def replay (l : List (Entry ι τ ν)) : Option ν := (l.foldl step ([], none)).2

end

variable [LinearOrder τ]

/-- A summary has the value of a write under its stamp, and stands for no write under a later
one. -/
def Backed (l : List (Entry ι τ ν)) : Prop :=
  ∀ stamp ids value, .summary stamp ids value ∈ l →
    (∃ id v, .write id stamp v ∈ l ∧ value = some v) ∧
      ∀ id ∈ ids, ∀ t v, .write id t v ∈ l → t ≤ stamp

/-- In the order of the stamps. -/
def Ordered (l : List (Entry ι τ ν)) : Prop := l.Pairwise fun a b => a.stamp ≤ b.stamp

variable [DecidableEq ι]

/-- What holds behind a beginning of the entries: the value is that of a write under the last
stamp, and what is skipped some summary stands for. -/
theorem foldl_step_latest {l : List (Entry ι τ ν)} (hord : Ordered l) (hback : Backed l)
    (front behind : List (Entry ι τ ν)) (hl : l = front ++ behind) :
    (∀ id ∈ (front.foldl step ([], none)).1, ∃ stamp ids value,
        .summary stamp ids value ∈ front ∧ id ∈ ids) ∧
      (front ≠ [] → ∃ id t v, .write id t v ∈ l ∧ (∀ e ∈ front, e.stamp ≤ t) ∧
        (∃ e ∈ front, e.stamp = t) ∧ (front.foldl step ([], none)).2 = some v) := by
  induction front using List.reverseRecOn generalizing behind with
  | nil => simp
  | append_singleton front e ih =>
    obtain ⟨hskip, hlatest⟩ := ih (e :: behind) (by rw [hl, List.append_assoc]; rfl)
    have hmem : ∀ x ∈ front ++ [e], x ∈ l := fun x hx => hl ▸ List.mem_append_left behind hx
    have hle : ∀ x ∈ front ++ [e], x.stamp ≤ e.stamp := by
      intro x hx
      rcases List.mem_append.mp hx with hx | hx
      · rw [hl, Ordered, List.append_assoc] at hord
        exact (List.pairwise_append.mp hord).2.2 x hx e (by simp)
      · rw [List.mem_singleton.mp hx]
    have he : e ∈ front ++ [e] := by simp
    rw [List.foldl_append, List.foldl_cons, List.foldl_nil]
    cases e with
    | write id t v =>
      rw [step]
      split_ifs with hid
      · -- a summary stands for the write, and it is under the same stamp
        refine ⟨fun i hi => ?_, fun _ => ?_⟩
        · obtain ⟨stamp, ids, value, hs, hi⟩ := hskip i hi
          exact ⟨stamp, ids, value, List.mem_append_left _ hs, hi⟩
        · obtain ⟨stamp, ids, value, hs, hi⟩ := hskip id hid
          obtain ⟨i, u, w, hw, hall, ⟨x, hx, rfl⟩, hval⟩ := hlatest (List.ne_nil_of_mem hs)
          have hts : t ≤ stamp :=
            (hback _ _ _ (hmem _ (List.mem_append_left _ hs))).2 id hi t v (hmem _ he)
          have hxt : x.stamp = t :=
            le_antisymm (hle x (List.mem_append_left _ hx)) (hts.trans (hall _ hs))
          exact ⟨i, x.stamp, w, hw, fun y hy => hxt ▸ hle y hy,
            ⟨x, List.mem_append_left _ hx, rfl⟩, hval⟩
      · refine ⟨fun i hi => ?_, fun _ => ⟨id, t, v, hmem _ he, hle, ⟨_, he, rfl⟩, rfl⟩⟩
        obtain ⟨stamp, ids, value, hs, hi⟩ := hskip i hi
        exact ⟨stamp, ids, value, List.mem_append_left _ hs, hi⟩
    | summary t ids value =>
      obtain ⟨⟨id, v, hw, rfl⟩, -⟩ := hback t ids value (hmem _ he)
      refine ⟨fun i hi => ?_, fun _ => ⟨id, t, v, hw, hle, ⟨_, he, rfl⟩, rfl⟩⟩
      rcases List.mem_append.mp hi with hi | hi
      · obtain ⟨stamp, ids', value, hs, hi⟩ := hskip i hi
        exact ⟨stamp, ids', value, List.mem_append_left _ hs, hi⟩
      · exact ⟨t, ids, _, he, hi⟩

/-- A replay gives the value of a write with the latest stamp. -/
theorem replay_latest {l : List (Entry ι τ ν)} (hord : Ordered l) (hback : Backed l) (hl : l ≠ []) :
    ∃ id t v, .write id t v ∈ l ∧ (∀ e ∈ l, e.stamp ≤ t) ∧ replay l = some v := by
  obtain ⟨id, t, v, hw, hall, -, hval⟩ :=
    (foldl_step_latest hord hback l [] (List.append_nil l).symm).2 hl
  exact ⟨id, t, v, hw, hall, hval⟩

/-- Only the writes count, where those under one stamp agree. -/
theorem replay_eq_of_writes {l l' : List (Entry ι τ ν)} (hord : Ordered l) (hord' : Ordered l')
    (hback : Backed l) (hback' : Backed l')
    (hsame : ∀ id t v, .write id t v ∈ l ↔ .write id t v ∈ l')
    (hagree : ∀ i j t v w, .write i t v ∈ l → .write j t w ∈ l → v = w) : replay l = replay l' := by
  by_cases hl : l = []
  · -- there are no writes, so there are no summaries of them
    cases l' with
    | nil => rw [hl]
    | cons e l' =>
      obtain ⟨i, t, v, hv, -⟩ := replay_latest hord' hback' (List.cons_ne_nil e l')
      rw [← hsame, hl] at hv
      cases hv
  · obtain ⟨i, t, v, hv, htop, hval⟩ := replay_latest hord hback hl
    have hv' := (hsame i t v).mp hv
    obtain ⟨j, u, w, hw, hutop, hval'⟩ := replay_latest hord' hback' (List.ne_nil_of_mem hv')
    have hw' := (hsame j u w).mpr hw
    obtain rfl : t = u := le_antisymm (hutop _ hv') (htop _ hw')
    rw [hval, hval', hagree i j t v w hv hw']

end LastWrite
