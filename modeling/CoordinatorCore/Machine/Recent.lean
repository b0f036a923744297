import CoordinatorCore.Machine.Table

/-!
# Caches of bounded size

A cache is a table whose entries stand in the order of their last use. What is put in goes to the
end, what is found goes to the end again, and the entries in front fall out when there are too many.
A cache forgets, but what it gives was put in under that key (`get_remember_eq_some`), and looking
changes nothing of what it gives (`get_reuse`).
-/

namespace CoordinatorCore

namespace Table

variable {α β : Type*}

/-- The last entries. -/
def newest (n : Nat) (t : Table α β) : Table α β where
  entries := t.entries.drop (t.entries.length - n)
  nodup := t.nodup.sublist ((List.drop_sublist _ _).map _)

variable [DecidableEq α]

/-- A key is written at the end. -/
def renew (t : Table α β) (k : α) (v : β) : Table α β := (t.erase k).set k v

/-- A key is written at the end, and what is too much in front falls out. -/
def remember (n : Nat) (t : Table α β) (k : α) (v : β) : Table α β := (t.renew k v).newest n

/-- The table after a look at a key. -/
def reuse (t : Table α β) (k : α) : Table α β :=
  match t.get k with
  | some v => t.renew k v
  | none => t

theorem get_renew (t : Table α β) (k : α) (v : β) (j : α) :
    (t.renew k v).get j = if j = k then some v else t.get j := by
  rw [renew, get_set, get_erase]
  split_ifs <;> rfl

@[simp] theorem get_reuse (t : Table α β) (k j : α) : (t.reuse k).get j = t.get j := by
  rw [reuse]
  split
  case h_1 v hv =>
    rw [get_renew]
    split_ifs with h
    · rw [h, hv]
    · rfl
  case h_2 => rfl

theorem get_newest_eq_some {n : Nat} {t : Table α β} {k : α} {v : β}
    (h : (t.newest n).get k = some v) : t.get k = some v :=
  get_eq_some_iff.mpr (List.mem_of_mem_drop (get_eq_some_iff.mp h))

/-- What a cache gives is what was put in last, or was there before. -/
theorem get_remember_eq_some {n : Nat} {t : Table α β} {k j : α} {v w : β}
    (h : (t.remember n k v).get j = some w) : j = k ∧ w = v ∨ t.get j = some w := by
  have hrenew := get_newest_eq_some h
  rw [get_renew] at hrenew
  split_ifs at hrenew with hj
  · exact .inl ⟨hj, (Option.some.inj hrenew).symm⟩
  · exact .inr hrenew

end Table

end CoordinatorCore
