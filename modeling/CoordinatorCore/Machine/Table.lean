import Mathlib.Data.List.Induction
import Mathlib.Data.List.Nodup
import Mathlib.Data.List.Perm.Basic

/-!
# Tables that keep the order of insertion

A finite map as the list of its entries, in the order in which the keys were first written. Writing
a key that is there changes its entry in place. No key has two entries, and that is part of the
type.
-/

namespace CoordinatorCore

/-- A finite map with its entries in order of insertion. -/
structure Table (α β : Type*) where
  entries : List (α × β)
  nodup : (entries.map Prod.fst).Nodup

namespace Table

variable {α β γ : Type*}

/-- A table is its entries. -/
@[ext] theorem ext {t u : Table α β} (h : t.entries = u.entries) : t = u := by
  cases t
  cases u
  congr

instance [DecidableEq α] [DecidableEq β] : DecidableEq (Table α β) := fun _ _ =>
  decidable_of_iff _ Table.ext_iff.symm

instance : EmptyCollection (Table α β) := ⟨⟨[], List.nodup_nil⟩⟩

/-- The keys, in order of insertion. -/
def keys (t : Table α β) : List α := t.entries.map Prod.fst

/-- The values, in order of insertion. -/
def values (t : Table α β) : List β := t.entries.map Prod.snd

/-- Every value replaced. -/
def mapValues (f : β → γ) (t : Table α β) : Table α γ where
  entries := t.entries.map fun e => (e.1, f e.2)
  nodup := by
    rw [List.map_map]
    exact t.nodup

/-- The entries that pass a test. -/
def filter (p : α × β → Bool) (t : Table α β) : Table α β where
  entries := t.entries.filter p
  nodup := t.nodup.sublist (List.filter_sublist.map _)

variable [DecidableEq α]

/-- The value of a key. -/
def get (t : Table α β) (k : α) : Option β := (t.entries.find? fun e => e.1 = k).map Prod.snd

/-- The entries with one value replaced, or with one entry more. -/
def setEntries (es : List (α × β)) (k : α) (v : β) : List (α × β) :=
  if k ∈ es.map Prod.fst then es.map fun e => if e.1 = k then (k, v) else e else es ++ [(k, v)]

private theorem keys_setEntries (es : List (α × β)) (k : α) (v : β) :
    (setEntries es k v).map Prod.fst =
      if k ∈ es.map Prod.fst then es.map Prod.fst else es.map Prod.fst ++ [k] := by
  unfold setEntries
  split_ifs with h
  · rw [List.map_map]
    refine List.map_congr_left fun e _ => ?_
    rw [Function.comp_apply]
    split_ifs with he
    · exact he.symm
    · rfl
  · rw [List.map_append]
    rfl

/-- A key is written. -/
def set (t : Table α β) (k : α) (v : β) : Table α β where
  entries := setEntries t.entries k v
  nodup := by
    rw [keys_setEntries]
    split_ifs with h
    · exact t.nodup
    · exact List.nodup_append.mpr ⟨t.nodup, List.nodup_singleton k, fun a ha b hb hab =>
        h (by rw [← List.mem_singleton.mp hb, ← hab]; exact ha)⟩

/-- A key is removed. -/
def erase (t : Table α β) (k : α) : Table α β := t.filter fun e => e.1 ≠ k

/-- Pairs are written one after the other. -/
def ofPairs (ps : List (α × β)) : Table α β := ps.foldl (fun t p => t.set p.1 p.2) ∅

@[simp] theorem get_empty (k : α) : (∅ : Table α β).get k = none := rfl

/-- A key without a value is not in the table. -/
theorem get_eq_none_iff {t : Table α β} {k : α} : t.get k = none ↔ k ∉ t.keys := by
  rw [get, Option.map_eq_none_iff, List.find?_eq_none, keys, List.mem_map]
  constructor
  · rintro h ⟨e, he, rfl⟩
    exact h e he (by simp)
  · exact fun h e he hk => h ⟨e, he, by simpa using hk⟩

/-- An entry is what its key gives. -/
theorem get_eq_some_iff {t : Table α β} {k : α} {v : β} :
    t.get k = some v ↔ (k, v) ∈ t.entries := by
  obtain ⟨es, hes⟩ := t
  rw [get, Option.map_eq_some_iff]
  constructor
  · rintro ⟨e, he, rfl⟩
    have hk : e.1 = k := by simpa using List.find?_some he
    rw [← hk]
    exact List.mem_of_find?_eq_some he
  · intro h
    refine ⟨(k, v), ?_, rfl⟩
    induction es with
    | nil => cases h
    | cons e es ih =>
      rw [List.map_cons, List.nodup_cons] at hes
      rcases List.mem_cons.mp h with rfl | hmem
      · simp
      · have hne : e.1 ≠ k := fun he => hes.1 (he ▸ List.mem_map_of_mem (f := Prod.fst) hmem)
        rw [List.find?_cons_of_neg (by simpa using hne)]
        exact ih hes.2 hmem

/-- The keys of a table have values. -/
theorem mem_keys_iff {t : Table α β} {k : α} : k ∈ t.keys ↔ ∃ v, t.get k = some v := by
  rw [← not_iff_not, ← get_eq_none_iff, Option.eq_none_iff_forall_not_mem]
  simp

/-- What is written is read, and the other keys keep their values. -/
theorem get_set (t : Table α β) (k : α) (v : β) (j : α) :
    (t.set k v).get j = if j = k then some v else t.get j := by
  by_cases hj : j = k
  · subst hj
    rw [if_pos rfl, get_eq_some_iff]
    change (j, v) ∈ setEntries t.entries j v
    unfold setEntries
    split_ifs with h
    · obtain ⟨e, he, hk⟩ := List.mem_map.mp h
      exact List.mem_map.mpr ⟨e, he, if_pos hk⟩
    · simp
  · rw [if_neg hj]
    refine Option.ext fun w => ?_
    rw [get_eq_some_iff, get_eq_some_iff]
    change (j, w) ∈ setEntries t.entries k v ↔ _
    unfold setEntries
    split_ifs with h
    · rw [List.mem_map]
      constructor
      · rintro ⟨e, he, heq⟩
        split_ifs at heq with hk
        · exact absurd (congrArg Prod.fst heq).symm hj
        · exact heq ▸ he
      · exact fun hw => ⟨(j, w), hw, if_neg hj⟩
    · rw [List.mem_append, List.mem_singleton, Prod.mk.injEq]
      exact ⟨fun hor => hor.resolve_right fun h => hj h.1, Or.inl⟩

/-- The value that was set is read. -/
theorem get_set_self (t : Table α β) (k : α) (v : β) : (t.set k v).get k = some v := by
  rw [get_set, if_pos rfl]

/-- A filtered table has the values the filter lets through. -/
theorem get_filter_eq_some_iff {p : α × β → Bool} {t : Table α β} {k : α} {v : β} :
    (t.filter p).get k = some v ↔ t.get k = some v ∧ p (k, v) = true := by
  rw [get_eq_some_iff, get_eq_some_iff]
  exact List.mem_filter

/-- An erased key has no value; the others stay. -/
theorem get_erase (t : Table α β) (k j : α) :
    (t.erase k).get j = if j = k then none else t.get j := by
  refine Option.ext fun w => ?_
  rw [erase, get_filter_eq_some_iff]
  split_ifs with h <;> simp [h]

@[simp] theorem get_mapValues (f : β → γ) (t : Table α β) (k : α) :
    (t.mapValues f).get k = (t.get k).map f := by
  rw [get, get, mapValues, List.find?_map, Option.map_map, Option.map_map]
  rfl

/-- A new key is put at the end. -/
theorem entries_set_of_not_mem {t : Table α β} {k : α} (h : k ∉ t.keys) (v : β) :
    (t.set k v).entries = t.entries ++ [(k, v)] :=
  if_neg h

/-- A filter on the keys commutes with writing: a key that does not pass is not written. -/
theorem filter_set (p : α → Bool) (t : Table α β) (k : α) (v : β) :
    (t.set k v).filter (fun e => p e.1) =
      if p k then (t.filter fun e => p e.1).set k v else t.filter fun e => p e.1 := by
  have hmem : p k = true → (k ∈ (t.entries.filter fun e => p e.1).map Prod.fst ↔
      k ∈ t.entries.map Prod.fst) := by
    intro hk
    simp [hk]
  have hmap : (t.entries.map fun e => if e.1 = k then (k, v) else e).filter (fun e => p e.1) =
      (t.entries.filter fun e => p e.1).map fun e => if e.1 = k then (k, v) else e := by
    rw [List.filter_map]
    refine congrArg _ (List.filter_congr fun e _ => ?_)
    rw [Function.comp_apply]
    split_ifs with he
    · rw [he]
    · rfl
  cases hk : p k with
  | true =>
    refine Table.ext ?_
    simp only [if_true, set, filter, setEntries, hmem hk]
    split_ifs with hin
    · exact hmap
    · rw [List.filter_append]
      simp [hk]
  | false =>
    refine Table.ext ?_
    simp only [Bool.false_eq_true, if_false, set, filter, setEntries]
    split_ifs with hin
    · rw [hmap, List.map_congr_left (g := id), List.map_id]
      intro e he
      have hne : e.1 ≠ k := fun heq => by
        have := (List.mem_filter.mp he).2
        rw [heq, hk] at this
        cases this
      rw [if_neg hne, id]
    · rw [List.filter_append]
      simp [hk]

/-- The entries with one key are the one entry of this key. -/
theorem filter_key (t : Table α β) (k : α) :
    (t.entries.filter fun e => e.1 = k) = ((t.get k).map fun v => (k, v)).toList := by
  obtain ⟨es, hes⟩ := t
  rw [get]
  induction es with
  | nil => rfl
  | cons e es ih =>
    rw [List.map_cons, List.nodup_cons] at hes
    by_cases hk : e.1 = k
    · have hnone : (es.filter fun e => e.1 = k) = [] := by
        rw [List.filter_eq_nil_iff]
        intro x hx hxk
        refine hes.1 (List.mem_map.mpr ⟨x, hx, ?_⟩)
        rw [hk]
        simpa using hxk
      rw [List.filter_cons_of_pos (by simpa using hk), List.find?_cons_of_pos (by simpa using hk),
        hnone, ← hk]
      rfl
    · rw [List.filter_cons_of_neg (by simpa using hk), List.find?_cons_of_neg (by simpa using hk)]
      exact ih hes.2

/-- An entry and the entries without its key are all entries. -/
theorem perm_cons_erase {t : Table α β} {k : α} {v : β} (h : t.get k = some v) :
    t.entries.Perm ((k, v) :: (t.erase k).entries) := by
  have hkey := filter_key t k
  rw [h] at hkey
  have hsplit := (List.filter_append_perm (fun e : α × β => decide (e.1 = k)) t.entries).symm
  rw [hkey] at hsplit
  simpa [erase, filter] using hsplit

/-- The last pair of a key counts. -/
theorem get_ofPairs (ps : List (α × β)) (k : α) :
    (ofPairs ps).get k = (ps.reverse.find? fun p => p.1 = k).map Prod.snd := by
  induction ps using List.reverseRecOn with
  | nil => rfl
  | append_singleton ps p ih =>
    rw [ofPairs, List.foldl_append, List.foldl_cons, List.foldl_nil, get_set, List.reverse_concat]
    by_cases hk : p.1 = k
    · rw [if_pos hk.symm, List.find?_cons_of_pos (by simpa using hk)]
      rfl
    · rw [if_neg (Ne.symm hk), List.find?_cons_of_neg (by simpa using hk)]
      exact ih

/-- Where no key is written twice, every pair is read. -/
theorem get_ofPairs_of_nodup {ps : List (α × β)} (h : (ps.map Prod.fst).Nodup) {k : α} {v : β} :
    (ofPairs ps).get k = some v ↔ (k, v) ∈ ps := by
  rw [get_ofPairs, Option.map_eq_some_iff]
  constructor
  · rintro ⟨p, hp, rfl⟩
    have hk : p.1 = k := by simpa using List.find?_some hp
    rw [← hk]
    exact List.mem_reverse.mp (List.mem_of_find?_eq_some hp)
  · intro hmem
    obtain ⟨p, hp⟩ := Option.isSome_iff_exists.mp
      ((List.find?_isSome (p := fun p : α × β => p.1 = k)).mpr
        ⟨(k, v), List.mem_reverse.mpr hmem, decide_eq_true rfl⟩)
    have hk : p.1 = k := by simpa using List.find?_some hp
    have := List.inj_on_of_nodup_map h (List.mem_reverse.mp (List.mem_of_find?_eq_some hp)) hmem hk
    exact ⟨p, hp, by rw [this]⟩

/-- A key is written, or removed for want of a value. -/
def put (t : Table α β) (k : α) : Option β → Table α β
  | none => t.erase k
  | some v => t.set k v

/-- An optional value is set or erased. -/
theorem get_put (t : Table α β) (k : α) (o : Option β) (j : α) :
    (t.put k o).get j = if j = k then o else t.get j := by
  cases o with
  | none => exact get_erase t k j
  | some v => exact get_set t k v j

/-- Of several keys none of which comes twice, each has its own value in the end. -/
theorem get_foldl_put {ps : List (α × Option β)} (h : (ps.map Prod.fst).Nodup) (t : Table α β) :
    (∀ k o, (k, o) ∈ ps → (ps.foldl (fun t p => t.put p.1 p.2) t).get k = o) ∧
      ∀ k ∉ ps.map Prod.fst, (ps.foldl (fun t p => t.put p.1 p.2) t).get k = t.get k := by
  induction ps generalizing t with
  | nil => exact ⟨nofun, fun k _ => rfl⟩
  | cons p ps ih =>
    rw [List.map_cons, List.nodup_cons] at h
    obtain ⟨hmem, hnot⟩ := ih h.2 (t.put p.1 p.2)
    rw [List.foldl_cons]
    refine ⟨fun k o hk => ?_, fun k hk => ?_⟩
    · rcases List.mem_cons.mp hk with rfl | hk
      · rw [hnot k h.1, get_put, if_pos rfl]
      · exact hmem k o hk
    · rw [List.map_cons, List.mem_cons, not_or] at hk
      rw [hnot k hk.2, get_put, if_neg hk.1]

/-- Pairs that are written over a table, no key twice. -/
theorem get_foldl_set {ps : List (α × β)} (h : (ps.map Prod.fst).Nodup) (t : Table α β) :
    (∀ k v, (k, v) ∈ ps → (ps.foldl (fun t p => t.set p.1 p.2) t).get k = some v) ∧
      ∀ k ∉ ps.map Prod.fst, (ps.foldl (fun t p => t.set p.1 p.2) t).get k = t.get k := by
  have hkeys : (ps.map fun p => (p.1, some p.2)).map Prod.fst = ps.map Prod.fst := by
    rw [List.map_map]
    rfl
  obtain ⟨hmem, hnot⟩ := @get_foldl_put _ _ _ (ps.map fun p => (p.1, some p.2)) (hkeys ▸ h) t
  rw [List.foldl_map] at hmem hnot
  exact ⟨fun k v hk => hmem k (some v) (List.mem_map_of_mem hk), fun k hk => hnot k (hkeys ▸ hk)⟩

end Table

end CoordinatorCore
