import CoordinatorCore.Text.Basic

/-!
# Loaded values

The values a YAML or JSON reader hands to the engine, with the operations the engine applies to
them: Python equality, truth, hashability, and the reading and writing of mapping entries.

A mapping is the list of its entries in insertion order, as a Python `dict` keeps it. Equality of
mappings ignores that order, and `True == 1` holds, so equality is a function of its own
(`Val.pyEq`) and not the equality of the syntax.
-/

namespace CoordinatorCore

open Text

/-- The scalar types a loader produces beside null, booleans, integers and strings. -/
inductive ScalarKind
  | float
  | date
  | datetime
  | bytes
  | set
deriving DecidableEq

/-- A loaded value. A scalar of a further kind is known by its printed form. -/
inductive Val
  | null
  | bool (b : Bool)
  | int (n : Int)
  | str (s : Text)
  | other (kind : ScalarKind) (repr : Text)
  | seq (items : List Val)
  | map (entries : List (Val × Val))

/-- The entries of a mapping, in insertion order. -/
abbrev Dict := List (Val × Val)

namespace Val

/-! ### Equality and truth -/

mutual

/-- `==` on loaded values. -/
def pyEq : Val → Val → Bool
  | .null, .null => true
  | .bool a, .bool b => a == b
  | .bool a, .int n => n == (if a then 1 else 0)
  | .int n, .bool a => n == (if a then 1 else 0)
  | .int m, .int n => m == n
  | .str s, .str t => s == t
  | .other k r, .other k' r' => k == k' && r == r'
  | .seq xs, .seq ys => pyEqSeq xs ys
  | .map es, .map fs => es.length == fs.length && pySubset es fs
  | _, _ => false
termination_by structural v => v

/-- `==` on the items of two lists. -/
def pyEqSeq : List Val → List Val → Bool
  | [], [] => true
  | x :: xs, y :: ys => pyEq x y && pyEqSeq xs ys
  | _, _ => false
termination_by structural xs => xs

/-- Every entry of the first mapping has an equal one in the second. -/
def pySubset : Dict → Dict → Bool
  | [], _ => true
  | e :: es, fs => fs.any (fun f => pyEqEntry e f) && pySubset es fs
termination_by structural es => es

/-- Equality of keys and of values. -/
def pyEqEntry : Val × Val → Val × Val → Bool
  | (k, v), (k', v') => pyEq k k' && pyEq v v'
termination_by structural e => e

end

/-- `bool(value)`. -/
def truthy : Val → Bool
  | .null => false
  | .bool b => b
  | .int n => n != 0
  | .str s => s != []
  | .other .float r => r != "0.0".toList && r != "-0.0".toList
  | .other .bytes r => r != "b''".toList
  | .other .set r => r != "set()".toList
  | .other _ _ => true
  | .seq items => !items.isEmpty
  | .map entries => !entries.isEmpty

/-- The value can be a member of a set or a key of a mapping. -/
def hashable : Val → Bool
  | .seq _ => false
  | .map _ => false
  | .other .set _ => false
  | _ => true

/-- `isinstance(value, dict)`, with its entries. -/
def asDict : Val → Option Dict
  | .map entries => some entries
  | _ => none

@[simp] theorem asDict_map (d : Dict) : (Val.map d).asDict = some d := rfl

/-- Maps are dictionaries. -/
theorem asDict_eq_some {v : Val} {d : Dict} : v.asDict = some d ↔ v = .map d := by
  cases v <;> simp [asDict]

/-- A string equals itself and nothing else. -/
@[simp] theorem pyEq_str_right {v : Val} {s : Text} : pyEq v (.str s) = true ↔ v = .str s := by
  cases v <;> simp [pyEq]

@[simp] theorem pyEq_str_left {v : Val} {s : Text} : pyEq (.str s) v = true ↔ v = .str s := by
  cases v with
  | str t => simp [pyEq, eq_comm (a := t)]
  | _ => simp [pyEq]

mutual

private theorem pyEq_self : ∀ v : Val, pyEq v v = true
  | .null => by simp [pyEq]
  | .bool _ => by simp [pyEq]
  | .int _ => by simp [pyEq]
  | .str _ => by simp [pyEq]
  | .other _ _ => by simp [pyEq]
  | .seq xs => by simpa [pyEq] using pyEqSeq_self xs
  | .map es => by
      rw [pyEq, Bool.and_eq_true]
      exact ⟨by simp, pySubset_self es es (fun _ h => h)⟩

private theorem pyEqSeq_self : ∀ xs : List Val, pyEqSeq xs xs = true
  | [] => by simp [pyEqSeq]
  | x :: xs => by
      rw [pyEqSeq, Bool.and_eq_true]
      exact ⟨pyEq_self x, pyEqSeq_self xs⟩

private theorem pySubset_self : ∀ es fs : Dict, (∀ e ∈ es, e ∈ fs) → pySubset es fs = true
  | [], _, _ => by simp [pySubset]
  | e :: es, fs, h => by
      rw [pySubset, Bool.and_eq_true]
      exact ⟨List.any_eq_true.mpr ⟨e, h e (List.mem_cons_self ..), pyEqEntry_self e⟩,
        pySubset_self es fs fun f hf => h f (List.mem_cons_of_mem e hf)⟩

private theorem pyEqEntry_self : ∀ e : Val × Val, pyEqEntry e e = true
  | (k, v) => by
      rw [pyEqEntry, Bool.and_eq_true]
      exact ⟨pyEq_self k, pyEq_self v⟩

end

@[simp] theorem pyEq_refl (v : Val) : pyEq v v = true := pyEq_self v

/-- A boolean as the integer it equals. -/
def unbool : Val → Val
  | .bool b => .int (if b then 1 else 0)
  | v => v

/-- Equality of what can be a set member is equality up to booleans. -/
theorem pyEq_iff_unbool {v w : Val} (h : v.hashable = true) :
    pyEq v w = true ↔ v.unbool = w.unbool := by
  cases v with
  | seq => cases h
  | map => cases h
  | bool a => cases w with
    | bool b => cases a <;> cases b <;> simp [pyEq, unbool]
    | int n => simp [pyEq, unbool, eq_comm (a := n)]
    | _ => simp [pyEq, unbool]
  | _ => cases w <;> simp [pyEq, unbool]

/-- Two members equal to a third are equal. -/
theorem pyEq_of_pyEq_right {u v w : Val} (hu : u.hashable = true) (hw : w.hashable = true)
    (h : pyEq w u = true) (h' : pyEq w v = true) : pyEq u v = true := by
  rw [pyEq_iff_unbool hw] at h h'
  rw [pyEq_iff_unbool hu, ← h, h']

end Val

/-! ### Mapping entries -/

namespace Dict

/-- The key of an entry is the string `k`. -/
def hasKey (k : Text) (e : Val × Val) : Bool :=
  match e.1 with
  | .str s => s == k
  | _ => false

/-- `d.get(k)`. -/
def get (d : Dict) (k : Text) : Val := ((d.find? (hasKey k)).map (·.2)).getD .null

/-- `k in d`. -/
def mem (d : Dict) (k : Text) : Bool := d.any (hasKey k)

/-- `d[k] = v`: in place when the key is there, behind the other entries otherwise. -/
def set (d : Dict) (k : Text) (v : Val) : Dict :=
  if mem d k then d.map fun e => if hasKey k e then (e.1, v) else e
  else d ++ [(.str k, v)]

/-- `d.pop(k, None)`. -/
def pop (d : Dict) (k : Text) : Dict := d.filter fun e => !hasKey k e

/-- An entry has the key it is stored under. -/
theorem hasKey_iff {k : Text} {e : Val × Val} : hasKey k e = true ↔ e.1 = .str k := by
  obtain ⟨v, w⟩ := e
  cases v <;> simp [hasKey]

/-- An entry has one key. -/
theorem hasKey_of_ne {k k' : Text} (h : k ≠ k') {e : Val × Val} (he : hasKey k e = true) :
    hasKey k' e = false := by
  rw [Bool.eq_false_iff, ne_eq, hasKey_iff, hasKey_iff.mp he, Val.str.injEq]
  exact h

/-- A key that is not there reads as null. -/
theorem get_eq_null_of_not_mem {d : Dict} {k : Text} (h : mem d k = false) : get d k = .null := by
  have : d.find? (hasKey k) = none := by
    rw [List.find?_eq_none]
    intro e he hk
    exact absurd (List.any_eq_true.mpr ⟨e, he, hk⟩) (by rw [← mem, h]; decide)
  rw [get, this]
  rfl

/-- What is written is read. -/
@[simp] theorem get_set_self (d : Dict) (k : Text) (v : Val) : get (set d k v) k = v := by
  rw [set]
  split_ifs with h
  · induction d with
    | nil => cases h
    | cons e d ih =>
      rw [List.map_cons, get, List.find?_cons]
      split_ifs with he
      · have : hasKey k (e.1, v) = true := by rwa [hasKey_iff] at he ⊢
        simp [this]
      · have hd : mem d k = true := by simpa [mem, he] using h
        simp only [he]
        exact ih hd
  · have hnone : d.find? (hasKey k) = none := by
      rw [List.find?_eq_none]
      intro e he hk
      exact h (List.any_eq_true.mpr ⟨e, he, hk⟩)
    have : hasKey k (.str k, v) = true := by rw [hasKey_iff]
    rw [get, List.find?_append, hnone]
    simp [this]

/-- Writing one key leaves the others. -/
theorem get_set_of_ne {k k' : Text} (h : k ≠ k') (d : Dict) (v : Val) :
    get (set d k v) k' = get d k' := by
  rw [set]
  split_ifs with hm
  · clear hm
    induction d with
    | nil => rfl
    | cons e d ih =>
      rw [get, get] at ih ⊢
      rw [List.map_cons, List.find?_cons, List.find?_cons]
      split_ifs with he
      · have h1 : hasKey k' (e.1, v) = false := hasKey_of_ne h (by rwa [hasKey_iff] at he ⊢)
        rw [h1, hasKey_of_ne h he]
        exact ih
      · cases hasKey k' e with
        | true => rfl
        | false => exact ih
  · have : hasKey k' (.str k, v) = false := hasKey_of_ne h (by rw [hasKey_iff])
    rw [get, get, List.find?_append]
    simp [this]

/-- Removing one key leaves the others. -/
theorem get_pop_of_ne {k k' : Text} (h : k ≠ k') (d : Dict) : get (pop d k) k' = get d k' := by
  rw [get, get, pop]
  congr 2
  induction d with
  | nil => rfl
  | cons e d ih =>
    rw [List.filter_cons, List.find?_cons]
    split_ifs with he
    · rw [List.find?_cons, ih]
    · rw [hasKey_of_ne h (by simpa using he)]
      exact ih

/-- Writing one key adds no other. -/
theorem mem_set_of_ne {k k' : Text} (h : k ≠ k') (d : Dict) (v : Val) :
    mem (set d k v) k' = mem d k' := by
  rw [set]
  split_ifs with hm
  · rw [mem, mem, List.any_map]
    congr 1
    funext e
    rw [Function.comp_apply]
    split_ifs with he
    · rw [hasKey_of_ne h he, hasKey_of_ne h (by rwa [hasKey_iff] at he ⊢)]
    · rfl
  · have : hasKey k' (.str k, v) = false := hasKey_of_ne h (by rw [hasKey_iff])
    rw [mem, mem, List.any_append]
    simp [this]

/-- Removing one key removes no other. -/
theorem mem_pop_of_ne {k k' : Text} (h : k ≠ k') (d : Dict) : mem (pop d k) k' = mem d k' := by
  rw [mem, mem, pop]
  induction d with
  | nil => rfl
  | cons e d ih =>
    rw [List.filter_cons, List.any_cons]
    split_ifs with he
    · rw [List.any_cons, ih]
    · rw [ih, hasKey_of_ne h (by simpa using he), Bool.false_or]

/-- A key that was popped reads as null. -/
theorem get_pop_self (d : Dict) (k : Text) : get (pop d k) k = .null := by
  refine get_eq_null_of_not_mem ?_
  rw [mem, Bool.eq_false_iff, ne_eq, List.any_eq_true]
  rintro ⟨e, he, hk⟩
  have := (List.mem_filter.mp he).2
  rw [hk] at this
  cases this

end Dict

end CoordinatorCore
