import CoordinatorCore.Git.PackFile

/-!
# Deltas

A delta holds the size of its base, the size of its result, and instructions: copy a stretch of the
base, or insert the bytes that follow. `WellFormed` is the format, read from the side of the
instructions, and `delta_exact_iff` says when `_apply_git_delta` does what the format asks for: on a well
formed delta, and on one in which an opcode is zero. Every other delta is applied as far as it goes,
or ends in an `IndexError`, which the reader of an object does not catch.
-/

namespace CoordinatorCore

namespace Git

namespace PackFile

/-! ### The format -/

/-- Seven bits a byte, the lowest first; a byte of 0x80 or more is not the last one. -/
inductive SizeBytes : Nat → Bytes → Prop
  | last (b : UInt8) (h : b < 0x80) : SizeBytes b.toNat [b]
  | more (b : UInt8) {n : Nat} {bs : Bytes} (h : ¬ b < 0x80) (hbs : SizeBytes n bs) :
      SizeBytes (b.toNat % 0x80 + 0x80 * n) (b :: bs)

/-- Copy a stretch of the base, given by four bytes of its offset and three of its size, each of
which may be left out, or insert bytes. -/
inductive Instruction
  | copy (fields : List (Option UInt8))
  | insert (data : Bytes)

namespace Instruction

/-- The number that bytes denote, the lowest first; one that is left out is zero. -/
def value : List (Option UInt8) → Nat
  | [] => 0
  | f :: fs => f.elim 0 UInt8.toNat + 0x100 * value fs

/-- The bits that say which bytes are there. -/
def mask : List (Option UInt8) → Nat
  | [] => 0
  | f :: fs => f.isSome.toNat + 2 * mask fs

/-- What an instruction looks like in a delta. -/
def bytes : Instruction → Bytes
  | copy fields => (0x80 + mask fields).toUInt8 :: fields.flatMap Option.toList
  | insert data => data.length.toUInt8 :: data

/-- There is room for the fields, and for the number of bytes to insert. -/
def Valid : Instruction → Prop
  | copy fields => fields.length = 7
  | insert data => 0 < data.length ∧ data.length < 0x80

/-- Where a copy starts. -/
def offset (fields : List (Option UInt8)) : Nat := value (fields.take 4)

/-- The size of a copy; zero stands for 65536. -/
def size (fields : List (Option UInt8)) : Nat :=
  if value (fields.drop 4) = 0 then 0x10000 else value (fields.drop 4)

/-- A copy stays in the base. -/
def Inside (base : Bytes) : Instruction → Prop
  | copy fields => offset fields + size fields ≤ base.length
  | insert _ => True

/-- What an instruction adds to the result. -/
def output (base : Bytes) : Instruction → Bytes
  | copy fields => slice base (offset fields) (size fields)
  | insert data => data

end Instruction

/-- The delta is well formed for the base, and the result is what it denotes. -/
def WellFormed (base delta out : Bytes) : Prop :=
  ∃ (source target : Bytes) (ops : List Instruction),
    delta = source ++ (target ++ ops.flatMap Instruction.bytes) ∧
    SizeBytes base.length source ∧ SizeBytes out.length target ∧
    (∀ op ∈ ops, op.Valid ∧ op.Inside base) ∧ out = ops.flatMap (Instruction.output base)

/-- The sizes are complete, and after some instructions there is an opcode zero. -/
def StopsAtZero (delta : Bytes) : Prop :=
  ∃ (n m : Nat) (source target : Bytes) (ops : List Instruction) (rest : Bytes),
    delta = source ++ (target ++ (ops.flatMap Instruction.bytes ++ 0 :: rest)) ∧
    SizeBytes n source ∧ SizeBytes m target ∧ ∀ op ∈ ops, op.Valid

/-- What `_read_local_object` takes for an unreadable object. -/
def PackError.unreadable : PackError → Bool
  | indexError => false
  | _ => true

/-- A well formed delta is applied, and any other one makes the object unreadable. -/
structure Exact (base delta : Bytes) : Prop where
  applied : ∀ out, WellFormed base delta out → applyGitDelta base delta = .ok out
  refused : (∀ out, ¬ WellFormed base delta out) →
    ∃ e, applyGitDelta base delta = .error e ∧ e.unreadable = true

/-! ### Sizes -/

/-- A size is read as it is written, in front of any bytes. -/
theorem deltaReadSize_of_sizeBytes {n : Nat} {bs : Bytes} (h : SizeBytes n bs)
    (result shift : Nat) (rest : Bytes) :
    deltaReadSize result shift (bs ++ rest) = some (result + n * 2 ^ shift, rest) := by
  induction h generalizing result shift with
  | last b hb =>
    have hlt : b.toNat % 0x80 = b.toNat := Nat.mod_eq_of_lt (UInt8.lt_iff_toNat_lt.mp hb)
    rw [List.singleton_append, deltaReadSize, if_pos hb, hlt]
  | more b hb hbs ih =>
    rw [List.cons_append, deltaReadSize, if_neg hb, ih, Nat.pow_add, Nat.add_mul, Nat.add_assoc,
      Nat.mul_assoc 0x80, Nat.mul_comm 0x80, Nat.mul_assoc]

/-- What is read as a size is one. -/
theorem exists_sizeBytes {result shift v : Nat} {delta rest : Bytes}
    (h : deltaReadSize result shift delta = some (v, rest)) :
    ∃ n bs, SizeBytes n bs ∧ delta = bs ++ rest := by
  induction delta generalizing result shift with
  | nil => cases h
  | cons b delta ih =>
    rw [deltaReadSize] at h
    split_ifs at h with hb
    · obtain ⟨-, rfl⟩ := Prod.mk.inj (Option.some.inj h)
      exact ⟨_, _, .last b hb, rfl⟩
    · obtain ⟨n, bs, hbs, rfl⟩ := ih h
      exact ⟨_, _, .more b hb hbs, rfl⟩

/-! ### One instruction -/

/-- An optional byte is read when its bit asks for it. -/
theorem deltaByte_toList (f : Option UInt8) (rest : Bytes) :
    deltaByte f.isSome (f.toList ++ rest) = some (f.elim 0 UInt8.toNat, rest) := by
  cases f with
  | none => rfl
  | some b => rfl

/-- What is read for a bit is an optional byte. -/
theorem exists_toList {asked : Bool} {delta rest : Bytes} {n : Nat}
    (h : deltaByte asked delta = some (n, rest)) :
    ∃ f : Option UInt8, f.isSome = asked ∧ f.elim 0 UInt8.toNat = n ∧ delta = f.toList ++ rest := by
  cases asked with
  | false =>
    obtain ⟨rfl, rfl⟩ := Prod.mk.inj (Option.some.inj h)
    exact ⟨none, rfl, rfl, rfl⟩
  | true =>
    cases delta with
    | nil => cases h
    | cons b delta =>
      obtain ⟨rfl, rfl⟩ := Prod.mk.inj (Option.some.inj h)
      exact ⟨some b, rfl, rfl, rfl⟩

/-- The bits of a copy's opcode are the fields that are there. -/
theorem bit_mask (a b c d e f g : Bool) (k : Nat) (hk : k < 8) :
    (decide ((0x80 + (a.toNat + 2 * (b.toNat + 2 * (c.toNat + 2 * (d.toNat + 2 * (e.toNat +
      2 * (f.toNat + 2 * (g.toNat + 2 * 0)))))))) / 2 ^ k % 2 = 1)) =
      [a, b, c, d, e, f, g, true].getD k false := by
  revert a b c d e f g k
  decide

/-- Seven fields leave the highest bit. -/
theorem mask_lt {fields : List (Option UInt8)} (h : fields.length = 7) :
    Instruction.mask fields < 0x80 := by
  have hlt : ∀ fields : List (Option UInt8), Instruction.mask fields < 2 ^ fields.length := by
    intro fields
    induction fields with
    | nil => decide
    | cons f fields ih =>
      have hf := Bool.toNat_le f.isSome
      rw [Instruction.mask, List.length_cons, Nat.pow_succ]
      omega
  simpa [h] using hlt fields

theorem value_four (a b c d : Option UInt8) :
    Instruction.value [a, b, c, d] = a.elim 0 UInt8.toNat + b.elim 0 UInt8.toNat * 0x100 +
      c.elim 0 UInt8.toNat * 0x10000 + d.elim 0 UInt8.toNat * 0x1000000 := by
  simp only [Instruction.value]
  omega

theorem value_three (a b c : Option UInt8) :
    Instruction.value [a, b, c] = a.elim 0 UInt8.toNat + b.elim 0 UInt8.toNat * 0x100 +
      c.elim 0 UInt8.toNat * 0x10000 := by
  simp only [Instruction.value]
  omega

/-- A copy as it stands in the delta. -/
theorem applyOps_copy (base : Bytes) {fields : List (Option UInt8)} (hf : fields.length = 7)
    (fuel : Nat) (rest out : Bytes) :
    applyOps base (fuel + 1) ((Instruction.copy fields).bytes ++ rest) out =
      applyOps base fuel rest (out ++ (Instruction.copy fields).output base) := by
  have hm := mask_lt hf
  have hop : (0x80 + Instruction.mask fields).toUInt8.toNat = 0x80 + Instruction.mask fields := by
    rw [Nat.toUInt8, UInt8.toNat_ofNat']
    omega
  rcases fields with _ | ⟨a, _ | ⟨b, _ | ⟨c, _ | ⟨d, _ | ⟨e, _ | ⟨f, _ | ⟨g, _ | ⟨x, l⟩⟩⟩⟩⟩⟩⟩⟩
  case cons.cons.cons.cons.cons.cons.cons.nil =>
    have hbit := bit_mask a.isSome b.isSome c.isSome d.isSome e.isSome f.isSome g.isSome
    simp only [Instruction.mask] at hop
    simp only [Instruction.bytes, Instruction.mask, List.cons_append, applyOps, hop]
    simp only [hbit 0 (by decide), hbit 1 (by decide), hbit 2 (by decide), hbit 3 (by decide),
      hbit 4 (by decide), hbit 5 (by decide), hbit 6 (by decide), hbit 7 (by decide)]
    simp only [List.getD_cons_zero, List.getD_cons_succ, if_true, List.flatMap_cons,
      List.flatMap_nil, List.append_assoc, List.append_nil, deltaByte_toList, Option.bind_some,
      Option.bind_eq_bind]
    simp only [Instruction.output, Instruction.offset, Instruction.size, List.take, List.drop,
      value_four, value_three]
  -- no other list has seven elements
  all_goals simp at hf

/-- Bytes to insert, as they stand in the delta. -/
theorem applyOps_insert (base : Bytes) {data : Bytes} (h : 0 < data.length ∧ data.length < 0x80)
    (fuel : Nat) (rest out : Bytes) :
    applyOps base (fuel + 1) ((Instruction.insert data).bytes ++ rest) out =
      applyOps base fuel rest (out ++ data) := by
  have hop : data.length.toUInt8.toNat = data.length := by
    rw [Nat.toUInt8, UInt8.toNat_ofNat']
    omega
  have hbit : ¬ data.length / 2 ^ 7 % 2 = 1 := by omega
  have hne : data.length.toUInt8 ≠ 0 := by
    intro h0
    rw [h0] at hop
    exact absurd hop.symm h.1.ne'
  rw [Instruction.bytes, List.cons_append, applyOps]
  simp only [hop, hbit, decide_false, Bool.false_eq_true, if_false, ne_eq, hne, not_false_eq_true,
    if_true, List.drop_left, List.take_left]

theorem applyOps_instruction (base : Bytes) {op : Instruction} (h : op.Valid) (fuel : Nat)
    (rest out : Bytes) :
    applyOps base (fuel + 1) (op.bytes ++ rest) out =
      applyOps base fuel rest (out ++ op.output base) := by
  cases op with
  | copy fields => exact applyOps_copy base h fuel rest out
  | insert data => exact applyOps_insert base h fuel rest out

/-- A whole run of instructions. -/
theorem applyOps_instructions (base : Bytes) {ops : List Instruction} (h : ∀ op ∈ ops, op.Valid)
    (fuel : Nat) (rest out : Bytes) :
    applyOps base (fuel + ops.length) (ops.flatMap Instruction.bytes ++ rest) out =
      applyOps base fuel rest (out ++ ops.flatMap (Instruction.output base)) := by
  induction ops generalizing out with
  | nil => simp
  | cons op ops ih =>
    rw [List.flatMap_cons, List.append_assoc, List.length_cons, ← Nat.add_assoc,
      applyOps_instruction base (h op List.mem_cons_self),
      ih fun o ho => h o (List.mem_cons_of_mem _ ho), List.flatMap_cons, List.append_assoc]

theorem length_pos_bytes (op : Instruction) : 0 < op.bytes.length := by
  cases op <;> exact Nat.succ_pos _

theorem length_le_flatMap_bytes (ops : List Instruction) :
    ops.length ≤ (ops.flatMap Instruction.bytes).length := by
  induction ops with
  | nil => exact Nat.le_refl 0
  | cons op ops ih =>
    have h := length_pos_bytes op
    rw [List.flatMap_cons, List.length_append, List.length_cons]
    omega

/-! ### What the code refuses -/

/-- An opcode of 0x80 or more says which bytes of a copy follow. -/
theorem opcode_eq (op : UInt8) (h : op.toNat / 2 ^ 7 % 2 = 1) {a b c d e f g : Option UInt8}
    (ha : a.isSome = decide (op.toNat / 2 ^ 0 % 2 = 1))
    (hb : b.isSome = decide (op.toNat / 2 ^ 1 % 2 = 1))
    (hc : c.isSome = decide (op.toNat / 2 ^ 2 % 2 = 1))
    (hd : d.isSome = decide (op.toNat / 2 ^ 3 % 2 = 1))
    (he : e.isSome = decide (op.toNat / 2 ^ 4 % 2 = 1))
    (hf : f.isSome = decide (op.toNat / 2 ^ 5 % 2 = 1))
    (hg : g.isSome = decide (op.toNat / 2 ^ 6 % 2 = 1)) :
    (0x80 + Instruction.mask [a, b, c, d, e, f, g]).toUInt8 = op := by
  have hbit (n : Nat) : (decide (n % 2 = 1)).toNat = n % 2 := by
    obtain h | h := Nat.mod_two_eq_zero_or_one n <;> simp [h]
  have hlt := op.toNat_lt
  simp only [Instruction.mask, ha, hb, hc, hd, he, hf, hg, hbit]
  apply UInt8.toNat_inj.mp
  rw [Nat.toUInt8, UInt8.toNat_ofNat']
  omega

/-- The bytes that the opcode of a copy asks for are there, or the code runs off the end. -/
theorem copy_or_indexError (base : Bytes) (fuel : Nat) {op : UInt8}
    (h7 : op.toNat / 2 ^ 7 % 2 = 1) (delta out : Bytes) :
    applyOps base (fuel + 1) (op :: delta) out = .error .indexError ∨
    ∃ (fields : List (Option UInt8)) (rest : Bytes), fields.length = 7 ∧
      op :: delta = (Instruction.copy fields).bytes ++ rest := by
  rw [applyOps]
  simp only [h7, decide_true, if_true]
  split
  · left; rfl
  · rename_i copied rest heq
    right
    simp only [Option.bind_eq_bind, Option.bind_eq_some_iff] at heq
    obtain ⟨⟨_, _⟩, h₀, ⟨_, _⟩, h₁, ⟨_, _⟩, h₂, ⟨_, _⟩, h₃, ⟨_, _⟩, h₄, ⟨_, _⟩, h₅, ⟨_, behind⟩, h₆,
      heq⟩ := heq
    obtain ⟨a, ha, -, rfl⟩ := exists_toList h₀
    obtain ⟨b, hb, -, rfl⟩ := exists_toList h₁
    obtain ⟨c, hc, -, rfl⟩ := exists_toList h₂
    obtain ⟨d, hd, -, rfl⟩ := exists_toList h₃
    obtain ⟨e, he, -, rfl⟩ := exists_toList h₄
    obtain ⟨f, hf, -, rfl⟩ := exists_toList h₅
    obtain ⟨g, hg, -, rfl⟩ := exists_toList h₆
    refine ⟨[a, b, c, d, e, f, g], behind, rfl, ?_⟩
    rw [Instruction.bytes, opcode_eq op h7 ha hb hc hd he hf hg]
    simp only [List.flatMap_cons, List.flatMap_nil, List.append_nil, List.append_assoc,
      List.cons_append]

/-- What an opcode does: it is zero, a byte that it asks for is missing, it is an instruction, or
it inserts the bytes that are left where it promises more. -/
theorem exists_instruction (base : Bytes) (fuel : Nat) (op : UInt8) (delta out : Bytes) :
    (op = 0 ∧ applyOps base (fuel + 1) (op :: delta) out = .error .opcodeZero) ∨
    applyOps base (fuel + 1) (op :: delta) out = .error .indexError ∨
    (∃ (i : Instruction) (rest : Bytes), i.Valid ∧ op :: delta = i.bytes ++ rest) ∨
    ∃ b, applyOps base (fuel + 1) (op :: delta) out = .ok b := by
  by_cases h7 : op.toNat / 2 ^ 7 % 2 = 1
  · right
    refine (copy_or_indexError base fuel h7 delta out).imp_right ?_
    rintro ⟨fields, rest, hlen, heq⟩
    left
    exact ⟨.copy fields, rest, hlen, heq⟩
  · by_cases h0 : op = 0
    · left
      refine ⟨h0, ?_⟩
      rw [h0]
      rfl
    · right; right
      have hop : op.toNat < 0x80 := by
        have hlt := op.toNat_lt
        omega
      have hpos : 0 < op.toNat := by
        refine Nat.pos_of_ne_zero fun h => h0 (UInt8.toNat_inj.mp h)
      by_cases hlen : op.toNat ≤ delta.length
      · left
        refine ⟨.insert (delta.take op.toNat), delta.drop op.toNat, ?_, ?_⟩
        · rw [Instruction.Valid, List.length_take, Nat.min_eq_left hlen]
          exact ⟨hpos, hop⟩
        · rw [Instruction.bytes, List.length_take, Nat.min_eq_left hlen, Nat.toUInt8,
            UInt8.ofNat_toNat, List.cons_append, List.take_append_drop]
      · right
        refine ⟨out ++ delta, ?_⟩
        rw [applyOps]
        simp only [h7, decide_false, Bool.false_eq_true, if_false, ne_eq, h0, not_false_eq_true,
          if_true]
        rw [List.drop_eq_nil_of_le (by omega), List.take_of_length_le (by omega)]
        cases fuel <;> rfl

/-- Among the errors of the instructions only the opcode zero is one that the reader catches. -/
theorem exists_of_unreadable {base : Bytes} {fuel : Nat} {delta out : Bytes} {e : PackError}
    (h : applyOps base fuel delta out = .error e) (he : e.unreadable = true) :
    ∃ (ops : List Instruction) (rest : Bytes),
      delta = ops.flatMap Instruction.bytes ++ 0 :: rest ∧ ∀ op ∈ ops, op.Valid := by
  induction fuel generalizing delta out with
  | zero => cases h
  | succ fuel ih =>
    cases delta with
    | nil => cases h
    | cons op delta =>
      obtain ⟨rfl, -⟩ | hi | ⟨i, rest, hi, heq⟩ | ⟨b, hb⟩ :=
        exists_instruction base fuel op delta out
      · exact ⟨[], delta, rfl, by simp⟩
      · rw [hi] at h
        cases h
        cases he
      · rw [heq, applyOps_instruction base hi] at h
        obtain ⟨ops, rest, rfl, hops⟩ := ih h
        refine ⟨i :: ops, rest, ?_, ?_⟩
        · rw [heq, List.flatMap_cons, List.append_assoc]
        · rintro o (_ | ⟨_, ho⟩)
          · exact hi
          · exact hops o ho
      · rw [hb] at h
        cases h

/-! ### The delta -/

theorem applyGitDelta_of_sizes (base : Bytes) {n m : Nat} {source target : Bytes}
    (hs : SizeBytes n source) (ht : SizeBytes m target) (rest : Bytes) :
    applyGitDelta base (source ++ (target ++ rest)) = applyOps base rest.length rest [] := by
  rw [applyGitDelta, deltaReadSize_of_sizeBytes hs]
  simp only [deltaReadSize_of_sizeBytes ht]

/-- A well formed delta gives what its instructions denote. -/
theorem applyGitDelta_of_wellFormed {base delta out : Bytes} (h : WellFormed base delta out) :
    applyGitDelta base delta = .ok out := by
  obtain ⟨source, target, ops, rfl, hs, ht, hops, rfl⟩ := h
  have hlen := length_le_flatMap_bytes ops
  have hrun := applyOps_instructions base (fun op ho => (hops op ho).1)
    ((ops.flatMap Instruction.bytes).length - ops.length) [] []
  rw [Nat.sub_add_cancel hlen, List.append_nil, List.nil_append] at hrun
  rw [applyGitDelta_of_sizes base hs ht, hrun]
  cases (ops.flatMap Instruction.bytes).length - ops.length <;> rfl

theorem applyGitDelta_of_stopsAtZero {base delta : Bytes} (h : StopsAtZero delta) :
    applyGitDelta base delta = .error .opcodeZero := by
  obtain ⟨n, m, source, target, ops, rest, rfl, hs, ht, hops⟩ := h
  have hlen := length_le_flatMap_bytes ops
  rw [applyGitDelta_of_sizes base hs ht, List.length_append, List.length_cons]
  obtain ⟨fuel, hfuel⟩ : ∃ fuel, (ops.flatMap Instruction.bytes).length + (rest.length + 1) =
      fuel + 1 + ops.length :=
    ⟨(ops.flatMap Instruction.bytes).length - ops.length + rest.length, by omega⟩
  rw [hfuel, applyOps_instructions base hops]
  rfl

theorem stopsAtZero_of_unreadable {base delta : Bytes} {e : PackError}
    (h : applyGitDelta base delta = .error e) (he : e.unreadable = true) : StopsAtZero delta := by
  rw [applyGitDelta] at h
  cases hs : deltaReadSize 0 0 delta with
  | none =>
    simp only [hs] at h
    cases h
    cases he
  | some p =>
    obtain ⟨n, source, hsource, rfl⟩ := exists_sizeBytes hs
    simp only [hs] at h
    cases ht : deltaReadSize 0 0 p.2 with
    | none =>
      simp only [ht] at h
      cases h
      cases he
    | some q =>
      obtain ⟨m, target, htarget, hp⟩ := exists_sizeBytes ht
      simp only [ht] at h
      obtain ⟨ops, rest, hq, hops⟩ := exists_of_unreadable h he
      exact ⟨n, m, source, target, ops, rest, by rw [hp, hq], hsource, htarget, hops⟩

/-- The code does what the format asks for exactly on the deltas that are well formed, and on those
whose instructions reach an opcode zero. -/
theorem delta_exact_iff (base delta : Bytes) :
    Exact base delta ↔ (∃ out, WellFormed base delta out) ∨ StopsAtZero delta := by
  constructor
  · intro h
    by_cases hw : ∃ out, WellFormed base delta out
    · exact .inl hw
    · right
      obtain ⟨e, happ, he⟩ := h.refused (not_exists.mp hw)
      exact stopsAtZero_of_unreadable happ he
  · intro h
    refine ⟨fun out hw => applyGitDelta_of_wellFormed hw, fun hno => ?_⟩
    obtain ⟨out, hw⟩ | hz := h
    · exact absurd hw (hno out)
    · exact ⟨.opcodeZero, applyGitDelta_of_stopsAtZero hz, rfl⟩

/-- A copy of three bytes out of a base of two: the result is a byte short of its stated size. -/
theorem short_copy_returns : ¬ Exact [0x61, 0x62] [2, 3, 0x90, 3] := by
  intro h
  have happ : applyGitDelta [0x61, 0x62] [2, 3, 0x90, 3] = .ok [0x61, 0x62] := by rfl
  have hno (out : Bytes) : ¬ WellFormed [0x61, 0x62] [2, 3, 0x90, 3] out := by
    intro hw
    have hout := (applyGitDelta_of_wellFormed hw).symm.trans happ
    obtain ⟨source, target, ops, heq, hs, ht, -, -⟩ := hw
    have hsize := deltaReadSize_of_sizeBytes hs 0 0 (target ++ ops.flatMap Instruction.bytes)
    rw [← heq] at hsize
    have htarget : [3, 0x90, 3] = target ++ ops.flatMap Instruction.bytes :=
      (Prod.mk.inj (Option.some.inj hsize)).2
    have hlen := deltaReadSize_of_sizeBytes ht 0 0 (ops.flatMap Instruction.bytes)
    rw [← htarget] at hlen
    have h3 := (Prod.mk.inj (Option.some.inj hlen)).1
    rw [Except.ok.inj hout] at h3
    exact absurd h3 (by decide)
  obtain ⟨e, herr, -⟩ := h.refused hno
  rw [happ] at herr
  cases herr

end PackFile

end Git

end CoordinatorCore
