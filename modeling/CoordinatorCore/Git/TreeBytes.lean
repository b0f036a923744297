import CoordinatorCore.Git.TreeObjects
import CoordinatorCore.Git.IndexFile
import Mathlib.Data.Nat.Digits.Defs
import Mathlib.Data.Nat.Digits.Lemmas

/-!
# The bytes of a tree object

`_parse_tree_entries` of `git/git_state.py`, on the payload as it is stored: a mode in octal digits,
a space, the name, a zero, and the twenty bytes of the hash, again and again. `Payload` relates the
lines of a tree to their bytes, and the parser reads them back (`parseTreeEntries_payload`).
-/

namespace CoordinatorCore

open PyStr

namespace Git

namespace TreeBytes

/-! ### Octal numbers -/

/-- The value of digits, with single underscores between them. `open_` says that a digit has to
come. -/
def octalValue (open_ : Bool) (n : Nat) : Bytes → Option Nat
  | [] => if open_ then none else some n
  | b :: bs =>
    if b = 0x5f then if open_ then none else octalValue true n bs
    else if 0x30 ≤ b ∧ b ≤ 0x37 then octalValue false (n * 8 + (b.toNat - 0x30)) bs
    else none

/-- White space of ASCII. -/
def isWhite (b : UInt8) : Bool := b = 0x20 || (0x09 ≤ b && b ≤ 0x0d)

/-- The digits without `0o`, and without an underscore behind it. -/
def dropOctalPrefix (bs : Bytes) : Bytes :=
  if bs.take 2 = [0x30, 0x6f] ∨ bs.take 2 = [0x30, 0x4f] then
    if (bs.drop 2).head? = some 0x5f then bs.drop 3 else bs.drop 2
  else bs

/-- `int(b, 8)`. -/
def octalInt (b : Bytes) : Option Int :=
  let s := (b.dropWhile isWhite).rdropWhile isWhite
  if s.head? = some 0x2d then (octalValue true 0 (dropOctalPrefix s.tail)).map fun n => -(n : Int)
  else
    let s := if s.head? = some 0x2b then s.tail else s
    (octalValue true 0 (dropOctalPrefix s)).map fun n => (n : Int)

/-- The digits of a mode. -/
def octal (m : Nat) : Bytes :=
  if m = 0 then [0x30] else (Nat.digits 8 m).reverse.map fun d => (0x30 + d).toUInt8

/-! ### The parser -/

/-- The entries of a tree by their names. -/
abbrev Entries := Table PyStr (Int × Text)

/-- The loop; each round takes a byte at least. -/
def parseLoop : Nat → Bytes → Entries → Option Entries
  | _, [], entries => some entries
  | 0, _ :: _, _ => none
  | fuel + 1, b :: bs, entries =>
    let payload := b :: bs
    if 0x20 ∉ payload then none
    else
      match octalInt (payload.takeWhile (· ≠ 0x20)) with
      | none => none
      | some mode =>
        let behind := (payload.dropWhile (· ≠ 0x20)).tail
        if 0 ∉ behind then none
        else
          let shaBytes := (behind.dropWhile (· ≠ 0)).tail.take 20
          if shaBytes.length ≠ 20 then none
          else parseLoop fuel ((behind.dropWhile (· ≠ 0)).tail.drop 20)
            (entries.set (fsDecode (behind.takeWhile (· ≠ 0))) (mode, hex shaBytes))

/-- `_parse_tree_entries`. -/
def parseTreeEntries (payload : Bytes) : Option Entries := parseLoop payload.length payload ∅

/-! ### The format -/

/-- A line of a tree, with the bytes of its hash. -/
def lineBytes (e : TreeEntry Text) (raw : Bytes) : Bytes :=
  octal e.mode ++ 0x20 :: (e.name ++ 0 :: raw)

/-- The bytes of the lines. -/
inductive Payload : List (TreeEntry Text) → Bytes → Prop
  | nil : Payload [] []
  | cons {e : TreeEntry Text} {raw : Bytes} {es : List (TreeEntry Text)} {rest : Bytes} :
      raw.length = 20 → e.sha = hex raw → 0 ∉ e.name → Payload es rest →
      Payload (e :: es) (lineBytes e raw ++ rest)

/-- What a line says. -/
def entryOf (e : TreeEntry Text) : PyStr × (Int × Text) := (e.text, ((e.mode : Int), e.sha))

/-! ### Reading back -/

theorem octalValue_digits {ds : List Nat} (h : ∀ d ∈ ds, d < 8) (n : Nat) :
    octalValue false n (ds.map fun d => (0x30 + d).toUInt8) =
      some (ds.foldl (fun n d => n * 8 + d) n) := by
  induction ds generalizing n with
  | nil => rfl
  | cons d ds ih =>
    have hd := h d List.mem_cons_self
    have hto : (0x30 + d).toUInt8.toNat = 0x30 + d := by
      rw [Nat.toUInt8, UInt8.toNat_ofNat']
      omega
    have hne : (0x30 + d).toUInt8 ≠ 0x5f := by
      intro heq
      rw [heq] at hto
      have : (0x5f : UInt8).toNat = 0x5f := rfl
      omega
    have hdigit : 0x30 ≤ (0x30 + d).toUInt8 ∧ (0x30 + d).toUInt8 ≤ 0x37 := by
      rw [UInt8.le_iff_toNat_le, UInt8.le_iff_toNat_le, hto]
      exact ⟨Nat.le_add_right _ _, show 0x30 + d ≤ 0x37 by omega⟩
    rw [List.map_cons, octalValue, if_neg hne, if_pos hdigit, hto, List.foldl_cons,
      Nat.add_sub_cancel_left]
    exact ih (fun x hx => h x (List.mem_cons_of_mem _ hx)) _

/-- The digits of a mode are octal digits. -/
theorem mem_octal {m : Nat} {b : UInt8} (h : b ∈ octal m) : 0x30 ≤ b.toNat ∧ b.toNat ≤ 0x37 := by
  rw [octal] at h
  split_ifs at h with hm
  · obtain rfl := List.mem_singleton.mp h
    decide
  · obtain ⟨d, hd, rfl⟩ := List.mem_map.mp h
    have hlt := Nat.digits_lt_base (by decide : 1 < 8) (List.mem_reverse.mp hd)
    rw [Nat.toUInt8, UInt8.toNat_ofNat']
    omega

/-- The value of the digits. -/
theorem octalValue_octal (m : Nat) : octalValue true 0 (octal m) = some m := by
  rw [octal]
  split_ifs with hm
  · rw [hm]
    rfl
  · have hlt : ∀ d ∈ (Nat.digits 8 m).reverse, d < 8 := fun d hd =>
      Nat.digits_lt_base (by decide) (List.mem_reverse.mp hd)
    have hval : (Nat.digits 8 m).reverse.foldl (fun n d => n * 8 + d) 0 = m := by
      rw [List.foldl_reverse]
      conv_rhs => rw [← Nat.ofDigits_digits 8 m, Nat.ofDigits_eq_foldr]
      simp only [Nat.cast_id, Nat.mul_comm, Nat.add_comm]
    have hdigits := octalValue_digits hlt 0
    rw [hval] at hdigits
    rw [← hdigits]
    -- the first digit is there
    cases hrev : (Nat.digits 8 m).reverse with
    | nil => exact absurd (Nat.digits_eq_nil_iff_eq_zero.mp (List.reverse_eq_nil_iff.mp hrev)) hm
    | cons d ds =>
      rw [List.map_cons, octalValue, octalValue]
      have hd := hlt d (hrev ▸ List.mem_cons_self)
      have hne : (0x30 + d).toUInt8 ≠ 0x5f := by
        intro heq
        have := congrArg UInt8.toNat heq
        rw [Nat.toUInt8, UInt8.toNat_ofNat', show (0x5f : UInt8).toNat = 0x5f from rfl] at this
        omega
      rw [if_neg hne, if_neg hne]

theorem octalInt_octal (m : Nat) : octalInt (octal m) = some (m : Int) := by
  have hnot {b : UInt8} (hb : ¬ (0x30 ≤ b.toNat ∧ b.toNat ≤ 0x37)) : b ∉ octal m := fun h =>
    hb (mem_octal h)
  have hwhite : ∀ b ∈ octal m, isWhite b = false := by
    intro b hb
    obtain ⟨hlo, hhi⟩ := mem_octal hb
    have hne : b ≠ 0x20 := by
      rintro rfl
      exact absurd hlo (by decide)
    have hgt : ¬ b ≤ 0x0d := by
      rw [UInt8.le_iff_toNat_le, show (0x0d : UInt8).toNat = 13 from rfl]
      omega
    simp [isWhite, hne, hgt]
  have hstrip : ((octal m).dropWhile isWhite).rdropWhile isWhite = octal m := by
    rw [List.dropWhile_eq_self_iff.mpr, List.rdropWhile_eq_self_iff.mpr]
    · intro hne
      simp [hwhite _ (List.getLast_mem hne)]
    · intro hl
      simp [hwhite _ (List.getElem_mem hl)]
  have hhead (b : UInt8) (hb : ¬ (0x30 ≤ b.toNat ∧ b.toNat ≤ 0x37)) :
      (octal m).head? ≠ some b := fun h => hnot hb (List.mem_of_mem_head? h)
  have hprefix : dropOctalPrefix (octal m) = octal m := by
    rw [dropOctalPrefix, if_neg]
    rintro (h | h)
    · exact hnot (b := 0x6f) (by decide) (List.mem_of_mem_take (i := 2) (by rw [h]; decide))
    · exact hnot (b := 0x4f) (by decide) (List.mem_of_mem_take (i := 2) (by rw [h]; decide))
  rw [octalInt]
  simp only [hstrip]
  rw [if_neg (hhead 0x2d (by decide)), if_neg (hhead 0x2b (by decide)), hprefix, octalValue_octal]
  rfl

/-- The mode of a line, in front of its space. -/
theorem span_mode (m : Nat) (rest : Bytes) :
    (octal m ++ 0x20 :: rest).takeWhile (· ≠ 0x20) = octal m ∧
      (octal m ++ 0x20 :: rest).dropWhile (· ≠ 0x20) = 0x20 :: rest := by
  have h : ∀ b ∈ octal m, decide (b ≠ 0x20) = true := by
    intro b hb
    have hlo := (mem_octal hb).1
    refine decide_eq_true ?_
    rintro rfl
    exact absurd hlo (by decide)
  rw [List.takeWhile_append_of_pos h, List.dropWhile_append_of_pos h]
  simp

/-- The name of a line, in front of its zero. -/
theorem span_name {name : Bytes} (hname : 0 ∉ name) (rest : Bytes) :
    (name ++ 0 :: rest).takeWhile (· ≠ 0) = name ∧
      (name ++ 0 :: rest).dropWhile (· ≠ 0) = 0 :: rest := by
  have h : ∀ b ∈ name, decide (b ≠ 0) = true := by
    intro b hb
    refine decide_eq_true ?_
    rintro rfl
    exact hname hb
  rw [List.takeWhile_append_of_pos h, List.dropWhile_append_of_pos h]
  simp

/-- A round of the loop reads a line. -/
theorem parseLoop_line {e : TreeEntry Text} {raw : Bytes} (hraw : raw.length = 20)
    (hsha : e.sha = hex raw) (hname : 0 ∉ e.name) (fuel : Nat) (rest : Bytes)
    (entries : Entries) :
    parseLoop (fuel + 1) (lineBytes e raw ++ rest) entries =
      parseLoop fuel rest (entries.set (entryOf e).1 (entryOf e).2) := by
  have hbytes : lineBytes e raw ++ rest = octal e.mode ++ 0x20 :: (e.name ++ 0 :: (raw ++ rest)) := by
    simp [lineBytes]
  rw [hbytes]
  have hmode := span_mode e.mode (e.name ++ 0 :: (raw ++ rest))
  have hspan := span_name hname (raw ++ rest)
  cases hcons : octal e.mode ++ 0x20 :: (e.name ++ 0 :: (raw ++ rest)) with
  | nil => simp at hcons
  | cons b bs =>
    rw [parseLoop, ← hcons]
    simp only [hmode.1, hmode.2, List.tail_cons, octalInt_octal, hspan.1, hspan.2]
    rw [if_neg (by simp), if_neg (by simp), ← hraw, List.take_left, List.drop_left,
      if_neg (not_not.mpr rfl), entryOf, TreeEntry.text, hsha]

theorem parseLoop_payload {es : List (TreeEntry Text)} {payload : Bytes} (h : Payload es payload)
    {fuel : Nat} (hfuel : es.length ≤ fuel) (entries : Entries) :
    parseLoop fuel payload entries =
      some ((es.map entryOf).foldl (fun t p => t.set p.1 p.2) entries) := by
  induction h generalizing fuel entries with
  | nil => cases fuel <;> rfl
  | cons hraw hsha hname _ ih =>
    obtain ⟨fuel, rfl⟩ : ∃ k, fuel = k + 1 := ⟨fuel - 1, by simp at hfuel; omega⟩
    rw [parseLoop_line hraw hsha hname, ih (Nat.le_of_succ_le_succ hfuel)]
    rfl

theorem Payload.length_le {es : List (TreeEntry Text)} {payload : Bytes} (h : Payload es payload) :
    es.length ≤ payload.length := by
  induction h with
  | nil => exact Nat.le_refl 0
  | cons _ _ _ _ ih =>
    simp only [List.length_cons, List.length_append, lineBytes]
    omega

/-- A line among the others, by its place. -/
theorem Payload.split {es₁ es₂ : List (TreeEntry Text)} {e : TreeEntry Text} {raw : Bytes}
    (h : Payload (es₁ ++ e :: es₂) raw) :
    ∃ front sha rest, raw = front ++ lineBytes e sha ++ rest ∧ Payload es₁ front ∧
      sha.length = 20 ∧ e.sha = hex sha ∧ 0 ∉ e.name := by
  induction es₁ generalizing raw with
  | nil =>
    cases h with
    | cons hlen hsha hname hrest => exact ⟨[], _, _, rfl, .nil, hlen, hsha, hname⟩
  | cons e₁ es₁ ih =>
    cases h with
    | cons hlen hsha hname hrest =>
      obtain ⟨front, sha, rest, rfl, hfront, h⟩ := ih hrest
      refine ⟨_, sha, rest, ?_, .cons hlen hsha hname hfront, h⟩
      simp only [List.append_assoc]

/-- Some first lines have the same number of bytes however they are written. -/
theorem Payload.length_eq {es : List (TreeEntry Text)} {raw raw' : Bytes} (h : Payload es raw)
    (h' : Payload es raw') : raw.length = raw'.length := by
  induction h generalizing raw' with
  | nil =>
    cases h'
    rfl
  | cons hlen _ _ _ ih =>
    cases h' with
    | cons hlen' _ _ hrest' =>
      simp only [lineBytes, List.length_append, List.length_cons, hlen, hlen', ih hrest']

/-- The parser reads the lines back. -/
theorem parseTreeEntries_payload {es : List (TreeEntry Text)} {payload : Bytes}
    (h : Payload es payload) : parseTreeEntries payload = some (Table.ofPairs (es.map entryOf)) :=
  parseLoop_payload h h.length_le ∅

end TreeBytes

end Git

end CoordinatorCore
