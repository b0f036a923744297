import CoordinatorCore.Text.Basic
import Mathlib.Data.Nat.Log
import Mathlib.Algebra.GroupWithZero.Nat

/-!
# Numbers as text

`int(text)` and `float(text)`, as far as a reader needs them that turns bare words into numbers: the
integer a decimal spelling denotes, and the finite binary64 number nearest to a decimal spelling,
known by its `repr`.

A binary64 magnitude is a pair `(m, e)` for `m * 2 ^ e`, with `m < 2 ^ 53` and `-1074 ≤ e`. All of
the arithmetic is exact: a decimal is a fraction of natural numbers, rounded once, half to even, and
`repr` is the shortest decimal that rounds back, the nearest one where several do.
-/

namespace CoordinatorCore

namespace Text

/-! ### Decimal spellings -/

/-- The zeros of the decimal digit runs of Unicode (category `Nd`). -/
def decimalZeros : List Nat :=
  [0x30, 0x660, 0x6f0, 0x7c0, 0x966, 0x9e6, 0xa66, 0xae6, 0xb66, 0xbe6, 0xc66, 0xce6, 0xd66, 0xde6,
   0xe50, 0xed0, 0xf20, 0x1040, 0x1090, 0x17e0, 0x1810, 0x1946, 0x19d0, 0x1a80, 0x1a90, 0x1b50,
   0x1bb0, 0x1c40, 0x1c50, 0xa620, 0xa8d0, 0xa900, 0xa9d0, 0xa9f0, 0xaa50, 0xabf0, 0xff10, 0x104a0,
   0x10d30, 0x11066, 0x110f0, 0x11136, 0x111d0, 0x112f0, 0x11450, 0x114d0, 0x11650, 0x116c0,
   0x11730, 0x118e0, 0x11950, 0x11c50, 0x11d50, 0x11da0, 0x11f50, 0x16a60, 0x16ac0, 0x16b50,
   0x1d7ce, 0x1d7d8, 0x1d7e2, 0x1d7ec, 0x1d7f6, 0x1e140, 0x1e2f0, 0x1e4f0, 0x1e950, 0x1fbf0]

/-- A decimal digit of any script as the ASCII digit of its value. -/
def asciiDigit (c : Char) : Char :=
  match decimalZeros.find? fun z => z ≤ c.toNat && c.toNat < z + 10 with
  | some z => Char.ofNat (0x30 + (c.toNat - z))
  | none => c

/-- The value of a run of ASCII digits. -/
def digitsValue (ds : Text) : Nat := ds.foldl (fun n c => 10 * n + (c.toNat - 0x30)) 0

/-- An optional sign: whether it is a minus, and the text behind it. -/
def splitSign : Text → Bool × Text
  | '-' :: t => (true, t)
  | '+' :: t => (false, t)
  | t => (false, t)

/-- Underscores between two digits are dropped; any other one makes the spelling invalid. `b` says
whether a digit comes before. -/
def dropUnderscores : Bool → Text → Option Text
  | _, [] => some []
  | _, ['_'] => none
  | b, '_' :: c :: cs =>
    if b && isDigit c then (dropUnderscores true cs).map (c :: ·) else none
  | _, c :: cs => (dropUnderscores (isDigit c) cs).map (c :: ·)

/-- The digits an integer may have before `int` refuses it. -/
def intMaxStrDigits : Nat := 4300

/-- `int(text)` on a sign and ASCII digits. The other spellings `int` reads never print as
themselves. -/
def pyInt (t : Text) : Option Int :=
  let (neg, ds) := splitSign t
  if ds ≠ [] ∧ ds.all isDigit ∧ ds.length ≤ intMaxStrDigits then
    some (if neg then -(digitsValue ds : Int) else digitsValue ds)
  else none

/-- A decimal number `± digits * 10 ^ exp`. -/
structure Decimal where
  neg : Bool
  digits : Nat
  exp : Int

/-- The exponent part of a float: nothing, or `e`, a sign and digits. -/
def parseExponent : Text → Option Int
  | [] => some 0
  | c :: r =>
    let (neg, ds) := splitSign r
    if (c = 'e' ∨ c = 'E') ∧ ds ≠ [] ∧ ds.all isDigit then
      some (if neg then -(digitsValue ds : Int) else digitsValue ds)
    else none

/-- The digits behind a decimal point, and the rest. -/
def splitFraction : Text → Text × Text
  | '.' :: r => (r.takeWhile isDigit, r.dropWhile isDigit)
  | r => ([], r)

/-- The decimal spelling of a finite number as `float` reads it. -/
def parseDecimal (text : Text) : Option Decimal :=
  match dropUnderscores false (text.map asciiDigit) with
  | none => none
  | some t =>
    let (neg, r) := splitSign t
    let whole := r.takeWhile isDigit
    let (frac, r) := splitFraction (r.dropWhile isDigit)
    if whole ++ frac = [] then none
    else (parseExponent r).map fun e =>
      ⟨neg, digitsValue (whole ++ frac), e - (frac.length : Int)⟩

/-! ### Binary64 -/

/-- `n / d` rounded half to even. -/
def divRoundEven (n d : Nat) : Nat :=
  let q := n / d
  let r := n % d
  if d < 2 * r ∨ (2 * r = d ∧ q % 2 = 1) then q + 1 else q

/-- `n * b ^ k / d` as a fraction, for a `k` of either sign. -/
def scaleFraction (n d b : Nat) (k : Int) : Nat × Nat :=
  if 0 ≤ k then (n * b ^ k.toNat, d) else (n, d * b ^ (-k).toNat)

/-- The exponent of the largest power of two not above `n / d`. -/
def floorLog2 (n d : Nat) : Int :=
  let k : Int := (Nat.log2 n : Int) - Nat.log2 d
  let (a, b) := scaleFraction n d 2 (-k)
  if b ≤ a then k else k - 1

/-- The binary64 magnitude nearest to `n / d`; `none` is an overflow. -/
def toBinary64 (n d : Nat) : Option (Nat × Int) :=
  if n = 0 then some (0, 0)
  else
    let e := max (floorLog2 n d - 52) (-1074)
    let (a, b) := scaleFraction n d 2 (-e)
    let m := divRoundEven a b
    let (m, e) := if m = 2 ^ 53 then (2 ^ 52, e + 1) else (m, e)
    if 971 < e then none else some (m, e)

/-- The digits of `n` without trailing zeros. -/
def significantDigits (n : Nat) : Text := (Nat.toDigits 10 n).rdropWhile (· == '0')

/-- The decimals with `k` digits behind the point next to `n / d`, below and above, that round to
`v`; the nearest one first. -/
def roundTrips (n d : Nat) (v : Nat × Int) (k : Int) : List Nat :=
  let (a, b) := scaleFraction n d 10 k
  let lo := a / b
  let near := if 2 * (a % b) < b ∨ (2 * (a % b) = b ∧ lo % 2 = 0) then [lo, lo + 1]
    else [lo + 1, lo]
  near.filter fun c =>
    let (p, q) := scaleFraction c 1 10 (-k)
    toBinary64 p q = some v

/-- The shortest digits that round to the number, with the position of the decimal point; `p` is
the number of digits in front of the point. -/
def shortestDigits (n d : Nat) (v : Nat × Int) (p : Int) : Text × Int :=
  let found := (List.range 17).findSome? fun i =>
    let k := (i : Int) + 1 - p
    (roundTrips n d v k).head?.map fun c =>
      (significantDigits c, ((Nat.toDigits 10 c).length : Int) - k)
  found.getD ([], 0)

/-- The number of digits of `n / d` in front of the decimal point, negative for the zeros behind
it. -/
def decimalPoint (n d : Nat) : Int :=
  let p : Int := (Nat.log 10 n : Int) - Nat.log 10 d
  let (a, b) := scaleFraction n d 10 (-p)
  if b ≤ a then p + 1 else p

/-- The layout of `repr`: fixed point for moderate exponents, scientific for the others. -/
def formatDigits (ds : Text) (point : Int) : Text :=
  if -4 < point ∧ point ≤ 16 then
    if point ≤ 0 then "0.".toList ++ List.replicate (-point).toNat '0' ++ ds
    else if (ds.length : Int) ≤ point then
      ds ++ List.replicate (point - ds.length).toNat '0' ++ ".0".toList
    else ds.take point.toNat ++ '.' :: ds.drop point.toNat
  else
    let mantissa := match ds with
      | [c] => [c]
      | c :: cs => c :: '.' :: cs
      | [] => []
    let e := point - 1
    let digits := Nat.toDigits 10 e.natAbs
    mantissa ++ 'e' :: (if e < 0 then '-' else '+') ::
      (List.replicate (2 - digits.length) '0' ++ digits)

/-- `repr(float(text))` when `text` spells a finite number. -/
def pyFloat (text : Text) : Option Text :=
  match parseDecimal text with
  | none => none
  | some x =>
    let (n, d) := scaleFraction x.digits 1 10 x.exp
    match toBinary64 n d with
    | none => none
    | some (m, e) =>
      let sign := if x.neg then ['-'] else []
      if m = 0 then some (sign ++ "0.0".toList)
      else
        let (n, d) := scaleFraction m 1 2 e
        let (ds, point) := shortestDigits n d (m, e) (decimalPoint n d)
        some (sign ++ formatDigits ds point)

example : pyFloat "007".toList = some "7.0".toList := by decide
example : pyFloat "-1e5".toList = some "-100000.0".toList := by decide
example : pyFloat "5.684341886080801e-14".toList = some "5.684341886080801e-14".toList := by
  decide

/-! ### Digits of natural numbers -/

theorem isDigit_of_mem_toDigits {n : Nat} {c : Char} (h : c ∈ Nat.toDigits 10 n) :
    isDigit c = true := by
  have hc := Nat.isDigit_of_mem_toDigits (by decide) (by decide) h
  simp only [Char.isDigit, Bool.and_eq_true, decide_eq_true_eq, isDigit] at hc ⊢
  exact hc

/-- A number is the value of its digits. -/
theorem digitsValue_toDigits (n : Nat) : digitsValue (Nat.toDigits 10 n) = n :=
  Nat.ofDigitChars_ten_toDigits

theorem asciiDigit_of_isDigit {c : Char} (h : isDigit c = true) : asciiDigit c = c := by
  have hc : 0x30 ≤ c.toNat ∧ c.toNat < 0x3a := by
    simp only [isDigit, Bool.and_eq_true, decide_eq_true_eq] at h
    exact ⟨h.1, Nat.lt_succ_of_le h.2⟩
  have hfind : (decimalZeros.find? fun z => z ≤ c.toNat && c.toNat < z + 10) = some 0x30 := by
    rw [decimalZeros, List.find?_cons_of_pos]
    simpa using hc
  rw [asciiDigit, hfind]
  dsimp only
  rw [Nat.add_sub_cancel' hc.1, Char.ofNat_toNat]

/-! ### What is no number -/

/-- A text that opens with a quote is no integer. -/
theorem pyInt_quote {q : Char} (hq : q = '\'' ∨ q = '"') (t : Text) : pyInt (q :: t) = none := by
  rcases hq with rfl | rfl <;> simp [pyInt, splitSign, isDigit]

/-- A text that opens with a quote is no float. -/
theorem pyFloat_quote {q : Char} (hq : q = '\'' ∨ q = '"') (t : Text) :
    pyFloat (q :: t) = none := by
  have hascii : asciiDigit q = q := by rcases hq with rfl | rfl <;> decide
  have hdigit : isDigit q = false := by rcases hq with rfl | rfl <;> decide
  have hunder : ∀ t, dropUnderscores false (q :: t) =
      (dropUnderscores false t).map (q :: ·) := by
    rcases hq with rfl | rfl <;> intro t <;> simp [dropUnderscores, isDigit]
  have hsign : ∀ t, splitSign (q :: t) = (false, q :: t) := by
    rcases hq with rfl | rfl <;> exact fun _ => rfl
  have hfrac : ∀ t, splitFraction (q :: t) = ([], q :: t) := by
    rcases hq with rfl | rfl <;> exact fun _ => rfl
  have hnone : parseDecimal (q :: t) = none := by
    rw [parseDecimal, List.map_cons, hascii, hunder]
    cases dropUnderscores false (t.map asciiDigit) with
    | none => rfl
    | some u => simp [hsign, hfrac, hdigit]
  rw [pyFloat, hnone]

end Text

end CoordinatorCore
