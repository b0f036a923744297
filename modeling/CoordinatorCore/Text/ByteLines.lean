import CoordinatorCore.Text.Bytes
import Mathlib.Data.List.Chain

/-!
# The lines of byte strings

`bytes.splitlines`, which ends a line at a line feed, at a carriage return, and at the pair of both.
Lines joined are read back as they were when each ends before the next begins
(`splitlinesKeep_flatten_iff`).
-/

namespace CoordinatorCore

namespace ByteLines

/-- A line ends at this byte, with `next` behind it. -/
def endsLine (b : UInt8) (next : Option UInt8) : Bool :=
  b == 0x0a || (b == 0x0d && next != some 0x0a)

/-- `b.splitlines(keepends=True)`. -/
def splitlinesKeep : Bytes → List Bytes
  | [] => []
  | b :: s =>
    if endsLine b s.head? then [b] :: splitlinesKeep s
    else
      match splitlinesKeep s with
      | [] => [[b]]
      | l :: ls => (b :: l) :: ls

/-- The bytes of one line. -/
def IsLine (l : Bytes) : Prop := splitlinesKeep l = [l]

/-- The first line ends before the second begins. -/
def Apart (l l' : Bytes) : Prop := ∃ b ∈ l.getLast?, endsLine b l'.head? = true

/-- The lines joined are the bytes. -/
@[simp] theorem flatten_splitlinesKeep (s : Bytes) : (splitlinesKeep s).flatten = s := by
  fun_induction splitlinesKeep s with
  | case1 => rfl
  | case2 b s h ih => simp [ih]
  | case3 b s h hnil ih => simpa [hnil] using ih
  | case4 b s h l ls hls ih => simpa [hls] using ih

theorem splitlinesKeep_inj {s t : Bytes} : splitlinesKeep s = splitlinesKeep t ↔ s = t := by
  refine ⟨fun h => ?_, fun h => by rw [h]⟩
  rw [← flatten_splitlinesKeep s, h, flatten_splitlinesKeep]

theorem splitlinesKeep_ends {b : UInt8} {s : Bytes} (h : endsLine b s.head? = true) :
    splitlinesKeep (b :: s) = [b] :: splitlinesKeep s := by rw [splitlinesKeep, if_pos h]

theorem splitlinesKeep_goesOn {b : UInt8} {s l : Bytes} {ls : List Bytes}
    (h : endsLine b s.head? = false) (hs : splitlinesKeep s = l :: ls) :
    splitlinesKeep (b :: s) = (b :: l) :: ls := by
  rw [splitlinesKeep, if_neg (by rw [h]; exact Bool.false_ne_true), hs]

theorem splitlinesKeep_eq_nil {s : Bytes} : splitlinesKeep s = [] ↔ s = [] := by
  constructor
  · intro h
    rw [← flatten_splitlinesKeep s, h]
    rfl
  · rintro rfl
    rfl

/-- A byte that ends a line ends the text too. -/
theorem endsLine_none {b : UInt8} {next : Option UInt8} (h : endsLine b next = true) :
    endsLine b none = true := by
  simp only [endsLine, Bool.or_eq_true, Bool.and_eq_true] at h ⊢
  exact h.imp_right fun h => ⟨h.1, rfl⟩

theorem IsLine.ne_nil {l : Bytes} (h : IsLine l) : l ≠ [] := by
  rintro rfl
  cases h

/-- The first line, and the lines behind it. -/
theorem splitlinesKeep_eq_cons {s l : Bytes} {ls : List Bytes} (h : splitlinesKeep s = l :: ls) :
    s = l ++ ls.flatten ∧ splitlinesKeep ls.flatten = ls ∧ IsLine l ∧
      (ls ≠ [] → Apart l ls.flatten) := by
  fun_induction splitlinesKeep s generalizing l ls with
  | case1 => cases h
  | case2 b s hend ih =>
    obtain ⟨rfl, rfl⟩ := List.cons.inj h
    rw [flatten_splitlinesKeep]
    exact ⟨rfl, rfl, splitlinesKeep_ends (endsLine_none hend), fun _ => ⟨b, rfl, hend⟩⟩
  | case3 b s hend hnil ih =>
    obtain ⟨rfl, rfl⟩ := List.cons.inj h
    obtain rfl := splitlinesKeep_eq_nil.mp hnil
    refine ⟨rfl, rfl, ?_, fun hne => absurd rfl hne⟩
    rw [IsLine, splitlinesKeep, if_neg hend]
    rfl
  | case4 b s hend m ms hms ih =>
    obtain ⟨rfl, rfl⟩ := List.cons.inj h
    obtain ⟨rfl, hback, hline, hapart⟩ := ih hms
    obtain ⟨c, m, rfl⟩ := List.exists_cons_of_ne_nil hline.ne_nil
    refine ⟨rfl, hback, splitlinesKeep_goesOn (by simpa using hend) hline, fun hne => ?_⟩
    obtain ⟨z, hz, hzend⟩ := hapart hne
    exact ⟨z, by rwa [List.getLast?_cons_cons], hzend⟩

/-- Bytes in front of which a line ends. -/
theorem splitlinesKeep_append {s t : Bytes} (h : Apart s t) :
    splitlinesKeep (s ++ t) = splitlinesKeep s ++ splitlinesKeep t := by
  obtain ⟨z, hz, hend⟩ := h
  induction s with
  | nil => cases hz
  | cons b s ih =>
    cases s with
    | nil =>
      obtain rfl : b = z := by simpa using hz
      rw [List.cons_append, List.nil_append, splitlinesKeep_ends hend,
        splitlinesKeep_ends (s := []) (endsLine_none hend)]
      rfl
    | cons c s =>
      have ih := ih (by rwa [List.getLast?_cons_cons] at hz)
      by_cases hb : endsLine b (some c) = true
      · rw [List.cons_append, splitlinesKeep_ends (s := c :: s ++ t) hb,
          splitlinesKeep_ends (s := c :: s) hb, ih]
        rfl
      · have hb : endsLine b (some c) = false := by simpa using hb
        cases hcs : splitlinesKeep (c :: s) with
        | nil => exact absurd (splitlinesKeep_eq_nil.mp hcs) (List.cons_ne_nil c s)
        | cons l ls =>
          rw [hcs] at ih
          rw [splitlinesKeep_goesOn (s := c :: s) hb hcs]
          exact splitlinesKeep_goesOn (s := c :: s ++ t) hb ih

theorem head?_flatten_cons {l : Bytes} (hl : l ≠ []) (ls : List Bytes) :
    (l :: ls).flatten.head? = l.head? := by
  obtain ⟨b, l, rfl⟩ := List.exists_cons_of_ne_nil hl
  rfl

/-- Lines joined are the lines again when each ends before the next begins. -/
theorem splitlinesKeep_flatten_iff {ls : List Bytes} (h : ∀ l ∈ ls, IsLine l) :
    splitlinesKeep ls.flatten = ls ↔ ls.IsChain Apart := by
  induction ls with
  | nil => exact iff_of_true rfl List.IsChain.nil
  | cons l ls ih =>
    obtain ⟨hl, hls⟩ := List.forall_mem_cons.mp h
    cases ls with
    | nil =>
      refine iff_of_true ?_ (List.isChain_singleton l)
      rw [List.flatten_singleton]
      exact hl
    | cons l' ls =>
      have hhead := head?_flatten_cons (hls l' List.mem_cons_self).ne_nil ls
      rw [List.isChain_cons_cons, ← ih hls]
      constructor
      · intro heq
        obtain ⟨-, hback, -, hapart⟩ := splitlinesKeep_eq_cons heq
        obtain ⟨b, hb, hend⟩ := hapart (List.cons_ne_nil l' ls)
        exact ⟨⟨b, hb, by rwa [hhead] at hend⟩, hback⟩
      · rintro ⟨⟨b, hb, hend⟩, hback⟩
        rw [List.flatten_cons, splitlinesKeep_append ⟨b, hb, by rwa [hhead]⟩, hback, hl]
        rfl

theorem isLine_of_mem {s l : Bytes} (h : l ∈ splitlinesKeep s) : IsLine l := by
  generalize hls : splitlinesKeep s = ls at h
  induction ls generalizing s with
  | nil => cases h
  | cons m ms ih =>
    obtain ⟨-, hback, hline, -⟩ := splitlinesKeep_eq_cons hls
    obtain rfl | h := List.mem_cons.mp h
    · exact hline
    · exact ih hback h

/-- Each line of a text ends before the next begins. -/
theorem isChain_splitlinesKeep (s : Bytes) : (splitlinesKeep s).IsChain Apart := by
  rw [← splitlinesKeep_flatten_iff fun l => isLine_of_mem, flatten_splitlinesKeep]

end ByteLines

end CoordinatorCore
