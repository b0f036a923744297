import CoordinatorCore.Machine.Ranked
import CoordinatorCore.Value

/-!
# Task rows and their order

A task row is a mapping; its grouping is derived from its disposition and stored nowhere. The
spine is in order (D5) when the groupings follow one another as `do`, `spun_off`, `defer`,
`ruled_out`.

The order is read by one scan (`orderingScan`), which remembers the latest grouping seen, and made
by two writers: a stable sort of the whole spine (`repositionRowsForD5`) and an insertion behind
the last row that may stand in front (`insertByRank`). `orderingScan_eq_none_iff` says what the
scan accepts; the two writers are the sort and the insertion of a ranked list.
-/

namespace CoordinatorCore

open Text

namespace Spine

/-! ### Dispositions and groupings -/

/-- `_PLAN_TASKS_GROUPING_ORDER`. -/
inductive Grouping
  | do_
  | spun_off
  | defer
  | ruled_out
deriving DecidableEq

/-- The place of the grouping in the order. -/
def Grouping.index : Grouping → Nat
  | .do_ => 0
  | .spun_off => 1
  | .defer => 2
  | .ruled_out => 3

/-- The key of the grouping in the frontmatter. -/
def Grouping.name : Grouping → Text
  | .do_ => "do".toList
  | .spun_off => "spun_off".toList
  | .defer => "defer".toList
  | .ruled_out => "ruled_out".toList

/-- `_PLAN_TASKS_GROUPING_BY_DISPOSITION`. -/
def groupingByDisposition (disposition : Text) : Option Grouping :=
  if disposition = "open".toList then some .do_
  else if disposition = "coded".toList then some .do_
  else if disposition = "delivered_elsewhere".toList then some .do_
  else if disposition = "spun_off".toList then some .spun_off
  else if disposition = "backlogged".toList then some .defer
  else if disposition = "wont_do".toList then some .ruled_out
  else none

/-- A row's disposition; anything but a non-empty string is `open`. -/
def rowDisposition (row : Dict) : Text :=
  match row.get "disposition".toList with
  | .str s => if s = [] then "open".toList else s
  | _ => "open".toList

/-- A row's grouping; an unknown disposition falls to `do`. -/
def rowGrouping (row : Dict) : Grouping :=
  (groupingByDisposition (rowDisposition row)).getD .do_

/-- The D5 sort key of a row. -/
def rowRank (row : Dict) : Nat := (rowGrouping row).index

/-- `row.get("id")`. -/
def rowId (row : Dict) : Val := row.get "id".toList

/-! ### The ordering check -/

/-- A row of an earlier grouping behind one of a later grouping. -/
structure OrderingError where
  rowId : Val
  grouping : Grouping
  seenId : Val
  seenGrouping : Grouping

/-- The loop of `check_plan_tasks_ordering`, with the row of the latest grouping seen so far. -/
def orderingScan : Option (Val × Grouping) → List Dict → Option OrderingError
  | _, [] => none
  | none, row :: rows => orderingScan (some (rowId row, rowGrouping row)) rows
  | some (seenId, seen), row :: rows =>
    if rowRank row < seen.index then some ⟨rowId row, rowGrouping row, seenId, seen⟩
    else if seen.index < rowRank row then orderingScan (some (rowId row, rowGrouping row)) rows
    else orderingScan (some (seenId, seen)) rows

/-- The spine is in D5 order. -/
abbrev D5Ordered (rows : List Dict) : Prop := Ranked.Ordered rowRank rows

private theorem orderingScan_some {seen : Val × Grouping} {rows : List Dict} :
    orderingScan (some seen) rows = none ↔
      (∀ row ∈ rows, seen.2.index ≤ rowRank row) ∧ D5Ordered rows := by
  induction rows generalizing seen with
  | nil => simp [orderingScan, D5Ordered, Ranked.Ordered]
  | cons row rows ih =>
    rw [orderingScan, D5Ordered, Ranked.Ordered, List.pairwise_cons, List.forall_mem_cons]
    split_ifs with hlt hgt
    · simp only [false_iff]
      omega
    · rw [ih]
      constructor
      · rintro ⟨hle, hord⟩
        exact ⟨⟨by omega, fun r hr => hgt.le.trans (hle r hr)⟩, hle, hord⟩
      · rintro ⟨-, hle, hord⟩
        exact ⟨hle, hord⟩
    · rw [ih]
      constructor
      · rintro ⟨hle, hord⟩
        exact ⟨⟨by omega, hle⟩, fun r hr => (Nat.le_of_not_lt hgt).trans (hle r hr), hord⟩
      · rintro ⟨⟨-, hle⟩, -, hord⟩
        exact ⟨hle, hord⟩

/-- The scan accepts exactly the ordered spines. -/
theorem orderingScan_eq_none_iff {rows : List Dict} :
    orderingScan none rows = none ↔ D5Ordered rows := by
  cases rows with
  | nil => simp [orderingScan, D5Ordered, Ranked.Ordered]
  | cons row rows =>
    rw [orderingScan, orderingScan_some]
    simp only [D5Ordered, Ranked.Ordered, List.pairwise_cons, rowRank]

/-! ### Repositioning -/

/-- `_reposition_rows_for_d5`: the stable sort by rank. -/
abbrev repositionRowsForD5 {α : Type*} (rank : α → Nat) (rows : List α) : List α :=
  Ranked.sort rank rows

/-! ### Inserting -/

/-- The insertion of `add-task`: behind the last row of equal or lower rank. A value that is no
row stops the search. -/
def insertByRank (task : Dict) (rows : List Val) : List Val :=
  let above : Val → Bool := fun v => v.asDict.any fun row => rowRank task < rowRank row
  rows.rdropWhile above ++ .map task :: rows.rtakeWhile above

/-- Among rows, the insertion is the one of a ranked list. -/
theorem insertByRank_map (task : Dict) (rows : List Dict) :
    insertByRank task (rows.map .map) = (Ranked.insert rowRank task rows).map .map := by
  have hcomp : (fun v : Val => v.asDict.any fun row => rowRank task < rowRank row) ∘ Val.map =
      fun row : Dict => decide (rowRank task < rowRank row) := rfl
  simp only [insertByRank, Ranked.insert, List.rdropWhile, List.rtakeWhile, ← List.map_reverse,
    List.dropWhile_map, List.takeWhile_map, hcomp, List.map_append, List.map_cons]

end Spine

end CoordinatorCore
