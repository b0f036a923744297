import CoordinatorCore.Text.Paths
import CoordinatorCore.Value

/-!
# Rows of a dispatch

What the emitter schedules: the rows of a task spine with the paths they write and read and the
rows they depend on. Two rows overlap when their writes may touch one surface; a row that declares
no writes overlaps every other.

Paths are compared in a normal form: `posixpath.normpath` and `str.lower`. The case table of the
host is a parameter throughout (`lower`): nothing depends on which letters it maps.
-/

namespace CoordinatorCore

open Text

namespace Dispatch

/-- An entry of `depends_on`. -/
structure Gate where
  chunk : Text
  gateKind : Option Text

/-- `WaveRow`. `writes` is `none` for `UNDECLARED`, and an entry of `dependsOn` is `none` when it is
no object. -/
structure WaveRow where
  id : Text
  title : Text
  surface : Text
  writes : Option (List Text)
  reads : List Text
  dependsOn : List (Option Gate)
  agentType : Option Text
  agentModel : Option Text
  effort : Option Text
  body : Text
  writesUnder : List Text
  verificationRuns : Option Bool
  changeKind : Option Text
  appends : List Text
  memoSend : Option Dict

/-- `EmitterRow`: what the waves carry on, and whether the row is blocked. -/
structure EmitterRow extends WaveRow where
  blockedOn : Bool

/-- A row that declares nothing. -/
def WaveRow.bare (id : Text) : WaveRow where
  id := id
  title := []
  surface := []
  writes := none
  reads := []
  dependsOn := []
  agentType := none
  agentModel := none
  effort := none
  body := []
  writesUnder := []
  verificationRuns := none
  changeKind := none
  appends := []
  memoSend := none

/-- The ids of some rows. -/
def rowIds (rows : List WaveRow) : List Text := rows.map (·.id)

section

variable (lower : Text → Text)

/-- `_normalize_path`. -/
def normalizePath (p : Text) : Text := lower (normpath p)

/-- `_is_ancestor`, on normal forms. -/
def isAncestor (anc p : Text) : Bool :=
  if anc = dot then p != dot && !isabs p
  else (if anc.getLast? = some '/' then anc else anc ++ ['/']).isPrefixOf p

/-- `_paths_overlap`. -/
def pathsOverlap (a b : Text) : Bool :=
  let pathA := normalizePath lower a
  let pathB := normalizePath lower b
  pathA == pathB || isAncestor pathA pathB || isAncestor pathB pathA

/-- `_writes_overlap`. -/
def writesOverlap (a b : WaveRow) : Bool :=
  match a.writes, b.writes with
  | some aw, some bw =>
    (aw ++ a.writesUnder).any fun x => (bw ++ b.writesUnder).any fun y => pathsOverlap lower x y
  | _, _ => true

theorem pathsOverlap_comm (a b : Text) : pathsOverlap lower a b = pathsOverlap lower b a := by
  simp only [pathsOverlap, Bool.or_assoc, Bool.or_comm (isAncestor (normalizePath lower a) _)]
  rw [show (normalizePath lower a == normalizePath lower b) =
    (normalizePath lower b == normalizePath lower a) from Bool.beq_comm]

/-- Overlap has no direction. -/
theorem writesOverlap_comm (a b : WaveRow) : writesOverlap lower a b = writesOverlap lower b a := by
  unfold writesOverlap
  cases ha : a.writes <;> cases hb : b.writes <;> try rfl
  rw [Bool.eq_iff_iff]
  simp only [List.any_eq_true]
  constructor
  · rintro ⟨x, hx, y, hy, hxy⟩
    exact ⟨y, hy, x, hx, by rwa [pathsOverlap_comm]⟩
  · rintro ⟨y, hy, x, hx, hxy⟩
    exact ⟨x, hx, y, hy, by rwa [pathsOverlap_comm]⟩

end

end Dispatch

end CoordinatorCore
