import CoordinatorCore.Text.PathForms

/-!
# Path texts

The string functions of `posixpath`: `isabs`, `join`, `dirname`, `basename`, `normpath`, and
`abspath` in a given working directory. None of them looks at a file system.

Normalising twice changes nothing (`normpath_idem`, `abspath_idem`).
-/

namespace CoordinatorCore

namespace Text

/-! ### The functions -/

/-- `os.path.isabs`. -/
def isabs (p : Text) : Bool := p.head? == some '/'

/-- `os.path.join`. -/
def joinPath (a b : Text) : Text :=
  if isabs b then b
  else if a = [] ∨ a.getLast? = some '/' then a ++ b
  else a ++ '/' :: b

/-- `os.path.basename`. -/
def basename (p : Text) : Text := p.rtakeWhile (· != '/')

/-- `os.path.dirname`. A head of slashes alone is kept. -/
def dirname (p : Text) : Text :=
  let head := p.rdropWhile (· != '/')
  if head.all (· == '/') then head else head.rdropWhile (· == '/')

/-- The slashes `normpath` keeps in front: two exactly are special, more are one. -/
def leadingSlashes : Text → Nat
  | '/' :: '/' :: '/' :: _ => 1
  | '/' :: '/' :: _ => 2
  | '/' :: _ => 1
  | _ => 0

/-- `"."`. -/
def dot : Text := ['.']

/-- `".."`. -/
def dotdot : Text := ['.', '.']

/-- One round of the loop over the components. -/
def pushComponent (rooted : Bool) (comps : List Text) (comp : Text) : List Text :=
  if comp = [] ∨ comp = dot then comps
  else if comp ≠ dotdot ∨ (rooted = false ∧ comps = []) ∨ comps.getLast? = some dotdot then
    comps ++ [comp]
  else comps.dropLast

/-- The path of some components behind some slashes; no path is empty. -/
def renderPath (slashes : Nat) (comps : List Text) : Text :=
  let p := List.replicate slashes '/' ++ ['/'].intercalate comps
  if p = [] then dot else p

/-- `os.path.normpath`. -/
def normpath (p : Text) : Text :=
  if p = [] then dot
  else renderPath (leadingSlashes p)
    ((p.splitOn '/').foldl (pushComponent (decide (leadingSlashes p ≠ 0))) [])

/-- An absolute working directory. -/
abbrev Cwd := {d : Text // isabs d = true}

/-- `os.path.abspath`. -/
def abspath (cwd : Cwd) (p : Text) : Text :=
  normpath (if isabs p then p else joinPath cwd p)

/-! ### Normal forms -/

private theorem leadingSlashes_eq (p : Text) :
    leadingSlashes p = PathForms.leadingSlashes '/' p := by
  unfold leadingSlashes PathForms.leadingSlashes
  split
  · next t =>
    rw [List.takeWhile_cons_of_pos (by simp), List.takeWhile_cons_of_pos (by simp),
      List.takeWhile_cons_of_pos (by simp)]
    rfl
  · next t h =>
    have hhead : t.takeWhile (· == '/') = [] := by
      cases t with
      | nil => rfl
      | cons c t => exact List.takeWhile_cons_of_neg fun hc => h t (by rw [beq_iff_eq.mp hc])
    rw [List.takeWhile_cons_of_pos (by simp), List.takeWhile_cons_of_pos (by simp), hhead]
    rfl
  · next t _ h =>
    have hhead : t.takeWhile (· == '/') = [] := by
      cases t with
      | nil => rfl
      | cons c t => exact List.takeWhile_cons_of_neg fun hc => h t (by rw [beq_iff_eq.mp hc])
    rw [List.takeWhile_cons_of_pos (by simp), hhead]
    rfl
  · next h =>
    cases p with
    | nil => rfl
    | cons c p =>
      rw [List.takeWhile_cons_of_neg fun hc => h p (by rw [beq_iff_eq.mp hc])]
      rfl

/-- `normpath` on texts is the one of any alphabet. -/
theorem normpath_eq (p : Text) : normpath p = PathForms.normpath '/' '.' p := by
  rw [normpath, PathForms.normpath, leadingSlashes_eq]
  rfl

theorem normpath_idem (p : Text) : normpath (normpath p) = normpath p := by
  rw [normpath_eq, normpath_eq, PathForms.normpath_idem (by decide)]

/-! ### Absolute paths -/

private theorem leadingSlashes_eq_zero_iff (p : Text) : leadingSlashes p = 0 ↔ isabs p = false := by
  unfold leadingSlashes
  split <;> simp_all [isabs]
  next h =>
    cases p with
    | nil => simp
    | cons c p =>
      simp only [List.head?_cons, Option.some.injEq]
      exact fun hc => h p (by rw [hc])

theorem isabs_normpath {p : Text} (h : isabs p = true) : isabs (normpath p) = true := by
  have hk : leadingSlashes p ≠ 0 := fun h0 => by
    rw [(leadingSlashes_eq_zero_iff p).mp h0] at h
    cases h
  obtain ⟨k, hk⟩ := Nat.exists_eq_succ_of_ne_zero hk
  have hp : p ≠ [] := by
    rintro rfl
    cases h
  rw [normpath, if_neg hp, hk, renderPath, List.replicate_succ, List.cons_append, if_neg (by simp)]
  rfl

private theorem isabs_joinPath {a : Text} (h : isabs a = true) (b : Text) :
    isabs (joinPath a b) = true := by
  have hhead : ∀ t, isabs (a ++ t) = true := by
    intro t
    cases a with
    | nil => cases h
    | cons c a => exact h
  rw [joinPath]
  split_ifs with hb
  · exact hb
  · exact hhead _
  · exact hhead _

theorem isabs_abspath (cwd : Cwd) (p : Text) : isabs (abspath cwd p) = true := by
  rw [abspath]
  split_ifs with h
  · exact isabs_normpath h
  · exact isabs_normpath (isabs_joinPath cwd.2 p)

theorem abspath_idem (cwd : Cwd) (p : Text) : abspath cwd (abspath cwd p) = abspath cwd p := by
  rw [abspath, if_pos (isabs_abspath cwd p), abspath, normpath_idem]

end Text

end CoordinatorCore
