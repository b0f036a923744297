import CoordinatorCore.Lineage.RawScan
import CoordinatorCore.Lineage.Walk
import CoordinatorCore.Text.Paths

/-!
# Finding a reference on disk

`resolve_target_on_disk` turns a raw reference into the path of a record: by handoff id through an
index built over some records (`build_handoff_id_index`), else by trying the places a path can be
relative to. The file system is a parameter and does not change.

`resolveTargetOnDisk_eq` separates the two tiers: the entry of the index, if the reference is one
it is consulted for, and the same search of the disk without it.
-/

namespace CoordinatorCore

open Text

namespace Lineage

/-! ### The file system -/

/-- What the calls on the file system return, `none` for an `OSError`. Files are texts: `window` is
the decoded first block of one, `content` all of it. `isDecimal` is `\d` of the host's Unicode
tables, `container` the host's `str` of a list or a mapping. -/
structure Disk where
  cwd : Cwd
  pathExists : Path → Bool
  isDir : Path → Bool
  listDir : Path → Option (List Text)
  window : Path → Option Text
  content : Path → Option Text
  isDecimal : Char → Bool
  container : Val → Text

namespace Disk

variable (d : Disk)

/-- `os.path.abspath`. -/
def abspath (p : Text) : Path := Text.abspath d.cwd p

/-- `_read_meta`. -/
def readMeta (p : Path) : Dict := (d.content (d.abspath p)).elim [] parseFrontmatter

@[simp] theorem abspath_abspath (p : Text) : d.abspath (d.abspath p) = d.abspath p :=
  abspath_idem d.cwd p

/-- The sentinel of the git tier is no absolute path. -/
theorem abspath_ne_gitHistory (p : Text) : d.abspath p ≠ gitHistory := by
  intro h
  have habs : isabs gitHistory = true := h ▸ isabs_abspath d.cwd p
  exact absurd habs (by decide)

end Disk

/-! ### The index of handoff ids -/

/-- A dict from handoff ids to paths. The entry written last stands first. -/
abbrev HandoffIdIndex := List (Text × Path)

section

variable (d : Disk) (metas : Option (List (Path × Dict)))

/-- The handoff id `build_handoff_id_index` files a record under. -/
def handoffIdOf (p : Path) : Option Text :=
  let parsed (m : Dict) := printed d.container (m.get handoffId)
  let hid := match metas with
    | some ms => parsed ((ms.lookup (d.abspath p)).getD (d.readMeta p))
    | none =>
      match (d.window p).elim RawScan.fallback rawScanHandoffId with
      | .absent => none
      | .id v => some v
      | .fallback => parsed (d.readMeta p)
  (hid.map strip).filter (· ≠ [])

/-- `build_handoff_id_index`. -/
def buildHandoffIdIndex (paths : List Path) : HandoffIdIndex :=
  paths.foldl (fun index p => match handoffIdOf d metas p with
    | none => index
    | some hid => (hid, d.abspath p) :: index) []

/-- The path of the last record with an id. -/
def owner (paths : List Path) (hid : Text) : Option Path :=
  (paths.reverse.find? fun p => handoffIdOf d metas p == some hid).map d.abspath

/-- The index finds the owner of an id. -/
theorem lookup_buildHandoffIdIndex (paths : List Path) (hid : Text) :
    (buildHandoffIdIndex d metas paths).lookup hid = owner d metas paths hid := by
  unfold buildHandoffIdIndex owner
  induction paths using List.reverseRecOn with
  | nil => rfl
  | append_singleton ps p ih =>
    rw [List.foldl_concat, List.reverse_append, List.reverse_singleton, List.singleton_append,
      List.find?_cons]
    cases h : handoffIdOf d metas p with
    | none => simpa [h] using ih
    | some hid' =>
      by_cases heq : hid = hid'
      · simp [heq]
      · rw [List.lookup_cons, beq_false_of_ne heq, ih,
          beq_false_of_ne fun h => heq (Option.some.inj h).symm]

end

/-! ### Resolving -/

/-- `_BATON_FAMILY_DIRS`. -/
def batonFamilyDirs : List Text := ["state/handoffs".toList, "archive/handoffs".toList]

/-- `.strip('/')`. -/
def stripSlashes (s : Text) : Text := (s.dropWhile (· == '/')).rdropWhile (· == '/')

/-- `_ref_names_foreign_family`. -/
def refNamesForeignFamily (ref : Text) : Bool :=
  let refDir := stripSlashes (dirname ((normpath ref).map fun c => if c = '\\' then '/' else c))
  if refDir = [] then false
  else !batonFamilyDirs.any fun family => refDir == family || (family ++ ['/']).isPrefixOf refDir

/-- `_SHA_SHAPED_REF_RE`, on a stripped text. -/
def shaShapedRef (s : Text) : Bool :=
  decide (7 ≤ s.length) && decide (s.length ≤ 40) &&
    s.all fun c => isDigit c || (decide ('a' ≤ c) && decide (c ≤ 'f'))

/-- The name of a month of the archive, a final line feed allowed as `$` does. -/
def monthDir (isDecimal : Char → Bool) (s : Text) : Bool :=
  match s with
  | a :: b :: c :: e :: '-' :: f :: g :: rest =>
    [a, b, c, e, f, g].all isDecimal && (rest == [] || rest == ['\n'])
  | _ => false

/-- `_ref_candidates`. -/
def refCandidates (target base handoffDir repoRoot : Text) : List Path :=
  let place (parts : List Text) := normpath (parts.foldl joinPath repoRoot)
  [normpath (joinPath handoffDir target), normpath (joinPath repoRoot target)] ++
    if refNamesForeignFamily target then []
    else
      [place ["state".toList, "handoffs".toList, base],
        place ["archive".toList, "handoffs".toList, target],
        place ["archive".toList, "handoffs".toList, base]]

/-- The months of the archive. -/
def archiveMonth (d : Disk) (repoRoot target base : Text) : Option Path :=
  let archiveDir := normpath (joinPath (joinPath repoRoot "archive".toList) "handoffs".toList)
  if d.isDir archiveDir && !refNamesForeignFamily target then
    ((d.listDir archiveDir).getD []).findSome? fun entry =>
      let candidate := joinPath (joinPath archiveDir entry) base
      if monthDir d.isDecimal entry && d.pathExists candidate then some candidate else none
  else none

/-- `.endswith('.md')`. -/
def endsWithMd (s : Text) : Bool := ".md".toList.isSuffixOf s

/-- `resolve_target_on_disk`. -/
def resolveTargetOnDisk (d : Disk) (handoffDir repoRoot : Text) (idIndex : Option HandoffIdIndex)
    (ref : Text) : Option Path :=
  let target := strip ref
  if isSentinel target then none
  else if shaShapedRef target then none
  else
    let entry := match idIndex with
      | some index => if endsWithMd target then none else index.lookup target
      | none => none
    match entry with
    | some p => some p
    | none =>
      if isabs target then (if d.pathExists target then some target else none)
      else
        let base := basename target
        match (refCandidates target base handoffDir repoRoot).find? d.pathExists with
        | some candidate => some candidate
        | none => archiveMonth d repoRoot target base

/-- The reference is one an index is asked for. -/
def usesId (ref : Text) : Bool :=
  !isSentinel (strip ref) && !shaShapedRef (strip ref) && !endsWithMd (strip ref)

/-- The entry of the index decides, and without one the disk does. -/
theorem resolveTargetOnDisk_eq (d : Disk) (handoffDir repoRoot : Text)
    (idIndex : Option HandoffIdIndex) (ref : Text) :
    resolveTargetOnDisk d handoffDir repoRoot idIndex ref =
      match (if usesId ref then idIndex.bind (·.lookup (strip ref)) else none) with
      | some p => some p
      | none => resolveTargetOnDisk d handoffDir repoRoot none ref := by
  unfold resolveTargetOnDisk usesId
  by_cases h₁ : isSentinel (strip ref) = true
  · simp [h₁]
  by_cases h₂ : shaShapedRef (strip ref) = true
  · simp [h₂]
  by_cases h₃ : endsWithMd (strip ref) = true
  · cases idIndex <;> simp only [h₁, h₂, h₃] <;> rfl
  · cases idIndex with
    | none => simp [h₁, h₂, h₃]
    | some index =>
      cases hl : index.lookup (strip ref) <;> simp [h₁, h₂, h₃, hl]

end Lineage

end CoordinatorCore
