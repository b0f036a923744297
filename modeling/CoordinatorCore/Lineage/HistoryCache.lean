import CoordinatorCore.Machine.Run
import CoordinatorCore.Machine.Table
import CoordinatorCore.Text.Lines
import Mathlib.Data.List.Dedup
import Mathlib.Data.Char
import Mathlib.Data.List.Lex

/-!
# The history cache

The paths that the commits of a repository touch, kept in a file from one run to the next. An entry
of the file is for the ref tips it was made at. When the tips have moved and the old ones can still
be reached, only the commits behind neither of them are asked for; otherwise everything is asked for
again.

The programs of git are parameters, and `Reports` says what they print. Refs may move in any way
between two calls, and what a call returns is what the commits that can be reached touch
(`historyCache_right`), as long as the paths survive the reading of the output (`PathsKept`): every
line is stripped, so a path with white space at an end is kept as another path.
-/

namespace CoordinatorCore

open Text Relation

namespace Lineage

namespace History

/-! ### The repository -/

/-- The commits of a repository: the parents of each one, and the paths it touches. -/
structure Repo where
  parents : Text → List Text
  touched : Text → List Text
  named : ∀ c, [] ∉ touched c

/-- A commit is reached from the tips. -/
def Reaches (repo : Repo) (tips : List Text) (c : Text) : Prop :=
  ∃ t ∈ tips, ReflTransGen (fun a b => b ∈ repo.parents a) t c

/-- A commit that is reached from the tips touches the path. -/
def Tracked (repo : Repo) (tips : List Text) (p : Text) : Prop :=
  ∃ c, Reaches repo tips c ∧ p ∈ repo.touched c

/-! ### The programs of git -/

/-- What a program did: nothing when it was not run to its end, otherwise its exit code and its
output. -/
abbrev GitRun := Option (Int × Text)

/-- The programs that a call runs. -/
structure GitRuns where
  /-- `.git` is a directory. -/
  isDir : Bool
  /-- `git rev-parse HEAD --all`. -/
  revParse : GitRun
  /-- `git rev-list --max-count=1 <old> --not --all`. -/
  revList : List Text → GitRun
  /-- `git log --all --name-only --no-renames --pretty=format:`. -/
  logAll : GitRun
  /-- The same with `--not <old>`. -/
  logNot : List Text → GitRun
  /-- `git rev-parse --is-shallow-repository`. -/
  isShallow : GitRun
  /-- `git config --get remote.origin.promisor`. -/
  promisor : GitRun
  /-- The file can be written. -/
  writable : Bool

/-- `_git_out`. -/
def gitOut (run : GitRun) : Option Text := run.bind fun r => if r.1 = 0 then some r.2 else none

/-! ### The cache -/

/-- `GitHistoryCache`. -/
structure GitHistoryCache where
  paths : List Text
  complete : Bool
  deriving DecidableEq

/-- What `.git/claude-klabauter-history-paths.json` holds. -/
structure HistoryFile where
  tips : List Text
  complete : Bool
  paths : List Text
  deriving DecidableEq

/-- `sorted` of a set of texts. -/
def sortedTexts (l : List Text) : List Text := l.dedup.mergeSort fun a b => decide (a ≤ b)

/-- `s.split()`. -/
def splitWords (s : Text) : List Text := (s.splitOnP isSpace).filter (· ≠ [])

/-- The lines that are not blank, stripped. -/
def strippedLines (ls : List Text) : List Text := (ls.map strip).filter (· ≠ [])

/-- `_git_history_is_complete`. -/
def gitHistoryIsComplete (g : GitRuns) : Bool :=
  match g.isShallow with
  | some (0, out) =>
    strip out = ['f', 'a', 'l', 's', 'e'] &&
      g.promisor.any fun r => !(r.1 = 0 && (strip r.2).map Char.toLower = ['t', 'r', 'u', 'e'])
  | _ => false

/-- `build_git_history_cache`. -/
def buildGitHistoryCache (repoRoot : Text) (g : GitRuns) : Option GitHistoryCache :=
  if repoRoot = [] then none
  else g.logAll.map fun r => ⟨strippedLines (lines r.2), gitHistoryIsComplete g⟩

/-- What the commits that are not reached from the old tips add to the file, while the old tips are
all still reached. -/
def addedTo (g : GitRuns) (old : HistoryFile) : Option GitHistoryCache :=
  if old.tips = [] then none
  else (gitOut (g.revList old.tips)).bind fun orphan =>
    if strip orphan = [] then (gitOut (g.logNot old.tips)).map fun added =>
      ⟨old.paths ++ strippedLines (splitlines added), old.complete⟩
    else none

/-- The cache at new tips. -/
def rebuilt (repoRoot : Text) (g : GitRuns) (file : Option HistoryFile) : Option GitHistoryCache :=
  (file.bind (addedTo g)).or (buildGitHistoryCache repoRoot g)

/-- `build_persisted_git_history_cache`: the cache, and the file behind the call. -/
def buildPersistedGitHistoryCache (repoRoot : Text) (g : GitRuns) (file : Option HistoryFile) :
    Option GitHistoryCache × Option HistoryFile :=
  if repoRoot = [] ∨ g.isDir = false then (buildGitHistoryCache repoRoot g, file)
  else match gitOut g.revParse with
  | none => (buildGitHistoryCache repoRoot g, file)
  | some out =>
    match file.filter fun old => old.tips = sortedTexts (splitWords out) with
    | some old => (some ⟨old.paths, old.complete⟩, file)
    | none =>
      match rebuilt repoRoot g file with
      | none => (none, file)
      | some cache => (some cache, if g.writable then
          some ⟨sortedTexts (splitWords out), cache.complete, sortedTexts cache.paths⟩ else file)

/-! ### Asking the cache -/

/-- The path as git writes it. -/
def trackedKey (path : Text) : Text := path.map fun c => if c = '\\' then '/' else c

/-- `_memoized_ever_tracked`. -/
def memoizedEverTracked (everTracked : Text → Bool) (cache : Option GitHistoryCache)
    (memo : Table Text Bool) (path : Text) : Bool × Table Text Bool :=
  match memo.get (trackedKey path) with
  | some answer => (answer, memo)
  | none =>
    let result := match cache with
      | some cache =>
        if trackedKey path ∈ cache.paths then true
        else if cache.complete then false else everTracked (trackedKey path)
      | none => everTracked (trackedKey path)
    (result, memo.set (trackedKey path) result)

/-- The answers to several questions, with one memo. -/
def answers (everTracked : Text → Bool) (cache : Option GitHistoryCache) :
    Table Text Bool → List Text → List Bool
  | _, [] => []
  | memo, path :: asked =>
    (memoizedEverTracked everTracked cache memo path).1 ::
      answers everTracked cache (memoizedEverTracked everTracked cache memo path).2 asked

/-! ### Runs -/

/-- The tips of the refs and of `HEAD`, and the file. -/
structure HistoryState where
  tips : List Text
  file : Option HistoryFile

/-- The refs move, or the cache is built. -/
inductive HistoryAction
  | moveRefs (tips : List Text)
  | build (g : GitRuns)

def historyStep (repoRoot : Text) (s : HistoryState) : HistoryAction → Option HistoryState
  | .moveRefs tips => some { s with tips := tips }
  | .build g => some { s with file := (buildPersistedGitHistoryCache repoRoot g s.file).2 }

/-- What the programs print is right: a line is a path when it is not empty. -/
structure Reports (repo : Repo) (s : HistoryState) (g : GitRuns) : Prop where
  revParse : ∀ out, gitOut g.revParse = some out → ∀ t, t ∈ splitWords out ↔ t ∈ s.tips
  revList : ∀ old ∈ s.file, ∀ out, gitOut (g.revList old.tips) = some out →
    (strip out = [] ↔ ∀ c, Reaches repo old.tips c → Reaches repo s.tips c)
  logAll : ∀ r, g.logAll = some r → ∀ p ≠ [], p ∈ lines r.2 ↔ Tracked repo s.tips p
  logNot : ∀ old ∈ s.file, ∀ out, gitOut (g.logNot old.tips) = some out → ∀ p ≠ [],
    p ∈ lines out ↔ ∃ c, Reaches repo s.tips c ∧ ¬ Reaches repo old.tips c ∧ p ∈ repo.touched c

/-- The paths survive the reading of the output. No path has white space at an end, and no path of a
commit that is added to the file has a character at which `splitlines` ends a line. -/
structure PathsKept (repo : Repo) (s : HistoryState) : Prop where
  stripped : ∀ p, Tracked repo s.tips p → strip p = p
  unbroken : ∀ old ∈ s.file, (∀ c, Reaches repo old.tips c → Reaches repo s.tips c) →
    ∀ c, Reaches repo s.tips c → ¬ Reaches repo old.tips c →
      ∀ p ∈ repo.touched c, ∀ x ∈ p, isLineBreak x = false

/-- The programs of a call print what is right, and the paths survive the reading. -/
def ReadsPaths (repo : Repo) (s : HistoryState) : HistoryAction → Prop
  | .moveRefs _ => True
  | .build g => Reports repo s g ∧ PathsKept repo s

/-- The cache holds the paths that commits touch which can be reached. A complete one denies no path
that is touched. -/
structure RightCache (repo : Repo) (tips : List Text) (cache : GitHistoryCache) : Prop where
  paths : ∀ p, p ∈ cache.paths ↔ Tracked repo tips p
  denied : cache.complete = true → ∀ everTracked (asked : List Text),
    ∀ x ∈ asked.zip (answers everTracked (some cache) ∅ asked), x.2 = false →
      ¬ Tracked repo tips (trackedKey x.1)

/-- A call returns the right cache, if it returns one. -/
def BuildsRight (repoRoot : Text) (repo : Repo) (s : HistoryState) : HistoryAction → Prop
  | .moveRefs _ => True
  | .build g => ∀ cache, (buildPersistedGitHistoryCache repoRoot g s.file).1 = some cache →
      RightCache repo s.tips cache

section

variable {repo : Repo} {repoRoot : Text} {s : HistoryState} {g : GitRuns}

/-! ### What can be reached -/

/-- Only the set of the tips matters. -/
theorem reaches_congr {tips tips' : List Text} (h : ∀ t, t ∈ tips ↔ t ∈ tips') (c : Text) :
    Reaches repo tips c ↔ Reaches repo tips' c := by
  simp only [Reaches, h]

/-- What is tracked depends on the set of tips. -/
theorem tracked_congr {tips tips' : List Text} (h : ∀ t, t ∈ tips ↔ t ∈ tips') (p : Text) :
    Tracked repo tips p ↔ Tracked repo tips' p := by
  simp only [Tracked, reaches_congr h]

/-- No empty path is tracked. -/
theorem ne_nil_of_tracked {tips : List Text} {p : Text} (h : Tracked repo tips p) : p ≠ [] := by
  obtain ⟨c, -, hp⟩ := h
  rintro rfl
  exact repo.named c hp

/-- While the old tips are reached, what is tracked was tracked, or a commit that is not reached from
the old tips touches it. -/
theorem tracked_iff_added {old tips : List Text}
    (hold : ∀ c, Reaches repo old c → Reaches repo tips c) {p : Text} :
    Tracked repo tips p ↔ Tracked repo old p ∨
      ∃ c, Reaches repo tips c ∧ ¬ Reaches repo old c ∧ p ∈ repo.touched c := by
  constructor
  · rintro ⟨c, hc, hp⟩
    by_cases hcold : Reaches repo old c
    · exact .inl ⟨c, hcold, hp⟩
    · exact .inr ⟨c, hc, hcold, hp⟩
  · rintro (⟨c, hc, hp⟩ | ⟨c, hc, -, hp⟩)
    · exact ⟨c, hold c hc, hp⟩
    · exact ⟨c, hc, hp⟩

/-! ### What a call reads -/

@[simp] theorem mem_sortedTexts {l : List Text} {x : Text} : x ∈ sortedTexts l ↔ x ∈ l := by
  rw [sortedTexts, List.mem_mergeSort, List.mem_dedup]

/-- Lines that hold paths are read as these paths when stripping leaves each one alone. -/
theorem mem_strippedLines {ls : List Text} {P : Text → Prop} (hls : ∀ p ≠ [], p ∈ ls ↔ P p)
    (hne : ∀ p, P p → p ≠ []) (hstrip : ∀ p, P p → strip p = p) (p : Text) :
    p ∈ strippedLines ls ↔ P p := by
  rw [strippedLines, List.mem_filter, List.mem_map, decide_eq_true_iff]
  constructor
  · rintro ⟨⟨l, hl, rfl⟩, hp⟩
    have hlne : l ≠ [] := by
      rintro rfl
      exact hp rfl
    have hPl := (hls l hlne).mp hl
    rwa [hstrip l hPl]
  · intro hp
    exact ⟨⟨p, (hls p (hne p hp)).mpr hp, hstrip p hp⟩, hne p hp⟩

/-- A full build finds what is tracked. -/
theorem paths_buildGitHistoryCache (hr : Reports repo s g) (hk : PathsKept repo s)
    {cache : GitHistoryCache} (h : buildGitHistoryCache repoRoot g = some cache) (p : Text) :
    p ∈ cache.paths ↔ Tracked repo s.tips p := by
  rw [buildGitHistoryCache] at h
  split_ifs at h
  obtain ⟨r, hlog, rfl⟩ := Option.map_eq_some_iff.mp h
  exact mem_strippedLines (hr.logAll r hlog) (fun _ => ne_nil_of_tracked) hk.stripped p

/-- What is added to a right file makes it right at the new tips. -/
theorem paths_addedTo (hr : Reports repo s g) (hk : PathsKept repo s) {old : HistoryFile}
    (hfile : old ∈ s.file) (hold : ∀ p, p ∈ old.paths ↔ Tracked repo old.tips p)
    {cache : GitHistoryCache} (h : addedTo g old = some cache) (p : Text) :
    p ∈ cache.paths ↔ Tracked repo s.tips p := by
  rw [addedTo] at h
  split_ifs at h
  obtain ⟨orphan, horphan, h⟩ := Option.bind_eq_some_iff.mp h
  split_ifs at h with hblank
  obtain ⟨added, hadded, rfl⟩ := Option.map_eq_some_iff.mp h
  have hreach := (hr.revList old hfile orphan horphan).mp hblank
  have hlines := hr.logNot old hfile added hadded
  have hsplit : ∀ q ≠ [], q ∈ splitlines added ↔ ∃ c, Reaches repo s.tips c ∧
      ¬ Reaches repo old.tips c ∧ q ∈ repo.touched c := by
    intro q hq
    rw [← hlines q hq, ← unlines_lines added, mem_splitlines_unlines ?_ hq, unlines_lines]
    intro l hl x hx
    have hlne : l ≠ [] := List.ne_nil_of_mem hx
    obtain ⟨c, hc, hcold, hlc⟩ := (hlines l hlne).mp hl
    exact hk.unbroken old hfile hreach c hc hcold l hlc x hx
  rw [List.mem_append, hold, tracked_iff_added hreach, mem_strippedLines hsplit]
  · rintro q ⟨c, -, -, hq⟩ rfl
    exact repo.named c hq
  · rintro q ⟨c, hc, -, hq⟩
    exact hk.stripped q ⟨c, hc, hq⟩

/-- The cache at new tips holds what is tracked. -/
theorem paths_rebuilt (hfile : ∀ old ∈ s.file, ∀ p, p ∈ old.paths ↔ Tracked repo old.tips p)
    (hr : Reports repo s g) (hk : PathsKept repo s) {cache : GitHistoryCache}
    (h : rebuilt repoRoot g s.file = some cache) (p : Text) :
    p ∈ cache.paths ↔ Tracked repo s.tips p := by
  rcases Option.or_eq_some_iff.mp h with h | ⟨-, h⟩
  · obtain ⟨old, hold, hadded⟩ := Option.bind_eq_some_iff.mp h
    exact paths_addedTo hr hk hold (hfile old hold) hadded p
  · exact paths_buildGitHistoryCache hr hk h p

/-! ### The file -/

/-- What a call can do: build without the file, find the file at the tips it has, or build at new
tips and write the file. -/
theorem buildPersisted_cases (repoRoot : Text) (g : GitRuns) (file : Option HistoryFile) :
    buildPersistedGitHistoryCache repoRoot g file = (buildGitHistoryCache repoRoot g, file) ∨
      ∃ out, gitOut g.revParse = some out ∧
        ((∃ old ∈ file, old.tips = sortedTexts (splitWords out) ∧
          buildPersistedGitHistoryCache repoRoot g file =
            (some ⟨old.paths, old.complete⟩, file)) ∨
        buildPersistedGitHistoryCache repoRoot g file = (none, file) ∨
        ∃ cache, rebuilt repoRoot g file = some cache ∧
          buildPersistedGitHistoryCache repoRoot g file = (some cache, if g.writable then
            some ⟨sortedTexts (splitWords out), cache.complete, sortedTexts cache.paths⟩
            else file)) := by
  unfold buildPersistedGitHistoryCache
  split
  · exact .inl rfl
  · split
    · exact .inl rfl
    · next out hout =>
      refine .inr ⟨out, hout, ?_⟩
      split
      · next old hold =>
        obtain ⟨hmem, htips⟩ := Option.filter_eq_some_iff.mp hold
        exact .inl ⟨old, hmem, of_decide_eq_true htips, rfl⟩
      · split
        · exact .inr (.inl rfl)
        · next cache hcache => exact .inr (.inr ⟨cache, hcache, rfl⟩)

/-- The file is right at its own tips. -/
def RightFile (repo : Repo) (s : HistoryState) : Prop :=
  ∀ old ∈ s.file, ∀ p, p ∈ old.paths ↔ Tracked repo old.tips p

/-- The tips that are read are those of the refs. -/
theorem tracked_readTips (hr : Reports repo s g) {out : Text} (hout : gitOut g.revParse = some out)
    (p : Text) : Tracked repo (sortedTexts (splitWords out)) p ↔ Tracked repo s.tips p :=
  tracked_congr (fun t => mem_sortedTexts.trans (hr.revParse out hout t)) p

/-- A call on a right file returns the tracked paths. -/
theorem paths_buildPersisted (hfile : RightFile repo s) (hr : Reports repo s g)
    (hk : PathsKept repo s) {cache : GitHistoryCache}
    (h : (buildPersistedGitHistoryCache repoRoot g s.file).1 = some cache) (p : Text) :
    p ∈ cache.paths ↔ Tracked repo s.tips p := by
  rcases buildPersisted_cases repoRoot g s.file with heq | ⟨out, hout, ⟨old, hold, htips, heq⟩ |
    heq | ⟨cache', hcache, heq⟩⟩
  · rw [heq] at h
    exact paths_buildGitHistoryCache hr hk h p
  · rw [heq] at h
    rw [← Option.some.inj h, ← tracked_readTips hr hout, ← htips]
    exact hfile old hold p
  · rw [heq] at h
    cases h
  · rw [heq] at h
    rw [← Option.some.inj h]
    exact paths_rebuilt hfile hr hk hcache p

/-- A call on a right file leaves a right file. -/
theorem rightFile_buildPersisted (hfile : RightFile repo s) (hr : Reports repo s g)
    (hk : PathsKept repo s) : RightFile repo
      { s with file := (buildPersistedGitHistoryCache repoRoot g s.file).2 } := by
  rcases buildPersisted_cases repoRoot g s.file with heq | ⟨out, hout, ⟨old, hold, htips, heq⟩ |
    heq | ⟨cache, hcache, heq⟩⟩
  · rw [heq]
    exact hfile
  · rw [heq]
    exact hfile
  · rw [heq]
    exact hfile
  · rw [heq]
    dsimp only
    split_ifs
    · rintro old hold p
      obtain rfl := Option.some.inj hold
      rw [mem_sortedTexts, tracked_readTips hr hout, paths_rebuilt hfile hr hk hcache]
    · exact hfile

/-! ### Asking -/

/-- The answers denied so far are right. -/
def RightMemo (P : Text → Prop) (memo : Table Text Bool) : Prop :=
  ∀ key, memo.get key = some false → ¬ P key

/-- A complete cache with the paths denies no path it should hold, and its memo stays right. -/
theorem memoizedEverTracked_right {P : Text → Prop} {cache : GitHistoryCache}
    (hpaths : ∀ p, p ∈ cache.paths ↔ P p) (hcomplete : cache.complete = true)
    (everTracked : Text → Bool) {memo : Table Text Bool} (hmemo : RightMemo P memo) (path : Text) :
    ((memoizedEverTracked everTracked (some cache) memo path).1 = false → ¬ P (trackedKey path)) ∧
      RightMemo P (memoizedEverTracked everTracked (some cache) memo path).2 := by
  rw [memoizedEverTracked]
  cases hget : memo.get (trackedKey path) with
  | some answer =>
    refine ⟨fun hfalse => hmemo _ ?_, hmemo⟩
    rw [hget]
    exact congrArg some hfalse
  | none =>
    dsimp only
    rw [hcomplete, if_pos rfl]
    have hanswer : (if trackedKey path ∈ cache.paths then true else false) = false →
        ¬ P (trackedKey path) := by
      intro hfalse hP
      rw [if_pos ((hpaths _).mpr hP)] at hfalse
      cases hfalse
    refine ⟨hanswer, fun key hkey => ?_⟩
    rw [Table.get_set] at hkey
    by_cases heq : key = trackedKey path
    · rw [if_pos heq] at hkey
      rw [heq]
      exact hanswer (Option.some.inj hkey)
    · rw [if_neg heq] at hkey
      exact hmemo key hkey

/-- With a right cache no tracked path is denied; by induction on the paths that are asked. -/
theorem answers_right {P : Text → Prop} {cache : GitHistoryCache}
    (hpaths : ∀ p, p ∈ cache.paths ↔ P p) (hcomplete : cache.complete = true)
    (everTracked : Text → Bool) {memo : Table Text Bool} (hmemo : RightMemo P memo)
    (asked : List Text) : ∀ x ∈ asked.zip (answers everTracked (some cache) memo asked),
      x.2 = false → ¬ P (trackedKey x.1) := by
  induction asked generalizing memo with
  | nil => simp
  | cons path asked ih =>
    obtain ⟨hfirst, hmemo⟩ := memoizedEverTracked_right hpaths hcomplete everTracked hmemo path
    intro x hx
    rw [answers, List.zip_cons_cons] at hx
    rcases List.mem_cons.mp hx with rfl | hx
    · exact hfirst
    · exact ih hmemo x hx

/-- A cache with the tracked paths is right. -/
theorem rightCache_of_paths {tips : List Text} {cache : GitHistoryCache}
    (hpaths : ∀ p, p ∈ cache.paths ↔ Tracked repo tips p) : RightCache repo tips cache where
  paths := hpaths
  denied := fun hcomplete everTracked asked =>
    have hempty : RightMemo (Tracked repo tips) (∅ : Table Text Bool) := fun key hkey => by
      rw [Table.get_empty] at hkey
      cases hkey
    answers_right hpaths hcomplete everTracked hempty asked

end

/-- Whatever way the refs move, a call returns the right cache when the programs of git report what
is there and the paths survive the reading. -/
theorem historyCache_right (repoRoot : Text) (repo : Repo) (tips : List Text)
    {acts : List HistoryAction}
    (h : Machine.Along (historyStep repoRoot) (ReadsPaths repo) ⟨tips, none⟩ acts) :
    Machine.Along (historyStep repoRoot) (BuildsRight repoRoot repo) ⟨tips, none⟩ acts := by
  refine Machine.Along.of_condition (I := RightFile repo) ?_ ?_ h
    (fun old hold => absurd hold (Option.not_mem_none old))
  · intro s act s' hreads hfile hstep
    cases act with
    | moveRefs tips =>
      obtain rfl := Option.some.inj hstep
      exact hfile
    | build g =>
      obtain rfl := Option.some.inj hstep
      exact rightFile_buildPersisted hfile hreads.1 hreads.2
  · intro s act hreads hfile
    cases act with
    | moveRefs tips => trivial
    | build g =>
      exact fun cache hcache =>
        rightCache_of_paths (paths_buildPersisted hfile hreads.1 hreads.2 hcache)

/-! ### Two commits -/

/-- The path of the second commit. -/
def secondPath : Text := ['b', '.', 'm', 'd']

/-- Two commits, one behind the other. The first touches the path. -/
def twoCommits (path : Text) (h : path ≠ []) : Repo where
  parents c := if c = ['2'] then [['1']] else []
  touched c := if c = ['1'] then [path] else if c = ['2'] then [secondPath] else []
  named c := by
    split_ifs
    · simpa using h
    · decide
    · exact List.not_mem_nil

section

variable {path : Text} {h : path ≠ []}

private theorem reaches_first {c : Text} :
    Reaches (twoCommits path h) [['1']] c ↔ c = ['1'] := by
  constructor
  · rintro ⟨t, ht, hreach⟩
    rw [List.mem_singleton.mp ht] at hreach
    rcases ReflTransGen.cases_head hreach with heq | ⟨d, hd, -⟩
    · exact heq.symm
    · cases hd
  · rintro rfl
    exact ⟨['1'], List.mem_singleton_self _, .refl⟩

private theorem reaches_second {c : Text} :
    Reaches (twoCommits path h) [['2']] c ↔ c = ['2'] ∨ c = ['1'] := by
  constructor
  · rintro ⟨t, ht, hreach⟩
    rw [List.mem_singleton.mp ht] at hreach
    rcases ReflTransGen.cases_head hreach with heq | ⟨d, hd, hreach⟩
    · exact .inl heq.symm
    · rw [List.mem_singleton.mp hd] at hreach
      exact .inr (reaches_first.mp ⟨['1'], List.mem_singleton_self _, hreach⟩)
  · rintro (rfl | rfl)
    · exact ⟨['2'], List.mem_singleton_self _, .refl⟩
    · exact ⟨['2'], List.mem_singleton_self _, .single (List.mem_singleton_self _)⟩

private theorem tracked_first {p : Text} :
    Tracked (twoCommits path h) [['1']] p ↔ p = path := by
  simp only [Tracked, reaches_first, exists_eq_left]
  exact List.mem_singleton

private theorem tracked_second {p : Text} :
    Tracked (twoCommits path h) [['2']] p ↔ p = secondPath ∨ p = path := by
  simp only [Tracked, reaches_second, or_and_right, exists_or, exists_eq_left]
  exact or_congr List.mem_singleton List.mem_singleton

end

/-- What the programs print at the first commit. -/
def firstRuns (path : Text) : GitRuns where
  isDir := true
  revParse := some (0, ['1', '\n', '1', '\n'])
  revList := fun _ => none
  logAll := some (0, '\n' :: path ++ ['\n'])
  logNot := fun _ => none
  isShallow := some (0, ['f', 'a', 'l', 's', 'e', '\n'])
  promisor := some (1, [])
  writable := true

/-- What they print at the second commit, with the first one in the file. -/
def secondRuns (path : Text) : GitRuns where
  isDir := true
  revParse := some (0, ['2', '\n', '2', '\n'])
  revList := fun _ => some (0, [])
  logAll := some (0, '\n' :: secondPath ++ '\n' :: '\n' :: path ++ ['\n'])
  logNot := fun _ => some (0, '\n' :: secondPath ++ ['\n'])
  isShallow := some (0, ['f', 'a', 'l', 's', 'e', '\n'])
  promisor := some (1, [])
  writable := true

private theorem reports_first {path : Text} {h : path ≠ []} (hnl : '\n' ∉ path) :
    Reports (twoCommits path h) ⟨[['1']], none⟩ (firstRuns path) where
  revParse := by
    intro out hout t
    obtain rfl := Option.some.inj hout
    have hwords : splitWords ['1', '\n', '1', '\n'] = [['1'], ['1']] := by decide
    rw [hwords]
    simp
  revList := fun old hold => absurd hold (Option.not_mem_none old)
  logAll := by
    rintro r hr p hp
    obtain rfl := Option.some.inj hr
    have hlines : lines ([] ++ '\n' :: (path ++ '\n' :: [])) = [[], path, []] := by
      rw [lines_append_cons, lines_append_cons, lines_of_not_mem hnl]
      rfl
    change p ∈ lines ([] ++ '\n' :: (path ++ '\n' :: [])) ↔ _
    rw [hlines, tracked_first]
    simp [hp]
  logNot := fun old hold => absurd hold (Option.not_mem_none old)

/-- The path of the first commit. -/
def plainPath : Text := ['a', '.', 'm', 'd']

private theorem plainPath_ne_nil : plainPath ≠ [] := by decide

private theorem reports_second : Reports (twoCommits plainPath plainPath_ne_nil)
    ⟨[['2']], some ⟨[['1']], true, [plainPath]⟩⟩ (secondRuns plainPath) where
  revParse := by
    intro out hout t
    obtain rfl := Option.some.inj hout
    have hwords : splitWords ['2', '\n', '2', '\n'] = [['2'], ['2']] := by decide
    rw [hwords]
    simp
  revList := by
    intro old hold out hout
    obtain rfl := Option.some.inj hold
    obtain rfl := Option.some.inj hout
    refine iff_of_true rfl fun c hc => ?_
    exact reaches_second.mpr (.inr (reaches_first.mp hc))
  logAll := by
    rintro r hr p hp
    obtain rfl := Option.some.inj hr
    have hlines : lines ('\n' :: secondPath ++ '\n' :: '\n' :: plainPath ++ ['\n']) =
        [[], secondPath, [], plainPath, []] := by decide
    rw [hlines, tracked_second]
    simp [hp]
  logNot := by
    intro old hold out hout p hp
    obtain rfl := Option.some.inj hold
    obtain rfl := Option.some.inj hout
    have hlines : lines ('\n' :: secondPath ++ ['\n']) = [[], secondPath, []] := by decide
    rw [hlines]
    simp only [reaches_second, reaches_first]
    constructor
    · intro hmem
      have hpath : p = secondPath := by simpa [hp] using hmem
      exact ⟨['2'], .inl rfl, by decide, List.mem_singleton.mpr hpath⟩
    · rintro ⟨c, rfl | rfl, hc, hmem⟩
      · rw [List.mem_singleton.mp hmem]
        simp
      · exact absurd rfl hc

/-- The cache is built at the first commit and again at the second. -/
def buildTwice : List HistoryAction :=
  [.build (firstRuns plainPath), .moveRefs [['2']], .build (secondRuns plainPath)]

theorem historyCache_right_buildTwice :
    Machine.Along (historyStep ['r']) (BuildsRight ['r'] (twoCommits plainPath plainPath_ne_nil))
      ⟨[['1']], none⟩ buildTwice := by
  have hfile : (buildPersistedGitHistoryCache ['r'] (firstRuns plainPath) none).2 =
      some ⟨[['1']], true, [plainPath]⟩ := by decide +kernel
  have hplain : strip plainPath = plainPath := by decide
  have hsecond : strip secondPath = secondPath := by decide
  have hbreak : ∀ x ∈ secondPath, isLineBreak x = false := by
    simp [secondPath, isLineBreak]
  refine historyCache_right ['r'] (twoCommits plainPath plainPath_ne_nil) [['1']] ⟨⟨?_, ?_, ?_⟩, ?_⟩
  · exact reports_first (by decide)
  · exact fun p hp => by rw [tracked_first.mp hp, hplain]
  · exact fun old hold => absurd hold (Option.not_mem_none old)
  · rintro s hs
    obtain rfl := Option.some.inj hs
    refine ⟨trivial, ?_⟩
    rintro s hs
    obtain rfl := Option.some.inj hs
    dsimp only
    rw [hfile]
    refine ⟨⟨reports_second, ?_, ?_⟩, fun _ _ => trivial⟩
    · intro p hp
      rcases tracked_second.mp hp with rfl | rfl
      · exact hsecond
      · exact hplain
    · intro old hold _ c hc hcold p hp
      obtain rfl := Option.some.inj hold
      rcases reaches_second.mp hc with rfl | rfl
      · rw [List.mem_singleton.mp hp]
        exact hbreak
      · exact absurd (reaches_first.mpr rfl) hcold

/-- A path with a space at its end. -/
def spacedPath : Text := ['a', '.', 'm', 'd', ' ']

private theorem spacedPath_ne_nil : spacedPath ≠ [] := by decide

/-- A tracked path with a space at its end is kept without it. The cache is complete, so the path is
denied. -/
theorem spaced_path_denied :
    Reports (twoCommits spacedPath spacedPath_ne_nil) ⟨[['1']], none⟩ (firstRuns spacedPath) ∧
      (buildPersistedGitHistoryCache ['r'] (firstRuns spacedPath) none).1 =
        some ⟨[plainPath], true⟩ ∧
      (memoizedEverTracked (fun _ => true) (some ⟨[plainPath], true⟩) ∅ spacedPath).1 = false ∧
      Tracked (twoCommits spacedPath spacedPath_ne_nil) [['1']] spacedPath ∧
      ¬ Machine.Along (historyStep ['r'])
        (BuildsRight ['r'] (twoCommits spacedPath spacedPath_ne_nil)) ⟨[['1']], none⟩
        [.build (firstRuns spacedPath)] := by
  have hcache : (buildPersistedGitHistoryCache ['r'] (firstRuns spacedPath) none).1 =
      some ⟨[plainPath], true⟩ := by decide
  have htracked : Tracked (twoCommits spacedPath spacedPath_ne_nil) [['1']] spacedPath :=
    tracked_first.mpr rfl
  refine ⟨reports_first (by decide), hcache, by decide, htracked, fun h => ?_⟩
  have hmem := ((h.1 _ hcache).paths spacedPath).mpr htracked
  exact absurd hmem (by decide)

end History

end Lineage

end CoordinatorCore
