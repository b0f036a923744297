import CoordinatorCore.Machine.Run
import CoordinatorCore.Machine.Table
import CoordinatorCore.Text.Basic
import Mathlib.Logic.Function.Basic

/-!
# The claim protocol

`session/claims.py`: a session claims an artifact by making a directory, and writes into it who it
is. A session that finds the directory reads who holds it and takes over from a holder that is no
longer live; a session that is done removes the directory when it finds itself recorded there.

One step of a call is one look at the file system or one change to it. Between two steps of a call
the other calls may take any number of theirs, and sessions may come and go.
-/

namespace CoordinatorCore

open Text

namespace Claims

/-! ### The store -/

/-- A file in a claim dir. -/
inductive File
  | pid
  | sessionId
  | claimedAt
  | stage
  | other (name : Text)
  deriving DecidableEq

/-- A claim dir: what its files say, without the white space around it. -/
abbrev Dir := Table File Text

/-- The class and the basename of an artifact. -/
abbrev Key := Text × Text

/-- What the calls ask about the world: `session_live`, `core.pid_alive`, and whether a claim of
that time is older than `BRIEF_CLAIM_LEASE_MINUTES`. Nobody is not live. -/
structure World where
  sessionLive : Text → Bool
  pidAlive : Text → Bool
  leaseOver : Text → Bool
  no_session : sessionLive [] = false
  no_pid : pidAlive [] = false

/-- `CLAIM_STAGE_BRIEF`. -/
def briefStage : Text := ['b', 'r', 'i', 'e', 'f']

def planClass : Text := ['p', 'l', 'a', 'n']

/-- `ROW_CLAIM_CLASS`. -/
def rowClass : Text := ['r', 'o', 'w']

/-- `ARTIFACT_CLASS_PATH`. -/
def pathClass : Text := ['a', 'r', 't', 'i', 'f', 'a', 'c', 't']

/-! ### Calls -/

/-- `claim_artifact` or `release_artifact_outcome`. -/
inductive Op
  | claim
  | release
  deriving DecidableEq

/-- The arguments of a call, and what it knows of itself: its session, the other ids in its
environment, its process, which has a number, and the time it writes. The basename of a row is its
key already. -/
structure Call where
  op : Op
  cls : Text
  basename : Text
  sid : Text
  envIds : List Text
  pid : Text
  stage : Text
  now : Text
  pid_ne : pid ≠ []

theorem pid_ne_of_two (i : Fin 2) : (if i = 0 then ['1'] else ['2'] : Text) ≠ [] := by
  split_ifs <;> decide

/-- Where the claim of a call lives. -/
def Call.key (c : Call) : Key := (c.cls, c.basename)

/-- What `release_artifact_outcome` returns for a class it knows. -/
inductive Outcome
  | released
  | alreadyAbsent
  | heldByAnother
  deriving DecidableEq

/-- Where a call stands: the step it takes next, with what it has read so far. -/
inductive Pc
  -- `claim_artifact`
  | mkdir
  | heldPid
  | heldSid
  | mineLook (held : Text)
  | mineSid (held : Text)
  | minePid (held : Text)
  | touchIsDir
  | touchLook
  | touchSid
  | touchPid
  | touchStage
  | touchWrite
  | leaseStage
  | leaseAt
  | look (lease : Bool)
  | holderSid (lease : Bool)
  | holderPid (lease : Bool)
  | judgeSid (lease : Bool) (sid : Text)
  | judgePid (lease : Bool) (pid : Text)
  | remkdir
  | writePid
  | writeSid
  | writeAt
  | writeStage
  | returned (claimed : Bool)
  | raised
  -- `release_artifact_outcome`
  | isDir
  | firstLook
  | firstSid
  | firstPid
  | secondLook
  | secondSid
  | secondPid
  | outcome (o : Outcome)
  -- `shutil.rmtree`
  | list
  | unlink (files : List File)
  | rmdir
  deriving DecidableEq

/-- What a step does to the directory. -/
inductive Effect
  | none
  | create
  | write (f : File) (t : Text)
  | remove (f : File)
  | removeDir
  deriving DecidableEq

/-- The directory behind an effect. -/
def Effect.apply : Effect → Option Dir → Option Dir
  | .none, d => d
  | .create, d => d.or (some ∅)
  | .write f t, d => d.map fun d => d.set f t
  | .remove f, d => d.map fun d => d.erase f
  | .removeDir, d => d.filter fun d => d.entries ≠ []

/-- `_read_claim_field`: a file that cannot be read says nothing. -/
def readField (d : Option Dir) (f : File) : Text := (d.bind fun d => d.get f).getD []

/-- `(claim_dir / f).is_file()`. -/
def isFile (d : Option Dir) (f : File) : Bool := (d.bind fun d => d.get f).isSome

/-- The session id in a dir is this call's. -/
def Call.owns (c : Call) (recorded : Text) : Bool := c.sid ≠ [] && recorded == c.sid

/-- Behind the inspection of an existing claim: the re-entrant classes look whether it is theirs. -/
def Call.inspect (c : Call) (held : Text) : Pc :=
  if c.cls = planClass ∨ c.cls = rowClass then .mineLook held else .leaseStage

/-- Behind the answer of `claim_held_by_me` in `claim_artifact`. -/
def Call.reenter (c : Call) (held : Text) (mine : Bool) : Pc :=
  if mine || (held ≠ [] && c.envIds.contains held) then
    if c.cls = rowClass then .touchIsDir else .returned true
  else .leaseStage

/-- Behind the answer of `claim_holder_live`. -/
def refuseOrTake (lease live : Bool) : Pc := if live && !lease then .returned false else .list

/-- Behind `shutil.rmtree`. -/
def Call.cleared (c : Call) : Pc :=
  match c.op with
  | .claim => .remkdir
  | .release => .outcome .released

/-- A call writes into the dir it made; a dir that has gone raises. -/
def writeInto (d : Option Dir) (f : File) (t : Text) (next : Pc) : Effect × Pc :=
  if d.isSome then (.write f t, next) else (.none, .raised)

/-- The next step of a call that finds this directory. -/
def advance (w : World) (c : Call) (d : Option Dir) : Pc → Effect × Pc
  | .mkdir =>
    if c.cls = pathClass ∨ c.sid = [] then (.none, .returned false)
    else if d.isSome then (.none, .heldPid) else (.create, .writePid)
  | .heldPid => (.none, .heldSid)
  | .heldSid => (.none, c.inspect (readField d .sessionId))
  | .mineLook held => (.none, if isFile d .sessionId then .mineSid held else .minePid held)
  | .mineSid held => (.none, c.reenter held (c.owns (readField d .sessionId)))
  | .minePid held => (.none, c.reenter held (readField d .pid == c.pid))
  | .touchIsDir => (.none, if d.isSome then .touchLook else .returned true)
  | .touchLook => (.none, if isFile d .sessionId then .touchSid else .touchPid)
  | .touchSid =>
    (.none, if c.owns (readField d .sessionId) then .touchStage else .returned true)
  | .touchPid => (.none, if readField d .pid == c.pid then .touchStage else .returned true)
  | .touchStage =>
    (.none, if readField d .stage = briefStage then .touchWrite else .returned true)
  | .touchWrite => (if d.isSome then .write .claimedAt c.now else .none, .returned true)
  | .leaseStage => (.none, if readField d .stage = briefStage then .leaseAt else .look false)
  | .leaseAt => (.none, .look (w.leaseOver (readField d .claimedAt)))
  | .look lease => (.none, if isFile d .sessionId then .holderSid lease else .holderPid lease)
  | .holderSid lease => (.none, .judgeSid lease (readField d .sessionId))
  | .holderPid lease => (.none, .judgePid lease (readField d .pid))
  | .judgeSid lease sid => (.none, refuseOrTake lease (w.sessionLive sid))
  | .judgePid lease pid => (.none, refuseOrTake lease (w.pidAlive pid))
  | .remkdir => if d.isSome then (.none, .returned false) else (.create, .writePid)
  | .writePid => writeInto d .pid c.pid .writeSid
  | .writeSid => writeInto d .sessionId c.sid .writeAt
  | .writeAt => writeInto d .claimedAt c.now .writeStage
  | .writeStage =>
    writeInto d .stage (if c.cls = rowClass then briefStage else c.stage) (.returned true)
  | .isDir => (.none, if d.isSome then .firstLook else .outcome .alreadyAbsent)
  | .firstLook => (.none, if isFile d .sessionId then .firstSid else .firstPid)
  | .firstSid =>
    (.none, if c.owns (readField d .sessionId) then .secondLook else .outcome .heldByAnother)
  | .firstPid =>
    (.none, if readField d .pid == c.pid then .secondLook else .outcome .heldByAnother)
  | .secondLook => (.none, if isFile d .sessionId then .secondSid else .secondPid)
  | .secondSid =>
    (.none, if c.owns (readField d .sessionId) then .list else .outcome .heldByAnother)
  | .secondPid =>
    (.none, if readField d .pid == c.pid then .list else .outcome .heldByAnother)
  | .list => (.none, .unlink ((d.map Table.keys).getD []))
  | .unlink [] => (.none, .rmdir)
  | .unlink (f :: files) => (.remove f, .unlink files)
  | .rmdir => (.removeDir, c.cleared)
  | pc => (.none, pc)

/-- The call has come to its end. -/
def Pc.finished : Pc → Bool
  | .returned _ | .raised | .outcome _ => true
  | _ => false

/-- The next step of a call when the operating system refuses the change it asks for. `rmtree` goes
on with what is left. -/
def refuse (c : Call) : Pc → Option Pc
  | .mkdir | .remkdir => some (.returned false)
  | .writePid | .writeSid | .writeAt | .writeStage => some .raised
  | .touchWrite => some (.returned true)
  | .list => some (.unlink [])
  | .unlink (_ :: files) => some (.unlink files)
  | .rmdir => some c.cleared
  | _ => none

/-! ### Runs -/

variable {ι : Type*} [DecidableEq ι]

/-- The world, the claim dirs, and where each call stands. -/
structure State (ι : Type*) where
  world : World
  dirs : Key → Option Dir
  pc : ι → Pc

/-- A call takes its next step, or is refused it; or the world changes. -/
inductive Action (ι : Type*)
  | step (i : ι)
  | refused (i : ι)
  | world (w : World)

/-- What the next step of a call does, and where it leads. -/
def State.next (calls : ι → Call) (s : State ι) (i : ι) : Effect × Pc :=
  advance s.world (calls i) (s.dirs (calls i).key) (s.pc i)

/-- One action. -/
def step (calls : ι → Call) (s : State ι) : Action ι → Option (State ι)
  | .step i =>
    if (s.pc i).finished then none
    else some { s with
      dirs := Function.update s.dirs (calls i).key
        ((s.next calls i).1.apply (s.dirs (calls i).key))
      pc := Function.update s.pc i (s.next calls i).2 }
  | .refused i => (refuse (calls i) (s.pc i)).map fun pc =>
      { s with pc := Function.update s.pc i pc }
  | .world w => some { s with world := w }

end Claims

end CoordinatorCore
