import UrBackup.Lib.Run

/-! The loop of a client thread over its backups: how image backups of one snapshot come to be a
group, what happens to a backup that has ended, and when the images are evaluated. A step of the
loop is one event, between any events of the backup threads. -/
namespace UrBackup

/-- The thread of a backup: not started, without an image at the moment, at the image of another
partition that is backed up within it, at its own image, or ended. -/
inductive ThreadPhase where
  | waiting
  | started
  | partition (id : Nat)
  | image (id : Nat)
  | ended (result shouldBackoff : Bool)
  deriving DecidableEq

/-- A backup object. An image backup has an id when its row was added. -/
structure BackupObject where
  isFileBackup : Bool
  phase : ThreadPhase
  dependencies : Nat
  backupId : Nat
  deriving DecidableEq

namespace BackupObject

def make (isFileBackup : Bool) : BackupObject := ⟨isFileBackup, .waiting, 0, 0⟩

def isRunning (b : BackupObject) : Bool :=
  match b.phase with
  | .started | .partition _ | .image _ => true
  | .waiting | .ended _ _ => false

/-- `waitFor` without a wait. -/
def hasEnded (b : BackupObject) : Bool :=
  match b.phase with
  | .ended _ _ => true
  | .waiting | .started | .partition _ | .image _ => false

def getResult (b : BackupObject) : Bool :=
  match b.phase with
  | .ended result _ => result
  | .waiting | .started | .partition _ | .image _ => false

def currentImage (b : BackupObject) : Option Nat :=
  match b.phase with
  | .partition id | .image id => some id
  | .waiting | .started | .ended _ _ => none

def isFinished (b : BackupObject) : Bool := b.hasEnded && (b.isFileBackup || b.dependencies = 0)

/-- A finished backup does not run. -/
theorem not_isRunning_of_isFinished {b : BackupObject} (h : b.isFinished = true) :
    b.isRunning = false := by
  have hended := (Bool.and_eq_true_iff.mp h).1
  unfold hasEnded at hended
  unfold isRunning
  split at hended
  next hphase => rw [hphase]
  all_goals cases hended

def countAfter (b : BackupObject) (countImageBackupTry : Nat) : Nat :=
  if b.isFileBackup then countImageBackupTry
  else
    match b.phase with
    | .ended false true => countImageBackupTry + 1
    | .ended _ _ | .waiting | .started | .partition _ | .image _ => 0

end BackupObject

/-- What was done with the objects and with the images of the groups: the deleted objects, those
whose image was set complete, the locks, and whether an object was used after it was deleted. -/
structure GroupLedger where
  deleted : List Nat
  completed : List Nat
  lockedImages : List Nat
  usedDeleted : Bool

namespace GroupLedger

variable (l : GroupLedger)

def use (o : Nat) : GroupLedger := if o ∈ l.deleted then { l with usedDeleted := true } else l

def delete (o : Nat) : GroupLedger := { l.use o with deleted := l.deleted ++ [o] }

def lockImageFromCleanup (id : Nat) : GroupLedger := { l with lockedImages := l.lockedImages ++ [id] }

def unlockImageFromCleanup (id : Nat) : GroupLedger := { l with lockedImages := l.lockedImages.erase id }

def setImageBackupComplete (o : Nat) : GroupLedger := { l with completed := l.completed ++ [o] }

end GroupLedger

abbrev ImageGroup := List (Nat × Bool)

namespace ImageGroup

def members (group : ImageGroup) : List Nat := group.map Prod.fst

def taken (group : ImageGroup) : List Nat := (group.filter Prod.snd).map Prod.fst

def mark (group : ImageGroup) (o : Nat) : ImageGroup :=
  group.map fun m => if m.1 = o then (m.1, true) else m

variable (objects : Nat → BackupObject)

def finish (success : Bool) : GroupLedger → List Nat → GroupLedger
  | l, [] => l
  | l, m :: ms =>
    let l := l.use m
    let l := if success then l.setImageBackupComplete m else l
    finish success ((l.unlockImageFromCleanup (objects m).backupId).delete m) ms

/-- What the loop does with one group when a backup has ended: whether the backup is a member, and
the group if it stays. -/
def check (o : Nat) (l : GroupLedger) (group : ImageGroup) : Bool × Option ImageGroup × GroupLedger :=
  let isMember : Bool := o ∈ group.members
  let l := if isMember then (l.use o).lockImageFromCleanup (objects o).backupId else l
  let group := if isMember then group.mark o else group
  let l := group.taken.foldl GroupLedger.use l
  if group.all Prod.snd then
    (isMember, none, finish objects (group.members.all fun m => (objects m).getResult) l
      group.members)
  else (isMember, some group, l)

def checkAll (o : Nat) : GroupLedger → List ImageGroup → Bool × List ImageGroup × GroupLedger
  | l, [] => (false, [], l)
  | l, group :: groups =>
    let first := check objects o l group
    let rest := checkAll o first.2.2 groups
    (first.1 || rest.1, first.2.1.toList ++ rest.2.1, rest.2.2)

end ImageGroup

/-- Where the client thread is: at a place where it queues and starts backups, before it asks the
`i`-th backup of the queue for its dependencies, before it looks whether that has ended, behind the
call of `InvokePostBackupScripts`; or it has left the loop. -/
inductive LoopAt where
  | outside
  | dependencies (i : Nat)
  | waitFor (i : Nat)
  | invoked (i : Nat)
  | leaving
  | left
  deriving DecidableEq

/-- A call of `InvokePostBackupScripts`, with the images whose backups had ended. -/
structure PostBackupCall where
  backupInfo : List Nat
  endedImages : List Nat
  deriving DecidableEq

/-- The client thread, its backups and the image ids for the evaluation. Beside that are kept the
groups that were formed, the ids that were passed, and the images whose backups have ended. -/
structure ClientLoop where
  pc : LoopAt
  objects : Nat → BackupObject
  created : Nat
  queue : List Nat
  runningImageGroups : List ImageGroup
  countImageBackupTry : Nat
  allBackupsInDatabase : List Nat
  ledger : GroupLedger
  formed : List (List Nat)
  passed : List Nat
  endedImages : List Nat
  calls : List PostBackupCall

namespace ClientLoop

def initial : ClientLoop where
  pc := .outside
  objects := fun _ => .make false
  created := 0
  queue := []
  runningImageGroups := []
  countImageBackupTry := 0
  allBackupsInDatabase := []
  ledger := ⟨[], [], [], false⟩
  formed := []
  passed := []
  endedImages := []
  calls := []

section Steps

variable (s : ClientLoop)

def setObject (o : Nat) (b : BackupObject) : ClientLoop :=
  { s with objects := fun x => if x = o then b else s.objects x }

/-- `n` image backups are made and queued. -/
def addImageBackups (n : Nat) : ClientLoop :=
  { s with
    objects := fun x =>
      if s.created ≤ x ∧ x < s.created + n then .make false else s.objects x
    created := s.created + n
    queue := s.queue ++ List.range' s.created n }

def queueBackup (isFileBackup : Bool) : Option ClientLoop :=
  if s.pc = .outside then
    some { s.setObject s.created (.make isFileBackup) with
      created := s.created + 1
      queue := s.queue ++ [s.created] }
  else none

def startBackup (i : Nat) : Option ClientLoop :=
  match s.queue[i]? with
  | none => none
  | some o =>
    if s.pc = .outside ∧ (s.objects o).phase = .waiting then
      some { s.setObject o { s.objects o with phase := .started } with ledger := s.ledger.use o }
    else none

/-- The dependencies of a started image backup are taken and become a group with it. -/
def takeDependencies (i : Nat) : ClientLoop :=
  match s.queue[i]? with
  | none => { s with pc := .outside }
  | some o =>
    let b := s.objects o
    if b.phase = .waiting then { s with pc := .dependencies (i + 1) }
    else if b.isFileBackup ∨ b.dependencies = 0 then
      { s with pc := .waitFor i, ledger := s.ledger.use o }
    else
      let group := o :: List.range' s.created b.dependencies
      { (s.setObject o { b with dependencies := 0 }).addImageBackups b.dependencies with
        pc := .waitFor i
        ledger := s.ledger.use o
        runningImageGroups := s.runningImageGroups ++ [group.map fun m => (m, false)]
        formed := s.formed ++ [group] }

def invokePostBackupScripts (i : Nat) : ClientLoop :=
  if (s.queue = [] ∨ s.countImageBackupTry ≠ 0) ∧ s.allBackupsInDatabase ≠ [] then
    { s with
      pc := .invoked i
      calls := s.calls ++ [⟨s.allBackupsInDatabase, s.endedImages⟩] }
  else { s with pc := .dependencies i }

/-- A backup that has ended leaves the queue. Unless it is in a group it is deleted. -/
def removeBackup (i o : Nat) : ClientLoop :=
  let b := s.objects o
  let l := s.ledger.use o
  let checked := if b.isFileBackup then (false, s.runningImageGroups, l)
    else ImageGroup.checkAll s.objects o l s.runningImageGroups
  { s with
    queue := s.queue.eraseIdx i
    runningImageGroups := checked.2.1
    countImageBackupTry := b.countAfter s.countImageBackupTry
    ledger := if checked.1 then checked.2.2 else checked.2.2.delete o }

def waitFor (i : Nat) : ClientLoop :=
  match s.queue[i]? with
  | none => { s with pc := .outside }
  | some o =>
    if (s.objects o).isFinished then
      (s.removeBackup i o).invokePostBackupScripts i
    else { s with pc := .dependencies (i + 1), ledger := s.ledger.use o }

/-- The backups in the queue are deleted one after the other, each when its thread has ended. -/
def leave : Option ClientLoop :=
  match s.queue with
  | [] => some { s with pc := .left }
  | o :: queue =>
    if (s.objects o).isRunning then none
    else some { s with queue := queue, ledger := s.ledger.delete o }

def loop : Option ClientLoop :=
  match s.pc with
  | .outside => some { s with pc := .dependencies 0 }
  | .dependencies i => some (s.takeDependencies i)
  | .waitFor i => some (s.waitFor i)
  | .invoked i => some { s with pc := .dependencies i, allBackupsInDatabase := [] }
  | .leaving => s.leave
  | .left => none

def exit : Option ClientLoop := if s.pc = .outside then some { s with pc := .leaving } else none

def addBackupToDatabase (o : Nat) (partition : Bool) (id : Nat) : Option ClientLoop :=
  let b := s.objects o
  if b.phase = .started ∧ ¬ b.isFileBackup then
    some { s.setObject o { b with
        phase := if partition then .partition id else .image id
        backupId := if partition then b.backupId else id } with
      ledger := s.ledger.use o
      allBackupsInDatabase := s.allBackupsInDatabase ++ [id]
      passed := s.passed ++ [id] }
  else none

def endPartition (o : Nat) : Option ClientLoop :=
  match (s.objects o).phase with
  | .partition id =>
    some { s.setObject o { s.objects o with phase := .started } with
      ledger := s.ledger.use o
      endedImages := s.endedImages ++ [id] }
  | .waiting | .started | .image _ | .ended _ _ => none

def readShadowData (o dependencies : Nat) : Option ClientLoop :=
  let b := s.objects o
  if b.isRunning ∧ ¬ b.isFileBackup then
    some { s.setObject o { b with dependencies := dependencies } with ledger := s.ledger.use o }
  else none

def endBackup (o : Nat) (result shouldBackoff : Bool) : Option ClientLoop :=
  let b := s.objects o
  match b.phase with
  | .started | .image _ =>
    some { s.setObject o { b with phase := .ended result shouldBackoff } with
      ledger := s.ledger.use o
      endedImages := s.endedImages ++ b.currentImage.toList }
  | .waiting | .partition _ | .ended _ _ => none

end Steps

inductive Event where
  | queueBackup (isFileBackup : Bool)
  | startBackup (i : Nat)
  | loop
  | exit
  | addBackupToDatabase (o : Nat) (partition : Bool) (id : Nat)
  | endPartition (o : Nat)
  | readShadowData (o dependencies : Nat)
  | endBackup (o : Nat) (result shouldBackoff : Bool)

def step (s : ClientLoop) : Event → Option ClientLoop
  | .queueBackup isFileBackup => s.queueBackup isFileBackup
  | .startBackup i => s.startBackup i
  | .loop => s.loop
  | .exit => s.exit
  | .addBackupToDatabase o partition id => s.addBackupToDatabase o partition id
  | .endPartition o => s.endPartition o
  | .readShadowData o dependencies => s.readShadowData o dependencies
  | .endBackup o result shouldBackoff => s.endBackup o result shouldBackoff

end ClientLoop

end UrBackup
