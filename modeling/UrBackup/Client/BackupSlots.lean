import UrBackup.Lib.Run

/-! The slots of the backups: the number of backups of the server and the number of jobs of each
main client. Locks are held within an event only, so a run is any interleaving of the threads. -/
namespace UrBackup

/-- What the `doBackup` of a backup comes to. A backup of `C:` has up to two others within it. -/
inductive BackupRun where
  | full
  | incr (fullBackup : Bool)
  | continuous (fullBackup : Bool)
  | image (partitions : Nat)
  deriving DecidableEq

namespace BackupRun

def isFile : BackupRun → Bool
  | .full | .incr _ | .continuous _ => true
  | .image _ => false

section Calls

variable (stopBackupRunning : Bool)

/-- The calls of `stopBackupRunning` with their arguments, with the flag of the backup. -/
def fullCalls : List Bool := if stopBackupRunning then [true] else []

/-- `doFullBackup` clears the flag and runs a full backup, which has its own. -/
def incrCalls (fullBackup : Bool) : List Bool :=
  if fullBackup then fullCalls true else if stopBackupRunning then [true] else []

def continuousCalls (fullBackup : Bool) : List Bool :=
  incrCalls false fullBackup ++ if stopBackupRunning then [true] else []

def partitionCalls : List Bool := if stopBackupRunning then [false] else []

def imageCalls (partitions : Nat) : List Bool :=
  (List.replicate partitions (partitionCalls false)).flatten ++ partitionCalls stopBackupRunning

end Calls

def calls : BackupRun → List Bool
  | .full => fullCalls true
  | .incr fullBackup => incrCalls true fullBackup
  | .continuous fullBackup => continuousCalls true fullBackup
  | .image partitions => imageCalls true partitions

theorem imageCalls_true (partitions : Nat) : imageCalls true partitions = [false] := by
  have hnone : (List.replicate partitions (partitionCalls false)).flatten = [] :=
    List.flatten_eq_nil_iff.mpr fun _ h => List.eq_of_mem_replicate h
  unfold imageCalls
  rw [hnone]
  rfl

theorem calls_eq {run : BackupRun} (h : run ≠ .continuous true) : run.calls = [run.isFile] := by
  cases run with
  | full => rfl
  | incr fullBackup => cases fullBackup <;> rfl
  | continuous fullBackup =>
    cases fullBackup with
    | false => rfl
    | true => exact absurd rfl h
  | image partitions => exact imageCalls_true partitions

end BackupRun

/-- Where a queued backup is: the client thread has counted it as a job, it has compared the number
of jobs, it is to be counted back; or it was started and has some calls to make, or it has ended. -/
inductive BackupPhase where
  | queued
  | counted
  | checked
  | refused
  | started (calls : List Bool)
  | ended
  deriving DecidableEq

structure QueuedBackup where
  client : Nat
  run : BackupRun
  phase : BackupPhase
  deriving DecidableEq

namespace QueuedBackup

def holds (b : QueuedBackup) : Bool :=
  match b.phase with
  | .started calls => calls = b.run.calls
  | .queued | .counted | .checked | .refused | .ended => false

def holdsFile (b : QueuedBackup) : Bool := b.holds && b.run.isFile

def isJob (b : QueuedBackup) : Bool := b.phase ≠ .queued

def isStarted (b : QueuedBackup) : Bool :=
  match b.phase with
  | .checked | .started _ | .ended => true
  | .queued | .counted | .refused => false

end QueuedBackup

inductive Barrier where
  | none
  | waiting
  | held
  deriving DecidableEq

/-- A backup that was started: the slots in use before, with the setting, and the barrier. -/
structure BackupStart where
  held : Nat
  maxSimBackups : Int
  barrier : Barrier
  deriving DecidableEq

/-- The counters, the queues of all client threads and the caller of the barrier. Beside that are
kept the backups that were started, and the largest number of jobs that the settings of a main
client allowed when they were read. -/
structure BackupSlots where
  runningBackups : Nat
  runningFileBackups : Nat
  runningBackupsAllowed : Bool
  runningJobs : Nat → Int
  queue : List QueuedBackup
  selecting : List Nat
  exiting : List Nat
  barrier : Barrier
  assertionFailed : Bool
  starts : List BackupStart
  maxJobs : Nat → Int

namespace BackupSlots

def initial : BackupSlots where
  runningBackups := 0
  runningFileBackups := 0
  runningBackupsAllowed := true
  runningJobs := fun _ => 0
  queue := []
  selecting := []
  exiting := []
  barrier := .none
  assertionFailed := false
  starts := []
  maxJobs := fun _ => 0

section Counts

variable (s : BackupSlots)

def held : Nat := s.queue.countP QueuedBackup.holds

def heldFile : Nat := s.queue.countP QueuedBackup.holdsFile

def jobs (clientmainname : Nat → Nat) (main : Nat) : Nat :=
  s.queue.countP fun b => b.isJob && clientmainname b.client = main

def started (clientmainname : Nat → Nat) (main : Nat) : Nat :=
  s.queue.countP fun b => b.isStarted && clientmainname b.client = main

end Counts

section Steps

variable (clientmainname : Nat → Nat) (s : BackupSlots)

def setPhase (i : Nat) (b : QueuedBackup) (phase : BackupPhase) : BackupSlots :=
  { s with queue := s.queue.set i { b with phase := phase } }

def addJobs (main : Nat) (n : Int) : BackupSlots :=
  { s with runningJobs := fun m => if m = main then s.runningJobs m + n else s.runningJobs m }

def resetStatus (main : Nat) : BackupSlots :=
  { s with runningJobs := fun m => if m = main then 0 else s.runningJobs m }

def readMaxJobs (main : Nat) (maxRunningJobsPerClient : Int) : BackupSlots :=
  { s with maxJobs := fun m =>
      if m = main then max (s.maxJobs m) maxRunningJobsPerClient else s.maxJobs m }

def select (client : Nat) (maxRunningJobsPerClient : Int) : Option BackupSlots :=
  if client ∉ s.exiting ∧ client ∉ s.selecting ∧
      s.runningJobs (clientmainname client) < maxRunningJobsPerClient then
    some { s with selecting := s.selecting ++ [client] }
  else none

def addRunningJob (i : Nat) : Option BackupSlots :=
  match s.queue[i]? with
  | none => none
  | some b =>
    if b.phase = .queued ∧ b.client ∈ s.selecting then
      some { (s.setPhase i b .counted).addJobs (clientmainname b.client) 1 with
        selecting := s.selecting.erase b.client }
    else none

def checkJobs (i : Nat) (maxRunningJobsPerClient : Int) : Option BackupSlots :=
  match s.queue[i]? with
  | none => none
  | some b =>
    if b.phase = .counted then
      let main := clientmainname b.client
      some ((s.setPhase i b (if s.runningJobs main ≤ maxRunningJobsPerClient then .checked
        else .refused)).readMaxJobs main maxRunningJobsPerClient)
    else none

def isBackupsRunningOkay (file : Bool) (maxSimBackups : Int) : Bool × BackupSlots :=
  if s.runningBackups < maxSimBackups then
    (s.runningBackupsAllowed,
      if s.runningBackupsAllowed then
        { s with
          runningBackups := s.runningBackups + 1
          runningFileBackups := if file then s.runningFileBackups + 1 else s.runningFileBackups }
      else s)
  else (false, s)

def takeSlot (i : Nat) (maxSimBackups : Int) : Option BackupSlots :=
  match s.queue[i]? with
  | none => none
  | some b =>
    if b.phase = .checked then
      match s.isBackupsRunningOkay b.run.isFile maxSimBackups with
      | (true, s') => some { s'.setPhase i b (.started b.run.calls) with
          starts := s.starts ++ [⟨s.held, maxSimBackups, s.barrier⟩] }
      | (false, s') => some (s'.setPhase i b .refused)
    else none

def subRunningJob (i : Nat) : Option BackupSlots :=
  match s.queue[i]? with
  | none => none
  | some b =>
    if b.phase = .refused then
      some ((s.setPhase i b .queued).addJobs (clientmainname b.client) (-1))
    else none

def stopBackupRunning (file : Bool) : BackupSlots :=
  if s.runningBackups = 0 then { s with assertionFailed := true }
  else
    let s := { s with runningBackups := s.runningBackups - 1 }
    if file then
      if s.runningFileBackups = 0 then { s with assertionFailed := true }
      else { s with runningFileBackups := s.runningFileBackups - 1 }
    else s

def stopBackup (i : Nat) : Option BackupSlots :=
  match s.queue[i]? with
  | none => none
  | some b =>
    match b.phase with
    | .started (file :: calls) => some ((s.stopBackupRunning file).setPhase i b (.started calls))
    | .started [] | .queued | .counted | .checked | .refused | .ended => none

def endBackup (i : Nat) : Option BackupSlots :=
  match s.queue[i]? with
  | none => none
  | some b => if b.phase = .started [] then some (s.setPhase i b .ended) else none

/-- The client thread removes a backup that has ended, in its loop or when it exits. -/
def removeBackup (i : Nat) : Option BackupSlots :=
  match s.queue[i]? with
  | none => none
  | some b =>
    if b.phase = .ended then
      some ({ s with queue := s.queue.eraseIdx i }.addJobs (clientmainname b.client) (-1))
    else none

def discardBackup (i : Nat) : Option BackupSlots :=
  match s.queue[i]? with
  | none => none
  | some b =>
    if b.phase = .queued ∧ b.client ∈ s.exiting then
      some { s with queue := s.queue.eraseIdx i }
    else none

/-- The wait of `startBackupBarrier` is over, or it is not. -/
def barrierReturns (timedOut : Bool) : Option BackupSlots :=
  if s.barrier = .waiting then
    if s.runningBackups = 0 then some { s with barrier := .held }
    else if timedOut then some { s with runningBackupsAllowed := true, barrier := .none }
    else none
  else none

end Steps

inductive Event where
  | queueBackup (client : Nat) (run : BackupRun)
  | select (client : Nat) (maxRunningJobsPerClient : Int)
  | leaveLoop (client : Nat)
  | addRunningJob (i : Nat)
  | checkJobs (i : Nat) (maxRunningJobsPerClient : Int)
  | takeSlot (i : Nat) (maxSimBackups : Int)
  | subRunningJob (i : Nat)
  | stopBackup (i : Nat)
  | endBackup (i : Nat)
  | removeBackup (i : Nat)
  | exit (client : Nat)
  | discardBackup (i : Nat)
  | startBackupBarrier
  | barrierReturns (timedOut : Bool)
  | stopBackupBarrier
  /-- The server starts a thread for a client, or removes the status of one that has exited. -/
  | setOnline (client : Nat)
  | removeStatus (client : Nat)

def step (clientmainname : Nat → Nat) (s : BackupSlots) : Event → Option BackupSlots
  | .queueBackup client run => some { s with queue := s.queue ++ [⟨client, run, .queued⟩] }
  | .select client maxRunningJobsPerClient =>
    s.select clientmainname client maxRunningJobsPerClient
  | .leaveLoop client => some { s with selecting := s.selecting.erase client }
  | .addRunningJob i => s.addRunningJob clientmainname i
  | .checkJobs i maxRunningJobsPerClient => s.checkJobs clientmainname i maxRunningJobsPerClient
  | .takeSlot i maxSimBackups => s.takeSlot i maxSimBackups
  | .subRunningJob i => s.subRunningJob clientmainname i
  | .stopBackup i => s.stopBackup i
  | .endBackup i => s.endBackup i
  | .removeBackup i => s.removeBackup clientmainname i
  | .exit client => some { s with
      exiting := s.exiting ++ [client]
      selecting := s.selecting.erase client }
  | .discardBackup i => s.discardBackup i
  | .startBackupBarrier =>
    if s.barrier = .waiting then none
    else some { s with runningBackupsAllowed := false, barrier := .waiting }
  | .barrierReturns timedOut => s.barrierReturns timedOut
  | .stopBackupBarrier =>
    if s.barrier = .waiting then none
    else some { s with runningBackupsAllowed := true, barrier := .none }
  | .setOnline client => some { s.resetStatus client with exiting := s.exiting.erase client }
  | .removeStatus client => some (s.resetStatus client)

end BackupSlots

end UrBackup
