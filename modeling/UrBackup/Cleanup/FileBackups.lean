import UrBackup.Images.Cleanup
import UrBackup.Lib.Loop

/-! The loops that delete file backups of a client until there are few enough, those over all clients,
and those that delete a client. Each loop is given by what one turn does. -/
namespace UrBackup

/-- A row of `backups`. -/
structure FileBackupRow where
  id : Int
  clientid : Int
  incremental : Int
  path : String
  archived : Int
  running : Int
  backuptime : Int
  deriving DecidableEq, Repr

/-- The tables of the backups with the backups whose directories could not be deleted. Beside them the
directories are kept that were tried, each with whether it was still there. -/
structure BackupCleanup where
  images : CleanupState
  backups : List FileBackupRow
  removeerr : List Int
  tries : List (String × Bool)
  deriving DecidableEq, Repr

/-- What stays as it is during a cleanup: the settings, the time, and how the file system answers.
Its answers may depend on what has happened so far. -/
structure FileCleanup where
  minspace : Int
  maxFileFull : Int → Int
  minFileFull : Int → Int
  maxFileIncr : Int → Int
  minFileIncr : Int → Int
  clientBackupfolder : Int → String
  backupfolder : String
  now : Int
  freeSpace : BackupCleanup → Int
  directoryExists : BackupCleanup → (path : String) → Bool
  /-- Whether a directory could be removed, and whether it is still there. -/
  removeDirectory : BackupCleanup → (clientname backuppath path : String) → Bool × Bool
  deleteImage : CleanupState.DeleteImage

namespace BackupCleanup

variable (s : BackupCleanup)

def getClientName (clientid : Int) : Option String :=
  (s.images.db.clients.find? fun client => client.id = clientid).map ImageClient.name

def findBackup (id : Int) : Option FileBackupRow := s.backups.find? fun row => row.id = id

def getFileBackupClientId (id : Int) : Int := ((s.findBackup id).map FileBackupRow.clientid).getD 0

def getFileBackupPath (id : Int) : Option String := (s.findBackup id).map FileBackupRow.path

def removeFileBackupSql (id : Int) : BackupCleanup :=
  { s with backups := s.backups.filter fun row => row.id ≠ id }

def getNumFiles (now clientid : Int) (incremental : Bool) : List FileBackupRow :=
  (s.backups.filter fun row => row.clientid = clientid ∧
    decide (row.incremental ≠ 0) = incremental ∧ row.running < now - 300 ∧
      row.archived = 0).mergeSort fun a b => a.backuptime ≤ b.backuptime

def getFilesNum (now clientid : Int) (incremental : Bool) : Nat × Option Int :=
  let noErrRes := ((s.getNumFiles now clientid incremental).map FileBackupRow.id).filter
    fun bid => bid ∉ s.removeerr
  (noErrRes.length, noErrRes.head?)

def getClientsSortFilebackups : List Int :=
  (((s.backups.filter fun row => s.images.db.clients.any fun client => client.id = row.clientid).mergeSort
    fun a b => a.backuptime ≤ b.backuptime).map FileBackupRow.clientid).dedup

def getClientFileBackups (clientid : Int) : List Int :=
  (s.backups.filter fun row => row.clientid = clientid).map FileBackupRow.id

def getClientImages (clientid : Int) : List Int :=
  (s.images.db.images.filter fun image => image.clientid = clientid).map BackupImage.id

/-- The checks of `deleteFileBackup` at which it returns before it deletes anything. -/
def ReturnsEarly (backupfolder : String) (clientid backupid : Int) : Prop :=
  s.getClientName clientid = none ∨ s.getClientName clientid = some "" ∨
    s.getFileBackupClientId backupid ≠ clientid ∨ s.getFileBackupPath backupid = none ∨
      s.getFileBackupPath backupid = some "" ∨ backupfolder = ""

instance (backupfolder : String) (clientid backupid : Int) :
    Decidable (s.ReturnsEarly backupfolder clientid backupid) :=
  inferInstanceAs (Decidable (_ ∨ _))

end BackupCleanup

namespace FileCleanup

variable (c : FileCleanup)

def hasEnoughFreeSpace (s : BackupCleanup) : Int :=
  if c.minspace ≠ -1 then
    if c.freeSpace s = -1 then -1 else if c.freeSpace s > c.minspace then 1 else 0
  else 0

/-- The directory of a backup, which has another name if it was about to be deleted at the start. -/
def backupDirectory (s : BackupCleanup) (backupfolder clientname backuppath : String) :
    String × String :=
  let path := backupfolder ++ "/" ++ clientname ++ "/" ++ backuppath
  if !c.directoryExists s path && c.directoryExists s (path ++ ".startup-del") then
    (backuppath ++ ".startup-del", path ++ ".startup-del")
  else (backuppath, path)

/-- The directory is removed, and then the row. A backup whose directory stays is remembered. -/
def deleteDirectory (forceRemove : Bool) (backupid : Int) (clientname backuppath path : String)
    (s : BackupCleanup) : Bool × BackupCleanup :=
  let (b, exists') := c.removeDirectory s clientname backuppath path
  let s := { s with tries := s.tries ++ [(path, exists')] }
  let s := if !b && exists' then { s with removeerr := s.removeerr ++ [backupid] } else s
  let s := if exists' then { s with removeerr := s.removeerr ++ [backupid] } else s
  (!exists', if !exists' || forceRemove then s.removeFileBackupSql backupid else s)

def deleteFileBackup (backupfolder : String) (clientid backupid : Int) (forceRemove : Bool)
    (s : BackupCleanup) : Bool × BackupCleanup :=
  match s.getClientName clientid with
  | none => (false, s)
  | some clientname =>
    if s.getFileBackupClientId backupid ≠ clientid then (false, s)
    else
      match s.getFileBackupPath backupid with
      | none => (false, s)
      | some backuppath =>
        if backuppath = "" then (false, s)
        else if backupfolder = "" then (false, s)
        else if clientname = "" then (false, s)
        else
          let (backuppath, path) := c.backupDirectory s backupfolder clientname backuppath
          c.deleteDirectory forceRemove backupid clientname backuppath path s

def limit (clientid : Int) (incremental : Bool) : Int :=
  if incremental then
    if c.minspace ≠ -1 then c.minFileIncr clientid else c.maxFileIncr clientid
  else if c.minspace ≠ -1 then c.minFileFull clientid else c.maxFileFull clientid

/-- The backup that the next turn of a loop over the backups of a client tries. -/
def nextBackup (clientid : Int) (incremental : Bool) (s : BackupCleanup) : Option Int :=
  let (num, top) := s.getFilesNum c.now clientid incremental
  if c.limit clientid incremental < num then top else none

/-- A turn of the two loops of `cleanup_one_filebackup_client`. The loop over the full backups comes
first. -/
def clientTurn (clientid : Int) (st : Bool × BackupCleanup) :
    (Bool × BackupCleanup) ⊕ (Bool × BackupCleanup) :=
  match c.nextBackup clientid st.1 st.2 with
  | some backupid =>
    let (b, s) := c.deleteFileBackup (c.clientBackupfolder clientid) clientid backupid false st.2
    if b then .inl (true, s) else .inr (st.1, s)
  | none => if st.1 then .inl (false, st.2) else .inr (true, st.2)

/-- The loops of `cleanup_files`: the clients still to come, and the one whose backups are deleted. -/
structure FilesLoop where
  s : BackupCleanup
  clients : List Int
  deletedSomething : Bool
  current : Option (Int × Bool)

def FilesLoop.start (s : BackupCleanup) : FilesLoop := ⟨s, [], true, none⟩

def isOver (s : BackupCleanup) : Bool :=
  decide (c.hasEnoughFreeSpace s = -1 ∨ c.hasEnoughFreeSpace s = 1)

def filesTurn (l : FilesLoop) : BackupCleanup ⊕ FilesLoop :=
  match l.current with
  | some (clientid, incremental) =>
    match c.clientTurn clientid (incremental, l.s) with
    | .inr (incremental, s) => .inr { l with s, current := some (clientid, incremental) }
    | .inl (true, s) =>
      if c.isOver s then .inl s
      else .inr { l with s, current := none, deletedSomething := true }
    | .inl (false, s) => .inr { l with s, current := none }
  | none =>
    match l.clients with
    | clientid :: clients => .inr { l with clients, current := some (clientid, false) }
    | [] =>
      if l.deletedSomething && !c.isOver l.s then
        .inr { l with clients := l.s.getClientsSortFilebackups, deletedSomething := false }
      else .inl l.s

def removeImage (backupid : Int) (s : BackupCleanup) : BackupCleanup :=
  { s with images := ((CleanupState.removeImage c.deleteImage 0 1 true true false false backupid
      s.images).map Prod.snd).getD s.images }

/-- A turn of the two loops of `removeClient`. The loop over the images comes first. -/
def removeClientTurn (clientid : Int) (st : Bool × BackupCleanup) :
    BackupCleanup ⊕ (Bool × BackupCleanup) :=
  if st.1 then
    match (st.2.getClientFileBackups clientid).head? with
    | some backupid =>
      .inr (true, (c.deleteFileBackup c.backupfolder clientid backupid true st.2).2)
    | none => .inl st.2
  else
    match (st.2.getClientImages clientid).head? with
    | some backupid => .inr (false, c.removeImage backupid st.2)
    | none => .inr (true, st.2)

section Stuck

/-- The next backup is one that is neither deleted nor remembered. -/
def ClientStuck (clientid : Int) (st : Bool × BackupCleanup) : Prop :=
  ∃ backupid, c.nextBackup clientid st.1 st.2 = some backupid ∧
    st.2.ReturnsEarly (c.clientBackupfolder clientid) clientid backupid

def FilesStuck (l : FilesLoop) : Prop :=
  ∃ clientid incremental, l.current = some (clientid, incremental) ∧
    c.ClientStuck clientid (incremental, l.s)

def RemoveClientStuck (clientid : Int) (st : Bool × BackupCleanup) : Prop :=
  if st.1 then
    ∃ backupid, (st.2.getClientFileBackups clientid).head? = some backupid ∧
      st.2.ReturnsEarly c.backupfolder clientid backupid
  else
    ∃ backupid, (st.2.getClientImages clientid).head? = some backupid ∧
      st.2.images.db.getImageClientname backupid = none

end Stuck

end FileCleanup

end UrBackup
