import UrBackup.Download.Queue
import UrBackup.Lib.Run

/-! The thread that works off the download queue. What the file clients, the file system and the
client answer comes with the events, so a run is any queue with any outcome of every call. -/
namespace UrBackup

/-- What `GetFile` and `GetFilePatch` return. -/
inductive ErrorCode where
  | success
  | timeout
  | cannotOpenFile
  | socketError
  | connected
  | error
  | baseDirLost
  | hash
  | intError
  | connLost
  | errorcodes
  | readError
  deriving DecidableEq

/-- A set of ids, with the bounds that are looked at before it is searched. -/
structure IdRange where
  ids : List Nat
  minId : Nat
  maxId : Nat
  bounds : ∀ id ∈ ids, minId ≤ id ∧ id ≤ maxId

namespace IdRange

def empty : IdRange := ⟨[], 2 ^ 64 - 1, 0, nofun⟩

def add (r : IdRange) (id : Nat) : IdRange where
  ids := r.ids ++ [id]
  minId := min id r.minId
  maxId := max id r.maxId
  bounds := by
    intro id' hid
    cases List.mem_append.mp hid with
    | inl hold =>
      exact ⟨(Nat.min_le_right _ _).trans (r.bounds id' hold).1,
        (r.bounds id' hold).2.trans (Nat.le_max_right _ _)⟩
    | inr hnew =>
      cases List.mem_singleton.mp hnew
      exact ⟨Nat.min_le_left _ _, Nat.le_max_left _ _⟩

def hasId (r : IdRange) (id : Nat) : Bool := r.minId ≤ id && id ≤ r.maxId && r.ids.contains id

@[simp] theorem hasId_iff {r : IdRange} {id : Nat} : r.hasId id = true ↔ id ∈ r.ids := by
  unfold hasId
  constructor
  · intro h
    simpa using (Bool.and_eq_true_iff.mp h).2
  · intro h
    simp [r.bounds id h, h]

end IdRange

/-- The arguments with which an item is queued that matter to the thread. -/
structure QueueArgs where
  id : Nat
  fn : List UInt8
  currPath : List UInt8
  isScript : Bool
  metadataOnly : Bool
  folderItems : Nat
  scriptRandom : UInt32

namespace SQueueItem

def ofFullArgs (a : QueueArgs) : SQueueItem :=
  { ofAction .fileclient with
    id := a.id
    fn := a.fn
    currPath := a.currPath
    fileclient := .full
    isScript := a.isScript
    metadataOnly := a.metadataOnly
    folderItems := a.folderItems
    scriptRandom := a.scriptRandom }

def ofChunkedArgs (a : QueueArgs) : SQueueItem :=
  { ofAction .fileclient with
    id := a.id
    fn := a.fn
    currPath := a.currPath
    fileclient := .chunked
    isScript := a.isScript
    scriptRandom := a.scriptRandom }

def scriptEndOf (todl : SQueueItem) : SQueueItem :=
  { ofAction .fileclient with
    fn := todl.fn
    currPath := todl.currPath
    isScript := true
    scriptEnd := true
    scriptRandom := todl.scriptRandom }

def fullOf (todl : SQueueItem) : SQueueItem :=
  { ofAction .fileclient with
    id := todl.id
    fn := todl.fn
    currPath := todl.currPath
    fileclient := .full
    isScript := todl.isScript
    metadataOnly := todl.metadataOnly
    folderItems := todl.folderItems
    scriptRandom := todl.scriptRandom
    switched := true }

end SQueueItem

/-- What the output of a script comes to: whether the script was all right, whether its data is a
file of the backup, and the files that it announced. -/
structure ScriptOutput where
  ok : Bool
  hashFile : Bool
  /-- Whether each is a patch download. -/
  tarFiles : List (Bool × QueueArgs)

/-- What the calls for one item come to. -/
structure TransferOutcome where
  /-- `getTempFile` in `load_file`. -/
  tempFile : Bool
  prepare : PrepareOutcome
  /-- The transfer and its repetitions. -/
  rc : Nat → ErrorCode
  /-- `getTempFile` before a repetition. -/
  retryTempFiles : Nat → Bool
  /-- There is something in the file for the data. -/
  received : Bool
  readingFailed : Bool
  linked : Bool
  copied : Bool
  shadowcopyOk : Bool
  script : ScriptOutput

/-- The thread with its queue. The items that were queued from outside, and the ids passed to
`hashFile` with whether their transfer was a success, are kept beside the state of the program. -/
structure ServerDownloadThread where
  dlQueue : List SQueueItem
  curr : Option SQueueItem
  isOffline : Bool
  skipping : Bool
  downloadNokIds : IdRange
  downloadPartialIds : IdRange
  maxOkId : Nat
  stopQueued : Bool
  ended : Bool
  added : List SQueueItem
  hashed : List (Nat × Bool)

namespace ServerDownloadThread

def initial : ServerDownloadThread where
  dlQueue := []
  curr := none
  isOffline := false
  skipping := false
  downloadNokIds := .empty
  downloadPartialIds := .empty
  maxOkId := 0
  stopQueued := false
  ended := false
  added := []
  hashed := []

def isDownloadOk (t : ServerDownloadThread) (id : Nat) : Bool := !t.downloadNokIds.hasId id

def isDownloadPartial (t : ServerDownloadThread) (id : Nat) : Bool := t.downloadPartialIds.hasId id

def pushBack (t : ServerDownloadThread) (it : SQueueItem) : ServerDownloadThread :=
  { t with dlQueue := t.dlQueue ++ [it] }

def addNok (t : ServerDownloadThread) (id : Nat) : ServerDownloadThread :=
  { t with downloadNokIds := t.downloadNokIds.add id }

def addPartial (t : ServerDownloadThread) (id : Nat) : ServerDownloadThread :=
  { t with downloadPartialIds := t.downloadPartialIds.add id, maxOkId := max t.maxOkId id }

def hashFile (t : ServerDownloadThread) (id : Nat) (transferred : Bool) : ServerDownloadThread :=
  { t with hashed := t.hashed ++ [(id, transferred)] }

def queueScriptEnd (t : ServerDownloadThread) (todl : SQueueItem) : ServerDownloadThread :=
  { t with
    dlQueue := (DlQueue.insertFullQueueEarliest t.dlQueue (SQueueItem.scriptEndOf todl) false).2 }

/-- `addToQueueFull` for an item that was to be a patch download. -/
def addAtFront (t : ServerDownloadThread) (todl : SQueueItem) : ServerDownloadThread :=
  let (idx, queue) :=
    DlQueue.insertFullQueueEarliest t.dlQueue (SQueueItem.fullOf todl) true
  { t with dlQueue := DlQueue.postponeQuitStop idx queue }

theorem addAtFront_perm (t : ServerDownloadThread) (todl : SQueueItem) :
    (t.addAtFront todl).dlQueue.Perm ([.fullOf todl] ++ t.dlQueue) :=
  (DlQueue.postponeQuitStop_perm _ _).trans (DlQueue.insertFullQueueEarliest_perm _ _ _)

def tarItem (chunked : Bool) (a : QueueArgs) : SQueueItem :=
  let a := { a with id := 0, isScript := true }
  if chunked then .ofChunkedArgs a else .ofFullArgs a

def addTarFiles (t : ServerDownloadThread) (files : List (Bool × QueueArgs)) :
    ServerDownloadThread :=
  { t with dlQueue := t.dlQueue ++ files.map fun (chunked, a) => tarItem chunked a }

def retryHash (rc : Nat → ErrorCode) : Nat → Nat → ErrorCode
  | 0, attempt => rc attempt
  | retries + 1, attempt =>
    if rc attempt = .hash then retryHash rc retries (attempt + 1) else rc attempt

def retryPatch (rc : Nat → ErrorCode) (tempFiles : Nat → Bool) : Nat → Nat → Option ErrorCode
  | 0, attempt => some (rc attempt)
  | retries + 1, attempt =>
    if rc attempt = .hash then
      if tempFiles attempt then retryPatch rc tempFiles retries (attempt + 1) else none
    else some (rc attempt)

def transferred (t : ServerDownloadThread) (todl : SQueueItem) (o : ScriptOutput) :
    ServerDownloadThread × Bool :=
  let withOutput := todl.isScript && !todl.metadataOnly
  let t := if todl.isScript then t.queueScriptEnd todl else t
  let t := if withOutput then t.addTarFiles o.tarFiles else t
  let t := { t with maxOkId := max t.maxOkId todl.id }
  let t := if !todl.metadataOnly && (!withOutput || o.hashFile) then t.hashFile todl.id true else t
  (t, !withOutput || o.ok)

section Transfers

variable (saveIncompleteFile : Bool)

def loadFile (t : ServerDownloadThread) (todl : SQueueItem) (o : TransferOutcome) :
    ServerDownloadThread × Bool :=
  if !todl.metadataOnly && !o.tempFile then (t, false)
  else
    let rc := retryHash o.rc 5 0
    if rc = .success then t.transferred todl o.script
    else
      let saved := (rc = .timeout || rc = .error || rc = .readError)
        && saveIncompleteFile && !todl.metadataOnly && o.received
      let t :=
        if saved then (t.addPartial todl.id).hashFile todl.id false
        else if !todl.metadataOnly then t.addNok todl.id
        else t
      (t, !todl.isScript && rc ≠ .timeout && rc ≠ .error && rc ≠ .baseDirLost)

def linkOrCopyFile (t : ServerDownloadThread) (todl : SQueueItem) (o : TransferOutcome) :
    ServerDownloadThread × Bool :=
  if o.linked then (t, true)
  else if o.copied then (t.hashFile todl.id false, true)
  else (t, false)

def useOldFile (t : ServerDownloadThread) (todl : SQueueItem) (o : TransferOutcome) :
    ServerDownloadThread :=
  let (t, ok) := t.linkOrCopyFile todl o
  if ok then t.addPartial todl.id else t.addNok todl.id

def prepared (todl : SQueueItem) (o : TransferOutcome) : SPatchDownloadFiles × Bool :=
  if todl.patchDlFiles.prepared then (todl.patchDlFiles, false)
  else preparePatchDownloadFiles o.prepare

def patchFailed (t : ServerDownloadThread) (todl : SQueueItem) (o : TransferOutcome)
    (rc : ErrorCode) : ServerDownloadThread × Bool :=
  let incomplete := rc = .timeout || rc = .connLost || rc = .socketError || rc = .readError
  let t :=
    if rc = .baseDirLost && saveIncompleteFile then t.useOldFile todl o
    else if incomplete && o.received && saveIncompleteFile then
      (t.addPartial todl.id).hashFile todl.id false
    else t.addNok todl.id
  (t, !todl.isScript && rc ≠ .timeout && rc ≠ .error && rc ≠ .socketError && rc ≠ .intError
    && rc ≠ .baseDirLost && rc ≠ .connLost && rc ≠ .errorcodes)

def patchTransferred (t : ServerDownloadThread) (todl : SQueueItem) (o : TransferOutcome)
    (rc : ErrorCode) : ServerDownloadThread × Bool :=
  if rc = .success then t.transferred todl o.script
  else
    t.patchFailed saveIncompleteFile todl o
      (if rc = .errorcodes && o.readingFailed then .readError else rc)

def loadPrepared (t : ServerDownloadThread) (todl : SQueueItem) (o : TransferOutcome)
    (files : SPatchDownloadFiles) (fullDl : Bool) : ServerDownloadThread × Bool :=
  if !files.origFile && fullDl then (t.addAtFront todl, true)
  else if files.prepareError then (t, false)
  else
    match retryPatch o.rc o.retryTempFiles 5 0 with
    | none => (t, false)
    | some rc => t.patchTransferred saveIncompleteFile todl o rc

def loadFilePatch (t : ServerDownloadThread) (todl : SQueueItem) (o : TransferOutcome) :
    ServerDownloadThread × Bool :=
  if todl.patchDlFiles.prepareError then
    t.loadPrepared saveIncompleteFile todl o todl.patchDlFiles false
  else
    t.loadPrepared saveIncompleteFile todl o (prepared todl o).1 (prepared todl o).2

def skipItem (t : ServerDownloadThread) (curr : SQueueItem) (o : TransferOutcome) :
    ServerDownloadThread :=
  let (files, fullDl) := prepared curr o
  if curr.fileclient = .chunked && !fullDl && files.prepared && !files.prepareError
      && files.origFile then
    t.useOldFile curr o
  else if !curr.metadataOnly then t.addNok curr.id
  else t

def goOffline (t : ServerDownloadThread) (ret : Bool) : ServerDownloadThread :=
  if ret then t else { t with isOffline := true }

def processItem (t : ServerDownloadThread) (curr : SQueueItem) (o : TransferOutcome) :
    ServerDownloadThread :=
  if t.isOffline || t.skipping then t.skipItem curr o
  else if curr.action = .startShadowcopy || curr.action = .stopShadowcopy then
    t.goOffline o.shadowcopyOk
  else
    match curr.fileclient with
    | .full =>
      if curr.scriptEnd then t
      else
        let (t, ret) := t.loadFile saveIncompleteFile curr o
        t.goOffline ret
    | .chunked =>
      let (t, ret) := t.loadFilePatch saveIncompleteFile curr o
      t.goOffline ret

end Transfers

/-- The thread takes the next item. It ends when nothing is left behind the one that tells it to. -/
def take (t : ServerDownloadThread) : Option ServerDownloadThread :=
  match t.dlQueue with
  | [] => none
  | curr :: rest =>
    match curr.action with
    | .quit =>
      if rest.isEmpty then some { t with dlQueue := [], ended := true }
      else some { t with dlQueue := rest ++ [curr] }
    | .skip => some { t with dlQueue := rest, skipping := true }
    | .fileclient | .startShadowcopy | .stopShadowcopy =>
      some { t with dlQueue := rest, curr := some curr }

inductive Event where
  | addToQueueFull (a : QueueArgs)
  | addToQueueChunked (a : QueueArgs)
  | addToQueueStartShadowcopy
  | addToQueueStopShadowcopy
  | queueStop
  | queueSkip
  | take
  | process (o : TransferOutcome)
  | getQueuedFileFull (prepare : SQueueItem → PrepareOutcome)
  | getQueuedFileChunked (prepare : SQueueItem → PrepareOutcome)
  | resetQueueFull
  | resetQueueChunked
  | unqueueFileFull (fn : List UInt8) (finishScript : Bool)
  | unqueueFileChunked (remotefn : List UInt8)

/-- An item from outside, which is queued before the thread is told to end. -/
def addItem (t : ServerDownloadThread) (it : SQueueItem) : Option ServerDownloadThread :=
  if t.stopQueued then none else some { t.pushBack it with added := t.added ++ [it] }

def step (cfg : SQueueItem.DlConfig) (saveIncompleteFile : Bool) (t : ServerDownloadThread) :
    Event → Option ServerDownloadThread
  | .addToQueueFull a => t.addItem (.ofFullArgs a)
  | .addToQueueChunked a => t.addItem (.ofChunkedArgs a)
  | .addToQueueStartShadowcopy => t.addItem (.ofAction .startShadowcopy)
  | .addToQueueStopShadowcopy => t.addItem (.ofAction .stopShadowcopy)
  | .queueStop => some { t.pushBack (.ofAction .quit) with stopQueued := true }
  | .queueSkip => some { t with dlQueue := .ofAction .skip :: t.dlQueue }
  | .take => if t.curr.isSome || t.ended then none else t.take
  | .process o => t.curr.map fun curr =>
    { t.processItem saveIncompleteFile curr o with curr := none }
  | .getQueuedFileFull prepare =>
    some { t with dlQueue := (DlQueue.getQueuedFileFull prepare t.dlQueue).2 }
  | .getQueuedFileChunked prepare =>
    some { t with
      dlQueue := DlQueue.getQueuedFileChunked prepare (t.dlQueue.length + 1) t.dlQueue }
  | .resetQueueFull => some { t with dlQueue := DlQueue.resetQueueFull t.dlQueue }
  | .resetQueueChunked => some { t with dlQueue := DlQueue.resetQueueChunked t.dlQueue }
  | .unqueueFileFull fn finishScript =>
    some { t with dlQueue := DlQueue.unqueueFileFull cfg fn finishScript t.dlQueue }
  | .unqueueFileChunked remotefn =>
    some { t with dlQueue := DlQueue.unqueueFileChunked cfg remotefn t.dlQueue }

section Queue

variable {t : ServerDownloadThread}

theorem useOldFile_dlQueue (todl : SQueueItem) (o : TransferOutcome) :
    (t.useOldFile todl o).dlQueue = t.dlQueue := by
  unfold useOldFile linkOrCopyFile
  cases o.linked <;> cases o.copied <;> rfl

theorem patchFailed_dlQueue (saveIncompleteFile : Bool) (todl : SQueueItem) (o : TransferOutcome)
    (rc : ErrorCode) : (t.patchFailed saveIncompleteFile todl o rc).1.dlQueue = t.dlQueue := by
  unfold patchFailed
  dsimp only
  split
  · exact useOldFile_dlQueue todl o
  · split <;> rfl

theorem goOffline_dlQueue (ret : Bool) : (t.goOffline ret).dlQueue = t.dlQueue := by
  cases ret <;> rfl

theorem skipItem_dlQueue (curr : SQueueItem) (o : TransferOutcome) :
    (t.skipItem curr o).dlQueue = t.dlQueue := by
  unfold skipItem
  dsimp only
  split
  · exact useOldFile_dlQueue curr o
  · split <;> rfl

end Queue

end ServerDownloadThread

end UrBackup
