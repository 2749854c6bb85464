import Mathlib.Data.List.Perm.Basic
import UrBackup.Lib.Decimal

/-! The queue of the thread that downloads the files of a backup, and the functions that the file
clients call to look ahead in it. -/
namespace UrBackup

inductive EFileClient where
  | full
  | chunked
  deriving DecidableEq

inductive EQueueAction where
  | fileclient
  | quit
  | stopShadowcopy
  | startShadowcopy
  | skip
  deriving DecidableEq

structure SPatchDownloadFiles where
  prepared : Bool
  prepareError : Bool
  origFile : Bool
  deriving DecidableEq

structure SQueueItem where
  id : Nat
  fn : List UInt8
  currPath : List UInt8
  fileclient : EFileClient
  queued : Bool
  action : EQueueAction
  patchDlFiles : SPatchDownloadFiles
  isScript : Bool
  metadataOnly : Bool
  folderItems : Nat
  scriptEnd : Bool
  scriptRandom : UInt32
  switched : Bool
  deriving DecidableEq

namespace SQueueItem

def noPatchFiles : SPatchDownloadFiles := ⟨false, false, false⟩

def ofAction (action : EQueueAction) : SQueueItem where
  id := 2 ^ 64 - 1
  fn := []
  currPath := []
  fileclient := .full
  queued := false
  action := action
  patchDlFiles := noPatchFiles
  isScript := false
  metadataOnly := false
  folderItems := 0
  scriptEnd := false
  scriptRandom := 0
  switched := false

def isFull (it : SQueueItem) : Bool := it.action = .fileclient && it.fileclient = .full

def isChunked (it : SQueueItem) : Bool := it.action = .fileclient && it.fileclient = .chunked

def isQuitOrStop (it : SQueueItem) : Bool := it.action = .quit || it.action = .stopShadowcopy

/-- The settings that are part of the paths the server requests. -/
structure DlConfig where
  incrementalNum : Nat
  serverToken : List UInt8
  withMetadata : Bool

def slash : UInt8 := 47
def pipe : UInt8 := 124

/-- `SCRIPT|` -/
def scriptPrefix : List UInt8 := [83, 67, 82, 73, 80, 84, 124]

def getDLPath (cfg : DlConfig) (todl : SQueueItem) : List UInt8 :=
  let cfn := todl.currPath ++ slash :: todl.fn
  let cfn := if cfn.head? = some slash then cfn.tail else cfn
  if todl.isScript then
    scriptPrefix ++ cfn ++ pipe :: Decimal.digits cfg.incrementalNum
      ++ pipe :: Decimal.digits todl.scriptRandom.toNat ++ pipe :: cfg.serverToken
  else if cfg.serverToken ≠ [] then cfg.serverToken ++ pipe :: cfn
  else cfn

/-- The part of an item that stays while it waits. -/
structure Role where
  id : Nat
  action : EQueueAction
  isScript : Bool
  metadataOnly : Bool
  scriptEnd : Bool
  deriving DecidableEq

def role (it : SQueueItem) : Role :=
  ⟨it.id, it.action, it.isScript, it.metadataOnly, it.scriptEnd⟩

def lasting (it : SQueueItem) : SQueueItem :=
  { it with fileclient := .full, queued := false, patchDlFiles := noPatchFiles, switched := false }

end SQueueItem

/-- Which steps of preparing a patch download succeed: there is a file in one of the last backups,
the temporary files can be made, and the old file has its hashes. -/
structure PrepareOutcome where
  fileOld : Bool
  pfd : Bool
  hashTmp : Bool
  hashfileOld : Bool
  hashfileTmp : Bool

def preparePatchDownloadFiles (o : PrepareOutcome) : SPatchDownloadFiles × Bool :=
  let failed : SPatchDownloadFiles := ⟨false, true, false⟩
  if !o.fileOld then (failed, true)
  else if !o.pfd || !o.hashTmp then (failed, false)
  else if !o.hashfileOld && !o.hashfileTmp then (failed, false)
  else (⟨true, false, true⟩, false)

namespace DlQueue

open SQueueItem

/-- The place that `insertFullQueueEarliest` finds, with the index of the item that it looks at and
the earliest place among others so far. At the end of the queue nothing comes later. -/
def earliestPlace (afterSwitched : Bool) :
    List SQueueItem → Nat → Option Nat → Bool → Option Nat
  | [], _, _, noQueued => if noQueued then some 0 else none
  | it :: rest, idx, earliest, noQueued =>
    if it.isFull then
      if !it.queued then
        if !afterSwitched || !it.switched then some (earliest.getD idx)
        else earliestPlace afterSwitched rest (idx + 1) (some (idx + 1)) noQueued
      else earliestPlace afterSwitched rest (idx + 1) none false
    else earliestPlace afterSwitched rest (idx + 1) (some (earliest.getD idx)) noQueued

def insertAt (queue : List SQueueItem) (idx : Nat) (ni : SQueueItem) : List SQueueItem :=
  queue.take idx ++ ni :: queue.drop idx

/-- Behind what was requested already, as early as possible; with the place it got. -/
def insertFullQueueEarliest (queue : List SQueueItem) (ni : SQueueItem) (afterSwitched : Bool) :
    Nat × List SQueueItem :=
  match earliestPlace afterSwitched queue 0 none true with
  | some idx => (idx, insertAt queue idx ni)
  | none => (queue.length + 1, queue ++ [ni])

def hasFullQueuedAfter (queue : List SQueueItem) : Bool :=
  queue.any fun it => it.isFull && it.queued

/-- What ends a shadow copy or the thread and stands before the given place goes behind it. -/
def postponeQuitStop : Nat → List SQueueItem → List SQueueItem
  | 0, queue => queue
  | idx + 1, queue =>
    match (queue.take (idx + 1)).findIdx? isQuitOrStop with
    | none => queue
    | some i =>
      match queue.drop i with
      | [] => queue
      | postponed :: rest =>
        postponeQuitStop idx (insertAt (queue.take i ++ rest) (idx + 1) postponed)

/-- An item whose old file is missing is downloaded as a whole. If such downloads are under way
behind it, it goes behind them. -/
def switchToFull (before : List SQueueItem) (it : SQueueItem) (rest : List SQueueItem) :
    List SQueueItem :=
  let item := { it with fileclient := .full, switched := true }
  let (idx, queue) := insertFullQueueEarliest (before ++ rest) item true
  postponeQuitStop idx queue

/-- What a look ahead comes to: a request for an item, or another go through a queue in which one
item has moved. -/
inductive LookAhead where
  | found (item : SQueueItem) (queue : List SQueueItem)
  | retry (queue : List SQueueItem)
  | nothing (queue : List SQueueItem)

def LookAhead.queue : LookAhead → List SQueueItem
  | .found _ queue | .retry queue | .nothing queue => queue

/-- One pass of `getQueuedFileFull` over the queue, behind the items already passed. -/
def fullPass (prepare : SQueueItem → PrepareOutcome) :
    Nat → List SQueueItem → List SQueueItem → LookAhead
  | _, before, [] => .nothing before
  | maxPrepare, before, it :: rest =>
    if it.isChunked && !it.queued && maxPrepare > 0 then
      if it.patchDlFiles.prepareError || it.patchDlFiles.prepared then
        fullPass prepare maxPrepare (before ++ [it]) rest
      else
        let (files, fullDl) := preparePatchDownloadFiles (prepare it)
        let it := { it with patchDlFiles := files }
        if !files.origFile && fullDl then
          if hasFullQueuedAfter (it :: rest) then .retry (switchToFull before it rest)
          else
            let it := { it with fileclient := .full, switched := true, queued := true }
            .found it (before ++ it :: rest)
        else fullPass prepare (maxPrepare - 1) (before ++ [it]) rest
    else if it.isFull && !it.queued then
      .found { it with queued := true } (before ++ { it with queued := true } :: rest)
    else fullPass prepare maxPrepare (before ++ [it]) rest

/-- The next full download, which is requested now. One patch download at most is prepared on the
way, so there is a second pass at most. -/
def getQueuedFileFull (prepare : SQueueItem → PrepareOutcome) (queue : List SQueueItem) :
    Option SQueueItem × List SQueueItem :=
  match fullPass prepare 1 [] queue with
  | .found it queue => (some it, queue)
  | .nothing queue => (none, queue)
  | .retry queue =>
    match fullPass prepare 0 [] queue with
    | .found it queue => (some it, queue)
    | .nothing queue | .retry queue => (none, queue)

/-- One pass of `getQueuedFileChunked`. -/
def chunkedPass (prepare : SQueueItem → PrepareOutcome) :
    List SQueueItem → List SQueueItem → LookAhead
  | before, [] => .nothing before
  | before, it :: rest =>
    if it.isChunked && !it.queued && !it.patchDlFiles.prepareError then
      if it.patchDlFiles.prepared then
        .found { it with queued := true } (before ++ { it with queued := true } :: rest)
      else
        let (files, fullDl) := preparePatchDownloadFiles (prepare it)
        let it := { it with patchDlFiles := files }
        if !files.origFile && fullDl then
          if hasFullQueuedAfter (it :: rest) then .retry (switchToFull before it rest)
          else
            chunkedPass prepare
              (before ++ [{ it with fileclient := .full, switched := true }]) rest
        else if files.prepared then
          .found { it with queued := true } (before ++ { it with queued := true } :: rest)
        else chunkedPass prepare (before ++ [it]) rest
    else chunkedPass prepare (before ++ [it]) rest

/-- The next patch download. Every pass but the last takes a patch download away. -/
def getQueuedFileChunked (prepare : SQueueItem → PrepareOutcome) :
    Nat → List SQueueItem → List SQueueItem
  | 0, queue => queue
  | passes + 1, queue =>
    match chunkedPass prepare [] queue with
    | .found _ queue | .nothing queue => queue
    | .retry queue => getQueuedFileChunked prepare passes queue

def resetQueueFull (queue : List SQueueItem) : List SQueueItem :=
  queue.map fun it => if it.isFull then { it with queued := false } else it

def resetQueueChunked (queue : List SQueueItem) : List SQueueItem :=
  queue.map fun it => if it.isChunked then { it with queued := false } else it

/-- The first item that was requested and meets a condition is not requested any more. -/
def unqueue (cond : SQueueItem → Bool) : List SQueueItem → List SQueueItem
  | [] => []
  | it :: rest =>
    if it.queued && cond it then { it with queued := false } :: rest else it :: unqueue cond rest

def unqueueFileFull (cfg : DlConfig) (fn : List UInt8) (finishScript : Bool)
    (queue : List SQueueItem) : List SQueueItem :=
  unqueue (fun it => it.isFull && it.scriptEnd = finishScript && it.getDLPath cfg = fn) queue

def unqueueFileChunked (cfg : DlConfig) (remotefn : List UInt8) (queue : List SQueueItem) :
    List SQueueItem :=
  unqueue (fun it => it.isChunked && it.getDLPath cfg = remotefn) queue

section Items

/-- The queues have the same items, apart from what look-ahead notes in them. -/
def SameItems (queue queue' : List SQueueItem) : Prop := (queue.map lasting).Perm (queue'.map lasting)

theorem SameItems.trans {queue queue' queue'' : List SQueueItem} (h : SameItems queue queue')
    (h' : SameItems queue' queue'') : SameItems queue queue'' := List.Perm.trans h h'

theorem sameItems_middle {before rest : List SQueueItem} {it it' : SQueueItem}
    (h : it.lasting = it'.lasting) : SameItems (before ++ it :: rest) (before ++ it' :: rest) := by
  rw [SameItems, List.map_append, List.map_append, List.map_cons, List.map_cons, h]

theorem sameItems_of_perm {queue queue' : List SQueueItem} (h : queue.Perm queue') :
    SameItems queue queue' := h.map lasting

theorem insertAt_perm (queue : List SQueueItem) (idx : Nat) (ni : SQueueItem) :
    (insertAt queue idx ni).Perm (ni :: queue) := by
  have h := @List.perm_middle _ ni (queue.take idx) (queue.drop idx)
  rwa [List.take_append_drop] at h

theorem insertFullQueueEarliest_perm (queue : List SQueueItem) (ni : SQueueItem)
    (afterSwitched : Bool) :
    (insertFullQueueEarliest queue ni afterSwitched).2.Perm (ni :: queue) := by
  unfold insertFullQueueEarliest
  split
  · exact insertAt_perm queue _ ni
  · exact List.perm_append_singleton ni queue

/-- Postponing loses nothing. Induction on the place. -/
theorem postponeQuitStop_perm (idx : Nat) (queue : List SQueueItem) :
    (postponeQuitStop idx queue).Perm queue := by
  induction idx generalizing queue with
  | zero => exact List.Perm.refl queue
  | succ idx ih =>
    unfold postponeQuitStop
    split
    · exact List.Perm.refl queue
    next i _ =>
      split
      · exact List.Perm.refl queue
      next postponed rest hdrop =>
        have hqueue : (postponed :: (queue.take i ++ rest)).Perm queue := by
          have hmiddle := @List.perm_middle _ postponed (queue.take i) rest
          rw [← hdrop, List.take_append_drop] at hmiddle
          exact hmiddle.symm
        exact (ih _).trans ((insertAt_perm _ _ _).trans hqueue)

theorem switchToFull_sameItems (before rest : List SQueueItem) {it it' : SQueueItem}
    (h : it.lasting = it'.lasting) :
    SameItems (before ++ it :: rest) (switchToFull before it' rest) := by
  have hperm : (switchToFull before it' rest).Perm
      ({ it' with fileclient := .full, switched := true } :: (before ++ rest)) :=
    (postponeQuitStop_perm _ _).trans (insertFullQueueEarliest_perm _ _ _)
  have hmiddle : SameItems (before ++ it :: rest)
      (before ++ { it' with fileclient := .full, switched := true } :: rest) := sameItems_middle h
  exact hmiddle.trans (sameItems_of_perm (hperm.trans List.perm_middle.symm).symm)

theorem fullPass_sameItems (prepare : SQueueItem → PrepareOutcome) (maxPrepare : Nat)
    (before rest : List SQueueItem) :
    SameItems (before ++ rest) (fullPass prepare maxPrepare before rest).queue := by
  induction rest generalizing maxPrepare before with
  | nil =>
    rw [List.append_nil]
    exact List.Perm.refl _
  | cons it rest ih =>
    have hpass : ∀ maxPrepare it', it.lasting = it'.lasting → SameItems (before ++ it :: rest)
        (fullPass prepare maxPrepare (before ++ [it']) rest).queue := by
      intro maxPrepare it' hlasting
      have h := ih maxPrepare (before ++ [it'])
      rw [List.append_assoc, List.singleton_append] at h
      exact (sameItems_middle hlasting).trans h
    unfold fullPass
    split
    · split
      · exact hpass _ _ rfl
      · dsimp only
        split
        · split
          · exact switchToFull_sameItems before rest rfl
          · exact sameItems_middle rfl
        · exact hpass _ _ rfl
    · split
      · exact sameItems_middle rfl
      · exact hpass _ _ rfl

theorem getQueuedFileFull_sameItems (prepare : SQueueItem → PrepareOutcome)
    (queue : List SQueueItem) : SameItems queue (getQueuedFileFull prepare queue).2 := by
  have hfirst := fullPass_sameItems prepare 1 [] queue
  unfold getQueuedFileFull
  split
  next heq =>
    rw [heq] at hfirst
    exact hfirst
  next heq =>
    rw [heq] at hfirst
    exact hfirst
  next queue' heq =>
    rw [heq] at hfirst
    have hsecond := fullPass_sameItems prepare 0 [] queue'
    split
    next heq' =>
      rw [heq'] at hsecond
      exact hfirst.trans hsecond
    all_goals
      rename_i heq'
      rw [heq'] at hsecond
      exact hfirst.trans hsecond

theorem chunkedPass_sameItems (prepare : SQueueItem → PrepareOutcome)
    (before rest : List SQueueItem) :
    SameItems (before ++ rest) (chunkedPass prepare before rest).queue := by
  induction rest generalizing before with
  | nil =>
    rw [List.append_nil]
    exact List.Perm.refl _
  | cons it rest ih =>
    have hpass : ∀ it', it.lasting = it'.lasting → SameItems (before ++ it :: rest)
        (chunkedPass prepare (before ++ [it']) rest).queue := by
      intro it' hlasting
      have h := ih (before ++ [it'])
      rw [List.append_assoc, List.singleton_append] at h
      exact (sameItems_middle hlasting).trans h
    unfold chunkedPass
    split
    · split
      · exact sameItems_middle rfl
      · dsimp only
        split
        · split
          · exact switchToFull_sameItems before rest rfl
          · exact hpass _ rfl
        · split
          · exact sameItems_middle rfl
          · exact hpass _ rfl
    · exact hpass _ rfl

theorem getQueuedFileChunked_sameItems (prepare : SQueueItem → PrepareOutcome) (passes : Nat)
    (queue : List SQueueItem) : SameItems queue (getQueuedFileChunked prepare passes queue) := by
  induction passes generalizing queue with
  | zero => exact List.Perm.refl _
  | succ passes ih =>
    have hpass := chunkedPass_sameItems prepare [] queue
    unfold getQueuedFileChunked
    split
    next heq =>
      rw [heq] at hpass
      exact hpass
    next heq =>
      rw [heq] at hpass
      exact hpass
    next heq =>
      rw [heq] at hpass
      exact hpass.trans (ih _)

theorem sameItems_map (f : SQueueItem → SQueueItem) (hf : ∀ it, (f it).lasting = it.lasting)
    (queue : List SQueueItem) : SameItems queue (queue.map f) := by
  rw [SameItems, List.map_map, funext hf (f := lasting ∘ f)]

theorem unqueue_sameItems (cond : SQueueItem → Bool) (queue : List SQueueItem) :
    SameItems queue (unqueue cond queue) := by
  induction queue with
  | nil => exact List.Perm.refl _
  | cons it rest ih =>
    unfold unqueue
    split
    · exact List.Perm.refl _
    · exact ih.cons it.lasting

/-- The queues have items of the same roles. -/
def SameRoles (queue queue' : List SQueueItem) : Prop := (queue.map role).Perm (queue'.map role)

theorem SameItems.sameRoles {queue queue' : List SQueueItem} (h : SameItems queue queue') :
    SameRoles queue queue' := by
  have hrole : (role ∘ lasting) = role := rfl
  have hroles := List.Perm.map role h
  rwa [List.map_map, List.map_map, hrole] at hroles

end Items

end DlQueue

end UrBackup
