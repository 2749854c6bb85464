import Mathlib
import UrBackup.Lib.Run

/-! The shares that are made for the restores of a client, under an identity for each of them, and
what becomes of them. Who acts next comes with the events, and so does what the client answers. -/
namespace UrBackup

local instance lawfulIdentity : LawfulBEq (List UInt8) := inferInstance

inductive ShareName where
  | clientdlFilelist
  | clientdl (idx : Nat)
  | idrivebmr
  deriving DecidableEq

/-- What the file server shares under the identities of restores. -/
structure FileServ where
  shares : List ((ShareName × List UInt8) × List UInt8)
  callbacks : List (ShareName × List UInt8)
  identities : List (List UInt8)

namespace FileServ

variable (fs : FileServ)

def addIdentity (identity : List UInt8) : FileServ :=
  if identity ∈ fs.identities then fs else { fs with identities := fs.identities ++ [identity] }

def removeIdentity (identity : List UInt8) : FileServ :=
  { fs with identities := fs.identities.erase identity }

def shareDir (name : ShareName) (path identity : List UInt8) : FileServ :=
  { fs with
    shares := fs.shares.filter (fun share => share.1 ≠ (name, identity)) ++
      [((name, identity), path)] }

/-- `map_file` for the name of a share. A share without an identity comes first. -/
def getShareDir (name : ShareName) (identity : List UInt8) : Option (List UInt8) :=
  ((fs.shares.lookup (name, [])).or (fs.shares.lookup (name, identity)))

def removeDir (name : ShareName) (identity : List UInt8) : Bool × FileServ :=
  (fs.shares.any fun share => share.1 = (name, identity),
    { fs with shares := fs.shares.filter fun share => share.1 ≠ (name, identity) })

def registerMetadataCallback (name : ShareName) (identity : List UInt8) : FileServ :=
  { fs with callbacks := fs.callbacks ++ [(name, identity)] }

def removeMetadataCallback (name : ShareName) (identity : List UInt8) : FileServ :=
  { fs with callbacks := fs.callbacks.filter fun callback => callback ≠ (name, identity) }

/-- The loop of `RESTORE_DONE` over the folders. Every turn but the last takes a share away, so
there are enough of them. -/
def removeFolders (identity : List UInt8) : Nat → Nat → FileServ → FileServ
  | 0, _, fs => fs
  | turns + 1, idx, fs =>
    match fs.removeDir (.clientdl idx) identity with
    | (false, fs) => fs
    | (true, fs) =>
      removeFolders identity turns (idx + 1)
        (fs.removeMetadataCallback (.clientdl idx) identity)

end FileServ

structure SShareCleanup where
  name : ShareName
  identity : List UInt8
  cleanupFile : Bool
  removeCallback : Bool
  deriving DecidableEq

/-- A restore, with its temporary list of files. -/
structure Restore where
  id : Nat
  identity : List UInt8
  filelist : List UInt8
  deriving DecidableEq

/-- What a preparing thread does, one after the other. -/
inductive PrepareStep where
  | addIdentity
  | shareDir (name : ShareName) (path : List UInt8)
  | addShareToCleanup (c : SShareCleanup)
  | registerMetadataCallback (name : ShareName)
  | sendToCommPipe
  deriving DecidableEq

/-- The thread that prepares a restore. The folders are known when the list of files is there. -/
structure ClientDownloadThread where
  restore : Restore
  folders : Option (List (List UInt8))
  done : Nat
  deriving DecidableEq

namespace ClientDownloadThread

def filelistShare (identity : List UInt8) : SShareCleanup :=
  ⟨.clientdlFilelist, identity, true, false⟩

/-- A path below `/tmp/` at which nothing is. -/
def nowhere : List UInt8 :=
  [47, 116, 109, 112, 47, 109, 107, 109, 101, 114, 103, 115, 100, 102, 107, 108, 114, 122, 114, 101,
    104, 109, 107, 108, 114, 101, 103, 109, 102, 100, 107, 103, 102, 100, 103, 119, 114, 101, 116,
    107, 108, 246, 100, 102]

def folderSteps (identity : List UInt8) (folder : List UInt8 × Nat) : List PrepareStep :=
  [.shareDir (.clientdl folder.2) folder.1,
    .addShareToCleanup ⟨.clientdl folder.2, identity, false, true⟩,
    .registerMetadataCallback (.clientdl folder.2)]

def steps (restore : Restore) (folders : List (List UInt8)) : List PrepareStep :=
  [.addIdentity, .shareDir .clientdlFilelist restore.filelist,
    .addShareToCleanup (filelistShare restore.identity)]
  ++ (folders.zipIdx.flatMap (folderSteps restore.identity) ++
    [.shareDir .idrivebmr nowhere,
      .addShareToCleanup ⟨.idrivebmr, restore.identity, false, false⟩, .sendToCommPipe])

def next (t : ClientDownloadThread) : Option PrepareStep :=
  t.folders.bind fun folders => (steps t.restore folders)[t.done]?

end ClientDownloadThread

/-- A restore that the client has accepted. -/
structure SRunningRestore where
  restoreIdentity : List UInt8
  restoreId : Nat
  lastActive : Nat
  deriving DecidableEq

/-- The restores of one client. Beside that are kept: the restores that were created, what was
shared and registered for them, and the ids of those that have finished, failed or timed out. -/
structure RestoreShares where
  fileserv : FileServ
  cleanupShares : List SShareCleanup
  restores : List Restore
  files : List (List UInt8)
  threads : List ClientDownloadThread
  commPipe : List (List UInt8 × Nat)
  runningRestores : List SRunningRestore
  now : Nat
  created : List Restore
  shared : List (ShareName × List UInt8)
  calledBack : List (ShareName × List UInt8)
  identified : List (List UInt8)
  registered : List SShareCleanup
  ended : List Nat

namespace RestoreShares

def initial : RestoreShares where
  fileserv := ⟨[], [], []⟩
  cleanupShares := []
  restores := []
  files := []
  threads := []
  commPipe := []
  runningRestores := []
  now := 0
  created := []
  shared := []
  calledBack := []
  identified := []
  registered := []
  ended := []

def identityLength : Nat := 25

def restoreTimeout : Nat := 5 * 60 * 1000

section Tokens

/-- `A` to `Z`, `a` to `z`, the digits, `+` and `/` -/
def base64Char (i : UInt8) : UInt8 :=
  if i < 26 then 65 + i
  else if i < 52 then 97 + (i - 26)
  else if i < 62 then 48 + (i - 52)
  else if i = 62 then 43 else 47

/-- `base64_encode_dash`, which fills up with dashes. -/
def base64EncodeDash : List UInt8 → List UInt8
  | [] => []
  | [a] => [base64Char (a >>> 2), base64Char ((a &&& 3) <<< 4), 45, 45]
  | [a, b] => [base64Char (a >>> 2), base64Char (((a &&& 3) <<< 4) + (b >>> 4)),
      base64Char ((b &&& 15) <<< 2), 45]
  | a :: b :: c :: rest =>
    base64Char (a >>> 2) :: base64Char (((a &&& 3) <<< 4) + (b >>> 4)) ::
      base64Char (((b &&& 15) <<< 2) + (c >>> 6)) :: base64Char (c &&& 63) ::
        base64EncodeDash rest

theorem length_base64EncodeDash (data : List UInt8) :
    data.length ≤ (base64EncodeDash data).length := by
  induction data using base64EncodeDash.induct with
  | case1 => exact Nat.le_refl _
  | case2 a => simp [base64EncodeDash]
  | case3 a b => simp [base64EncodeDash]
  | case4 a b c rest ih =>
    simp only [base64EncodeDash, List.length_cons]
    omega

end Tokens

section Steps

variable (s : RestoreShares)

def perform (restore : Restore) (delivered : Bool) : PrepareStep → RestoreShares
  | .addIdentity => { s with
      fileserv := s.fileserv.addIdentity restore.identity
      identified := s.identified ++ [restore.identity] }
  | .shareDir name path => { s with
      fileserv := s.fileserv.shareDir name path restore.identity
      shared := s.shared ++ [(name, restore.identity)] }
  | .addShareToCleanup c => { s with
      cleanupShares := s.cleanupShares ++ [c]
      registered := s.registered ++ [c] }
  | .registerMetadataCallback name => { s with
      fileserv := s.fileserv.registerMetadataCallback name restore.identity
      calledBack := s.calledBack ++ [(name, restore.identity)] }
  | .sendToCommPipe =>
    if delivered then { s with commPipe := s.commPipe ++ [(restore.identity, restore.id)] } else s

/-- `create_clientdl_thread`, with the identity and the name of the temporary file that it gets. -/
def create (identity filelist : List UInt8) : Option RestoreShares :=
  if identity.length = identityLength ∧ (∀ r ∈ s.created, r.identity ≠ identity) ∧
      filelist ∉ s.files then
    let restore : Restore := ⟨s.created.length, identity, filelist⟩
    some { s with
      restores := s.restores ++ [restore]
      files := s.files ++ [filelist]
      threads := s.threads ++ [⟨restore, none, 0⟩]
      created := s.created ++ [restore] }
  else none

def createFilelist (i : Nat) (folders : Option (List (List UInt8))) : Option RestoreShares :=
  match s.threads[i]?, folders with
  | none, _ => none
  | some t, none =>
    if t.folders.isSome then none
    else some { s with
      threads := s.threads.eraseIdx i
      ended := s.ended ++ [t.restore.id] }
  | some t, some folders =>
    if t.folders.isSome then none
    else some { s with threads := s.threads.set i { t with folders := some folders } }

def prepare (i : Nat) (delivered : Bool) : Option RestoreShares :=
  match s.threads[i]? with
  | none => none
  | some t => t.next.map fun step =>
    { s with threads := s.threads.set i { t with done := t.done + 1 } }.perform t.restore delivered
      step

def cleanupShare (c : SShareCleanup) : RestoreShares :=
  let files :=
    if c.cleanupFile then
      match s.fileserv.getShareDir c.name c.identity with
      | none => s.files
      | some cleanupfile => if cleanupfile.isEmpty then s.files else s.files.erase cleanupfile
    else s.files
  let fileserv :=
    if c.removeCallback then s.fileserv.removeMetadataCallback c.name c.identity else s.fileserv
  let fileserv := (fileserv.removeDir c.name c.identity).2
  let fileserv := if c.identity.isEmpty then fileserv else fileserv.removeIdentity c.identity
  { s with files := files, fileserv := fileserv }

/-- `cleanupRestoreShare`, and the end of `finishFailedRestore` -/
def cleanupRestoreShare (identity : List UInt8) : RestoreShares :=
  (s.cleanupShares.filter fun c => c.identity = identity).foldl cleanupShare
    { s with cleanupShares := s.cleanupShares.filter fun c => c.identity ≠ identity }

def finishFailedRestore (restoreIdentity : List UInt8) (restoreId : Nat) : RestoreShares :=
  { s.cleanupRestoreShare restoreIdentity with ended := s.ended ++ [restoreId] }

/-- The client thread handles a RESTORE message, if it comes to be sent to the client. The
encryption is that of a plugin. -/
def handleRestore (encrypt : List UInt8 → List UInt8 → List UInt8) (cryptoFak : Bool)
    (iv : List UInt8) (ok : Bool) : Option RestoreShares :=
  match s.commPipe with
  | [] => none
  | (restoreIdentity, restoreId) :: rest =>
    let restoreIdentity :=
      if cryptoFak then base64EncodeDash (encrypt iv restoreIdentity) else []
    let s := { s with commPipe := rest }
    if ok then some { s with
      runningRestores := s.runningRestores ++ [⟨restoreIdentity, restoreId, s.now⟩] }
    else some (s.finishFailedRestore restoreIdentity restoreId)

/-- `updateRestoreRunning` -/
def restorePercent (restoreId : Nat) : RestoreShares :=
  { s with runningRestores := s.runningRestores.map fun r =>
      if r.restoreId = restoreId then { r with lastActive := s.now } else r }

/-- A restore has finished. That of Windows components is not kept in the database. -/
def restoreDone (restoreId : Nat) (windowsComponents : Bool) : RestoreShares :=
  match s.restores.find? fun r => r.id = restoreId with
  | none => s
  | some restore =>
    let fileserv := s.fileserv.removeIdentity restore.identity
    let fileserv := (fileserv.removeDir .clientdlFilelist restore.identity).2
    let fileserv := fileserv.removeFolders restore.identity (fileserv.shares.length + 1) 0
    { { s with fileserv := fileserv }.cleanupRestoreShare restore.identity with
      restores :=
        if windowsComponents then s.restores.filter fun r => r.id ≠ restoreId else s.restores
      runningRestores := s.runningRestores.eraseP fun r => r.restoreId = restoreId
      ended := s.ended ++ [restoreId] }

def timedOut (r : SRunningRestore) : Bool := restoreTimeout < s.now - r.lastActive

def timeoutRestores : RestoreShares :=
  (s.runningRestores.filter fun r => s.timedOut r).foldl
    (fun s r => s.finishFailedRestore r.restoreIdentity r.restoreId)
    { s with runningRestores := s.runningRestores.filter fun r => !s.timedOut r }

end Steps

inductive Event where
  | create (identity filelist : List UInt8)
  | createFilelist (i : Nat) (folders : Option (List (List UInt8)))
  | prepare (i : Nat) (delivered : Bool)
  | handleRestore (cryptoFak : Bool) (iv : List UInt8) (ok : Bool)
  | restorePercent (restoreId : Nat)
  | restoreDone (restoreId : Nat) (windowsComponents : Bool)
  | timeoutRestores
  | tick (ms : Nat)

def step (encrypt : List UInt8 → List UInt8 → List UInt8) (s : RestoreShares) :
    Event → Option RestoreShares
  | .create identity filelist => s.create identity filelist
  | .createFilelist i folders => s.createFilelist i folders
  | .prepare i delivered => s.prepare i delivered
  | .handleRestore cryptoFak iv ok => s.handleRestore encrypt cryptoFak iv ok
  | .restorePercent restoreId => some (s.restorePercent restoreId)
  | .restoreDone restoreId windowsComponents => some (s.restoreDone restoreId windowsComponents)
  | .timeoutRestores => some s.timeoutRestores
  | .tick ms => some { s with now := s.now + ms }

end RestoreShares

end UrBackup
