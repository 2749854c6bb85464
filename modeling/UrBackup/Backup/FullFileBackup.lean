import UrBackup.Backup.FileNames
import UrBackup.Lib.Run

/-! The entries of a file list as a full file backup takes them into a new backup directory on a
Unix server: what is created, and where it ends up behind the links that are already there. -/
namespace UrBackup

open FileList (dotDot)
open FileNames

/-- An entry of the list, with the parameters that the loop looks at. -/
structure ListEntry where
  name : List UInt8
  isdir : Bool
  hasOrigPath : Bool
  origSep : Option (List UInt8)
  symTarget : Option (List UInt8)
  special : Bool

/-- Which calls for an entry the disk lets through. -/
structure Disk where
  create : Bool
  createHashes : Bool
  openMetadata : Bool
  writeMetadata : Bool

/-- A file that was handed to the download thread. -/
structure QueuedFile where
  osPath : List UInt8
  shortFn : List UInt8
  isScript : Bool
  metadataOnly : Bool
  writeMetadata : Bool
  deriving DecidableEq

/-- What the threads behind the queue, or `link_file`, write for a file. -/
inductive StoreOp where
  | openContent
  | replaceContent
  | metadata
  | scriptMetadata

/-- The loop over the entries, with the file system that it works on. `backuppath` is where the
path of that name leads, and `created` is where everything created so far has ended up. -/
structure FullFileBackup where
  backuppath : List (List UInt8)
  tree : LinkTree.Tree (List UInt8)
  created : List (List (List UInt8))
  currPath : List UInt8
  currOsPath : List UInt8
  origSep : List UInt8
  depth : Int
  scriptDir : Bool
  downloads : List QueuedFile
  running : Bool

namespace FullFileBackup

/-- `/.hashes` -/
def hashesPath : List UInt8 := [47, 46, 104, 97, 115, 104, 101, 115]

/-- `idrivebmr_backup_scripts` -/
def backupScripts : List UInt8 :=
  [105, 100, 114, 105, 118, 101, 98, 109, 114, 95, 98, 97, 99, 107, 117, 112, 95, 115, 99, 114, 105,
    112, 116, 115]

/-- `MAXSYMLINKS` of Linux. -/
def maxSymlinks : Nat := 40

/-- `PATH_MAX` of Linux. -/
def pathMax : Nat := 4096

def start (backuppath : List (List UInt8)) (tree : LinkTree.Tree (List UInt8)) : FullFileBackup where
  backuppath := backuppath
  tree := tree
  created := []
  currPath := []
  currOsPath := []
  origSep := []
  depth := 0
  scriptDir := false
  downloads := []
  running := true

def stop (b : FullFileBackup) : FullFileBackup := { b with running := false }

section Calls

def wrote (b : FullFileBackup)
    (r : Option (List (List UInt8) × LinkTree.Tree (List UInt8))) : Option FullFileBackup :=
  r.map fun (place, tree) => { b with tree := tree, created := place :: b.created }

/-- Paths are those below `backuppath`. -/
def osCreateDir (b : FullFileBackup) (path : List UInt8) : Option FullFileBackup :=
  b.wrote (LinkTree.make b.tree maxSymlinks b.backuppath (pathSteps path) .dir)

def linkTarget (target : List UInt8) : LinkTree.Target (List UInt8) where
  absolute := (cStr target).head? = some slash
  steps := pathSteps target

def osLinkSymbolic (b : FullFileBackup) (target path : List UInt8) : Option FullFileBackup :=
  if cStr target = [] ∨ pathMax ≤ (cStr target).length then none
  else b.wrote (LinkTree.make b.tree maxSymlinks b.backuppath (pathSteps path) (.link (linkTarget target)))

/-- `openFile` with `MODE_WRITE` deletes what is there first. -/
def openWrite (b : FullFileBackup) (path : List UInt8) : Option FullFileBackup :=
  b.wrote (LinkTree.replace b.tree maxSymlinks b.backuppath (pathSteps path))

/-- `openFile` with `MODE_RW_CREATE`. -/
def openRwCreate (b : FullFileBackup) (path : List UInt8) : Option FullFileBackup :=
  b.wrote (LinkTree.openCreate b.tree maxSymlinks b.backuppath (pathSteps path))

def osDirectoryExists (b : FullFileBackup) (path : List UInt8) : Bool :=
  ((LinkTree.walk b.tree maxSymlinks b.backuppath (pathSteps path)).bind b.tree) = some .dir

end Calls

variable (generateHexMD5 : List UInt8 → HexDigest)

/-- The components of a link's target that are kept. The separator goes after each but the last one
of the target that came from the client. -/
def targetComponents : List (List UInt8) → List UInt8
  | [] => []
  | tok :: toks =>
    let component := fixFilenameForOS generateHexMD5 tok
    if component = dotDot ∨ component = dots then targetComponents toks
    else component ++ (if toks.isEmpty then [] else [slash]) ++ targetComponents toks

def symlinkTarget (depth : Nat) (target dirSep : List UInt8) (isdir : Bool) : List UInt8 :=
  let toks := tokenize target dirSep
  (List.replicate depth (dotDot ++ [slash])).flatten ++
    if toks.isEmpty then (if isdir then symlinkVoidDir else symlinkVoidFile)
    else targetComponents generateHexMD5 toks

/-- A negative depth becomes the `size_t` of a string that does not fit into memory. -/
def createSymlink (b : FullFileBackup) (name : List UInt8) (depth : Int)
    (target dirSep : List UInt8) (isdir : Bool) : Option FullFileBackup :=
  if depth < 0 then none
  else b.osLinkSymbolic (symlinkTarget generateHexMD5 depth.toNat target dirSep isdir) name

section Entries

def readOrigSep (b : FullFileBackup) (cf : ListEntry) : FullFileBackup :=
  if cf.hasOrigPath then
    let origSep := cf.origSep.getD b.origSep
    { b with origSep := if origSep = [] then [FileList.backslash] else origSep }
  else b

def entryPath (b : FullFileBackup) (cf : ListEntry) : List UInt8 :=
  b.currOsPath ++ slash :: fixFilenameForOS generateHexMD5 cf.name

def createDirOrLink (b : FullFileBackup) (cf : ListEntry) (disk : Disk) : Option FullFileBackup :=
  if disk.create then
    match cf.symTarget with
    | some target =>
      createSymlink generateHexMD5 b (entryPath generateHexMD5 b cf) b.depth target b.origSep true
    | none => b.osCreateDir (entryPath generateHexMD5 b cf)
  else none

def createHashDir (b : FullFileBackup) (cf : ListEntry) (disk : Disk) : Option FullFileBackup :=
  match cf.symTarget with
  | some _ => some b
  | none =>
    if disk.createHashes then b.osCreateDir (hashesPath ++ entryPath generateHexMD5 b cf) else none

/-- Where the metadata of a directory goes; that of a link to one goes under the client's name. -/
def dirMetadataPath (b : FullFileBackup) (cf : ListEntry) : List UInt8 :=
  match cf.symTarget with
  | some _ => hashesPath ++ (b.currOsPath ++ slash :: escapeMetadataFn cf.name)
  | none => hashesPath ++ (entryPath generateHexMD5 b cf ++ slash :: metadataDirFn)

def openDirMetadata (b : FullFileBackup) (cf : ListEntry) (disk : Disk) : Option FullFileBackup :=
  if disk.openMetadata then b.openRwCreate (dirMetadataPath generateHexMD5 b cf) else none

def enterDir (b : FullFileBackup) (cf : ListEntry) : FullFileBackup :=
  { b with
    currPath := b.currPath ++ slash :: cf.name
    currOsPath := entryPath generateHexMD5 b cf
    depth := b.depth + 1
    scriptDir := b.scriptDir ∨ (b.depth = 0 ∧ (b.currPath ++ slash :: cf.name).tail = backupScripts) }

def dirEntry (b : FullFileBackup) (cf : ListEntry) (disk : Disk) : FullFileBackup :=
  match createDirOrLink generateHexMD5 b cf disk with
  | none => b.stop
  | some b₁ =>
    match createHashDir generateHexMD5 b₁ cf disk with
    | none => b₁.stop
    | some b₂ =>
      match openDirMetadata generateHexMD5 b₂ cf disk with
      | none => b₂.stop
      | some b₃ => if disk.writeMetadata then enterDir generateHexMD5 b₃ cf else b₃.stop

/-- The entry that closes a directory. Nothing stops a client from closing more than it opened. -/
def closeDir (b : FullFileBackup) : FullFileBackup :=
  { b with
    depth := b.depth - 1
    scriptDir := b.scriptDir && !(b.depth - 1 = 0 ∧ b.currPath.tail = backupScripts)
    currPath := extractFilePath b.currPath
    currOsPath := extractFilePath b.currOsPath }

def addToQueue (b : FullFileBackup) (cf : ListEntry) (created : Bool) : FullFileBackup :=
  let item : QueuedFile :=
    { osPath := b.currOsPath
      shortFn := fixFilenameForOS generateHexMD5 cf.name
      isScript := b.scriptDir
      metadataOnly := created
      writeMetadata := created }
  { b with downloads := b.downloads ++ [item] }

def createLinkOrSpecial (b : FullFileBackup) (cf : ListEntry) (disk : Disk) :
    Option FullFileBackup :=
  if disk.create then
    match cf.symTarget with
    | some target =>
      createSymlink generateHexMD5 b (entryPath generateHexMD5 b cf) b.depth target b.origSep false
    | none => b.openWrite (entryPath generateHexMD5 b cf)
  else none

/-- The entry of a file. What `link_file` writes for it is among what is stored for the queue. -/
def fileEntry (b : FullFileBackup) (cf : ListEntry) (disk : Disk) : FullFileBackup :=
  if cf.symTarget.isSome ∨ cf.special then
    match createLinkOrSpecial generateHexMD5 b cf disk with
    | none => b.stop
    | some b' => addToQueue generateHexMD5 b' cf true
  else addToQueue generateHexMD5 b cf false

def nextEntry (b : FullFileBackup) (cf : ListEntry) (disk : Disk) : FullFileBackup :=
  let b := b.readOrigSep cf
  if cf.isdir then
    if cf.name ≠ dotDot then dirEntry generateHexMD5 b cf disk else b.closeDir
  else fileEntry generateHexMD5 b cf disk

end Entries

section Downloads

def itemPath (item : QueuedFile) : List UInt8 := item.osPath ++ slash :: item.shortFn

def itemHashPath (item : QueuedFile) : List UInt8 :=
  hashesPath ++ (item.osPath ++ slash :: escapeMetadataFn item.shortFn)

def scriptHashDir (b : FullFileBackup) (item : QueuedFile) : Option FullFileBackup :=
  if b.osDirectoryExists (itemHashPath item) then some b else b.osCreateDir (itemHashPath item)

def StoreOp.allowed (item : QueuedFile) : StoreOp → Bool
  | .openContent | .replaceContent => !item.metadataOnly
  | .metadata => !item.metadataOnly || item.writeMetadata
  | .scriptMetadata => item.isScript && !item.metadataOnly

def store (b : FullFileBackup) (item : QueuedFile) : StoreOp → Option FullFileBackup
  | .openContent => b.openRwCreate (itemPath item)
  | .replaceContent => b.openWrite (itemPath item)
  | .metadata => b.openRwCreate (itemHashPath item)
  | .scriptMetadata => (b.scriptHashDir item).bind fun b =>
    b.openRwCreate (itemHashPath item ++ slash :: metadataDirFn)

end Downloads

inductive Event where
  | entry (cf : ListEntry) (disk : Disk)
  | stop
  | store (item : QueuedFile) (op : StoreOp)

def step (b : FullFileBackup) : Event → Option FullFileBackup
  | .entry cf disk => if b.running then some (nextEntry generateHexMD5 b cf disk) else none
  | .stop => some b.stop
  | .store item op =>
    if item ∈ b.downloads ∧ StoreOp.allowed item op then some ((b.store item op).getD b) else none

end FullFileBackup

end UrBackup
