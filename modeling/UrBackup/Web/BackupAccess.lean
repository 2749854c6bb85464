import UrBackup.Backup.FileNames
import UrBackup.Internet.Connector

/-! Who may read the files of a backup in the web interface, and what the web interface asks the
operating system about them. -/
namespace UrBackup

open FileNames

/-- A token of the backup and the user or group that it stands for. -/
structure SToken where
  id : Int
  token : Bytes
  deriving DecidableEq

/-- The field that permissions are read from. -/
structure FileMetadata where
  filePermissions : Bytes
  deriving DecidableEq

namespace CRData

/-- Seven bits of each byte, the highest first, and all eight of the ninth byte. -/
def varInt : (left : Nat) → (value : Nat) → Bytes → Option (Nat × Bytes)
  | _, _, [] => none
  | 0, value, b :: rest => some (value * 256 + b.toNat, rest)
  | left + 1, value, b :: rest =>
    if b.toNat < 128 then some (value * 128 + b.toNat, rest)
    else varInt left (value * 128 + (b.toNat - 128)) rest

def getVarInt (rd : Bytes) : Option (Int × Bytes) :=
  (varInt 8 0 rd).map fun (value, rest) => ((BitVec.ofNat 64 value).toInt, rest)

end CRData

namespace FileMetadata

def idGrantAccess : UInt8 := 0
def idDenyAccess : UInt8 := 1

/-- Whether access is granted, and whether it is denied. The first entry for the id or for all ids
counts. Each turn reads two bytes at least. -/
def hasPermissionIn (id : Int) : (turns : Nat) → Bytes → Bool × Bool
  | turns + 1, action :: rd =>
    match CRData.getVarInt rd with
    | none => (false, false)
    | some (pid, rd) =>
      if action = idGrantAccess ∧ (pid = 0 ∨ pid = id) then (true, false)
      else if action = idDenyAccess ∧ (pid = 0 ∨ pid = id) then (false, true)
      else hasPermissionIn id turns rd
  | _, _ => (false, false)

def hasPermission (metadata : FileMetadata) (id : Int) : Bool × Bool :=
  hasPermissionIn id metadata.filePermissions.length metadata.filePermissions

end FileMetadata

namespace BackupAccess

def checkTokens (metadata : FileMetadata) : List (SToken × Bytes) → (hasPermission : Bool) → Bool
  | [], hasPermission => hasPermission
  | (backupToken, token) :: rest, hasPermission =>
    if backupToken.token = [] then checkTokens metadata rest hasPermission
    else if backupToken.token = token then
      match metadata.hasPermission backupToken.id with
      | (true, _) => checkTokens metadata rest true
      | (false, true) => false
      | (false, false) => checkTokens metadata rest hasPermission
    else checkTokens metadata rest hasPermission

def checkFileToken (backupTokens : List SToken) (tokens : List Bytes) (metadata : FileMetadata) :
    Bool :=
  checkTokens metadata (backupTokens.flatMap fun backupToken =>
    tokens.map fun token => (backupToken, token)) false

end BackupAccess

/-- What `os_get_file_type` finds out about a path. A link has the type of what it leads to as well. -/
structure FileType where
  directory : Bool
  symlink : Bool
  deriving DecidableEq

/-- An entry of a directory. A link to a directory is one too. -/
structure DirEntry where
  name : Bytes
  isdir : Bool
  deriving DecidableEq

/-- What the operating system answers, and what the metadata of a file is read from. -/
structure ServedFiles where
  /-- Nothing, if there are errors. -/
  getFiles : Bytes → Option (List DirEntry)
  getFileType : Bytes → Option FileType
  directoryExists : Bytes → Bool
  getSymlinkTarget : Bytes → Option Bytes
  readMetadata : Bytes → Option FileMetadata
  openFile : Bytes → Bool
  names : ∀ path files, getFiles path = some files → ∀ file ∈ files,
    file.name ≠ [] ∧ nul ∉ file.name

namespace BackupAccess

/-- `.hashes` -/
def hashes : Bytes := [46, 104, 97, 115, 104, 101, 115]

/-- `user_views` -/
def userViews : Bytes := [117, 115, 101, 114, 95, 118, 105, 101, 119, 115]

/-- `.symlink_` -/
def symlinkPrefix : Bytes := [46, 115, 121, 109, 108, 105, 110, 107, 95]

def below (path name : Bytes) : Bytes := path ++ slash :: name

def stripUp : Bytes → Bytes
  | 46 :: 46 :: 47 :: rest => stripUp rest
  | target => target

end BackupAccess

end UrBackup
