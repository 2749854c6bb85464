import UrBackup.Lib.Loop
import UrBackup.Metadata.FileMetadataPipe
import UrBackup.Web.BackupAccess

/-! What the server does with a metadata stream that is there completely: it checks it and saves it
in the metadata files of the backup. -/
namespace UrBackup
namespace Metadata

open ByteOrder FileNames
open FileList (dotDot)

def idMetadataOsWin : UInt8 := 1
def idMetadataOsUnix : UInt8 := 4
def idMetadataVersion : UInt8 := 8

def unixMetaMagic : Nat := 0xFE4378A3467647F0

/-- The metadata in a metadata file that all operating systems have. -/
structure FileMetadata where
  filePermissions : Bytes
  lastModified : Int
  created : Int
  accessed : Int
  rsize : Int
  shahash : Bytes
  hasOrigPath : Bool
  origPath : Bytes
  exist : Bool
  deriving DecidableEq, Repr

def FileMetadata.empty : FileMetadata where
  filePermissions := []
  lastModified := 0
  created := 0
  accessed := 0
  rsize := 0
  shahash := []
  hasOrigPath := false
  origPath := []
  exist := false

/-- A metadata file: what all operating systems have and what one of them has. -/
structure MetadataFile where
  common : FileMetadata
  os : Bytes
  deriving DecidableEq, Repr

abbrev MetadataFiles := Bytes → Option MetadataFile

def MetadataFiles.set (files : MetadataFiles) (path : Bytes) (file : MetadataFile) : MetadataFiles :=
  fun path' => if path' = path then some file else files path'

/-- What the stream has about a file for all operating systems. -/
structure CommonMetadata where
  created : Int
  modified : Int
  accessed : Int
  folderItems : Int
  metadataId : Int
  permissions : Bytes
  deriving DecidableEq, Repr

/-- The backup that the metadata is for, and what the server does with parts of a stream that a
client with another operating system sends. -/
structure Backup where
  filepathCorrections : Bytes → Option Bytes
  fileType : Bytes → Option FileKind
  creates : Bytes → Bool
  applyWindowsMetadata : Bytes → Option (Bytes × Bytes)
  applyRawFile : Bytes → MetadataFiles → Option (Bytes × MetadataFiles)

def readRetry (b : Bytes) (bsize : Nat) : Option (Bytes × Bytes) :=
  if bsize ≤ b.length then some (b.take bsize, b.drop bsize) else none

section Common

def readFileName (b : Bytes) : Option (Bytes × Bytes) :=
  match readRetry b 4 with
  | none => none
  | some (currFnSize, b) =>
    if 1 < ofLittleEndian currFnSize then
      match readRetry b (ofLittleEndian currFnSize) with
      | none => none
      | some (currFn, b) =>
        let pathChecksum := urbAdler32 (urbAdler32 (urbAdler32 0 none) (some currFnSize))
          (some currFn)
        match readRetry b 4 with
        | none => none
        | some (readPathChecksum, b) =>
          if ofLittleEndian readPathChecksum = pathChecksum.toNat then some (currFn, b)
          else none
    else none

/-- The data of a common record; its version is `1`. -/
def parseCommon (commonMetadata : Bytes) : Option CommonMetadata :=
  match CRData.getChar (CRData.set commonMetadata) with
  | (none, _) => none
  | (some commonVersion, rd) =>
    if commonVersion = 1 then
      match CRData.getVarInt rd with
      | none => none
      | some (created, rd) =>
      match CRData.getVarInt rd with
      | none => none
      | some (modified, rd) =>
      match CRData.getVarInt rd with
      | none => none
      | some (accessed, rd) =>
      match CRData.getVarInt rd with
      | none => none
      | some (folderItems, rd) =>
      match CRData.getVarInt rd with
      | none => none
      | some (metadataId, rd) =>
      match CRData.getStr rd with
      | (none, _) => none
      | (some permissions, _) =>
        some { created, modified, accessed, folderItems, metadataId, permissions }
    else none

def readCommonMetadata (b : Bytes) : Option (CommonMetadata × Bytes) :=
  match readRetry b 4 with
  | none => none
  | some (commonMetadataSize, b) =>
    match readRetry b (ofLittleEndian commonMetadataSize) with
    | none => none
    | some (commonMetadata, b) =>
      let commonMetadataChecksum := urbAdler32
        (urbAdler32 (urbAdler32 0 none) (some commonMetadataSize)) (some commonMetadata)
      match readRetry b 4 with
      | none => none
      | some (readChecksum, b) =>
        if ofLittleEndian readChecksum = commonMetadataChecksum.toNat then
          (parseCommon commonMetadata).map fun common => (common, b)
        else none

end Common

section Os

/-- Copying from the stream to a metadata file: what is left of the stream, what is written, and
the checksum of it. -/
structure Copying where
  rest : Bytes
  written : Bytes
  dataChecksum : UInt32

def Copying.copy (c : Copying) (bsize : Nat) : Option (Bytes × Copying) :=
  (readRetry c.rest bsize).map fun (data, rest) => (data, {
    rest
    written := c.written ++ data
    dataChecksum := urbAdler32 c.dataChecksum (some data) })

/-- A key and its value. A value that the client could not read has a size, but no bytes. -/
def Copying.copyEAttr (c : Copying) : Option Copying :=
  match c.copy 4 with
  | none => none
  | some (keySize, c) =>
    if 1024 * 1024 < ofLittleEndian keySize then none
    else
      match c.copy (ofLittleEndian keySize) with
      | none => none
      | some (_, c) =>
        match c.copy 4 with
        | none => none
        | some (valSize, c) =>
          if ofLittleEndian valSize = 2 ^ 32 - 1 then some c
          else if 10 * 1024 * 1024 < ofLittleEndian valSize then none
          else (c.copy (ofLittleEndian valSize)).map Prod.snd

def Copying.copyEAttrs : (numEattrKeys : Nat) → Copying → Option Copying
  | 0, c => some c
  | n + 1, c =>
    match c.copyEAttr with
    | none => none
    | some c => copyEAttrs n c

def numEattrKeys (data : Bytes) : Nat := (BitVec.ofNat 64 (ofLittleEndian data)).toInt.toNat

def applyUnixMetadata (b : Bytes) : Option (Bytes × Bytes) :=
  match (⟨b, [], urbAdler32 0 none⟩ : Copying).copy 4 with
  | none => none
  | some (statDataSize, c) =>
    if ofLittleEndian statDataSize < 1 then none
    else
      match c.copy 1 with
      | none => none
      | some (version, c) =>
        if version = [1] then
          match c.copy (ofLittleEndian statDataSize - 1) with
          | none => none
          | some (_, c) =>
            match c.copy 8 with
            | none => none
            | some (eattrKeys, c) =>
              match c.copyEAttrs (numEattrKeys eattrKeys) with
              | none => none
              | some c =>
                match readRetry c.rest 4 with
                | none => none
                | some (readDataChecksum, rest) =>
                  if ofLittleEndian readDataChecksum = c.dataChecksum.toNat then
                    some (littleEndian 8 (16 + c.written.length) ++
                      littleEndian 8 unixMetaMagic ++ c.written, rest)
                  else none
        else none

end Os

section Apply

variable (backup : Backup)

/-- The paths of a metadata file and of its file, from the components of a name. -/
def osPaths (isDir : Bool) :
    List Bytes → (currPath osPathMetadata osPath : Bytes) → Bytes × Bytes
  | [], _, osPathMetadata, osPath => (osPathMetadata, osPath)
  | tok :: toks, currPath, osPathMetadata, osPath =>
    if tok = dots ∨ tok = dotDot then osPaths isDir toks currPath osPathMetadata osPath
    else
      let sep : Bytes := if osPathMetadata = [] then [] else [slash]
      let currPath := currPath ++ slash :: tok
      let component := (backup.filepathCorrections currPath).getD tok
      let own := if toks = [] then
        escapeMetadataFn component ++ (if isDir then slash :: metadataDirFn else []) else component
      osPaths isDir toks currPath (osPathMetadata ++ sep ++ own) (osPath ++ sep ++ component)

def pathsOf (currFn : Bytes) : Bytes × Bytes :=
  osPaths backup (currFn.head? = some FileKind.directory.char) (tokenize (currFn.drop 1) [slash])
    [] [] []

/-- What the metadata file has, if there is one or one can be created. Without a file there is
nothing to save; without a metadata file for one nothing goes on. -/
def openOutput (files : MetadataFiles) (paths : Bytes × Bytes) : Option (Option FileMetadata) :=
  match files paths.1 with
  | some file => some (some file.common)
  | none =>
    if backup.fileType paths.2 = none then some none
    else if backup.creates paths.1 then some (some .empty)
    else none

def FileMetadata.with (curr : FileMetadata) (common : CommonMetadata) : FileMetadata :=
  { curr with
    exist := true
    created := common.created
    lastModified := common.modified
    filePermissions := common.permissions
    accessed := common.accessed }

def save (files : MetadataFiles) (path : Bytes) (output : Option FileMetadata)
    (common : CommonMetadata) (os : Bytes) : MetadataFiles :=
  match output with
  | none => files
  | some curr => files.set path { common := curr.with common, os }

def applyOsMetadata (ch : UInt8) (b : Bytes) : Option (Bytes × Bytes) :=
  if ch &&& idMetadataOsWin ≠ 0 then backup.applyWindowsMetadata b
  else if ch &&& idMetadataOsUnix ≠ 0 then applyUnixMetadata b
  else none

/-- The metadata of a file. Behind an error in it nothing is read, and its metadata file has only
what all operating systems have. -/
def applyFile (ch : UInt8) (b : Bytes) (files : MetadataFiles) :
    Bool × MetadataFiles ⊕ Bytes × MetadataFiles :=
  match readFileName b with
  | none => .inl (false, files)
  | some (currFn, b) =>
    match readCommonMetadata b with
    | none => .inl (false, files)
    | some (common, b) =>
      let paths := pathsOf backup currFn
      match openOutput backup files paths with
      | none => .inl (false, files)
      | some output =>
        match applyOsMetadata backup ch b with
        | none => .inl (false, save files paths.1 output common [])
        | some (os, b) => .inr (b, save files paths.1 output common os)

def applyTurn : Bytes × MetadataFiles → Bool × MetadataFiles ⊕ Bytes × MetadataFiles
  | ([], files) => .inl (true, files)
  | (ch :: b, files) =>
    if ch = idMetadataNop then .inr (b, files)
    else if ch &&& idMetadataVersion ≠ 0 then applyFile backup ch b files
    else if ch = idRawFile then
      match backup.applyRawFile b files with
      | none => .inl (false, files)
      | some next => .inr next
    else .inr (b, files)

/-- `applyMetadata` on a whole stream. -/
def Applies (stream : Bytes) (files : MetadataFiles) (result : Bool × MetadataFiles) : Prop :=
  Loop.Ends (applyTurn backup) (stream, files) result

end Apply

end Metadata
end UrBackup
