import UrBackup.Backup.FileNames
import UrBackup.Hash.Adler32
import UrBackup.Lib.ByteOrder

/-! The stream with the metadata of files that a client sends, filled into buffers of any size.
What the operating system answers about a file is a parameter. -/
namespace UrBackup
namespace Metadata

open ByteOrder FileNames

scoped instance lawfulBytes : LawfulBEq (List UInt8) := inferInstance

section Data

def varintGroups : (groups : Nat) → Nat → List UInt8
  | 0, _ => []
  | groups + 1, v => varintGroups groups (v / 128) ++ [UInt8.ofNat (v % 128 + 128)]

def highGroups : (left : Nat) → Nat → List UInt8
  | 0, _ => []
  | left + 1, v => if v = 0 then [] else highGroups left (v / 128) ++ [UInt8.ofNat (v % 128 + 128)]

/-- `sqlite3PutVarint`: a ninth byte has all of its eight bits. -/
def putVarint (v : Nat) : List UInt8 :=
  if 2 ^ 56 ≤ v then varintGroups 8 (v / 256) ++ [UInt8.ofNat (v % 256)]
  else highGroups 8 (v / 128) ++ [UInt8.ofNat (v % 128)]

def addVarInt (x : Int) : List UInt8 := putVarint (x % 2 ^ 64).toNat

def addUInt (x : Nat) : List UInt8 := littleEndian 4 x

def addString (str : List UInt8) : List UInt8 := addUInt str.length ++ str

end Data

structure StatBuf where
  dev : Int
  mode : Nat
  uid : Int
  gid : Int
  rdev : Int
  atime : Int
  atimeNsec : Nat
  mtime : Int
  mtimeNsec : Nat
  ctime : Int
  ctimeNsec : Nat
  deriving DecidableEq, Repr

def StatBuf.isLnk (buf : StatBuf) : Bool := buf.mode &&& 0o170000 == 0o120000

def serializeStatBuf (buf : StatBuf) (symlinkTarget : List UInt8) : List UInt8 :=
  1 :: (addVarInt buf.dev ++ addVarInt buf.mode ++ addVarInt buf.uid ++ addVarInt buf.gid ++
    addVarInt buf.rdev ++ addVarInt buf.atime ++ addUInt buf.atimeNsec ++ addVarInt buf.mtime ++
    addUInt buf.mtimeNsec ++ addVarInt buf.ctime ++ addUInt buf.ctimeNsec ++ addVarInt 0 ++
    addString symlinkTarget)

/-- What `llistxattr` gives: names that end with a zero byte each. -/
inductive ListXattr where
  | notSupported
  | fails
  | names (buf : List UInt8)
  deriving DecidableEq, Repr

/-- The type of a file as the stream has it. -/
inductive FileKind where
  | directorySymlink
  | directory
  | file
  deriving DecidableEq, Repr

def FileKind.char : FileKind → UInt8
  | directorySymlink => 108
  | directory => 100
  | file => 102

/-- What the client finds out about files. -/
structure World where
  fileType : List UInt8 → Option FileKind
  lastModified : List UInt8 → Int
  accessed : List UInt8 → Int
  fileTokens : List UInt8 → List UInt8
  lstat : List UInt8 → Option StatBuf
  symlinkTarget : List UInt8 → Option (List UInt8)
  listXattr : List UInt8 → ListXattr
  getXattr : List UInt8 → (key : List UInt8) → Option (List UInt8)
  sha512 : List UInt8 → List UInt8

/-- The metadata that a callback has: what its file has from the place of the metadata on, and
how much of it is metadata. -/
structure CallbackMetadata where
  origPath : List UInt8
  content : List UInt8
  size : Nat
  version : UInt8
  seeks : Bool

inductive Message where
  | sendFile (publicFn localFn : List UInt8) (folderItems metadataId : Int)
      (callback : Option (List UInt8 → Option CallbackMetadata))
  | sendRaw (publicFn rawMetadata : List UInt8)
  | sendRawFiledata (publicFn transmitFile : List UInt8)

inductive MetadataState where
  | wait
  | fnSize
  | fn
  | fnChecksum
  | common
  | os
  | osChecksum
  | file
  | fileChecksum
  | raw
  | rawFileFnSize
  | rawFileFn
  | rawFileFnChecksum
  | rawFileDataSize
  | rawFileData
  | rawFileDataChecksum
  deriving DecidableEq, Repr

inductive BackupState where
  | statInit
  | stat
  | eAttrInit
  | eAttr
  | eAttrValsKey
  | eAttrValsVal
  deriving DecidableEq, Repr

def idMetadataNop : UInt8 := 0
def idMetadataV1 : UInt8 := 4 ||| 8
def idRawFile : UInt8 := 16

/-- The buffer has a size of 4096 bytes, `metadataBuffer` is what is in use of it. `metadataFile`
is what the metadata file has from its position on. `transmitted` is what the checksum of a
transmitted file was updated with. -/
structure FileMetadataPipe where
  queue : List Message
  metadataState : MetadataState
  fnOff : Nat
  publicFn : List UInt8
  localFn : List UInt8
  lastPublicFns : List (List UInt8)
  folderItems : Int
  metadataId : Int
  callback : Bool
  metadataFile : List UInt8
  metadataFileSeeks : Bool
  metadataFileSize : Nat
  metadataFileOff : Nat
  metadataBuffer : List UInt8
  metadataBufferOff : Nat
  rawMetadata : List UInt8
  currChecksum : UInt32
  transmitFile : List UInt8
  transmitted : List UInt8
  backupState : BackupState
  eattrIdx : Nat
  eattrKeys : List (List UInt8)
  eattrKeyOff : Nat
  eattrVal : List UInt8
  eattrValOff : Nat

/-- What a call returns, and whether the stream goes on. -/
structure Call where
  out : List UInt8
  more : Bool
  pipe : FileMetadataPipe

def metadataBufferSize : Nat := 4096

def emit (part : List UInt8) (off bufAvail : Nat) : List UInt8 := (part.drop off).take bufAvail

namespace FileMetadataPipe

section Os

variable (w : World)

def statRecord (localFn : List UInt8) : Option (List UInt8) :=
  match w.lstat localFn with
  | none => none
  | some statbuf =>
    match (if statbuf.isLnk then w.symlinkTarget localFn else some []) with
    | none => none
    | some symlinkTarget =>
      let data := serializeStatBuf statbuf symlinkTarget
      if metadataBufferSize < data.length + 4 then none else some data

def getXattrKeys (localFn : List UInt8) : Option (List (List UInt8)) :=
  match w.listXattr localFn with
  | .notSupported => some []
  | .fails => none
  | .names buf =>
    some (((tokenize buf [0]).filter fun key => !key.isEmpty && key.length < 2 ^ 32 - 1).map
      addString)

def getXattr (localFn key : List UInt8) : List UInt8 :=
  match w.getXattr localFn (key.drop 4) with
  | none => littleEndian 4 (2 ^ 32 - 1)
  | some value => addString value

def sendStat (s : FileMetadataPipe) (bufAvail : Nat) : Call :=
  let out := emit s.metadataBuffer s.metadataBufferOff bufAvail
  let s := { s with metadataBufferOff := s.metadataBufferOff + out.length }
  if s.metadataBuffer.length - s.metadataBufferOff = 0 then
    ⟨out, true, { s with backupState := .eAttrInit }⟩
  else ⟨out, true, s⟩

def sendEAttr (s : FileMetadataPipe) (bufAvail : Nat) : Call :=
  let out := emit s.metadataBuffer s.metadataBufferOff bufAvail
  let s := { s with metadataBufferOff := s.metadataBufferOff + out.length }
  if s.metadataBuffer.length - s.metadataBufferOff = 0 then
    if s.eattrKeys ≠ [] then
      ⟨out, true, { s with eattrIdx := 0, backupState := .eAttrValsKey, eattrKeyOff := 0 }⟩
    else ⟨out, false, s⟩
  else ⟨out, true, s⟩

def sendKey (s : FileMetadataPipe) (bufAvail : Nat) : Call :=
  let key := s.eattrKeys.getD s.eattrIdx []
  let out := emit key s.eattrKeyOff bufAvail
  let s := { s with eattrKeyOff := s.eattrKeyOff + out.length }
  if key.length - s.eattrKeyOff = 0 then
    ⟨out, true, { s with
      eattrVal := getXattr w s.localFn key
      backupState := .eAttrValsVal
      eattrValOff := 0 }⟩
  else ⟨out, true, s⟩

def sendVal (s : FileMetadataPipe) (bufAvail : Nat) : Call :=
  let out := emit s.eattrVal s.eattrValOff bufAvail
  let s := { s with eattrValOff := s.eattrValOff + out.length }
  if s.eattrVal.length - s.eattrValOff = 0 then
    if s.eattrIdx + 1 < s.eattrKeys.length then
      ⟨out, true, { s with
        eattrIdx := s.eattrIdx + 1, backupState := .eAttrValsKey, eattrKeyOff := 0 }⟩
    else ⟨out, false, s⟩
  else ⟨out, true, s⟩

/-- The part of the metadata that only this operating system has. The result tells whether there
is more of it. -/
def transmitCurrMetadata (s : FileMetadataPipe) (bufAvail : Nat) : Call :=
  match s.backupState with
  | .statInit =>
    match statRecord w s.localFn with
    | none => ⟨[], false, s⟩
    | some data =>
      { s with
        metadataBuffer := addString data
        metadataBufferOff := 0
        backupState := .stat }.sendStat bufAvail
  | .stat => s.sendStat bufAvail
  | .eAttrInit =>
    match getXattrKeys w s.localFn with
    | none => ⟨[], false, { s with eattrKeys := [] }⟩
    | some keys =>
      { s with
        eattrKeys := keys
        metadataBuffer := littleEndian 8 keys.length
        metadataBufferOff := 0
        backupState := .eAttr }.sendEAttr bufAvail
  | .eAttr => s.sendEAttr bufAvail
  | .eAttrValsKey => s.sendKey w bufAvail
  | .eAttrValsVal => s.sendVal bufAvail

end Os

section Parts

def sendFnSize (s : FileMetadataPipe) (bufAvail : Nat) (next : MetadataState) : Call :=
  let out := emit (littleEndian 4 s.publicFn.length) s.fnOff bufAvail
  let s := { s with
    currChecksum := urbAdler32 s.currChecksum (some out)
    fnOff := s.fnOff + out.length }
  ⟨out, true, if s.fnOff = 4 then { s with fnOff := 0, metadataState := next } else s⟩

def sendFn (s : FileMetadataPipe) (bufAvail : Nat) (next : MetadataState) : Call :=
  let out := emit s.publicFn s.fnOff bufAvail
  let s := { s with
    currChecksum := urbAdler32 s.currChecksum (some out)
    fnOff := s.fnOff + out.length }
  ⟨out, true, if s.fnOff = s.publicFn.length then { s with fnOff := 0, metadataState := next } else s⟩

def sendChecksum (s : FileMetadataPipe) (bufAvail : Nat) (done : FileMetadataPipe → Bool × FileMetadataPipe) :
    Call :=
  let out := emit (littleEndian 4 s.currChecksum.toNat) s.fnOff bufAvail
  let s := { s with fnOff := s.fnOff + out.length }
  if s.fnOff = 4 then
    let d := done s
    ⟨if d.1 then out else [], d.1, d.2⟩
  else ⟨out, true, s⟩

def sendBuffer (s : FileMetadataPipe) (bufAvail : Nat) (done : FileMetadataPipe → FileMetadataPipe) :
    Call :=
  let out := emit s.metadataBuffer s.metadataBufferOff bufAvail
  let s := { s with metadataBufferOff := s.metadataBufferOff + out.length }
  ⟨out, true, if s.metadataBuffer.length - s.metadataBufferOff = 0 then done s else s⟩

end Parts

section States

variable (w : World)

/-- Behind the name of a file comes its metadata, or the metadata file of a callback. -/
def fnDone (s : FileMetadataPipe) : Bool × FileMetadataPipe :=
  let s := { s with
    metadataBuffer := []
    metadataBufferOff := 0
    currChecksum := urbAdler32 0 none }
  if s.callback = false then (true, { s with metadataState := .common })
  else if s.metadataFileSeeks then (true, { s with metadataState := .file })
  else (false, { s with metadataState := .wait })

def commonRecord (localFn : List UInt8) (folderItems metadataId : Int) : List UInt8 :=
  1 :: (addVarInt 0 ++ addVarInt (w.lastModified localFn) ++ addVarInt (w.accessed localFn) ++
    addVarInt folderItems ++ addVarInt metadataId ++ addString (w.fileTokens localFn))

def sendCommon (s : FileMetadataPipe) (bufAvail : Nat) : Call :=
  let send (s : FileMetadataPipe) := s.sendBuffer bufAvail fun s => { s with
    metadataBuffer := []
    metadataBufferOff := 0
    currChecksum := urbAdler32 0 none
    metadataState := .os }
  if s.metadataBuffer.length = 0 then
    let data := commonRecord w s.localFn s.folderItems s.metadataId
    if data.length + 2 * 4 < metadataBufferSize then
      let currChecksum := urbAdler32 s.currChecksum (some (addString data))
      send { s with
        currChecksum
        metadataBuffer := addString data ++ littleEndian 4 currChecksum.toNat }
    else ⟨[], false, s⟩
  else send s

def sendOs (s : FileMetadataPipe) (bufAvail : Nat) : Call :=
  let c := s.transmitCurrMetadata w bufAvail
  let s := if 0 < c.out.length then
    { c.pipe with currChecksum := urbAdler32 c.pipe.currChecksum (some c.out) } else c.pipe
  ⟨c.out, true, if c.more then s else
    { s with fnOff := 0, metadataState := .osChecksum, backupState := .statInit }⟩

def readMetadata (s : FileMetadataPipe) (n : Nat) : List UInt8 :=
  s.metadataFile.take n ++ List.replicate (n - s.metadataFile.length) 0

def sendFile (s : FileMetadataPipe) (bufAvail : Nat) : Call :=
  let readBytes := min bufAvail s.metadataFileSize
  if readBytes = 0 then ⟨[], true, { s with metadataState := .fileChecksum }⟩
  else
    let out := s.readMetadata readBytes
    let s := { s with
      metadataFile := s.metadataFile.drop readBytes
      currChecksum := urbAdler32 s.currChecksum (some out)
      metadataFileSize := s.metadataFileSize - readBytes }
    ⟨out, true, if readBytes < bufAvail then { s with fnOff := 0, metadataState := .file } else s⟩

def sendRawMetadata (s : FileMetadataPipe) (bufAvail : Nat) : Call :=
  let out := emit s.rawMetadata s.metadataBufferOff bufAvail
  let s := { s with metadataBufferOff := s.metadataBufferOff + out.length }
  ⟨out, true, if s.rawMetadata.length - s.metadataBufferOff = 0 then
    { s with metadataState := .wait } else s⟩

def rawFnDone (s : FileMetadataPipe) : Bool × FileMetadataPipe :=
  (true, { s with
    metadataFileSize := s.transmitFile.length
    metadataFileOff := 0
    metadataBuffer := littleEndian 8 s.transmitFile.length
    metadataBufferOff := 0
    metadataState := .rawFileDataSize })

def sendRawFileData (s : FileMetadataPipe) (bufAvail : Nat) : Call :=
  let maxRead := min (s.metadataFileSize - s.metadataFileOff) (min 32768 bufAvail)
  let out := emit s.transmitFile s.metadataFileOff maxRead
  let s := { s with
    transmitted := s.transmitted ++ out
    metadataFileOff := s.metadataFileOff + out.length }
  ⟨out, true, if s.metadataFileOff = s.metadataFileSize then
    { s with
      metadataState := .rawFileDataChecksum
      metadataBuffer := w.sha512 s.transmitted
      metadataBufferOff := 0 } else s⟩

def nop (s : FileMetadataPipe) : Call := ⟨[idMetadataNop], true, s⟩

/-- The names that were sent last; a name that is among them is not sent again. -/
def pushPublicFn (publicFn : List UInt8) (lastPublicFns : List (List UInt8)) :
    List (List UInt8) :=
  let fns := lastPublicFns ++ [publicFn]
  if 10 < fns.length then fns.drop 1 else fns

def startFile (s : FileMetadataPipe) (publicFn localFn : List UInt8) (folderItems metadataId : Int)
    (callback : Option (List UInt8 → Option CallbackMetadata)) : Call :=
  let s := { s with publicFn, localFn, folderItems, metadataId }
  if publicFn ∈ s.lastPublicFns then s.nop
  else
    let s := { s with lastPublicFns := pushPublicFn publicFn s.lastPublicFns }
    match w.fileType localFn with
    | none => s.nop
    | some kind =>
      let s := { s with
        callback := callback.isSome
        publicFn := kind.char :: publicFn
        metadataState := .fnSize
        fnOff := 0
        currChecksum := urbAdler32 0 none }
      match callback with
      | none => ⟨[idMetadataV1], true, s⟩
      | some getMetadata =>
        match getMetadata s.publicFn with
        | none => { s with metadataState := .wait }.nop
        | some m =>
          ⟨[if m.version ≠ 0 then m.version else idMetadataV1], true, { s with
            publicFn := kind.char :: m.origPath
            metadataFile := m.content
            metadataFileSeeks := m.seeks
            metadataFileSize := m.size }⟩

def takeMessage (s : FileMetadataPipe) (bufAvail : Nat) : Message → Call
  | .sendFile publicFn localFn folderItems metadataId callback =>
    s.startFile w publicFn localFn folderItems metadataId callback
  | .sendRaw publicFn rawMetadata =>
    { s with
      publicFn, rawMetadata
      metadataState := .raw
      metadataBufferOff := 0 }.sendRawMetadata bufAvail
  | .sendRawFiledata publicFn transmitFile =>
    ⟨[idRawFile], true, { s with
      publicFn, transmitFile
      metadataState := .rawFileFnSize
      fnOff := 0
      currChecksum := urbAdler32 0 none }⟩

def toWait (s : FileMetadataPipe) : Bool × FileMetadataPipe := (true, { s with metadataState := .wait })

def readStdoutIntoBuffer (s : FileMetadataPipe) (bufAvail : Nat) : Option Call :=
  match s.metadataState with
  | .fnSize => some (s.sendFnSize bufAvail .fn)
  | .fn => some (s.sendFn bufAvail .fnChecksum)
  | .fnChecksum => some (s.sendChecksum bufAvail fnDone)
  | .common => some (s.sendCommon w bufAvail)
  | .os => some (s.sendOs w bufAvail)
  | .osChecksum => some (s.sendChecksum bufAvail toWait)
  | .file => some (s.sendFile bufAvail)
  | .fileChecksum => some (s.sendChecksum bufAvail toWait)
  | .raw => some (s.sendRawMetadata bufAvail)
  | .rawFileFnSize => some (s.sendFnSize bufAvail .rawFileFn)
  | .rawFileFn => some (s.sendFn bufAvail .rawFileFnChecksum)
  | .rawFileFnChecksum => some (s.sendChecksum bufAvail rawFnDone)
  | .rawFileDataSize => some (s.sendBuffer bufAvail fun s => { s with
      metadataBuffer := []
      metadataBufferOff := 0
      currChecksum := urbAdler32 0 none
      metadataState := .rawFileData
      transmitted := [] })
  | .rawFileData => some (s.sendRawFileData w bufAvail)
  | .rawFileDataChecksum => some (s.sendBuffer bufAvail fun s => { s with metadataState := .wait })
  | .wait =>
    match s.queue with
    | [] => none
    | msg :: queue => some ({ s with queue }.takeMessage w bufAvail msg)

end States

def start (queue : List Message) : FileMetadataPipe where
  queue := queue
  metadataState := .wait
  fnOff := 0
  publicFn := []
  localFn := []
  lastPublicFns := []
  folderItems := 0
  metadataId := 0
  callback := false
  metadataFile := []
  metadataFileSeeks := true
  metadataFileSize := 0
  metadataFileOff := 0
  metadataBuffer := []
  metadataBufferOff := 0
  rawMetadata := []
  currChecksum := 0
  transmitFile := []
  transmitted := []
  backupState := .statInit
  eattrIdx := 0
  eattrKeys := []
  eattrKeyOff := 0
  eattrVal := []
  eattrValOff := 0

end FileMetadataPipe

end Metadata
end UrBackup
