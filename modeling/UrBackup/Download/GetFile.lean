import UrBackup.Download.DownloadThread
import UrBackup.Download.SparseFile
import UrBackup.Lib.ByteOrder

/-! How `GetFile` takes the reply to its request from the buffer. The connection and the requests
come later: here a round of its loop has read what it has read. -/
namespace UrBackup

open ByteOrder

def idCouldntOpen : UInt8 := 0
def idFilesize : UInt8 := 1
def idBaseDirLost : UInt8 := 2
def idFilesizeAndExtents : UInt8 := 19
def idReadError : UInt8 := 20
def idPong : UInt8 := 0

/-- The hashes between the data of a transfer. -/
structure SegmentHash where
  md5 : List UInt8 → Vector UInt8 16
  checkpointDist : Nat
  pos : 0 < checkpointDist

/-- `c_checkpoint_dist` -/
def SegmentHash.ofMd5 (md5 : List UInt8 → Vector UInt8 16) : SegmentHash :=
  ⟨md5, 512 * 1024, by decide⟩

inductive EReceiveState where
  | data
  | hash
  | sparseExtends
  deriving DecidableEq

/-- The locals of `GetFile`. What `hash_func` was given since it was started, and the bytes of the
temporary file with the holes, are kept as such. -/
structure GetFile where
  filesize : Nat
  received : Nat
  nextCheckpoint : Nat
  lastCheckpoint : Nat
  numSparseExtends : Nat
  firstpacket : Bool
  state : EReceiveState
  /-- The part of the hash that has come. -/
  hashBuf : List UInt8
  hashR : Nat
  hashed : List UInt8
  sparseExtends : List UInt8
  file : DownloadFile

/-- What a round of the loop comes to: the function returns and leaves some bytes in the buffer,
it gives the connection up, or it goes on and has not used some bytes yet. -/
inductive Round where
  | returned (rc : ErrorCode) (g : GetFile) (left : List UInt8)
  | reconnected (rc : ErrorCode) (g : GetFile)
  | more (g : GetFile) (kept : List UInt8)

namespace GetFile

def start (c : SegmentHash) (backing : BackingFile) : GetFile where
  filesize := 0
  received := 0
  nextCheckpoint := c.checkpointDist
  lastCheckpoint := 0
  numSparseExtends := 0
  firstpacket := true
  state := .data
  hashBuf := []
  hashR := 0
  hashed := []
  sparseExtends := []
  file := .ofBacking backing

def headerSize (pid : UInt8) : Option Nat :=
  if pid = idFilesize then some 9 else if pid = idFilesizeAndExtents then some 17 else none

def incompleteHeader : List UInt8 → Bool
  | [] => false
  | pid :: rest => (headerSize pid).any fun reqSize => decide (rest.length + 1 < reqSize)

def readExtents (bytes : List UInt8) : List SSparseExtent :=
  (List.range (ofLittleEndian (bytes.take 8))).map fun i =>
    ⟨ofLittleEndian ((bytes.drop (8 + 16 * i)).take 8),
      ofLittleEndian ((bytes.drop (16 + 16 * i)).take 8)⟩

section Rounds

variable (c : SegmentHash) (metadataOnly hashedTransfer : Bool)

def takeFilesize (g : GetFile) (filesize numSparseExtends : Nat) (rest : List UInt8) :
    Except Round (GetFile × List UInt8) :=
  let g := { g with filesize := filesize, numSparseExtends := numSparseExtends }
  if (filesize = 0 && numSparseExtends = 0) || metadataOnly then
    .error (.returned .success g rest)
  else if filesize < 2 ^ 63 && filesize = g.received && numSparseExtends = 0 then
    .error (.returned .success g rest)
  else
    -- a negative size stands for one that is not known
    let filesize := if 2 ^ 63 ≤ filesize then 2 ^ 63 - 1 else filesize
    let nextCheckpoint := if hashedTransfer then min g.nextCheckpoint filesize else filesize
    let g := { g with filesize := filesize, nextCheckpoint := nextCheckpoint }
    if 0 < numSparseExtends && numSparseExtends < 2 ^ 63 then
      .ok ({ g with
        state := .sparseExtends
        hashed := []
        sparseExtends := littleEndian 8 numSparseExtends
        hashR := (2 * numSparseExtends * 8 + 16) % 2 ^ 32 }, rest)
    else .ok (g, rest)

def takeHeader (g : GetFile) (buf : List UInt8) : Except Round (GetFile × List UInt8) :=
  if g.firstpacket then
    match buf with
    | [] => .ok (g, [])
    | pid :: rest =>
      if pid = idCouldntOpen then .error (.returned .cannotOpenFile g rest)
      else if pid = idBaseDirLost then .error (.returned .baseDirLost g rest)
      else if pid = idReadError then .error (.returned .readError g rest)
      else
        match headerSize pid with
        | none => .error (.returned .error g rest)
        | some reqSize =>
          if buf.length < reqSize then .error (.more g buf)
          else
            takeFilesize metadataOnly hashedTransfer { g with firstpacket := false }
              (ofLittleEndian (rest.take 8))
              (if pid = idFilesizeAndExtents then ofLittleEndian ((rest.drop 8).take 8) else 0)
              (buf.drop reqSize)
  else .ok (g, buf)

def sparseExtendsDone (g : GetFile) (rest : List UInt8) : Except Round (GetFile × List UInt8) :=
  if (c.md5 g.hashed).toList ≠ g.sparseExtends.drop (g.sparseExtends.length - 16) then
    .error (.reconnected .hash g)
  else
    let g := { g with file := g.file.openSparse (readExtents g.sparseExtends), hashed := [] }
    if g.filesize = 0 || g.filesize = g.received then .error (.returned .success g rest)
    else .ok ({ g with state := .data }, rest)

def takeSparseExtends (g : GetFile) (buf : List UInt8) : Except Round (GetFile × List UInt8) :=
  if g.state = .sparseExtends && !buf.isEmpty then
    let tc := min buf.length g.hashR
    let g := { g with
      hashed := g.hashed ++ buf.take (g.hashR - 16)
      sparseExtends := g.sparseExtends ++ buf.take tc
      hashR := g.hashR - tc }
    if g.hashR = 0 then g.sparseExtendsDone c (buf.drop tc) else .ok (g, buf.drop tc)
  else .ok (g, buf)

def hashDone (g : GetFile) (rest : List UInt8) : Except Round (GetFile × List UInt8) :=
  if (c.md5 g.hashed).toList ≠ g.hashBuf then .error (.reconnected .hash g)
  else
    let g := { g with hashed := [], state := .data }
    if g.filesize ≤ g.received then .error (.returned .success g rest) else .ok (g, rest)

def takeHash (g : GetFile) (buf : List UInt8) : Except Round (GetFile × List UInt8) :=
  if g.state = .hash && !buf.isEmpty then
    let tc := min buf.length g.hashR
    let g := { g with hashBuf := g.hashBuf ++ buf.take tc, hashR := g.hashR - tc }
    if g.hashR = 0 then g.hashDone c (buf.drop tc) else .ok (g, buf.drop tc)
  else .ok (g, buf)

def writeData (g : GetFile) (data : List UInt8) : GetFile :=
  { g with
    file := g.file.write data
    hashed := g.hashed ++ data
    received := g.received + data.length }

section

variable (g : GetFile) (data : List UInt8)

@[simp] theorem writeData_received : (g.writeData data).received = g.received + data.length := rfl

@[simp] theorem writeData_hashed : (g.writeData data).hashed = g.hashed ++ data := rfl

@[simp] theorem writeData_filesize : (g.writeData data).filesize = g.filesize := rfl

@[simp] theorem writeData_nextCheckpoint :
    (g.writeData data).nextCheckpoint = g.nextCheckpoint := rfl

@[simp] theorem writeData_lastCheckpoint :
    (g.writeData data).lastCheckpoint = g.lastCheckpoint := rfl

end

def passCheckpoint (g : GetFile) : GetFile :=
  { g with
    lastCheckpoint := if g.nextCheckpoint < g.filesize then g.nextCheckpoint else g.lastCheckpoint
    nextCheckpoint := min (g.nextCheckpoint + c.checkpointDist) g.filesize }

/-- The data up to a checkpoint is there. What comes of its hash, with which the loop goes on or
not. -/
def takeCheckpoint (g : GetFile) (rest : List UInt8) : Except Round (GetFile × List UInt8) :=
  let g := g.passCheckpoint c
  if rest.length < 16 then
    .error (.more { g with state := .hash, hashBuf := rest, hashR := 16 - rest.length } [])
  else if (c.md5 g.hashed).toList ≠ rest.take 16 then .error (.reconnected .hash g)
  else
    let g := { g with hashed := [] }
    if g.received < g.filesize then
      if 16 < rest.length then .ok (g, rest.drop 16) else .error (.more g [])
    else .error (.returned .success g (rest.drop 16))

/-- The loop over the data in the buffer. A turn that is not the last one takes a hash with it. -/
def takeData : Nat → GetFile → List UInt8 → Round
  | 0, g, _ => .more g []
  | turns + 1, g, buf =>
    let tw := g.nextCheckpoint - g.received
    let g := g.writeData (buf.take tw)
    if g.received = g.nextCheckpoint ∧ hashedTransfer then
      match g.takeCheckpoint c (buf.drop tw) with
      | .error round => round
      | .ok (g, rest) => takeData turns g rest
    else if g.filesize ≤ g.received then .returned .success g (buf.drop tw)
    else .more g []

def receive (g : GetFile) (buf : List UInt8) : Round :=
  let taken := do
    let (g, buf) ← g.takeHeader metadataOnly hashedTransfer buf
    let (g, buf) ← g.takeSparseExtends c buf
    g.takeHash c buf
  match taken with
  | .error round => round
  | .ok (g, buf) =>
    if g.state = .data && !buf.isEmpty then takeData c hashedTransfer buf.length g buf
    else .more g []

end Rounds

end GetFile

end UrBackup
