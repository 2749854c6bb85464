import UrBackup.Hash.Adler32
import UrBackup.Lib.ByteOrder
import UrBackup.Lib.Loop

/-! The replies of the file server to block requests. A reply is a sequence of writes to the
connection: the header of a message, alone or with data, or further data of it. -/
namespace UrBackup
namespace SendChunk

open ByteOrder

def checkpointDist : Nat := 512 * 1024
def smallHashDist : Nat := 4096
def chunkSize : Nat := 4096
def smallHashSize : Nat := 4
def bigHashSize : Nat := 16

def errSeekingFailed : Nat := 0
def errReadingFailed : Nat := 1

/-- What one call of `Read` brings, and whether `Size()` is known behind it. -/
structure Reading where
  data : List UInt8
  hasError : Bool := false
  code : Nat := 0
  sizeKnown : Bool := true
  deriving DecidableEq, Repr

/-- A file or the output of a script. A reading may depend on the calls before it. -/
structure ServedFile where
  seeks : Int → Bool
  seekCode : Nat
  read : (call : Nat) → (spos : Int) → (bsize : Nat) → Reading
  read_length : ∀ call spos bsize, (read call spos bsize).data.length ≤ bsize

structure SChunk where
  startpos : Int
  transferAll : Bool
  bigHash : List UInt8
  smallHash : List UInt8

/-- The size of the file as it was announced, `-1` for a script. -/
structure SendThread where
  file : Option ServedFile
  currFileSize : Int
  currHashSize : Int
  md5 : List UInt8 → List UInt8

inductive Write where
  | wholeBlock (startpos : Int) (blocksize : Nat) (buf : List UInt8)
  | updateChunk (startpos : Int) (size : Nat) (buf : List UInt8)
  | data (buf : List UInt8)
  | noChange (startpos : Int)
  | blockHash (startpos : Int) (digest : List UInt8)
  | blockError (errorcode1 errorcode2 : Nat)
  deriving DecidableEq, Repr

structure Reply where
  sent : List Write
  ok : Bool
  deriving DecidableEq, Repr

def sendError (sent : List Write) (errorcode1 errorcode2 : Nat) : Reply :=
  ⟨sent ++ [.blockError errorcode1 errorcode2], true⟩

section Whole

variable (t : SendThread) (f : ServedFile) (startpos : Int)

def SendThread.blockSize : Nat :=
  if t.currFileSize ≤ startpos ∧ 0 < t.currFileSize then 0
  else if t.currFileSize - startpos < checkpointDist ∧ 0 < t.currFileSize then
    (t.currFileSize - startpos).toNat
  else checkpointDist

/-- The locals of the loops that send a whole block; `md5Hash` is what the hash was
updated with. -/
structure WholeBlock where
  calls : Nat := 0
  spos : Int
  blockleft : Nat
  toread : Nat
  r : Nat := 0
  scriptEof : Bool := false
  offSent : Bool := false
  readerr : Option Nat := none
  md5Hash : List UInt8 := []
  sent : List Write := []
  deriving DecidableEq, Repr

def SendThread.startBlock : WholeBlock where
  spos := startpos
  blockleft := t.blockSize startpos
  toread := min (t.blockSize startpos) chunkSize

def WholeBlock.reading (b : WholeBlock) : Reading := f.read b.calls b.spos (b.toread - b.r)

/-- What a reading adds to the buffer: zeros in place of what cannot be read. -/
def WholeBlock.added (b : WholeBlock) : List UInt8 :=
  if (b.reading f).hasError then
    (b.reading f).data ++ List.replicate (b.toread - b.r - (b.reading f).data.length) 0
  else (b.reading f).data

/-- One turn of the loop that reads a part of the block. The header is in front of the buffer
and is sent with the first data. -/
def WholeBlock.readOnce (b : WholeBlock) : WholeBlock :=
  let reading := b.reading f
  let added := b.added f
  let b' := { b with
    calls := b.calls + 1
    spos := b.spos + added.length
    readerr := if reading.hasError then some reading.code else b.readerr }
  if added.length = 0 ∧ reading.sizeKnown then
    -- the zeros that fill the part are not sent
    { b' with scriptEof := b.scriptEof || t.currFileSize == -1, r := b.toread }
  else if 0 < added.length then
    { b' with
      md5Hash := b.md5Hash ++ added
      sent := b.sent ++ [if b.offSent then .data added
        else .wholeBlock startpos (t.blockSize startpos) added]
      offSent := true
      r := b.r + added.length }
  else b'

def WholeBlock.turn (b : WholeBlock) : WholeBlock ⊕ WholeBlock :=
  if b.r < b.toread then .inr (b.readOnce t f startpos)
  else
    let left := if b.r ≤ b.blockleft then b.blockleft - b.r else 0
    if b.r = chunkSize ∧ 0 < left then
      .inr { b with blockleft := left, r := 0, toread := min left chunkSize }
    else .inl { b with blockleft := left }

def WholeBlock.finish (b : WholeBlock) : Reply :=
  match b.readerr with
  | some code => sendError b.sent errReadingFailed code
  | none => ⟨b.sent ++ [.blockHash startpos (t.md5 b.md5Hash)], !b.scriptEof⟩

end Whole

section Update

variable (t : SendThread) (f : ServedFile) (chunk : SChunk)

/-- The locals of the loops that compare the chunks of a block. `block` are the chunks in the
buffer and `part` is the one that is being read, of which `realR` bytes are in the file. -/
structure UpdateBlock where
  calls : Nat := 0
  spos : Int
  currPos : Int
  readTotal : Nat := 0
  nextSmallhash : Nat := smallHashDist
  smallHashNum : Nat := 0
  cAdler : UInt32 := urbAdler32 0 none
  block : List UInt8 := []
  toRead : Nat
  part : List UInt8 := []
  realR : Nat := 0
  first : Bool := true
  scriptEof : Bool := false
  sentUpdate : Bool := false
  readerr : Option Nat := none
  sent : List Write := []
  deriving DecidableEq, Repr

def SendThread.chunkToRead (currPos : Int) : Nat :=
  if t.currFileSize ≤ currPos ∧ 0 < t.currFileSize then 0
  else if t.currFileSize - currPos < chunkSize ∧ 0 < t.currFileSize then
    (t.currFileSize - currPos).toNat
  else chunkSize

def SendThread.startUpdate : UpdateBlock where
  spos := chunk.startpos
  currPos := chunk.startpos
  toRead := t.chunkToRead chunk.startpos

def UpdateBlock.reading (u : UpdateBlock) : Reading :=
  f.read u.calls u.spos (u.toRead - u.part.length)

def SChunk.adlerOther (smallHashNum : Nat) : UInt32 :=
  .ofNat (ofLittleEndian ((chunk.smallHash.drop (smallHashSize * smallHashNum)).take smallHashSize))

def UpdateBlock.sendPart (u : UpdateBlock) : UpdateBlock :=
  let cAdler := urbAdler32 u.cAdler (some u.part)
  let readTotal := u.readTotal + u.part.length
  let u := { u with cAdler, readTotal, block := u.block ++ u.part }
  if readTotal = u.nextSmallhash ∨ u.part.length ≠ chunkSize then
    let u := if cAdler ≠ chunk.adlerOther u.smallHashNum ∨
        t.currHashSize < u.currPos + u.part.length then
      { u with
        sentUpdate := true
        sent := u.sent ++ [.updateChunk u.currPos u.part.length u.part] }
      else u
    { u with
      cAdler := urbAdler32 0 none
      smallHashNum := u.smallHashNum + 1
      nextSmallhash := u.nextSmallhash + smallHashDist
      currPos := u.currPos + u.part.length }
  else { u with currPos := u.currPos + u.part.length }

def UpdateBlock.endPart (u : UpdateBlock) : UpdateBlock ⊕ UpdateBlock :=
  let u := u.sendPart t chunk
  if u.realR = chunkSize ∧ u.readTotal < checkpointDist then
    .inr { u with part := [], realR := 0, first := true, toRead := t.chunkToRead u.currPos }
  else .inl u

def UpdateBlock.turn (u : UpdateBlock) : UpdateBlock ⊕ UpdateBlock :=
  if u.first ∨ u.part.length < u.toRead then
    let reading := u.reading f
    let u' := { u with
      calls := u.calls + 1
      spos := u.spos + reading.data.length
      first := false }
    if reading.hasError then .inl { u' with readerr := some reading.code }
    else if reading.data.length = 0 ∧ reading.sizeKnown ∧ ¬ u.first then
      if t.currFileSize = -1 then ({ u' with scriptEof := true } : UpdateBlock).endPart t chunk
      else .inr { u' with part := u.part ++ List.replicate (u.toRead - u.part.length) 0 }
    else .inr { u' with
      part := u.part ++ reading.data
      realR := u.realR + reading.data.length }
  else u.endPart t chunk

/-- Whether the hashes of the block tell that it did not change, `cbtUnchanged`, comes from
another file. -/
def UpdateBlock.finish (cbtUnchanged : Bool) (u : UpdateBlock) : Reply :=
  match u.readerr with
  | some code => sendError u.sent errReadingFailed code
  | none =>
    let digest := t.md5 u.block
    let sent :=
      if !u.sentUpdate && !cbtUnchanged && digest != chunk.bigHash then
        u.sent ++ [.wholeBlock chunk.startpos u.readTotal u.block,
          .blockHash chunk.startpos digest]
      else if !u.sentUpdate then u.sent ++ [.noChange chunk.startpos]
      else u.sent ++ [.blockHash chunk.startpos digest]
    ⟨sent, !u.scriptEof⟩

end Update

/-- The reply to a block request, if there is one. -/
inductive Sends (t : SendThread) (cbtUnchanged : Bool) (chunk : SChunk) : Reply → Prop where
  | noFile (h : t.file = none) : Sends t cbtUnchanged chunk ⟨[], false⟩
  | seekingFailed {f} (h : t.file = some f) (hseek : f.seeks chunk.startpos = false) :
      Sends t cbtUnchanged chunk (sendError [] errSeekingFailed f.seekCode)
  | whole {f b} (h : t.file = some f) (hseek : f.seeks chunk.startpos = true)
      (hall : chunk.transferAll = true)
      (hends : Loop.Ends (WholeBlock.turn t f chunk.startpos) (t.startBlock chunk.startpos) b) :
      Sends t cbtUnchanged chunk (b.finish t chunk.startpos)
  | unchanged {f} (h : t.file = some f) (hseek : f.seeks chunk.startpos = true)
      (hall : chunk.transferAll = false) (hcbt : cbtUnchanged = true) :
      Sends t cbtUnchanged chunk ((t.startUpdate chunk).finish t chunk cbtUnchanged)
  | update {f u} (h : t.file = some f) (hseek : f.seeks chunk.startpos = true)
      (hall : chunk.transferAll = false) (hcbt : cbtUnchanged = false)
      (hends : Loop.Ends (UpdateBlock.turn t f chunk) (t.startUpdate chunk) u) :
      Sends t cbtUnchanged chunk (u.finish t chunk cbtUnchanged)

end SendChunk
end UrBackup
