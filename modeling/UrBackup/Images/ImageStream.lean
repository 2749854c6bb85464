import UrBackup.Lib.Feeding
import UrBackup.Patch.ChunkPatcher

/-! How the server takes the image apart that a client sends: a first packet, a bitmap, and then
blocks, checksums and an end marker, in whatever reads they arrive. -/
namespace UrBackup

open ByteOrder Feeding

def imageFlagBitmap : UInt8 := 2

def shaSize : Nat := 32

def mbrSize : Nat := 1024 * 1024 / 2

/-- The parts of the first packet that are acted on. -/
inductive HeaderPart where
  | blocksize (n : Nat)
  | drivesize (n : Int)
  | blockcnt (n : Int)
  | imageFlags (flags : UInt8)
  | shadowdata (data : List UInt8)
  | shadowId (id : Nat)
  | checksum
  deriving DecidableEq

/-- The messages that are acted on. -/
inductive ImageAction where
  | block (n : Nat) (data : List UInt8)
  | checksum (hblock : Int) (dig : List UInt8)
  | finish
  deriving DecidableEq

inductive ETransferState where
  | bitmap
  | image
  deriving DecidableEq

/-- Why the connection is not read any more: `retry` if the server has closed it. -/
inductive ImageEnd where
  | finished
  | failed
  | clientError
  | retry
  | endless
  | crashed
  deriving DecidableEq

structure ImageRequest where
  withChecksum : Bool
  transferBitmap : Bool
  hasParent : Bool
  cowraw : Bool
  diskBackup : Bool
  sha256 : List UInt8 → List UInt8
  sha256_length : ∀ data, (sha256 data).length = shaSize

inductive Reaction (κ : Type*) where
  | goOn (k : κ)
  | retry (k : κ)
  | giveUp

/-- What is done with the parts of the stream. After a block that does not exist the transfer is
tried again, or given up. -/
structure ImageCore (κ : Type*) where
  start : Nat → Int → κ
  act : κ → ImageAction → Reaction κ
  unknownBlock : κ → Option κ

/-- The variables of `doImage` that outlive a read. There is no core before the drive size is
known. -/
structure ImageSession (κ : Type*) where
  transferState : ETransferState
  header : List HeaderPart
  blocksize : Nat
  totalblocks : Int
  bitmap : List UInt8
  currblock : Nat
  blockleft : Nat
  blockdata : List UInt8
  core : Option κ
  acted : List ImageAction
  outcome : Option ImageEnd

/-- What came of reading the first packet; `small` if a part of it is missing. -/
inductive FirstRead (κ : Type*) where
  | small (s : ImageSession κ)
  | complete (s : ImageSession κ) (off : Nat)
  | stop (s : ImageSession κ)

def bytesAt (buffer : List UInt8) (off n : Nat) : List UInt8 := (buffer.drop off).take n

namespace ImageRequest

def mbrOffset (req : ImageRequest) : Nat := if req.diskBackup then 0 else mbrSize

def tooLarge (req : ImageRequest) (blocksize : Nat) (blockcnt : Int) : Bool :=
  let vhdSize : Int :=
    if req.hasParent ∧ blockcnt < 0 then req.mbrOffset + -blockcnt * blocksize
    else if ¬ req.hasParent ∧ 0 < blockcnt then req.mbrOffset + blockcnt * blocksize
    else -1
  0 < vhdSize ∧ 2040 * 1024 * 1024 * 1024 ≤ vhdSize ∧ ¬ req.cowraw

end ImageRequest

namespace ImageSession

section Definitions

variable {κ : Type*} (req : ImageRequest) (core : ImageCore κ)

def initial : ImageSession κ := ⟨.image, [], 0xFFFFFFFF, 0, [], 0, 0, [], none, [], none⟩

def ended (s : ImageSession κ) (outcome : ImageEnd) : ImageSession κ :=
  { s with outcome := some outcome }

def addPart (s : ImageSession κ) (part : HeaderPart) : ImageSession κ :=
  { s with header := s.header ++ [part] }

def firstChecksum (s : ImageSession κ) (buffer : List UInt8) (csize : Nat) : FirstRead κ :=
  if req.withChecksum then
    if buffer.length < csize + shaSize then .small s
    else if req.sha256 (buffer.take csize) ≠ bytesAt buffer csize shaSize then .stop (s.ended .failed)
    else .complete (s.addPart .checksum) (csize + shaSize)
  else .complete s csize

def firstShadow (s : ImageSession κ) (buffer : List UInt8) : FirstRead κ :=
  if buffer.length < 25 then .small s
  else
    let shadowdataSize := ofLittleEndian (bytesAt buffer 21 4)
    let csize := 25 + shadowdataSize
    if buffer.length < csize then .small s
    else
      let s := if 0 < shadowdataSize then s.addPart (.shadowdata (bytesAt buffer 25 shadowdataSize))
        else s
      if buffer.length < csize + 4 then .small s
      else
        firstChecksum req (s.addPart (.shadowId (ofLittleEndian (bytesAt buffer csize 4)))) buffer
          (csize + 4)

def firstFlags (s : ImageSession κ) (buffer : List UInt8) : FirstRead κ :=
  if buffer.length < 20 then .small s
  else
    let blockcnt := int64 (bytesAt buffer 12 8)
    let s := s.addPart (.blockcnt blockcnt)
    if req.tooLarge s.blocksize blockcnt then .stop (s.ended .failed)
    else if buffer.length < 21 then .small s
    else
      let imageFlags := buffer.getD 20 0
      firstShadow req { s.addPart (.imageFlags imageFlags) with
        transferState := if imageFlags &&& imageFlagBitmap ≠ 0 then .bitmap else .image } buffer

def firstPacket (buffer : List UInt8) : FirstRead κ :=
  if buffer.length < 4 then .stop (initial.ended .clientError)
  else
    let blocksize := ofLittleEndian (bytesAt buffer 0 4)
    let s : ImageSession κ := { initial.addPart (.blocksize blocksize) with blocksize }
    if blocksize = 0xFFFFFFFF then .stop (s.ended .clientError)
    else if blocksize = 0 then .stop (s.ended .crashed)
    else if buffer.length < 12 then .small s
    else
      let drivesize := int64 (bytesAt buffer 4 8)
      firstFlags req { s.addPart (.drivesize drivesize) with
        totalblocks := drivesize.tdiv blocksize + if drivesize.tmod blocksize ≠ 0 then 1 else 0
        core := some (core.start blocksize drivesize) } buffer

def bitmapSize (s : ImageSession κ) : Nat :=
  (s.totalblocks.tdiv 8 % 2 ^ 64).toNat + (if s.totalblocks.tmod 8 ≠ 0 then 1 else 0) + 4

def checkBitmap (s : ImageSession κ) : ImageSession κ × Bool :=
  if req.transferBitmap ∧
      req.sha256 (s.bitmap.take s.bitmapSize) ≠ bytesAt s.bitmap s.bitmapSize shaSize then
    (s.ended .failed, true)
  else ({ s with transferState := .image }, false)

def act (s : ImageSession κ) (a : ImageAction) : ImageSession κ × Bool :=
  match s.core with
  | none => (s.ended .crashed, true)
  | some k =>
    let s := { s with acted := s.acted ++ [a] }
    match core.act k a with
    | .goOn k => ({ s with core := some k }, false)
    | .retry k => ({ s with core := some k }.ended .retry, true)
    | .giveUp => (s.ended .failed, true)

def fillBlock (s : ImageSession κ) (data : List UInt8) : ImageSession κ :=
  { s with blockdata := s.blockdata ++ data, blockleft := s.blockleft - data.length }

def writeBlock (s : ImageSession κ) (data : List UInt8) : ImageSession κ × Bool :=
  { s with blockdata := [], blockleft := 0 }.act core (.block s.currblock (s.blockdata ++ data))

def unknownBlock (s : ImageSession κ) : ImageSession κ :=
  match s.core.map core.unknownBlock with
  | none => s.ended .crashed
  | some (some k) => { s with core := some k }.ended .retry
  | some none => s.ended .failed

def finish (s : ImageSession κ) : ImageSession κ :=
  let (s, stop) := s.act core .finish
  if stop then s else s.ended .finished

/-- A number in the stream: that of a block, or of another message. What an error message says is
only logged, or asks for a new authentication. A message about an empty block is never taken, so
the loop does not end. -/
def message (s : ImageSession κ) (data : List UInt8) : Turn (ImageSession κ) :=
  if data.length < 8 then .wait
  else
    let currblock := int64 (data.take 8)
    if currblock = -123 then .stop (s.finish core)
    else if currblock = -124 ∨ currblock = -1 then .stop (s.ended .clientError)
    else if currblock = -125 then .take 8 s
    else if currblock = -126 then
      if data.length < 16 + shaSize then .wait
      else
        let (s, stop) := s.act core
          (.checksum (int64 (bytesAt data 8 8)) (bytesAt data 16 shaSize))
        if stop then .stop s else .take (16 + shaSize) s
    else if currblock = -127 then
      if data.length < 16 then .wait else .stop (s.ended .endless)
    else if currblock < 0 ∨ s.totalblocks < currblock then .stop (s.unknownBlock core)
    else .take 8 { s with
      currblock := currblock.toNat, blockdata := [], blockleft := s.blocksize }

def next (s : ImageSession κ) (data : List UInt8) : Turn (ImageSession κ) :=
  match s.transferState with
  | .bitmap =>
    if data = [] then .wait
    else if 1024 * 1024 * 1024 < s.bitmapSize then .stop (s.ended .failed)
    else
      collect (s.bitmapSize + shaSize - s.bitmap.length)
        (fun part => { s with bitmap := s.bitmap ++ part })
        (fun part => checkBitmap req { s with bitmap := s.bitmap ++ part }) data
  | .image =>
    if s.blockleft ≠ 0 then collect s.blockleft s.fillBlock (s.writeBlock core) data
    else s.message core data

/-- The first read. If the first packet is too small, its bytes stay in front of what comes. -/
def firstReadFeed (buffer : List UInt8) : Feed (ImageSession κ) UInt8 :=
  match firstPacket req core buffer with
  | .small s => ⟨s, buffer, false⟩
  | .stop s => ⟨s, [], true⟩
  | .complete s off => drain (next req core) s (buffer.drop off)

/-- `doImage` over the reads of a connection. -/
def receive (first : List UInt8) (reads : List (List UInt8)) : Feed (ImageSession κ) UInt8 :=
  reads.foldl (feed (next req core)) (firstReadFeed req core first)

end Definitions

end ImageSession

end UrBackup
