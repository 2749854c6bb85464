import UrBackup.Images.ImageStream
import UrBackup.Lib.ByteStore

/-! What the server makes of the blocks of an image: it writes them, fills what is left out between
them, and writes a hash of every 512 KB. -/
namespace UrBackup

def hashedSize : Nat := 1024 * 1024 / 2

def maxNumHashErrors : Nat := 10

/-- What an image is made with: the MBR, the volume and the hash file of the parent, the hash of
512 KB of zeros, and what is in the memory for a hash before there is one. -/
structure ImageFiles where
  mbr : ByteStore
  parentVolume : ByteStore
  parenthashfile : StoredFile
  zeroHash : List UInt8
  uninitialized : List UInt8

/-- The variables of `doImage` that are about blocks, and its files. `shactx` are the data of the
running hash, `image` what is read from the image. -/
structure ImageTransfer where
  blocksize : Nat
  vhdBlocksize : Nat
  blocks : Nat
  totalblocks : Nat
  imageSize : Nat
  nextblock : Nat
  lastVerifiedBlock : Nat
  numHashErrors : Nat
  shactx : List UInt8
  verifyChecksum : List UInt8
  hashfile : StoredFile
  hashpos : Nat
  image : ByteStore
  hasError : Bool

def ImageFiles.volume (files : ImageFiles) (req : ImageRequest) : ByteStore :=
  if req.hasParent then files.parentVolume else fun _ => 0

/-- The hash of 512 KB that are not looked at: that of the parent, if it has one. -/
def ImageFiles.skippedHash (files : ImageFiles) (req : ImageRequest) (k : Nat) : List UInt8 :=
  let dig := files.parenthashfile.read (k * shaSize) shaSize
  if req.hasParent ∧ dig.length = shaSize then dig else files.zeroHash

namespace ImageTransfer

section Definitions

variable (req : ImageRequest) (files : ImageFiles)

def start (blocksize : Nat) (drivesize : Int) : ImageTransfer where
  blocksize := blocksize
  vhdBlocksize := hashedSize / blocksize
  blocks := (drivesize.tdiv blocksize).toNat
  totalblocks := (drivesize.tdiv blocksize + if drivesize.tmod blocksize ≠ 0 then 1 else 0).toNat
  imageSize := (drivesize + mbrSize).toNat
  nextblock := 0
  lastVerifiedBlock := 0
  numHashErrors := 0
  shactx := []
  verifyChecksum := files.uninitialized
  hashfile := .empty
  hashpos := 0
  image := fun i =>
    if i < req.mbrOffset then files.mbr i else files.volume req (i - req.mbrOffset)
  hasError := false

/-- `ServerVHDWriter::writeVHD`. Without a buffer the bytes become unused. After an error nothing is
written any more. A raw image grows. -/
def writeVHD (t : ImageTransfer) (pos : Nat) (buf : Option (List UInt8)) (bsize : Nat) :
    ImageTransfer :=
  if t.hasError then t
  else
    match buf with
    | none =>
      let unusedEnd := if pos < t.imageSize ∧ t.imageSize < pos + bsize then t.imageSize
        else pos + bsize
      if req.cowraw ∨ unusedEnd ≤ t.imageSize then
        { t with image := t.image.clear pos unusedEnd }
      else { t with hasError := true }
    | some data =>
      if req.cowraw ∨ pos + bsize ≤ t.imageSize then { t with image := t.image.write pos data }
      else { t with hasError := true }

def trim (t : ImageTransfer) (startBlock count : Nat) : ImageTransfer :=
  if req.hasParent then
    t.writeVHD req (req.mbrOffset + startBlock * t.blocksize) none (count * t.blocksize)
  else t

def writeHash (t : ImageTransfer) (dig : List UInt8) : ImageTransfer :=
  { t with hashfile := t.hashfile.write t.hashpos dig, hashpos := t.hashpos + dig.length }

def finalHash (t : ImageTransfer) : ImageTransfer :=
  { t.writeHash (req.sha256 t.shactx) with shactx := [] }

def verifyHash (t : ImageTransfer) : ImageTransfer :=
  { t.finalHash req with verifyChecksum := req.sha256 t.shactx }

def zeroBlock (t : ImageTransfer) : ImageTransfer :=
  let t := { t with
    shactx := t.shactx ++ List.replicate t.blocksize 0, nextblock := t.nextblock + 1 }
  if t.nextblock % t.vhdBlocksize = 0 ∧ t.nextblock ≠ 0 then t.finalHash req else t

def zeroBlocks : Nat → ImageTransfer → ImageTransfer
  | 0, t => t
  | n + 1, t => zeroBlocks n (t.zeroBlock req)

def skipBlock (t : ImageTransfer) : ImageTransfer :=
  { t.writeHash (files.skippedHash req (t.nextblock / t.vhdBlocksize)) with
    nextblock := t.nextblock + t.vhdBlocksize }

def skipBlocks : Nat → ImageTransfer → ImageTransfer
  | 0, t => t
  | n + 1, t => skipBlocks n (t.skipBlock req files)

def fillUp (t : ImageTransfer) : ImageTransfer :=
  if t.nextblock % t.vhdBlocksize ≠ 0 then
    let count := t.vhdBlocksize - t.nextblock % t.vhdBlocksize
    (zeroBlocks req count t).trim req t.nextblock count
  else t

def skipGap (t : ImageTransfer) (currblock : Nat) : ImageTransfer :=
  if t.vhdBlocksize ≤ currblock - t.nextblock then
    let t := t.fillUp req
    skipBlocks req files ((currblock - t.nextblock) / t.vhdBlocksize) t
  else t

/-- The blocks before `currblock` that were not sent, and `trimAdd` from it on. -/
def fillGap (t : ImageTransfer) (currblock trimAdd : Nat) : ImageTransfer :=
  let count := currblock - t.nextblock
  if 0 < count + trimAdd then (zeroBlocks req count t).trim req t.nextblock (count + trimAdd) else t

def updateNextblock (t : ImageTransfer) (currblock trimAdd : Nat) : ImageTransfer :=
  if t.nextblock = currblock then
    { (if 0 < trimAdd then t.trim req t.nextblock trimAdd else t) with nextblock := currblock + 1 }
  else if currblock < t.nextblock then t
  else
    { (t.skipGap req files currblock).fillGap req currblock trimAdd with
      nextblock := currblock + 1 }

def again (t : ImageTransfer) : Option ImageTransfer :=
  if t.numHashErrors < maxNumHashErrors then
    some { t with
      nextblock := t.lastVerifiedBlock
      hashpos := t.lastVerifiedBlock / t.vhdBlocksize * shaSize
      numHashErrors := t.numHashErrors + 1 }
  else none

def retry (t : ImageTransfer) : Reaction ImageTransfer :=
  match t.again with
  | some t => .retry t
  | none => .giveUp

def takeBlock (t : ImageTransfer) (currblock : Nat) (data : List UInt8) :
    Reaction ImageTransfer :=
  if t.nextblock ≤ currblock then
    let t := t.updateNextblock req files currblock 0
    let t := { t with shactx := t.shactx ++ data }
    let t := t.writeVHD req (req.mbrOffset + currblock * t.blocksize) (some data) t.blocksize
    let t := if t.nextblock % t.vhdBlocksize = 0 ∧ t.nextblock ≠ 0 then t.verifyHash req else t
    if t.hasError then .giveUp else .goOn t
  else if t.vhdBlocksize < t.nextblock - currblock then t.retry
  else .goOn t

def fillTo (t : ImageTransfer) (hblock : Int) : ImageTransfer :=
  if (t.nextblock : Int) < hblock then
    let t := t.updateNextblock req files (hblock - 1).toNat 1
    { t with shactx := t.shactx ++ List.replicate t.blocksize 0 }
  else t

def hashTo (t : ImageTransfer) (hblock : Int) : ImageTransfer :=
  if (t.nextblock % t.vhdBlocksize = 0 ∨ hblock = t.blocks) ∧ t.nextblock ≠ 0 then t.verifyHash req
  else t

def closeBlocks (t : ImageTransfer) (hblock : Int) : ImageTransfer :=
  if ((t.nextblock : Int) < hblock ∨
      (hblock = t.blocks ∧ t.nextblock % t.vhdBlocksize ≠ 0)) ∧ 0 < hblock then
    (t.fillTo req files hblock).hashTo req hblock
  else t

def takeChecksum (t : ImageTransfer) (hblock : Int) (dig : List UInt8) :
    Reaction ImageTransfer :=
  let t := t.closeBlocks req files hblock
  if t.verifyChecksum ≠ dig then t.retry
  else
    .goOn { t with
      lastVerifiedBlock :=
        (if (t.vhdBlocksize : Int) ≤ hblock then hblock - t.vhdBlocksize else hblock).toNat }

def finish (t : ImageTransfer) : Reaction ImageTransfer :=
  let t :=
    if t.nextblock ≤ t.totalblocks then
      let t := t.updateNextblock req files t.totalblocks 0
      if t.nextblock ≠ 0 then t.finalHash req else t
    else t
  if t.hasError then .giveUp else .goOn t

def act (t : ImageTransfer) : ImageAction → Reaction ImageTransfer
  | .block n data => t.takeBlock req files n data
  | .checksum hblock dig => t.takeChecksum req files hblock dig
  | .finish => t.finish req files

def continueBlock (t : ImageTransfer) : Nat :=
  if t.nextblock % t.vhdBlocksize ≠ 0 then t.nextblock / t.vhdBlocksize * t.vhdBlocksize
  else if req.withChecksum ∧ t.nextblock ≠ t.lastVerifiedBlock + t.vhdBlocksize ∧
      t.nextblock ≠ t.lastVerifiedBlock then
    (t.nextblock / t.vhdBlocksize - 1) * t.vhdBlocksize
  else t.nextblock

end Definitions

section Writes

variable {req : ImageRequest} {t : ImageTransfer} {pos n : Nat}

theorem writeVHD_none (herror : t.hasError = false) (hpos : pos < t.imageSize) :
    t.writeVHD req pos none n =
      { t with image := t.image.clear pos (min t.imageSize (pos + n)) } := by
  have hend : (if pos < t.imageSize ∧ t.imageSize < pos + n then t.imageSize else pos + n) =
      min t.imageSize (pos + n) := by
    split <;> omega
  unfold writeVHD
  rw [herror, if_neg Bool.false_ne_true]
  dsimp only
  rw [hend]
  exact if_pos (.inr (Nat.min_le_left _ _))

theorem writeVHD_some {data : List UInt8} (herror : t.hasError = false)
    (hfits : req.cowraw = true ∨ pos + n ≤ t.imageSize) :
    t.writeVHD req pos (some data) n = { t with image := t.image.write pos data } := by
  unfold writeVHD
  rw [herror, if_neg Bool.false_ne_true]
  exact if_pos hfits

end Writes

end ImageTransfer

theorem ImageRequest.mbrOffset_le (req : ImageRequest) : req.mbrOffset ≤ mbrSize := by
  unfold mbrOffset
  split
  · exact Nat.zero_le _
  · exact le_rfl

def imageCore (req : ImageRequest) (files : ImageFiles) : ImageCore ImageTransfer where
  start := ImageTransfer.start req files
  act := ImageTransfer.act req files
  unknownBlock := ImageTransfer.again

end UrBackup
