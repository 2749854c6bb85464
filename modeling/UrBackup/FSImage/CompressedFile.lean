import UrBackup.Lib.ByteStore
import UrBackup.Lib.ByteOrder

/-! A file that is stored in compressed blocks, with the blocks used last in buffers. -/
namespace UrBackup

open ByteOrder

/-- `mz_compress` and `mz_uncompress`; the number is the room for the result. -/
structure BlockCodec where
  compress : List UInt8 → List UInt8
  uncompress : List UInt8 → Nat → Option (List UInt8)

def cacheBuffersize : Nat := 2 * 1024 * 1024

def ncacheItems : Nat := 5

/-- `IDRIVEBMR COMPRESSED FILE#1.0` with its zero. -/
def headerMagic : List UInt8 :=
  [73, 68, 82, 73, 86, 69, 66, 77, 82, 32, 67, 79, 77, 80, 82, 69, 83, 83, 69, 68, 32, 70, 73, 76,
    69, 35, 49, 46, 48, 0]

def modeNone : Nat := 0

def modeZlib : Nat := 1

def headerSize : Nat := 50

structure SCacheItem where
  buffer : ByteStore
  offset : Nat

/-- `heap` is what is in the buffers that are allocated, one after the other. To read an unreadable
place of the file is an error. -/
structure CompressedFile where
  filesize : Nat
  indexOffset : Nat
  blocksize : Nat
  blocksize_pos : 0 < blocksize
  currentPosition : Nat
  blockOffsets : List Int
  uncompressedFile : StoredFile
  unreadable : Nat → Bool
  lruItems : List SCacheItem
  nbuffers : Nat
  heap : Nat → ByteStore
  allocated : Nat
  error : Bool
  readOnly : Bool

namespace CompressedFile

def holds (s : CompressedFile) (offset : Nat) (item : SCacheItem) : Bool :=
  item.offset ≤ offset ∧ offset < item.offset + s.blocksize

def cached (s : CompressedFile) (offset : Nat) : Option SCacheItem :=
  s.lruItems.reverse.find? (s.holds offset)

def others (s : CompressedFile) (offset : Nat) : List SCacheItem :=
  (s.lruItems.reverse.eraseP (s.holds offset)).reverse

def withLast (s : CompressedFile) (items : List SCacheItem) (item : SCacheItem) : CompressedFile :=
  { s with lruItems := items ++ [item] }

def setBlockOffset (blockOffsets : List Int) (blockIdx : Nat) (blockOffset : Int) : List Int :=
  let numBlockOffsets := blockOffsets.length
  let resized := blockOffsets ++ List.replicate (blockIdx + 1 - numBlockOffsets) 0
  let filled := resized.mapIdx fun i offset =>
    if numBlockOffsets + 1 ≤ i ∧ i < blockIdx then -1 else offset
  filled.set blockIdx blockOffset

def evictFromLruCache (c : BlockCodec) (s : CompressedFile) (item : SCacheItem) : CompressedFile :=
  if s.readOnly then s
  else
    let blockOffset := s.uncompressedFile.size
    let compressed := c.compress (item.buffer.read 0 s.blocksize)
    let file := s.uncompressedFile.write blockOffset
      (littleEndian 4 compressed.length ++ littleEndian 4 modeZlib)
    { s with
      uncompressedFile := file.write (blockOffset + 8) compressed
      blockOffsets := setBlockOffset s.blockOffsets (item.offset / s.blocksize) blockOffset }

/-- The buffer of the item that is evicted, if there are as many as there may be, or a new one. -/
def nextBuffer (s : CompressedFile) : ByteStore :=
  match s.lruItems with
  | toremove :: _ =>
    if s.lruItems.length = s.nbuffers then toremove.buffer else s.heap s.allocated
  | [] => s.heap s.allocated

def makeRoom (c : BlockCodec) (s : CompressedFile) : CompressedFile :=
  match s.lruItems with
  | toremove :: rest =>
    if s.lruItems.length = s.nbuffers then
      { s.evictFromLruCache c toremove with lruItems := rest }
    else { s with allocated := s.allocated + 1 }
  | [] => { s with allocated := s.allocated + 1 }

/-- The item of `createInt`. -/
def newItem (s : CompressedFile) (offset : Nat) : SCacheItem :=
  ⟨s.nextBuffer, offset - offset % s.blocksize⟩

def put (c : BlockCodec) (s : CompressedFile) (offset : Nat) (data : List UInt8) : CompressedFile :=
  match s.cached offset with
  | some item =>
    let innerOffset := offset - item.offset
    if s.blocksize - innerOffset < data.length then s
    else s.withLast (s.others offset) { item with buffer := item.buffer.write innerOffset data }
  | none =>
    let item := s.newItem offset
    let s := s.makeRoom c
    let innerOffset := offset - item.offset
    if s.blocksize - innerOffset < data.length then s.withLast s.lruItems item
    else s.withLast s.lruItems { item with buffer := item.buffer.write innerOffset data }

def readFromFile (s : CompressedFile) (pos n : Nat) : List UInt8 :=
  let bytes := s.uncompressedFile.read pos n
  bytes.take ((List.range' pos bytes.length).takeWhile fun i => !s.unreadable i).length

/-- What is read to the buffer of a block, if it is readable, and whether that is all of it. To
seek to a negative offset is an error. -/
def readBlock (c : BlockCodec) (s : CompressedFile) (offset : Nat) : Bool × List UInt8 :=
  let blockOffset := s.blockOffsets.getD (offset / s.blocksize) 0
  if s.error then (false, [])
  else if blockOffset = -1 then (true, List.replicate s.blocksize 0)
  else if blockOffset < 0 then (false, [])
  else
    let blockDataOffset := blockOffset.toNat
    let blockheader := s.readFromFile blockDataOffset 8
    if blockheader.length ≠ 8 then (false, [])
    else
      let compressedSize := ofLittleEndian (blockheader.take 4)
      let mode := ofLittleEndian (blockheader.drop 4)
      let data := s.readFromFile (blockDataOffset + 8) compressedSize
      if mode = modeNone then
        if s.blocksize < compressedSize then (false, []) else (data.length = compressedSize, data)
      else if data.length ≠ compressedSize then (false, [])
      else if mode = modeZlib then
        match c.uncompress data s.blocksize with
        | none => (false, [])
        | some plain =>
          (plain.length = s.blocksize ∨ ¬ offset + s.blocksize < s.filesize, plain)
      -- nothing is decompressed in another mode
      else (¬ offset + s.blocksize < s.filesize, [])

def fillCache (c : BlockCodec) (s : CompressedFile) (offset : Nat) : Bool × CompressedFile :=
  if s.blockOffsets.length ≤ offset / s.blocksize then (false, s)
  else
    let item := s.newItem offset
    let s := s.makeRoom c
    let (ok, data) := s.readBlock c offset
    (ok, s.withLast s.lruItems { item with buffer := item.buffer.write 0 data })

def load (c : BlockCodec) (s : CompressedFile) : Bool × CompressedFile :=
  match s.cached s.currentPosition with
  | some _ => (true, s)
  | none => s.fillCache c s.currentPosition

/-- One turn of `Read`. Behind the end of the file the number of bytes to copy is negative, and so
far too large for `memcpy`. -/
def readTurn (c : BlockCodec) (s : CompressedFile) (bsize : Nat) :
    Option (List UInt8 × CompressedFile) :=
  let (found, s) := s.load c
  match s.cached s.currentPosition with
  | none => some ([], s)
  | some item =>
    if ¬ found then some ([], s)
    else if s.filesize < s.currentPosition then none
    else
      let innerOffset := s.currentPosition - item.offset
      let canRead := min (min bsize (s.blocksize - innerOffset)) (s.filesize - s.currentPosition)
      some (item.buffer.read innerOffset canRead,
        { s with currentPosition := s.currentPosition + canRead })

def readLoop (c : BlockCodec) (s : CompressedFile) (bsize : Nat) :
    Option (List UInt8 × CompressedFile) :=
  match s.readTurn c bsize with
  | none => none
  | some (bytes, s) =>
    if _h : 0 < bytes.length ∧ bytes.length < bsize then
      (readLoop c s (bsize - bytes.length)).map fun (more, s) => (bytes ++ more, s)
    else some (bytes, s)
  termination_by bsize
  decreasing_by omega

def seek (s : CompressedFile) (pos : Nat) : CompressedFile := { s with currentPosition := pos }

def Read (c : BlockCodec) (s : CompressedFile) (spos bsize : Nat) :
    Option (List UInt8 × CompressedFile) := (s.seek spos).readLoop c bsize

def maxWrite (s : CompressedFile) : Nat :=
  (s.currentPosition / s.blocksize + 1) * s.blocksize - s.currentPosition

/-- One turn of `Write`, and whether there was no error. -/
def writeTurn (c : BlockCodec) (s : CompressedFile) (data : List UInt8) : Bool × CompressedFile :=
  let s := (s.load c).2
  if s.error then (false, { s with error := false })
  else
    let s := s.put c s.currentPosition data
    let s := { s with currentPosition := s.currentPosition + data.length }
    if s.error then (false, { s with error := false })
    else (true, { s with filesize := max s.filesize s.currentPosition })

theorem maxWrite_pos (s : CompressedFile) : 0 < s.maxWrite := by
  have hlt := Nat.lt_div_mul_add s.blocksize_pos (a := s.currentPosition)
  unfold maxWrite
  rw [Nat.add_mul, Nat.one_mul]
  omega

def writeLoop (c : BlockCodec) (s : CompressedFile) (buffer : List UInt8) : Nat × CompressedFile :=
  let write := buffer.take s.maxWrite
  let (ok, s') := s.writeTurn c write
  if ¬ ok then (0, s')
  else if s.maxWrite < buffer.length then
    let (written, s'') := writeLoop c s' (buffer.drop s.maxWrite)
    (write.length + written, s'')
  else (write.length, s')
  termination_by buffer.length
  decreasing_by
    have := s.maxWrite_pos
    rw [List.length_drop]
    omega

def Write (c : BlockCodec) (s : CompressedFile) (spos : Nat) (buffer : List UInt8) :
    Nat × CompressedFile := (s.seek spos).writeLoop c buffer

def int64Bytes (x : Int) : List UInt8 := littleEndian 8 (x % 2 ^ 64).toNat

def toInt64 (x : Nat) : Int := if x < 2 ^ 63 then x else (x : Int) - 2 ^ 64

def header (s : CompressedFile) : List UInt8 :=
  headerMagic ++ littleEndian 8 s.indexOffset ++ littleEndian 8 s.filesize
    ++ littleEndian 4 s.blocksize

def writeHeader (s : CompressedFile) : CompressedFile :=
  { s with uncompressedFile := s.uncompressedFile.write 0 s.header }

def writeIndex (s : CompressedFile) : CompressedFile :=
  let nOffsetBytes := 8 * s.blockOffsets.length % 2 ^ 32
  { s with
    indexOffset := s.uncompressedFile.size
    uncompressedFile := s.uncompressedFile.write s.uncompressedFile.size
      ((s.blockOffsets.flatMap int64Bytes).take nOffsetBytes) }

def clear (c : BlockCodec) (s : CompressedFile) : CompressedFile :=
  { s.lruItems.foldl (evictFromLruCache c) s with lruItems := [] }

def finish (c : BlockCodec) (s : CompressedFile) : CompressedFile :=
  let s := s.clear c
  if s.readOnly then s else s.writeIndex.writeHeader

def create (heap : Nat → ByteStore) : CompressedFile :=
  writeHeader ⟨0, 0, cacheBuffersize, by decide, 0, [], .empty, fun _ => false, [], ncacheItems,
    heap, 0, false, false⟩

def readIndex (s : CompressedFile) : CompressedFile :=
  let nOffsetItems := s.filesize / s.blocksize + if s.filesize % s.blocksize ≠ 0 then 1 else 0
  if nOffsetItems = 0 then { s with error := true }
  else
    let bytes := s.readFromFile s.indexOffset (8 * nOffsetItems % 2 ^ 32)
    let blockOffsets := (List.range nOffsetItems).map fun i =>
      toInt64 (ofLittleEndian ((bytes.drop (8 * i)).take 8))
    { s with blockOffsets, error := s.error || bytes.length ≠ 8 * nOffsetItems }

def openExisting (file : StoredFile) (heap : Nat → ByteStore) : Option CompressedFile :=
  let header := file.read 0 headerSize
  let magic := headerMagic.length
  let blocksize := ofLittleEndian ((header.drop (magic + 16)).take 4)
  if h : header.length = headerSize ∧ header.take (magic - 1) = headerMagic.dropLast ∧
      0 < blocksize then
    some (readIndex ⟨ofLittleEndian ((header.drop (magic + 8)).take 8),
      ofLittleEndian ((header.drop magic).take 8), blocksize, h.2.2, 0, [], file, fun _ => false,
      [], ncacheItems, heap, 0, false, true⟩)
  else none

end CompressedFile

end UrBackup
