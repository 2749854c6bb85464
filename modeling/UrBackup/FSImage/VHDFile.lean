import UrBackup.Lib.BitStore
import UrBackup.Lib.ByteOrder

/-! A virtual hard disk in a file: blocks with a bitmap of their sectors, over the disk of a
parent. -/
namespace UrBackup

open ByteOrder

def sectorSize : Nat := 512

def defDynamicHeaderOffset : Nat := 512

def defBatOffset : Nat := 512 + 1024

def defBatOffsetParent : Nat := 2 * 1024

def noBlock : Nat := 0xFFFFFFFF

def nextSector (offset : Nat) : Nat := offset + (sectorSize - offset % sectorSize)

/-- The number that `calculate_checksum` returns, as it is in memory. -/
def calculateChecksum (data : List UInt8) : List UInt8 :=
  (bigEndian 4 ((data.map UInt8.toNat).sum % 2 ^ 32)).map (~~~ ·)

def clearChecksum (pos : Nat) (data : List UInt8) : List UInt8 :=
  data.take pos ++ List.replicate 4 0 ++ data.drop (pos + 4)

def withChecksum (pos : Nat) (data : List UInt8) : List UInt8 :=
  data.take pos ++ calculateChecksum (clearChecksum pos data) ++ data.drop (pos + 4)

def checksumOk (pos : Nat) (data : List UInt8) : Bool :=
  (data.drop pos).take 4 = calculateChecksum (clearChecksum pos data)

def field (pos n : Nat) (data : List UInt8) : Nat := ofBigEndian ((data.drop pos).take n)

/-- What a new file gets from outside: the time, the geometry and the uid. -/
structure VHDStamp where
  timestamp : Nat
  diskGeometry : Nat
  uid : Vector UInt8 16

/-- The names of a parent. The first is copied to a field of 512 bytes with two zeros behind it,
the second is written where the blocks begin, the third has 128 sectors. -/
structure ParentNames where
  unicodename : List UInt8
  absUnicodename : List UInt8
  relUnicodename : List UInt8
  unicodename_fits : unicodename.length + 2 ≤ 512
  absUnicodename_fits : absUnicodename.length ≤ defBatOffsetParent * sectorSize
  relUnicodename_fits : relUnicodename.length ≤ 128 * sectorSize

def footerChecksum : Nat := 64

def dynamicheaderChecksum : Nat := 36

/-- The footer of `write_header`. -/
def footerBytes (stamp : VHDStamp) (dstsize diskType : Nat) : List UInt8 :=
  withChecksum footerChecksum
    ([99, 111, 110, 101, 99, 116, 105, 120] ++ bigEndian 4 2 ++ bigEndian 4 0x00010000
      ++ bigEndian 8 defDynamicHeaderOffset ++ bigEndian 4 stamp.timestamp ++ [118, 112, 99, 32]
      ++ bigEndian 4 0x00050003 ++ bigEndian 4 0x5769326B ++ bigEndian 8 dstsize
      ++ bigEndian 8 dstsize ++ bigEndian 4 stamp.diskGeometry ++ bigEndian 4 diskType
      ++ List.replicate 4 0 ++ stamp.uid.toList ++ [0] ++ List.replicate 427 0)

def parentLocator (code space length offset : Nat) : List UInt8 :=
  bigEndian 4 code ++ bigEndian 4 space ++ bigEndian 4 length ++ bigEndian 4 0 ++ bigEndian 8 offset

def dynamicheaderBytes (batOffset batsize blocksize : Nat) (parent : List UInt8) : List UInt8 :=
  withChecksum dynamicheaderChecksum
    ([99, 120, 115, 112, 97, 114, 115, 101] ++ List.replicate 8 0xFF ++ bigEndian 8 batOffset
      ++ bigEndian 4 0x00010000 ++ bigEndian 4 batsize ++ bigEndian 4 blocksize
      ++ List.replicate 4 0 ++ parent)

structure VHDFile where
  readOnly : Bool
  compressed : Bool
  fastMode : Bool
  file : StoredFile
  dstsize : Nat
  blocksize : Nat
  blocksize_pos : 0 < blocksize
  footer : List UInt8
  bat : List Nat
  batOffset : Nat
  nextblockOffset : Nat
  bitmap : ByteStore
  currblock : Nat
  currOffset : Nat
  bitmapOffset : Nat
  bitmapDirty : Bool
  finished : Bool

namespace VHDFile

/-- The size of the bitmap of a block, from `init_bitmap`. -/
def bitmapSize (s : VHDFile) : Nat :=
  let bytes := s.blocksize / sectorSize / 8
    + if s.blocksize % sectorSize ≠ 0 ∨ s.blocksize / sectorSize % 8 ≠ 0 then 1 else 0
  bytes + if bytes % sectorSize ≠ 0 then sectorSize - bytes % sectorSize else 0

def getUID (s : VHDFile) : List UInt8 := (s.footer.drop 68).take 16

def getTimestamp (s : VHDFile) : Nat := field 24 4 s.footer

def writeFile (s : VHDFile) (pos : Nat) (data : List UInt8) : VHDFile :=
  { s with file := s.file.write pos data }

def batBytes (bat : List Nat) : List UInt8 := bat.flatMap (bigEndian 4)

def writeBat (s : VHDFile) : Bool × VHDFile :=
  (4 * s.bat.length < 2 ^ 32,
    s.writeFile s.batOffset ((batBytes s.bat).take (4 * s.bat.length % 2 ^ 32)))

/-- The footer is written where the next block would be, and the file ends behind it. -/
def writeFooter (s : VHDFile) : VHDFile :=
  let s := s.writeFile s.nextblockOffset s.footer
  if ¬ s.compressed ∧ s.file.size ≠ s.nextblockOffset + s.footer.length then
    { s with file := s.file.resize (s.nextblockOffset + s.footer.length) }
  else s

def isBitmapSet (s : VHDFile) (offset : Nat) : Bool := s.bitmap.bit (offset / sectorSize)

def setBitmapBit (s : VHDFile) (offset : Nat) : Bool × VHDFile :=
  let hasBit := s.isBitmapSet offset
  (¬ hasBit, { s with
    bitmap := s.bitmap.setBit (offset / sectorSize)
    bitmapDirty := s.bitmapDirty || ¬ hasBit })

def bitmapData (s : VHDFile) : List UInt8 := s.bitmap.read 0 s.bitmapSize

def switchBitmap (s : VHDFile) (newOffset : Nat) : VHDFile :=
  let s := if s.fastMode ∧ ¬ s.readOnly ∧ s.bitmapDirty ∧ s.bitmapOffset ≠ 0 then
      s.writeFile s.bitmapOffset s.bitmapData
    else s
  { s with bitmapOffset := newOffset, bitmapDirty := false }

def seek (s : VHDFile) (offset : Nat) : VHDFile := { s with currOffset := offset }

/-- The next block of the file is the one of an entry; the entry and the size of a block have 32
bits. -/
def allocate (s : VHDFile) (block : Nat) : VHDFile :=
  { s with
    nextblockOffset := nextSector (s.nextblockOffset + (s.blocksize + s.bitmapSize) % 2 ^ 32)
    bat := s.bat.set block (s.nextblockOffset / sectorSize % 2 ^ 32) }

def loadBitmap (s : VHDFile) (block dataoffset : Nat) (newBlock : Bool) : VHDFile :=
  if s.currblock = block then s
  else
    let s := s.switchBitmap dataoffset
    if newBlock then
      { s.writeFile dataoffset (List.replicate s.bitmapSize 0) with
        bitmap := fun _ => 0, currblock := block }
    else
      { s with
        bitmap := s.bitmap.write 0 (s.file.read dataoffset s.bitmapSize), currblock := block }

/-- How much a loop over the sectors of a block does in a turn: up to the end of a sector, of the
block, or of all. Only the first turn can begin inside a sector. -/
def sectorPart (blocksize blockoffset n : Nat) (first : Bool) : Nat :=
  let want := min (min sectorSize n) (blocksize - blockoffset)
  if first ∧ blockoffset % sectorSize ≠ 0 ∧ sectorSize - blockoffset % sectorSize < want then
    sectorSize - blockoffset % sectorSize
  else want

theorem sectorPart_pos {blocksize blockoffset n : Nat} (first : Bool) (hn : 0 < n)
    (hin : blockoffset < blocksize) : 0 < sectorPart blocksize blockoffset n first := by
  have hmod : blockoffset % sectorSize < sectorSize := Nat.mod_lt _ (by decide)
  unfold sectorPart
  dsimp only
  split
  · omega
  · have : 0 < sectorSize := by decide
    omega

def writeSectors (s : VHDFile) (dataoffset blockoffset : Nat) (first : Bool)
    (buffer : List UInt8) : VHDFile × List UInt8 :=
  if _hin : blockoffset < s.blocksize then
    let want := sectorPart s.blocksize blockoffset buffer.length first
    let s' := (s.setBitmapBit blockoffset).2.writeFile (dataoffset + s.bitmapSize + blockoffset)
      (buffer.take want)
    if _hmore : buffer.drop want ≠ [] ∧ blockoffset + want < s.blocksize then
      writeSectors s' dataoffset (blockoffset + want) false (buffer.drop want)
    else (s', buffer.drop want)
  else (s, buffer)
  termination_by buffer.length
  decreasing_by
    have hlength : buffer ≠ [] := fun h => _hmore.1 (by rw [h, List.drop_nil])
    have := sectorPart_pos first (List.length_pos_of_ne_nil hlength) _hin
    have := List.length_pos_of_ne_nil hlength
    rw [List.length_drop]
    omega

/-- The sectors of a block that are unused: their bits are set, and zeros written where they were
set before; how much is left. -/
def zeroSectors (s : VHDFile) (dataoffset blockoffset : Nat) (first : Bool) (towrite : Nat) :
    VHDFile × Nat :=
  if _hin : blockoffset < s.blocksize then
    let want := sectorPart s.blocksize blockoffset towrite first
    let (fresh, s') := s.setBitmapBit blockoffset
    let s' := if fresh then s'
      else s'.writeFile (dataoffset + s.bitmapSize + blockoffset) (List.replicate want 0)
    if _hmore : towrite - want ≠ 0 ∧ blockoffset + want < s.blocksize then
      zeroSectors s' dataoffset (blockoffset + want) false (towrite - want)
    else (s', towrite - want)
  else (s, towrite)
  termination_by towrite
  decreasing_by
    have := sectorPart_pos first (show 0 < towrite by omega) _hin
    omega

def storeBitmap (s : VHDFile) (dataoffset : Nat) : VHDFile :=
  if s.fastMode then s else s.writeFile dataoffset s.bitmapData

/-- The blocks of `Write`: whether there was no error, and whether there was a new block. It has no
result if it goes behind the table or does not end. -/
def writeBlocks (s : VHDFile) (block blockoffset : Nat) (first : Bool) (buffer : List UInt8)
    (dwriteFooter : Bool) : Option (Bool × Bool × VHDFile) :=
  match s.bat[block]? with
  | none => none
  | some batRef =>
    let newBlock := batRef = noBlock
    let dataoffset := if newBlock then s.nextblockOffset else batRef * sectorSize
    let s₁ := if newBlock then s.allocate block else s
    if newBlock ∧ noBlock ≤ dataoffset / sectorSize then
      some (false, dwriteFooter, { s₁ with bat := s.bat })
    else
      let (s₂, rest) :=
        (s₁.loadBitmap block dataoffset newBlock).writeSectors dataoffset blockoffset first buffer
      let s₃ := s₂.storeBitmap dataoffset
      if rest = [] then some (true, dwriteFooter || newBlock, s₃)
      else if _h : rest.length < buffer.length then
        writeBlocks s₃ (block + 1) 0 false rest (dwriteFooter || newBlock)
      else none
  termination_by buffer.length

/-- What is written behind the blocks: the footer and the table, if there was a new block. -/
def writeTables (s : VHDFile) (dwriteFooter : Bool) : Bool × VHDFile :=
  if dwriteFooter ∧ ¬ s.fastMode then s.writeFooter.writeBat else (true, s)

def Write (s : VHDFile) (buffer : List UInt8) : Option (Bool × VHDFile) :=
  if s.readOnly ∨ s.dstsize < buffer.length + s.currOffset then some (false, s)
  else
    match s.writeBlocks (s.currOffset / s.blocksize) (s.currOffset % s.blocksize) true buffer false
      with
    | none => none
    | some (ok, dwriteFooter, s') =>
      if ¬ ok then some (false, s')
      else
        let (ok, s'') := s'.writeTables dwriteFooter
        some (ok, if ok then { s'' with currOffset := s''.currOffset + buffer.length } else s'')

/-- The blocks of `setUnused`. No entry of the table is too large for it. -/
def zeroBlocks (s : VHDFile) (block blockoffset : Nat) (first : Bool) (towrite : Nat)
    (dwriteFooter : Bool) : Option (Bool × VHDFile) :=
  match s.bat[block]? with
  | none => none
  | some batRef =>
    let newBlock := batRef = noBlock
    let dataoffset := if newBlock then s.nextblockOffset else batRef * sectorSize
    let s₁ := if newBlock then s.allocate block else s
    let (s₂, rest) :=
      (s₁.loadBitmap block dataoffset newBlock).zeroSectors dataoffset blockoffset first towrite
    let s₃ := s₂.storeBitmap dataoffset
    if rest = 0 then some (dwriteFooter || newBlock, s₃)
    else if _h : rest < towrite then
      zeroBlocks s₃ (block + 1) 0 false rest (dwriteFooter || newBlock)
    else none
  termination_by towrite

def setUnused (s : VHDFile) (unusedStart unusedEnd : Nat) : Option (Bool × VHDFile) :=
  let s := s.seek unusedStart
  if s.readOnly ∨ s.dstsize < unusedEnd then some (false, s)
  else
    let towrite := if unusedEnd < unusedStart then 2 ^ 64 - (unusedStart - unusedEnd)
      else unusedEnd - unusedStart
    match s.zeroBlocks (s.currOffset / s.blocksize) (s.currOffset % s.blocksize) true towrite false
      with
    | none => none
    | some (dwriteFooter, s') => some (s'.writeTables dwriteFooter)

/-- What `finish` does to one file. -/
def finish (s : VHDFile) : Bool × VHDFile :=
  if s.finished then (true, s)
  else
    let s := s.switchBitmap 0
    let (ok, s) := if s.fastMode ∧ ¬ s.readOnly then s.writeFooter.writeBat else (true, s)
    (ok, if ok then { s with finished := true } else s)

/-- What happens in a read: an entry of the table is looked up; the part of a block that is not in
the file was filled, `want` bytes of `toread`; bytes were counted in `read`, which is where the file
stands less where the read began. -/
inductive ReadEvent where
  | lookup (s : VHDFile) (block : Nat)
  | hole (s : VHDFile) (block want toread : Nat)
  | counted (s : VHDFile) (start : Nat)

/-- A computation with what happens in it. It has no result if it looks up behind the table or does
not end. -/
structure Traced (α : Type) where
  events : List ReadEvent
  result : Option α

namespace Traced

def event (e : ReadEvent) : Traced Unit := ⟨[e], some ()⟩

def stuck {α : Type} : Traced α := ⟨[], none⟩

instance : Monad Traced where
  pure a := ⟨[], some a⟩
  bind x f :=
    match x.result with
    | none => ⟨x.events, none⟩
    | some a => ⟨x.events ++ (f a).events, (f a).result⟩

end Traced

/-- The bytes that come in a buffer. What a parent did not fill is not known. -/
abbrev ReadBytes := List (Option UInt8)

abbrev Reader := List VHDFile → Nat → Nat → Traced (Bool × ReadBytes × List VHDFile)

def readSector (pread : Reader) (s : VHDFile) (parent : List VHDFile)
    (dataoffset blockoffset want : Nat) : Traced (ReadBytes × List VHDFile) :=
  if s.isBitmapSet blockoffset then
    pure ((s.file.read (dataoffset + s.bitmapSize + blockoffset) want).map some, parent)
  else if parent.isEmpty then pure (List.replicate want (some 0), parent)
  else do
    let (_, bytes, parent) ← pread parent s.currOffset want
    return (bytes, parent)

/-- The sectors of a block that are read: the bytes, how much is left, whether the end of the disk
was met. -/
def readSectors (pread : Reader) (start : Nat) (s : VHDFile) (parent : List VHDFile)
    (dataoffset blockoffset : Nat) (first : Bool) (toread : Nat) :
    Traced (ReadBytes × Nat × Bool × VHDFile × List VHDFile) :=
  if blockoffset < s.blocksize then
    let want := sectorPart s.blocksize blockoffset toread first
    if s.dstsize < s.currOffset + want then pure ([], toread, true, s, parent)
    else do
      let (bytes, parent) ← s.readSector pread parent dataoffset blockoffset want
      let s' := { s with currOffset := s.currOffset + bytes.length }
      Traced.event (.counted s' start)
      if _hmore : toread - bytes.length ≠ 0 ∧ blockoffset + bytes.length < s.blocksize then
        if _hprogress : 0 < bytes.length then
          let (more, rest) ← readSectors pread start s' parent dataoffset
            (blockoffset + bytes.length) false (toread - bytes.length)
          return (bytes ++ more, rest)
        else Traced.stuck
      else return (bytes, toread - bytes.length, false, s', parent)
  else pure ([], toread, false, s, parent)
  termination_by toread
  decreasing_by omega

/-- What is read of a block that is not in the file. What the parent says of its read is not looked
at. -/
def readBase (pread : Reader) (s : VHDFile) (parent : List VHDFile) (n : Nat) :
    Traced (ReadBytes × List VHDFile) :=
  if parent.isEmpty then pure (List.replicate n (some 0), parent)
  else do
    let (_, bytes, parent) ← pread parent s.currOffset n
    return (bytes ++ List.replicate (n - bytes.length) none, parent)

def fetchBitmap (s : VHDFile) (block dataoffset blockoffset bsize : Nat) : Bool × VHDFile :=
  if block = s.currblock then (true, s)
  else
    let s := s.switchBitmap dataoffset
    if s.file.size < dataoffset + s.bitmapSize + blockoffset + bsize then (false, s)
    else
      let data := s.file.read dataoffset s.bitmapSize
      let s := { s with bitmap := s.bitmap.write 0 data }
      if data.length ≠ s.bitmapSize then (false, s) else (true, { s with currblock := block })

/-- The blocks of `Read`: its result and the bytes in the buffer. The number of a block has 32
bits. -/
def readBlocks (pread : Reader) (start : Nat) (s : VHDFile) (parent : List VHDFile)
    (block blockoffset : Nat) (first : Bool) (bsize toread : Nat) :
    Traced (Bool × ReadBytes × VHDFile × List VHDFile) := do
  Traced.event (.lookup s block)
  match s.bat[block]? with
  | none => Traced.stuck
  | some batOff =>
    if batOff = noBlock then
      let want := min (s.blocksize - blockoffset) toread
      let (bytes, parent) ← s.readBase pread parent want
      Traced.event (.hole s block want toread)
      let s' := { s with currOffset := s.currOffset + want }
      Traced.event (.counted s' start)
      if _hmore : want < toread ∧ 0 < want then
        let (ok, more, rest) ← readBlocks pread start s' parent ((block + 1) % 2 ^ 32) 0 first
          bsize (toread - want)
        return (ok, bytes ++ more, rest)
      else return (true, bytes, s', parent)
    else
      let dataoffset := batOff * sectorSize
      let (ok, s₁) := s.fetchBitmap block dataoffset blockoffset bsize
      if ¬ ok then return (false, [], s₁, parent)
      else
        let (bytes, rest, stop, s₂, parent) ←
          s₁.readSectors pread start parent dataoffset blockoffset first toread
        if stop ∨ rest = 0 ∨ s₂.dstsize ≤ s₂.currOffset then return (true, bytes, s₂, parent)
        else if _h : rest < toread then
          let (ok, more, rest) ← readBlocks pread start s₂ parent ((block + 1) % 2 ^ 32) 0 false
            bsize rest
          return (ok, bytes ++ more, rest)
        else Traced.stuck
  termination_by toread

/-- `Read` of a file over its parents, the number of which bounds how deep it goes. -/
def readDepth : Nat → Reader
  | 0, _, _, _ => Traced.stuck
  | _ + 1, [], _, _ => Traced.stuck
  | depth + 1, s :: parent, pos, bsize =>
    if s.dstsize ≤ pos then pure (false, [], s.seek pos :: parent)
    else do
      let (ok, bytes, s, parent) ← (s.seek pos).readBlocks (readDepth depth) pos parent
        (pos / s.blocksize % 2 ^ 32) (pos % s.blocksize) true bsize bsize
      return (ok, bytes, s :: parent)

def Read (disk : List VHDFile) (pos bsize : Nat) : Traced (Bool × ReadBytes × List VHDFile) :=
  readDepth disk.length disk pos bsize

def newBatsize (dstsize blocksize : Nat) : Nat :=
  (dstsize / blocksize % 2 ^ 32 + if dstsize % blocksize ≠ 0 then 1 else 0) % 2 ^ 32

def emptyFile (compressed fastMode : Bool) (dstsize blocksize : Nat) (hpos : 0 < blocksize)
    (footer : List UInt8) (batOffset : Nat) : VHDFile where
  readOnly := false
  compressed
  fastMode
  file := .empty
  dstsize
  blocksize
  blocksize_pos := hpos
  footer
  bat := List.replicate (newBatsize dstsize blocksize) noBlock
  batOffset
  nextblockOffset := nextSector (batOffset + 4 * newBatsize dstsize blocksize)
  bitmap := fun _ => 0
  currblock := noBlock
  currOffset := 0
  bitmapOffset := 0
  bitmapDirty := false
  finished := false

def create (compressed fastMode : Bool) (stamp : VHDStamp) (dstsize blocksize : Nat)
    (hpos : 0 < blocksize) : VHDFile :=
  let footer := footerBytes stamp dstsize 3
  let s := emptyFile compressed fastMode dstsize blocksize hpos footer defBatOffset
  let s := s.writeFile 0 footer
  let s := s.writeFile defDynamicHeaderOffset
    (dynamicheaderBytes defBatOffset s.bat.length blocksize (List.replicate 984 0))
  s.writeBat.2.writeFooter

def parentBytes (parent : VHDFile) (names : ParentNames) (absOffset relOffset : Nat) : List UInt8 :=
  let absBlocks := names.absUnicodename.length / sectorSize
    + if names.absUnicodename.length % sectorSize ≠ 0 then 1 else 0
  parent.getUID ++ bigEndian 4 parent.getTimestamp ++ bigEndian 4 0
    ++ (names.unicodename ++ List.replicate (512 - names.unicodename.length) 0)
    ++ parentLocator 0x57326B75 (absBlocks * sectorSize) names.absUnicodename.length absOffset
    ++ parentLocator 0x57327275 (128 * sectorSize) names.relUnicodename.length relOffset
    ++ List.replicate (6 * 24 + 256) 0

def createWithParent (compressed fastMode : Bool) (stamp : VHDStamp) (parent : VHDFile)
    (names : ParentNames) (pDstsize : Nat) : VHDFile :=
  let dstsize := if 0 < pDstsize then pDstsize else parent.dstsize
  let footer := footerBytes stamp dstsize 4
  let s := emptyFile compressed fastMode dstsize parent.blocksize parent.blocksize_pos footer
    defBatOffsetParent
  let s := s.writeFile 0 footer
  let long := sectorSize < names.absUnicodename.length
  let absOffset := if long then s.nextblockOffset else defBatOffsetParent - 512
  let relOffset := if long then s.nextblockOffset + absOffset * sectorSize else s.nextblockOffset
  let s := { s with nextblockOffset := relOffset + 128 * sectorSize }
  let s := s.writeFile absOffset names.absUnicodename
  let s := s.writeFile relOffset names.relUnicodename
  let s := s.writeFile defDynamicHeaderOffset (dynamicheaderBytes defBatOffsetParent s.bat.length
    s.blocksize (parentBytes parent names absOffset relOffset))
  s.writeBat.2.writeFooter

def readFooter (file : StoredFile) : Option (List UInt8) :=
  let footer := file.read (file.size - 512) 512
  let header := file.read 0 512
  if footer.length ≠ 512 then none
  else if checksumOk footerChecksum footer then some footer
  else if header.length = 512 ∧ checksumOk footerChecksum header then some header
  else none

def readBat (file : StoredFile) (batOffset batsize : Nat) : Option (List Nat) :=
  let bytes := file.read batOffset (4 * batsize % 2 ^ 32)
  if bytes.length = 4 * batsize then
    some ((List.range batsize).map fun i => ofBigEndian ((bytes.drop (4 * i)).take 4))
  else none

/-- A file that is opened: its parent is opened for reading, where its name leads to. -/
def openExisting (readOnly compressed fastMode : Bool) : List StoredFile → Option (List VHDFile)
  | [] => none
  | file :: files => do
      let footer ← readFooter file
      let diskType := field 60 4 footer
      let header := file.read (field 16 8 footer) 1024
      let blocksize := field 32 4 header
      if h : field 12 4 footer = 0x00010000 ∧ (diskType = 3 ∨ diskType = 4) ∧
          header.length = 1024 ∧ checksumOk dynamicheaderChecksum header ∧ 0 < blocksize then
        let parent ← if diskType = 4 then openExisting true compressed false files else some []
        if diskType = 4 ∧ parent.head?.map getUID ≠ some ((header.drop 40).take 16) then none
        else
          let bat ← readBat file (field 16 8 header) (field 28 4 header)
          some ({ readOnly, compressed, fastMode, file
                  dstsize := field 48 8 footer
                  blocksize
                  blocksize_pos := h.2.2.2.2
                  footer, bat
                  batOffset := field 16 8 header
                  nextblockOffset := file.size - sectorSize +
                    if (file.size - sectorSize) % sectorSize ≠ 0 then
                      sectorSize - (file.size - sectorSize) % sectorSize
                    else 0
                  bitmap := fun _ => 0
                  currblock := noBlock
                  currOffset := 0
                  bitmapOffset := 0
                  bitmapDirty := false
                  finished := false } :: parent)
      else none

end VHDFile

end UrBackup
