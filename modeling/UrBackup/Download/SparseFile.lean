import UrBackup.Lib.ByteStore

/-! A view of a file without its holes. What is written to the view goes around the holes of the
file behind it. -/
namespace UrBackup

/-- A hole. -/
structure SSparseExtent where
  offset : Nat
  size : Nat
  deriving DecidableEq

/-- The file behind the view, with its position. -/
structure BackingFile where
  stored : StoredFile
  pos : Nat

namespace BackingFile

def empty : BackingFile := ⟨.empty, 0⟩

def seek (f : BackingFile) (pos : Nat) : BackingFile := { f with pos := pos }

def write (f : BackingFile) (data : List UInt8) : BackingFile :=
  ⟨f.stored.write f.pos data, f.pos + data.length⟩

def resize (f : BackingFile) (size : Nat) : BackingFile :=
  { f with stored := f.stored.resize size }

end BackingFile

/-- Where the view goes on behind a hole: the place in the view, and in the file. -/
structure SPosMap where
  offset : Nat
  backingOffset : Nat
  deriving DecidableEq

structure SparseFile where
  sparseOffsets : List SPosMap
  seekPos : Nat
  sparseExtentsSize : Nat

namespace SparseFile

def roundUp (numToRound multiple : Nat) : Nat := (numToRound + multiple - 1) / multiple * multiple

def roundDown (numToRound multiple : Nat) : Nat := numToRound / multiple * multiple

/-- The loop over the holes. -/
structure ExtentScan where
  fpos : Nat
  lastOffset : Nat
  maxOffset : Nat
  sparseExtentsSize : Nat
  sparseOffsets : List SPosMap

def ExtentScan.start : ExtentScan := ⟨0, 0, 0, 0, []⟩

def ExtentScan.add (blocksize : Nat) (s : ExtentScan) (currExtent : SSparseExtent) : ExtentScan :=
  let offset := roundUp currExtent.offset blocksize
  let offsetEnd := roundDown (currExtent.offset + currExtent.size) blocksize
  if offset < offsetEnd then
    let fpos := s.fpos + (offset - s.lastOffset)
    { fpos := fpos
      lastOffset := offsetEnd
      maxOffset := max s.maxOffset (currExtent.offset + currExtent.size)
      sparseExtentsSize := s.sparseExtentsSize + (offsetEnd - offset)
      sparseOffsets := s.sparseOffsets ++ [⟨fpos, offsetEnd⟩] }
  else s

def backingStart : List SPosMap → Nat
  | ⟨0, backingOffset⟩ :: _ => backingOffset
  | _ => 0

def initWithSparseExtents (backingFile : BackingFile) (sparseExtents : List SSparseExtent)
    (blocksize : Nat) : SparseFile × BackingFile :=
  let scan := sparseExtents.foldl (ExtentScan.add blocksize) .start
  let resized :=
    if backingFile.stored.size < scan.maxOffset then backingFile.resize scan.maxOffset
    else backingFile
  (⟨scan.sparseOffsets, 0, scan.sparseExtentsSize⟩, resized.seek (backingStart scan.sparseOffsets))

/-- `upper_bound` -/
def nextBackingOffset (f : SparseFile) : Option SPosMap :=
  f.sparseOffsets.find? fun p => decide (f.seekPos < p.offset)

/-- `lower_bound` -/
def lastBackingOffset (f : SparseFile) (offset : Nat) : Option SPosMap :=
  f.sparseOffsets.find? fun p => decide (offset ≤ p.offset)

def mapToBackingOffset (f : SparseFile) (offset : Nat) : Nat :=
  match f.lastBackingOffset offset with
  | none => offset
  | some last => last.backingOffset + offset - last.offset

def seek (f : SparseFile) (backingFile : BackingFile) (spos : Nat) : SparseFile × BackingFile :=
  ({ f with seekPos := spos }, backingFile.seek (f.mapToBackingOffset spos))

/-- `mappedOrigOp` for writes. Every turn but the last ends at a hole, so there are at most as many
as there is data. -/
def mappedWrite : Nat → SparseFile → BackingFile → List UInt8 → SparseFile × BackingFile
  | 0, f, backingFile, _ => (f, backingFile)
  | turns + 1, f, backingFile, data =>
    if data.isEmpty then (f, backingFile)
    else
      match f.nextBackingOffset with
      | none =>
        ({ f with seekPos := f.seekPos + data.length }, backingFile.write data)
      | some next =>
        let maxSize := min data.length (next.offset - f.seekPos)
        let f := { f with seekPos := f.seekPos + maxSize }
        let backingFile := backingFile.write (data.take maxSize)
        if f.seekPos = next.offset then
          mappedWrite turns f (backingFile.seek next.backingOffset) (data.drop maxSize)
        else (f, backingFile)

end SparseFile

/-- The file that the data of a transfer goes to: the given one, or a view of it. -/
structure DownloadFile where
  backing : BackingFile
  sparse : Option SparseFile

namespace DownloadFile

def ofBacking (backing : BackingFile) : DownloadFile := ⟨backing, none⟩

def write (f : DownloadFile) (data : List UInt8) : DownloadFile :=
  match f.sparse with
  | none => { f with backing := f.backing.write data }
  | some sparse =>
    let (sparse, backing) := sparse.mappedWrite data.length f.backing data
    ⟨backing, some sparse⟩

def seek (f : DownloadFile) (spos : Nat) : DownloadFile :=
  match f.sparse with
  | none => { f with backing := f.backing.seek spos }
  | some sparse =>
    let (sparse, backing) := sparse.seek f.backing spos
    ⟨backing, some sparse⟩

def openSparse (f : DownloadFile) (sparseExtents : List SSparseExtent) : DownloadFile :=
  let (sparse, backing) := SparseFile.initWithSparseExtents f.backing sparseExtents 1
  ⟨backing, some sparse⟩

end DownloadFile

end UrBackup
