import UrBackup.Lib.BitStore

/-! A disk image in a file that shares its blocks with others: the bitmap of the blocks that are
used. -/
namespace UrBackup

namespace CowFile

def blocksize : Nat := 4096

end CowFile

/-- An open file. What it holds is left to the file system. -/
structure CowFile where
  filesize : Nat
  currOffset : Nat
  bitmap : List UInt8
  deriving DecidableEq, Repr

/-- How the blocks of a range are given back: the range is punched out, or zeros are written over it,
with what each write returns. -/
inductive Trim
  | punch (ok : Bool)
  | zeros (results : List (Option Nat))
  deriving DecidableEq, Repr

namespace CowFile

variable (f : CowFile)

def nBlocks (filesize : Nat) : Nat :=
  filesize / blocksize + if 0 < filesize % blocksize then 1 else 0

def nBits (filesize : Nat) : Nat :=
  nBlocks filesize / 8 + if 0 < nBlocks filesize % 8 then 1 else 0

def resizeBitmap : CowFile :=
  if f.bitmap.length < nBits f.filesize then
    { f with bitmap := f.bitmap ++ List.replicate (nBits f.filesize - f.bitmap.length) 0 }
  else f

def opened (filesize : Nat) (bitmap : List UInt8) : CowFile := resizeBitmap ⟨filesize, 0, bitmap⟩

def bits : ByteStore := fun i => f.bitmap.getD i 0

def isBitmapSet (offset : Nat) : Bool := f.bits.bit (offset / blocksize)

def setBitmapBit (offset : Nat) (v : Bool) : CowFile :=
  let block := offset / blocksize
  let b := f.bitmap.getD (block / 8) 0
  let b := if v then b ||| ByteStore.mask block else b &&& ~~~ByteStore.mask block
  { f with bitmap := f.bitmap.set (block / 8) b }

def setBitmapRange (offsetStart offsetEnd : Nat) (v : Bool) : CowFile :=
  (List.range' (offsetStart / blocksize) (offsetEnd / blocksize - offsetStart / blocksize)).foldl
    (fun f block => f.setBitmapBit (block * blocksize) v) f

def seek (offset : Nat) : CowFile := { f with currOffset := offset }

/-- A write with what the system call returns: the number of bytes written, or nothing. -/
def write (w : Option Nat) : Nat × CowFile :=
  match w with
  | none => (0, f)
  | some w =>
    let f' := if f.filesize < f.currOffset + w then
        resizeBitmap { f with filesize := f.currOffset + w } else f
    let f' := f'.setBitmapRange f.currOffset (f.currOffset + w) true
    (w, { f' with currOffset := f.currOffset + w })

def zeroBufSize : Nat := 32768

/-- The loop that writes zeros over a range. It has no result if the system calls are not those of
a run. -/
def writeZeros (size : Nat) : (written : Nat) → List (Option Nat) → CowFile → Option (Bool × CowFile)
  | written, [], f => if written < size then none else some (true, f)
  | written, w :: results, f =>
    if written < size then
      let towrite := min (size - written) zeroBufSize
      if w.getD 0 ≤ towrite then
        let (n, f) := f.write w
        if n ≠ towrite then some (false, f) else writeZeros size (written + towrite) results f
      else none
    else some (true, f)

def clip (unusedStart unusedEnd : Nat) : Nat :=
  if f.filesize < unusedEnd ∧ unusedStart < f.filesize then f.filesize else unusedEnd

def trim (unusedStart unusedEnd : Nat) : Trim → Option (Bool × CowFile)
  | .punch ok => some (ok, f)
  | .zeros results => (f.seek unusedStart).writeZeros (unusedEnd - unusedStart) 0 results

def setUnused (unusedStart unusedEnd : Nat) (how : Trim) : Option (Bool × CowFile) :=
  if f.filesize ≤ unusedStart then some (true, f)
  else
    let unusedEnd := f.clip unusedStart unusedEnd
    (f.trim unusedStart unusedEnd how).map fun (ok, f') =>
      (ok, (if ok then f'.setBitmapRange unusedStart unusedEnd false else f').seek f.currOffset)

section Narrow

/-- The first loop, from the start of the range up to a block that is set, with the offsets at
which it reads the bitmap. -/
def narrowStart (offsetEnd : Nat) : (fuel : Nat) → (offsetStart : Nat) → Bool × Nat × List Nat
  | 0, offsetStart => (false, offsetStart, [])
  | fuel + 1, offsetStart =>
    if offsetStart < offsetEnd then
      if f.isBitmapSet offsetStart then (true, offsetStart, [offsetStart])
      else
        let (ret, start, reads) := narrowStart offsetEnd fuel (offsetStart + blocksize)
        (ret, start, offsetStart :: reads)
    else (false, offsetStart, [])

def narrowEnd (offsetStart : Nat) : (fuel : Nat) → (offsetEnd : Nat) → Nat × List Nat
  | 0, offsetEnd => (offsetEnd, [])
  | fuel + 1, offsetEnd =>
    if offsetStart < offsetEnd then
      if f.isBitmapSet offsetEnd then (offsetEnd, [offsetEnd])
      else
        let (stop, reads) := narrowEnd offsetStart fuel (offsetEnd - blocksize)
        (stop, offsetEnd :: reads)
    else (offsetEnd, [])

structure Narrowed where
  ret : Bool
  offsetStart : Nat
  offsetEnd : Nat
  /-- The offsets at which the bitmap was read. -/
  reads : List Nat
  deriving DecidableEq, Repr

def roundUp (offset : Nat) : Nat :=
  if offset % blocksize ≠ 0 then (offset / blocksize + 1) * blocksize else offset

def hasBitmapRangeNarrow (offsetStart offsetEnd trimBlocksize : Nat) : Narrowed :=
  let (ret, start, reads) := f.narrowStart (roundUp offsetEnd) (roundUp offsetEnd)
    (offsetStart / blocksize * blocksize)
  let (stop, reads') :=
    if ret then f.narrowEnd start (roundUp offsetEnd) (roundUp offsetEnd)
    else (roundUp offsetEnd, [])
  let start := start / trimBlocksize * trimBlocksize
  let start := if start < offsetStart then offsetStart else start
  let stop :=
    if stop % trimBlocksize ≠ 0 then
      let stop := (stop / trimBlocksize + 1) * trimBlocksize
      if offsetEnd < stop then offsetEnd else stop
    else stop
  ⟨ret, start, stop, reads ++ reads'⟩

end Narrow

end CowFile

end UrBackup
