import UrBackup.Hash.Adler32
import UrBackup.Lib.ByteOrder

/-! The hash of a file as a tree: a leaf for each block of 512KB, made of its digest and of twelve
checksums, and digests of the digests above the leaves. -/
namespace UrBackup

open ByteOrder

def treehashBlocksize : Nat := 512 * 1024

def treehashSmallblock : Nat := 4096

def maxLevelSize : Nat := 16

/-- The digests of what was put into a stream. -/
structure Digests where
  md5 : List UInt8 → Vector UInt8 16
  sha512 : List UInt8 → Vector UInt8 64

abbrev HashLevel := List (List UInt8)

/-- The streams are given by what was put into them. -/
structure TreeHash where
  hasSparse : Bool
  sparse : List UInt8
  md5sum : List UInt8
  adlers : Vector UInt32 12
  offset : Nat
  hashAllAdlers : List UInt8
  /-- What the hash output was given, if there is one. -/
  hashOutput : Option (List (Nat × List UInt8))
  hashPos : Nat
  levelHash : List HashLevel
  deriving DecidableEq, Repr

/-- `memcpy` into a buffer. -/
def copyTo (pos : Nat) (data buf : List UInt8) : List UInt8 :=
  buf.take pos ++ data ++ buf.drop (pos + data.length)

def adlerBytes (adler : UInt32) : List UInt8 := littleEndian 4 adler.toNat

namespace TreeHash

def initAdlers : Vector UInt32 12 := Vector.replicate 12 (urbAdler32 0 none)

def new (withOutput : Bool) : TreeHash where
  hasSparse := false
  sparse := []
  md5sum := []
  adlers := initAdlers
  offset := 0
  hashAllAdlers := if withOutput then List.replicate 528 0 else []
  hashOutput := if withOutput then some [] else none
  hashPos := 0
  levelHash := [[]]

/-- The loop of `addHash` over the levels, with what the level before has left for the next one. -/
def addLevels (sha512 : List UInt8 → Vector UInt8 64) (carry : HashLevel) : List HashLevel → List HashLevel
  | [] => if carry = [] then [] else [carry]
  | level :: rest =>
    let level := level ++ carry
    if level.length = maxLevelSize then [] :: addLevels sha512 [(sha512 level.flatten).toList] rest
    else level :: addLevels sha512 [] rest

def addHash (d : Digests) (h : List UInt8) (hashedSize : Nat) (t : TreeHash) : TreeHash :=
  { t with levelHash := addLevels d.sha512 [h] t.levelHash, hashPos := t.hashPos + hashedSize }

def leaf (d : Digests) (t : TreeHash) : List UInt8 :=
  (d.md5 t.md5sum).toList ++ t.adlers.toList.flatMap adlerBytes

def finalizeCurr (d : Digests) (t : TreeHash) : TreeHash :=
  let h := leaf d t
  let t :=
    match t.hashOutput with
    | some out =>
      let all := copyTo 0 (d.md5 t.md5sum).toList t.hashAllAdlers
      { t with hashAllAdlers := all, hashOutput := some (out ++ [(t.hashPos, all)]) }
    | none => t
  { addHash d h 0 t with md5sum := [], adlers := initAdlers }

def adlerIdx (i : Nat) : Fin 12 := ⟨i / treehashSmallblock % 12, Nat.mod_lt _ (by decide)⟩

def tohash (i offsetEnd offset : Nat) : Nat :=
  let n := min treehashSmallblock (offsetEnd - i)
  if offset % treehashSmallblock ≠ 0 then min n (treehashSmallblock - offset % treehashSmallblock) else n

def hashAdlers (i : Nat) (data : List UInt8) (t : TreeHash) : TreeHash :=
  if t.hashOutput.isSome then
    let adlerCurr := urbAdler32 (urbAdler32 0 none) (some data)
    let adler := urbAdler32Combine (t.adlers.get (adlerIdx i)) adlerCurr (UInt32.ofNat data.length)
    let all := copyTo (16 + i / treehashSmallblock * 4) (adlerBytes adlerCurr) t.hashAllAdlers
    { t with adlers := t.adlers.set (adlerIdx i) adler, hashAllAdlers := all }
  else
    let adler := urbAdler32 (t.adlers.get (adlerIdx i)) (some data)
    { t with adlers := t.adlers.set (adlerIdx i) adler }

def advance (data : List UInt8) (t : TreeHash) : TreeHash :=
  { t with
    md5sum := t.md5sum ++ data
    offset := t.offset + data.length
    hashPos := t.hashPos + data.length }

/-- The loop of `hash`. Its index does not follow the offset. -/
def hashLoop (d : Digests) : (fuel : Nat) → (i offsetEnd : Nat) → (buf : List UInt8) → TreeHash → TreeHash
  | 0, _, _, _, t => t
  | fuel + 1, i, offsetEnd, buf, t =>
    if i < offsetEnd then
      let n := tohash i offsetEnd t.offset
      let t := (t.hashAdlers i (buf.take n)).advance (buf.take n)
      if t.offset = treehashBlocksize then
        hashLoop d fuel (i + treehashSmallblock)
          (if treehashBlocksize < offsetEnd then offsetEnd - treehashBlocksize else offsetEnd)
          (buf.drop n) (finalizeCurr d { t with offset := 0 })
      else hashLoop d fuel (i + treehashSmallblock) offsetEnd (buf.drop n) t
    else t

def hash (d : Digests) (t : TreeHash) (buf : List UInt8) : TreeHash :=
  hashLoop d buf.length t.offset ((t.offset + buf.length) % 2 ^ 32) buf t

def collapse (sha512 : List UInt8 → Vector UInt8 64) (carry : HashLevel) : List HashLevel → HashLevel
  | [] => carry
  | [last] => last ++ carry
  | level :: rest =>
    let level := level ++ carry
    collapse sha512 (if level = [] then [] else [(sha512 level.flatten).toList]) rest

def finalize (d : Digests) (t : TreeHash) : List UInt8 :=
  let t := if t.offset ≠ 0 then finalizeCurr d { t with offset := 0 } else t
  if t.levelHash = [[]] then (d.sha512 []).toList
  else
    let last := collapse d.sha512 [] t.levelHash
    let treeHash := if 1 < last.length then (d.sha512 last.flatten).toList else last.headD []
    if t.hasSparse then (d.sha512 (t.sparse ++ treeHash)).toList else treeHash

def allAdler (h : List UInt8) (i : Nat) : UInt32 :=
  UInt32.ofNat (ofLittleEndian ((h.drop (16 + i * 4)).take 4))

/-- The length of the data of a checksum, of which the last one may have fewer. -/
def adlerLength (numAdlers hashedSize i : Nat) : Nat :=
  if i + 1 = numAdlers ∧ hashedSize % treehashSmallblock ≠ 0 then hashedSize % treehashSmallblock
  else treehashSmallblock

def combineAdler (h : List UInt8) (numAdlers hashedSize : Nat) (adlers : Vector UInt32 12) (i : Nat) :
    Vector UInt32 12 :=
  let idx : Fin 12 := ⟨i % 12, Nat.mod_lt _ (by decide)⟩
  let currLen2 := UInt32.ofNat (adlerLength numAdlers hashedSize i)
  adlers.set idx (urbAdler32Combine (adlers.get idx) (allAdler h i) currLen2)

def combineAdlers (h : List UInt8) (numAdlers hashedSize : Nat) (adlers : Vector UInt32 12) :
    Vector UInt32 12 :=
  (List.range' 12 (numAdlers - 12)).foldl (combineAdler h numAdlers hashedSize) adlers

def allAdlerTo64byteHash (h : List UInt8) (hashedSize : Nat) : List UInt8 :=
  let numAdlers := (h.length - 16) / 4
  let first := Vector.ofFn fun i : Fin 12 =>
    if numAdlers ≤ i then urbAdler32 0 none else allAdler h i
  h.take 16 ++ (combineAdlers h numAdlers hashedSize first).toList.flatMap adlerBytes

end TreeHash

end UrBackup
