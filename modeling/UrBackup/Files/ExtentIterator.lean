import UrBackup.Lib.OrderedMap
import UrBackup.Patch.ChunkPatcher

/-! The iteration over the holes of a file, shrunk to whole blocks: from the list of holes that a
client sent, and from the file system. -/
namespace UrBackup

namespace Extents

open ByteOrder

/-- An extent without an offset says that there are no more. -/
structure SSparseExtent where
  offset : Int
  size : Int
  deriving DecidableEq

def noExtent : SSparseExtent := ⟨-1, -1⟩

def wrapped (x : Int) : Int := x.bmod (2 ^ 64)

def roundUp (numToRound multiple : Int) : Int :=
  (wrapped (numToRound + multiple - 1)).tdiv multiple * multiple

def roundDown (numToRound multiple : Int) : Int := numToRound.tdiv multiple * multiple

/-- `ret_end` in both iterators. -/
def retEnd (blocksize : Int) (ret : SSparseExtent) : Int :=
  roundDown (wrapped (ret.offset + ret.size)) blocksize

def roundExtent (blocksize : Int) (ret : SSparseExtent) : SSparseExtent where
  offset := roundUp ret.offset blocksize
  size := wrapped (retEnd blocksize ret - roundUp ret.offset blocksize)

def seesBlock (blocksize : Int) (ret : SSparseExtent) : Bool :=
  roundUp ret.offset blocksize < retEnd blocksize ret

structure ExtentIterator where
  sparseExtentsF : Option ReadFile
  numSparseExtents : Int
  nextSparseExtentNum : Int
  blocksize : Int

namespace ExtentIterator

def start (sparseExtentsF : Option ReadFile) (blocksize : Int) : ExtentIterator where
  sparseExtentsF := sparseExtentsF.map fun f => f.seek 0
  numSparseExtents := -1
  nextSparseExtentNum := 0
  blocksize := blocksize

def readNum (it : ExtentIterator) : ExtentIterator :=
  if it.numSparseExtents = -1 then
    match it.sparseExtentsF with
    | none => { it with numSparseExtents := 0 }
    | some f =>
      { it with
        sparseExtentsF := some (f.advance 8)
        numSparseExtents := if (f.next 8).length = 8 then int64 (f.next 8) else 0 }
  else it

def readExtent (f : ReadFile) : SSparseExtent :=
  ⟨int64 ((f.next 16).take 8), int64 ((f.next 16).drop 8)⟩

/-- The loop, for at most as many turns as there are extents left. Without a file there are none. An
extent without a whole block leaves its offset in `ret`, which ends the loop. -/
def nextLoop : Nat → SSparseExtent → ExtentIterator → SSparseExtent × ExtentIterator
  | 0, _, it => (noExtent, it)
  | n + 1, ret, it =>
    if it.nextSparseExtentNum < it.numSparseExtents ∧ ret.offset = -1 then
      match it.sparseExtentsF with
      | none => (noExtent, it)
      | some f =>
        let it := { it with sparseExtentsF := some (f.advance 16) }
        if (f.next 16).length ≠ 16 then (noExtent, { it with numSparseExtents := 0 })
        else
          let it := { it with nextSparseExtentNum := it.nextSparseExtentNum + 1 }
          let ret := readExtent f
          if seesBlock it.blocksize ret then (roundExtent it.blocksize ret, it)
          else nextLoop n { ret with offset := roundUp ret.offset it.blocksize } it
    else (noExtent, it)

def nextExtent (it : ExtentIterator) : SSparseExtent × ExtentIterator :=
  let it := it.readNum
  nextLoop (it.numSparseExtents - it.nextSparseExtentNum).toNat noExtent it

def reset (it : ExtentIterator) : ExtentIterator :=
  { it with
    numSparseExtents := -1
    nextSparseExtentNum := 0
    sparseExtentsF := it.sparseExtentsF.map fun f => f.seek 0 }

end ExtentIterator

/-- A file that tells its holes, and those that it has not told yet. -/
structure BackingFile where
  extents : List SSparseExtent
  left : List SSparseExtent

namespace BackingFile

def resetSparseExtentIter (f : BackingFile) : BackingFile := { f with left := f.extents }

def nextSparseExtent (f : BackingFile) : SSparseExtent × BackingFile :=
  (f.left.headD noExtent, { f with left := f.left.tail })

end BackingFile

structure FsExtentIterator where
  backingFile : BackingFile
  blocksize : Int

namespace FsExtentIterator

def start (backingFile : BackingFile) (blocksize : Int) : FsExtentIterator where
  backingFile := backingFile.resetSparseExtentIter
  blocksize := blocksize

def nextLoop (blocksize : Int) : Nat → BackingFile → SSparseExtent × BackingFile
  | 0, f => f.nextSparseExtent
  | n + 1, f =>
    let (next, f) := f.nextSparseExtent
    if next.offset = -1 then (next, f)
    else if seesBlock blocksize next then (roundExtent blocksize next, f)
    else nextLoop blocksize n f

def nextExtent (it : FsExtentIterator) : SSparseExtent × FsExtentIterator :=
  let (next, f) := nextLoop it.blocksize it.backingFile.left.length it.backingFile
  (next, { it with backingFile := f })

def reset (it : FsExtentIterator) : FsExtentIterator :=
  { it with backingFile := it.backingFile.resetSparseExtentIter }

end FsExtentIterator

/-- What the calls of an iterator give until one gives no extent. -/
inductive Yields {σ : Type} (next : σ → SSparseExtent × σ) : σ → List SSparseExtent → Prop where
  | stop {s} (h : (next s).1.offset = -1) : Yields next s []
  | more {s xs} (h : (next s).1.offset ≠ -1) (hrest : Yields next (next s).2 xs) :
      Yields next s ((next s).1 :: xs)

theorem Yields.unique {σ : Type} {next : σ → SSparseExtent × σ} {s : σ} {xs ys : List SSparseExtent}
    (h : Yields next s xs) (h' : Yields next s ys) : xs = ys := by
  induction h generalizing ys with
  | stop h =>
    cases h' with
    | stop => rfl
    | more hne => exact absurd h hne
  | more h _ ih =>
    cases h' with
    | stop hend => exact absurd hend h
    | more _ hrest => rw [ih hrest]

theorem Yields.congr {σ : Type} {next : σ → SSparseExtent × σ} {s s' : σ} {xs : List SSparseExtent}
    (h : next s = next s') (hy : Yields next s xs) : Yields next s' xs := by
  cases hy with
  | stop hend => exact .stop (h ▸ hend)
  | more hne hrest =>
    rw [h]
    exact .more (h ▸ hne) (h ▸ hrest)

/-! ### What the iterators are for -/

structure BlockSize where
  bytes : Int
  pos : 0 < bytes
  lt : bytes < 2 ^ 63

/-- The holes of a file as they are sent: each in the range of file positions, one behind the
other. -/
structure SparseExtents where
  extents : List SSparseExtent
  range : ∀ x ∈ extents, 0 ≤ x.offset ∧ 0 ≤ x.size ∧ x.offset + x.size < 2 ^ 63
  ascending : extents.Pairwise fun x y => x.offset + x.size ≤ y.offset
  count : extents.length < 2 ^ 63

def blockStart (blocksize : Int) (x : SSparseExtent) : Int :=
  (x.offset + blocksize - 1) / blocksize * blocksize

def blockEnd (blocksize : Int) (x : SSparseExtent) : Int :=
  (x.offset + x.size) / blocksize * blocksize

def HasBlock (blocksize : Int) (x : SSparseExtent) : Prop :=
  blockStart blocksize x < blockEnd blocksize x

instance (blocksize : Int) : DecidablePred (HasBlock blocksize) := fun _ => Int.decLt _ _

def shrunkTo (blocksize : Int) (x : SSparseExtent) : SSparseExtent where
  offset := blockStart blocksize x
  size := blockEnd blocksize x - blockStart blocksize x

namespace SparseExtents

variable (xs : SparseExtents) (bs : BlockSize)

def extentBytes (x : SSparseExtent) : List UInt8 :=
  littleEndian 8 x.offset.toNat ++ littleEndian 8 x.size.toNat

def content : List UInt8 := littleEndian 8 xs.extents.length ++ xs.extents.flatMap extentBytes

def whole : List SSparseExtent :=
  (xs.extents.filter (HasBlock bs.bytes)).map (shrunkTo bs.bytes)

end SparseExtents

/-! ### Boundaries of blocks -/

section Boundaries

variable {xs : SparseExtents} {bs : BlockSize} {x : SSparseExtent}

theorem offset_le_blockStart (bs : BlockSize) (x : SSparseExtent) :
    x.offset ≤ blockStart bs.bytes x := by
  have h := Int.lt_ediv_add_one_mul_self (x.offset + bs.bytes - 1) bs.pos
  rw [add_mul, one_mul] at h
  unfold blockStart
  omega

theorem blockEnd_le (bs : BlockSize) (x : SSparseExtent) :
    blockEnd bs.bytes x ≤ x.offset + x.size := Int.ediv_mul_le _ bs.pos.ne'

theorem add_le_of_mul_lt {b k l : Int} (hb : 0 < b) (h : k * b < l * b) : k * b + b ≤ l * b := by
  have hkl : k + 1 ≤ l := Int.add_one_le_iff.mpr (Int.lt_of_mul_lt_mul_right h hb.le)
  calc k * b + b = (k + 1) * b := by rw [add_mul, one_mul]
    _ ≤ l * b := Int.mul_le_mul_of_nonneg_right hkl hb.le

theorem wrapped_of_lt {n : Int} (h : 0 ≤ n) (h' : n < 2 ^ 63) : wrapped n = n :=
  Int.bmod_eq_of_le (by omega) (by omega)

theorem retEnd_eq (h : 0 ≤ x.offset ∧ 0 ≤ x.size ∧ x.offset + x.size < 2 ^ 63) :
    retEnd bs.bytes x = blockEnd bs.bytes x := by
  rw [retEnd, roundDown, wrapped_of_lt (by omega) h.2.2,
    Int.tdiv_eq_ediv_of_nonneg (by omega)]
  rfl

/-- The iterators round up right, unless the numbers become too large. -/
theorem roundUp_eq (h : 0 ≤ x.offset) (hlt : x.offset + bs.bytes - 1 < 2 ^ 63) :
    roundUp x.offset bs.bytes = blockStart bs.bytes x := by
  have hpos := bs.pos
  rw [roundUp, wrapped_of_lt (by omega) hlt, Int.tdiv_eq_ediv_of_nonneg (by omega)]
  rfl

theorem roundUp_ne (h : 0 ≤ x.offset) (hlt : x.offset < 2 ^ 63) :
    roundUp x.offset bs.bytes ≠ -1 := by
  intro hminus
  have hdvd : bs.bytes ∣ 1 := Int.dvd_neg.mp ⟨_, (hminus.symm.trans (mul_comm _ _))⟩
  have hone : bs.bytes = 1 := Int.eq_one_of_dvd_one bs.pos.le hdvd
  rw [roundUp, hone, wrapped_of_lt (by omega) (by omega), Int.tdiv_one] at hminus
  omega

theorem HasBlock.seen (h : 0 ≤ x.offset ∧ 0 ≤ x.size ∧ x.offset + x.size < 2 ^ 63)
    (hblock : HasBlock bs.bytes x) :
    seesBlock bs.bytes x = true ∧ roundExtent bs.bytes x = shrunkTo bs.bytes x := by
  have hstart := offset_le_blockStart bs x
  have hend := blockEnd_le bs x
  have hstep : blockStart bs.bytes x + bs.bytes ≤ blockEnd bs.bytes x :=
    add_le_of_mul_lt bs.pos hblock
  have hpos := bs.pos
  have hround := @roundUp_eq bs x h.1 (by omega)
  constructor
  · rw [seesBlock, hround, retEnd_eq h]
    exact decide_eq_true hblock
  · rw [roundExtent, hround, retEnd_eq h, wrapped_of_lt (by omega) (by omega)]
    rfl

end Boundaries

/-! ### The calls of the iterators -/

section Calls

variable {xs : SparseExtents} {bs : BlockSize} {x : SSparseExtent} {rest : List SSparseExtent}
  {it : ExtentIterator}

theorem int64_littleEndian {n : Nat} (h : n < 2 ^ 63) : int64 (littleEndian 8 n) = n := by
  have hround : ofLittleEndian (littleEndian 8 n) = n := ofLittleEndian_littleEndian (by omega)
  rw [int64, hround, if_pos h]

/-- The number of extents is read, and the file stands in front of those that are left. -/
structure Reading (xs : SparseExtents) (bs : BlockSize) (rest : List SSparseExtent)
    (it : ExtentIterator) : Prop where
  file : ∃ f, it.sparseExtentsF = some f ∧ f.content = xs.content ∧
    f.content.drop f.pos = rest.flatMap SparseExtents.extentBytes
  suffix : rest <:+ xs.extents
  left : it.numSparseExtents = it.nextSparseExtentNum + rest.length
  num : 0 ≤ it.nextSparseExtentNum
  blocksize : it.blocksize = bs.bytes

/-- An iterator over the file of the extents that has not begun, or begins again. -/
structure Fresh (xs : SparseExtents) (bs : BlockSize) (it : ExtentIterator) : Prop where
  file : it.sparseExtentsF = some ⟨xs.content, 0⟩
  unread : it.numSparseExtents = -1
  num : it.nextSparseExtentNum = 0
  blocksize : it.blocksize = bs.bytes

theorem Fresh.readNum (h : Fresh xs bs it) : Reading xs bs xs.extents it.readNum := by
  let f : ReadFile := ⟨xs.content, 0⟩
  have hdrop : f.content.drop f.pos =
      littleEndian 8 xs.extents.length ++ xs.extents.flatMap SparseExtents.extentBytes := rfl
  have hnext : f.next 8 = littleEndian 8 xs.extents.length :=
    ReadFile.next_of_drop hdrop (littleEndian_length 8 _).symm
  have hread : it.readNum = { it with
      sparseExtentsF := some (f.advance 8)
      numSparseExtents := xs.extents.length } := by
    unfold ExtentIterator.readNum
    rw [if_pos h.unread, h.file]
    simp only [show ReadFile.mk xs.content 0 = f from rfl, hnext, littleEndian_length,
      int64_littleEndian xs.count, if_true]
  rw [hread]
  exact ⟨⟨f.advance 8, rfl, rfl, ReadFile.drop_advance hdrop (littleEndian_length 8 _).symm⟩,
    List.suffix_rfl, by simp [h.num], h.num.ge, h.blocksize⟩

theorem Reading.readNum (h : Reading xs bs rest it) : it.readNum = it := by
  have hnum := h.num
  have hleft := h.left
  exact if_neg (by omega)

theorem readExtent_eq {f : ReadFile} {bytes : List UInt8}
    (h : 0 ≤ x.offset ∧ 0 ≤ x.size ∧ x.offset + x.size < 2 ^ 63)
    (hdrop : f.content.drop f.pos = SparseExtents.extentBytes x ++ bytes) :
    (f.next 16).length = 16 ∧ ExtentIterator.readExtent f = x := by
  have hlength : (SparseExtents.extentBytes x).length = 16 := by
    simp [SparseExtents.extentBytes]
  have hnext := ReadFile.next_of_drop hdrop hlength.symm
  refine ⟨hnext ▸ hlength, ?_⟩
  rw [ExtentIterator.readExtent, hnext, SparseExtents.extentBytes,
    List.take_left' (littleEndian_length 8 _), List.drop_left' (littleEndian_length 8 _),
    int64_littleEndian (by omega), int64_littleEndian (by omega), Int.toNat_of_nonneg h.1,
    Int.toNat_of_nonneg h.2.1]

theorem Reading.next_nil (h : Reading xs bs [] it) : it.nextExtent = (noExtent, it) := by
  have hleft : it.numSparseExtents - it.nextSparseExtentNum = 0 := by
    have hsame := h.left
    simp only [List.length_nil] at hsame
    omega
  simp only [ExtentIterator.nextExtent, h.readNum, hleft]
  rfl

theorem Reading.next_cons (h : Reading xs bs (x :: rest) it) : ∃ it', Reading xs bs rest it' ∧
    it.nextExtent =
      (if seesBlock bs.bytes x then roundExtent bs.bytes x else noExtent, it') := by
  obtain ⟨f, hf, hcontent, hdrop⟩ := h.file
  have hrange := xs.range x (h.suffix.mem List.mem_cons_self)
  obtain ⟨hlength, hread⟩ := readExtent_eq hrange (List.flatMap_cons ▸ hdrop)
  have hleft := h.left
  rw [List.length_cons] at hleft
  have hturns : (it.numSparseExtents - it.nextSparseExtentNum).toNat = rest.length + 1 := by omega
  have hadvance : (f.advance 16).content.drop (f.advance 16).pos =
      rest.flatMap SparseExtents.extentBytes := by
    apply ReadFile.drop_advance (List.flatMap_cons ▸ hdrop)
    simp [SparseExtents.extentBytes]
  refine ⟨{ it with
    sparseExtentsF := some (f.advance 16)
    nextSparseExtentNum := it.nextSparseExtentNum + 1 },
    ⟨⟨f.advance 16, rfl, hcontent, hadvance⟩, (List.suffix_cons x rest).trans h.suffix,
      by simp only; omega, by have := h.num; simp only; omega, h.blocksize⟩, ?_⟩
  simp only [ExtentIterator.nextExtent, h.readNum, hturns, ExtentIterator.nextLoop]
  rw [if_pos ⟨by omega, rfl⟩, hf]
  simp only [hlength, hread, h.blocksize, ne_eq, not_true_eq_false, if_false]
  split
  · rfl
  · -- the offset that the extent left in `ret` is not the one of `noExtent`
    cases rest with
    | nil => rfl
    | cons y rest =>
      have hne := @roundUp_ne bs x hrange.1 (by omega)
      simp only [List.length_cons, ExtentIterator.nextLoop, hne, and_false, if_false]

theorem Reading.yields (h : Reading xs bs rest it) : Yields ExtentIterator.nextExtent it
    ((rest.takeWhile (seesBlock bs.bytes)).map (roundExtent bs.bytes)) := by
  induction rest generalizing it with
  | nil => exact .stop (by rw [h.next_nil]; rfl)
  | cons x rest ih =>
    obtain ⟨it', hreading, hnext⟩ := h.next_cons
    have hrange := xs.range x (h.suffix.mem List.mem_cons_self)
    by_cases hsees : seesBlock bs.bytes x = true
    · rw [if_pos hsees] at hnext
      have hoffset : it.nextExtent.1.offset ≠ -1 := by
        rw [hnext]
        exact roundUp_ne hrange.1 (by omega)
      have hmore := Yields.more hoffset (by rw [hnext]; exact ih hreading)
      rw [hnext] at hmore
      rw [List.takeWhile_cons_of_pos hsees]
      exact hmore
    · rw [List.takeWhile_cons_of_neg hsees]
      rw [if_neg hsees] at hnext
      exact .stop (by rw [hnext]; rfl)

theorem Fresh.yields (h : Fresh xs bs it) : Yields ExtentIterator.nextExtent it
    ((xs.extents.takeWhile (seesBlock bs.bytes)).map (roundExtent bs.bytes)) := by
  have hsame : it.readNum.nextExtent = it.nextExtent := by
    simp only [ExtentIterator.nextExtent, h.readNum.readNum]
  exact h.readNum.yields.congr hsame

/-- The iterator still reads the file of the extents. -/
structure OfFile (xs : SparseExtents) (bs : BlockSize) (it : ExtentIterator) : Prop where
  file : ∃ pos, it.sparseExtentsF = some ⟨xs.content, pos⟩
  blocksize : it.blocksize = bs.bytes

theorem OfFile.readNum (h : OfFile xs bs it) : OfFile xs bs it.readNum := by
  obtain ⟨⟨pos, hf⟩, hb⟩ := h
  unfold ExtentIterator.readNum
  split
  · rw [hf]
    exact ⟨⟨_, rfl⟩, hb⟩
  · exact ⟨⟨pos, hf⟩, hb⟩

theorem OfFile.nextLoop (h : OfFile xs bs it) (n : Nat) (ret : SSparseExtent) :
    OfFile xs bs (ExtentIterator.nextLoop n ret it).2 := by
  induction n generalizing ret it with
  | zero => exact h
  | succ n ih =>
    obtain ⟨⟨pos, hf⟩, hb⟩ := h
    unfold ExtentIterator.nextLoop
    rw [hf]
    dsimp only
    by_cases hturn : it.nextSparseExtentNum < it.numSparseExtents ∧ ret.offset = -1
    · rw [if_pos hturn]
      split_ifs with hread hsees
      · exact ⟨⟨_, rfl⟩, hb⟩
      · exact ⟨⟨_, rfl⟩, hb⟩
      · apply ih
        exact ⟨⟨_, rfl⟩, hb⟩
    · rw [if_neg hturn]
      exact ⟨⟨pos, hf⟩, hb⟩

theorem OfFile.calls (h : OfFile xs bs it) (k : Nat) :
    OfFile xs bs ((fun it => it.nextExtent.2)^[k] it) := by
  induction k generalizing it with
  | zero => exact h
  | succ k ih => exact ih (h.readNum.nextLoop _ _)

theorem OfFile.reset (h : OfFile xs bs it) : Fresh xs bs it.reset := by
  obtain ⟨⟨pos, hf⟩, hb⟩ := h
  exact ⟨by simp [ExtentIterator.reset, hf, ReadFile.seek], rfl, rfl, hb⟩

end Calls

section FsCalls

variable {xs : SparseExtents} {bs : BlockSize} {x : SSparseExtent}
  {all rest : List SSparseExtent}

theorem fsLoop_cons (b : Int) (n : Nat) :
    FsExtentIterator.nextLoop b (n + 1) ⟨all, x :: rest⟩ =
      if x.offset = -1 then (x, ⟨all, rest⟩)
      else if seesBlock b x then (roundExtent b x, ⟨all, rest⟩)
      else FsExtentIterator.nextLoop b n ⟨all, rest⟩ := rfl

theorem fsNext_cons (h : x.offset ≠ -1) :
    FsExtentIterator.nextExtent ⟨⟨all, x :: rest⟩, bs.bytes⟩ =
      if seesBlock bs.bytes x then (roundExtent bs.bytes x, ⟨⟨all, rest⟩, bs.bytes⟩)
      else FsExtentIterator.nextExtent ⟨⟨all, rest⟩, bs.bytes⟩ := by
  simp only [FsExtentIterator.nextExtent, List.length_cons, fsLoop_cons, if_neg h]
  by_cases hsees : seesBlock bs.bytes x = true
  · simp only [if_pos hsees]
  · simp only [if_neg hsees]

theorem fs_yields (hrest : ∀ x ∈ rest, 0 ≤ x.offset ∧ 0 ≤ x.size ∧ x.offset + x.size < 2 ^ 63) :
    Yields FsExtentIterator.nextExtent ⟨⟨all, rest⟩, bs.bytes⟩
      ((rest.filter (seesBlock bs.bytes)).map (roundExtent bs.bytes)) := by
  induction rest with
  | nil => exact .stop rfl
  | cons x rest ih =>
    have hrange := hrest x List.mem_cons_self
    have hyields := ih fun y hy => hrest y (List.mem_cons_of_mem x hy)
    have hnext := @fsNext_cons bs x all rest (by omega)
    by_cases hsees : seesBlock bs.bytes x = true
    · rw [if_pos hsees] at hnext
      have hoffset : (FsExtentIterator.nextExtent ⟨⟨all, x :: rest⟩, bs.bytes⟩).1.offset ≠ -1 := by
        rw [hnext]
        exact roundUp_ne hrange.1 (by omega)
      have hmore := Yields.more hoffset (by rw [hnext]; exact hyields)
      rw [hnext] at hmore
      rw [List.filter_cons_of_pos hsees]
      exact hmore
    · rw [if_neg hsees] at hnext
      rw [List.filter_cons_of_neg hsees]
      exact hyields.congr hnext.symm

theorem nextLoop_extents (b : Int) (n : Nat) (f : BackingFile) :
    (FsExtentIterator.nextLoop b n f).2.extents = f.extents := by
  induction n generalizing f with
  | zero => rfl
  | succ n ih =>
    simp only [FsExtentIterator.nextLoop]
    split_ifs
    · rfl
    · rfl
    · exact ih f.nextSparseExtent.2

theorem fs_calls (k : Nat) (it : FsExtentIterator) :
    (((fun it => it.nextExtent.2)^[k] it).backingFile.extents,
      ((fun it => it.nextExtent.2)^[k] it).blocksize) = (it.backingFile.extents, it.blocksize) := by
  induction k generalizing it with
  | zero => rfl
  | succ k ih => exact (ih it.nextExtent.2).trans (congrArg (·, _) (nextLoop_extents _ _ _))

end FsCalls

/-! ### When nothing is skipped -/

/-- A prefix that is taken while a test holds is as long as what passes it only if all of that comes
first. -/
theorem pairwise_of_takeWhile {α : Type} {p : α → Bool} {ys : List α}
    (h : (ys.filter p).length ≤ (ys.takeWhile p).length) :
    ys.Pairwise fun a b => p b = true → p a = true := by
  induction ys with
  | nil => exact .nil
  | cons y ys ih =>
    by_cases hy : p y = true
    · rw [List.filter_cons_of_pos hy, List.takeWhile_cons_of_pos hy, List.length_cons,
        List.length_cons] at h
      exact .cons (fun _ _ _ => hy) (ih (Nat.le_of_succ_le_succ h))
    · rw [List.filter_cons_of_neg hy, List.takeWhile_cons_of_neg hy, List.length_nil] at h
      have hnone := List.filter_eq_nil_iff.mp (List.length_eq_zero_iff.mp (Nat.le_zero.mp h))
      refine .cons (fun b hb hpb => absurd hpb (hnone b hb)) ?_
      exact ih (by rw [List.filter_eq_nil_iff.mpr hnone]; exact Nat.zero_le _)

namespace SparseExtents

/-- Rounding up the start of an extent does not overflow to a value below its end, and no extent
without a whole block stands in front of one with a whole block. -/
structure Fits (xs : SparseExtents) (bs : BlockSize) : Prop where
  rounds : ∀ x ∈ xs.extents, seesBlock bs.bytes x = true → HasBlock bs.bytes x
  first : xs.extents.Pairwise fun x y => HasBlock bs.bytes y → HasBlock bs.bytes x

variable {xs : SparseExtents} {bs : BlockSize}

theorem filter_hasBlock (hrounds : ∀ x ∈ xs.extents, seesBlock bs.bytes x = true →
    HasBlock bs.bytes x) :
    xs.extents.filter (seesBlock bs.bytes) = xs.extents.filter (HasBlock bs.bytes) := by
  apply List.filter_congr
  intro x hx
  apply Bool.eq_iff_iff.mpr
  rw [decide_eq_true_iff]
  exact ⟨hrounds x hx, fun hblock => (HasBlock.seen (xs.range x hx) hblock).1⟩

theorem whole_eq (hrounds : ∀ x ∈ xs.extents, seesBlock bs.bytes x = true →
    HasBlock bs.bytes x) :
    (xs.extents.filter (seesBlock bs.bytes)).map (roundExtent bs.bytes) = xs.whole bs := by
  rw [filter_hasBlock hrounds, whole]
  apply List.map_congr_left
  intro x hx
  obtain ⟨hx, hblock⟩ := List.mem_filter.mp hx
  exact (HasBlock.seen (xs.range x hx) (of_decide_eq_true hblock)).2

/-- The iterator over the file system gives what it should unless a start overflows. -/
theorem whole_eq_iff :
    (xs.extents.filter (seesBlock bs.bytes)).map (roundExtent bs.bytes) = xs.whole bs ↔
      ∀ x ∈ xs.extents, seesBlock bs.bytes x = true → HasBlock bs.bytes x := by
  refine ⟨fun h x hx hsees => ?_, whole_eq⟩
  have hsub : (xs.extents.filter (HasBlock bs.bytes)).Sublist
      (xs.extents.filter (seesBlock bs.bytes)) := by
    have hfilter : (xs.extents.filter (seesBlock bs.bytes)).filter (HasBlock bs.bytes) =
        xs.extents.filter (HasBlock bs.bytes) := by
      rw [List.filter_filter]
      apply List.filter_congr
      intro y hy
      by_cases hblock : HasBlock bs.bytes y
      · simp [hblock, (hblock.seen (xs.range y hy)).1]
      · simp [hblock]
    exact hfilter ▸ List.filter_sublist
  have hlength : (xs.extents.filter (HasBlock bs.bytes)).length =
      (xs.extents.filter (seesBlock bs.bytes)).length := by
    have hmap := congrArg List.length h
    rw [whole, List.length_map, List.length_map] at hmap
    exact hmap.symm
  have hmem : x ∈ xs.extents.filter (HasBlock bs.bytes) := by
    rw [hsub.eq_of_length hlength]
    exact List.mem_filter.mpr ⟨hx, hsees⟩
  exact of_decide_eq_true (List.mem_filter.mp hmem).2

theorem fits_iff : xs.Fits bs ↔
    (xs.extents.takeWhile (seesBlock bs.bytes)).map (roundExtent bs.bytes) = xs.whole bs ∧
      (xs.extents.filter (seesBlock bs.bytes)).map (roundExtent bs.bytes) = xs.whole bs := by
  have hsees : ∀ (hrounds : ∀ x ∈ xs.extents, seesBlock bs.bytes x = true → HasBlock bs.bytes x),
      ∀ x ∈ xs.extents, seesBlock bs.bytes x = true ↔ HasBlock bs.bytes x := fun hrounds x hx =>
    ⟨hrounds x hx, fun hblock => (hblock.seen (xs.range x hx)).1⟩
  constructor
  · intro h
    have hpairs : xs.extents.Pairwise fun x y =>
        seesBlock bs.bytes y = true → seesBlock bs.bytes x = true := by
      apply h.first.imp_of_mem
      intro x y hx hy hxy
      rw [hsees h.rounds x hx, hsees h.rounds y hy]
      exact hxy
    rw [OrderedMap.takeWhile_eq_filter hpairs]
    exact ⟨whole_eq h.rounds, whole_eq h.rounds⟩
  · rintro ⟨htake, hfilter⟩
    have hrounds := whole_eq_iff.mp hfilter
    have hlength := congrArg List.length (hfilter.trans htake.symm)
    rw [List.length_map, List.length_map] at hlength
    refine ⟨hrounds, (pairwise_of_takeWhile hlength.le).imp_of_mem ?_⟩
    intro x y hx hy hxy
    rw [← hsees hrounds x hx, ← hsees hrounds y hy]
    exact hxy

def called (xs : SparseExtents) (bs : BlockSize) (pos k : Nat) : ExtentIterator :=
  (fun it => it.nextExtent.2)^[k] (.start (some ⟨xs.content, pos⟩) bs.bytes)

def fsCalled (xs : SparseExtents) (bs : BlockSize) (left : List SSparseExtent) (k : Nat) :
    FsExtentIterator :=
  (fun it => it.nextExtent.2)^[k] (.start ⟨xs.extents, left⟩ bs.bytes)

theorem fresh_start (pos : Nat) : Fresh xs bs (xs.called bs pos 0) := ⟨rfl, rfl, rfl, rfl⟩

theorem fresh_reset (pos k : Nat) : Fresh xs bs (xs.called bs pos k).reset := by
  have hstart : OfFile xs bs (.start (some ⟨xs.content, pos⟩) bs.bytes) := ⟨⟨0, rfl⟩, rfl⟩
  exact (hstart.calls k).reset

theorem fsCalled_reset (left : List SSparseExtent) (k : Nat) :
    (xs.fsCalled bs left k).reset = ⟨⟨xs.extents, xs.extents⟩, bs.bytes⟩ := by
  have hcalls := fs_calls k (.start ⟨xs.extents, left⟩ bs.bytes)
  obtain ⟨hextents, hblocksize⟩ := Prod.mk.inj hcalls
  unfold FsExtentIterator.reset BackingFile.resetSparseExtentIter fsCalled
  rw [hextents, hblocksize]
  rfl

/-- Both iterators give all extents with a whole block, at first and after each reset, exactly if the
extents fit. -/
theorem yields_whole_iff (xs : SparseExtents) (bs : BlockSize) (pos : Nat)
    (left : List SSparseExtent) :
    (Yields ExtentIterator.nextExtent (xs.called bs pos 0) (xs.whole bs) ∧
      (∀ k, Yields ExtentIterator.nextExtent (xs.called bs pos k).reset (xs.whole bs)) ∧
      Yields FsExtentIterator.nextExtent (xs.fsCalled bs left 0) (xs.whole bs) ∧
      ∀ k, Yields FsExtentIterator.nextExtent (xs.fsCalled bs left k).reset (xs.whole bs)) ↔
      xs.Fits bs := by
  rw [fits_iff]
  have hfs := @fs_yields bs xs.extents xs.extents xs.range
  constructor
  · rintro ⟨hfirst, -, hfsFirst, -⟩
    exact ⟨(fresh_start pos).yields.unique hfirst, hfs.unique hfsFirst⟩
  · rintro ⟨htake, hfilter⟩
    refine ⟨htake ▸ (fresh_start pos).yields, fun k => htake ▸ (fresh_reset pos k).yields,
      hfilter ▸ hfs, fun k => ?_⟩
    rw [fsCalled_reset]
    exact hfilter ▸ hfs

def smallFirst : SparseExtents where
  extents := [⟨0, 100⟩, ⟨512, 512⟩]
  range := by decide
  ascending := by decide
  count := by decide

theorem smallFirst_skipped :
    smallFirst.whole ⟨512, by decide, by decide⟩ = [⟨512, 512⟩] ∧
      (smallFirst.called ⟨512, by decide, by decide⟩ 0 0).nextExtent.1 = noExtent ∧
      ¬ Yields ExtentIterator.nextExtent (smallFirst.called ⟨512, by decide, by decide⟩ 0 0)
        (smallFirst.whole ⟨512, by decide, by decide⟩) := by
  have hnext : (smallFirst.called ⟨512, by decide, by decide⟩ 0 0).nextExtent.1 = noExtent := by
    decide
  refine ⟨by decide, hnext, ?_⟩
  intro h
  have hstop := Yields.stop (congrArg SSparseExtent.offset hnext)
  exact absurd (h.unique hstop) (by decide)

end SparseExtents

end Extents

end UrBackup
