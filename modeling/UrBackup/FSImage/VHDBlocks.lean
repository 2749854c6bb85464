import UrBackup.FSImage.VHDFile

/-! Where a virtual hard disk has its blocks, and what they have of the disk. -/
namespace UrBackup

namespace VHDFile

section Sizes

theorem nextSector_aligned (offset : Nat) : nextSector offset % sectorSize = 0 := by
  unfold nextSector sectorSize
  omega

theorem le_nextSector (offset : Nat) : offset ≤ nextSector offset := Nat.le_add_right _ _

theorem sectorPart_le_length (blocksize blockoffset n : Nat) (first : Bool) :
    sectorPart blocksize blockoffset n first ≤ n := by
  unfold sectorPart
  dsimp only
  split <;> omega

theorem sectorPart_le_block (blocksize blockoffset n : Nat) (first : Bool) :
    sectorPart blocksize blockoffset n first ≤ blocksize - blockoffset := by
  unfold sectorPart
  dsimp only
  split <;> omega

end Sizes

def blockAt (s : VHDFile) (k : Nat) : Option Nat :=
  (s.bat[k]?).bind fun entry => if entry = noBlock then none else some (entry * sectorSize)

def blockEnd (s : VHDFile) (offset : Nat) : Nat := offset + s.bitmapSize + s.blocksize

/-- What is before the blocks: some bytes and the table. -/
structure Area where
  start : Nat
  low : ByteStore

section Ops

variable {s : VHDFile} {k : Nat}

theorem size_write_le {f : StoredFile} {pos n : Nat} {data : List UInt8} (hsize : f.size ≤ n)
    (hend : pos + data.length ≤ n) : (f.write pos data).size ≤ n := by
  unfold StoredFile.write
  dsimp only
  split
  · exact hsize
  · exact Nat.max_le.mpr ⟨hsize, hend⟩

/-- The part of `switchBitmap` that writes. -/
def flush (s : VHDFile) : VHDFile :=
  if s.fastMode ∧ ¬ s.readOnly ∧ s.bitmapDirty ∧ s.bitmapOffset ≠ 0 then
    s.writeFile s.bitmapOffset s.bitmapData
  else s

theorem switchBitmap_eq (s : VHDFile) (newOffset : Nat) : s.switchBitmap newOffset =
    { s.flush with bitmapOffset := newOffset, bitmapDirty := false } := rfl

theorem nextblockOffset_allocate (h : s.blocksize + s.bitmapSize < 2 ^ 32) (k : Nat) :
    (s.allocate k).nextblockOffset = nextSector (s.nextblockOffset + (s.blocksize + s.bitmapSize)) := by
  unfold allocate
  rw [Nat.mod_eq_of_lt h]

theorem blockAt_allocate (hk : s.blockAt k = none) (hlt : k < s.bat.length)
    (haligned : s.nextblockOffset % sectorSize = 0)
    (hfits : s.nextblockOffset / sectorSize < noBlock) (k' : Nat) :
    (s.allocate k).blockAt k' = if k' = k then some s.nextblockOffset else s.blockAt k' := by
  unfold blockAt allocate
  simp only
  split
  · rename_i hkk
    subst hkk
    rw [List.getElem?_set_self hlt, Option.bind_some]
    have hmod : s.nextblockOffset / sectorSize % 2 ^ 32 = s.nextblockOffset / sectorSize :=
      Nat.mod_eq_of_lt (by unfold noBlock at hfits; omega)
    rw [hmod, if_neg (by omega), Nat.div_mul_cancel (Nat.dvd_of_mod_eq_zero haligned)]
  · rename_i hkk
    rw [List.getElem?_set_ne (Ne.symm hkk)]

end Ops

end VHDFile

end UrBackup
