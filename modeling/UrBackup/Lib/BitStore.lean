import Mathlib.Data.Fintype.Basic
import UrBackup.Lib.ByteStore

/-! Bits in a store of bytes, the most significant bit of a byte first. -/
namespace ByteStore

def mask (i : Nat) : UInt8 := 1 <<< UInt8.ofNat (7 - i % 8)

def bit (f : ByteStore) (i : Nat) : Bool := f (i / 8) &&& mask i ≠ 0

def setBit (f : ByteStore) (i : Nat) : ByteStore := f.write (i / 8) [f (i / 8) ||| mask i]

theorem mask_and_mask (i j : Nat) : mask i &&& mask j = if i % 8 = j % 8 then mask j else 0 := by
  have htable : ∀ r s : Fin 8, (1 <<< UInt8.ofNat (7 - r.val) &&& 1 <<< UInt8.ofNat (7 - s.val) : UInt8) =
      if r.val = s.val then 1 <<< UInt8.ofNat (7 - s.val) else 0 := by decide
  exact htable ⟨i % 8, Nat.mod_lt i (by decide)⟩ ⟨j % 8, Nat.mod_lt j (by decide)⟩

theorem mask_ne_zero (i : Nat) : mask i ≠ 0 := by
  have htable : ∀ r : Fin 8, (1 <<< UInt8.ofNat (7 - r.val) : UInt8) ≠ 0 := by decide
  exact htable ⟨i % 8, Nat.mod_lt i (by decide)⟩

theorem or_ne_zero (a b : UInt8) : a ||| b ≠ 0 ↔ a ≠ 0 ∨ b ≠ 0 := by
  rw [Ne, UInt8.or_eq_zero_iff, not_and_or]

theorem and_or_distrib_right (a b c : UInt8) : (a ||| b) &&& c = (a &&& c) ||| (b &&& c) := by
  apply UInt8.toBitVec_inj.mp
  apply BitVec.eq_of_getLsbD_eq
  intro i _
  simp [Bool.and_or_distrib_right]

theorem bit_setBit (f : ByteStore) (i j : Nat) :
    (f.setBit i).bit j = (decide (i = j) || f.bit j) := by
  unfold bit setBit
  by_cases hbyte : i / 8 = j / 8
  · rw [write_of_mem (by omega) (by rw [List.length_singleton]; omega)]
    simp only [List.getElem_singleton, hbyte]
    rw [and_or_distrib_right, mask_and_mask]
    apply Bool.eq_iff_iff.mpr
    rw [Bool.or_eq_true, decide_eq_true_eq, decide_eq_true_eq, decide_eq_true_eq, or_ne_zero,
      or_comm]
    refine or_congr_left ?_
    split
    · exact ⟨fun _ => by omega, fun _ => mask_ne_zero j⟩
    · exact ⟨fun h => absurd rfl h, fun h => by omega⟩
  · have hne : i ≠ j := fun h => hbyte (congrArg (· / 8) h)
    rw [write_of_not_mem (by rw [List.length_singleton]; omega), decide_eq_false hne,
      Bool.false_or]

def clearBit (f : ByteStore) (i : Nat) : ByteStore := f.write (i / 8) [f (i / 8) &&& ~~~mask i]

theorem not_mask_and_mask (i j : Nat) :
    ~~~mask i &&& mask j = if i % 8 = j % 8 then 0 else mask j := by
  have htable : ∀ r s : Fin 8,
      ~~~((1 : UInt8) <<< UInt8.ofNat (7 - r.val)) &&& 1 <<< UInt8.ofNat (7 - s.val) =
        if r.val = s.val then 0 else (1 : UInt8) <<< UInt8.ofNat (7 - s.val) := by decide
  exact htable ⟨i % 8, Nat.mod_lt i (by decide)⟩ ⟨j % 8, Nat.mod_lt j (by decide)⟩

theorem bit_clearBit (f : ByteStore) (i j : Nat) :
    (f.clearBit i).bit j = (!decide (i = j) && f.bit j) := by
  unfold bit clearBit
  by_cases hbyte : i / 8 = j / 8
  · rw [write_of_mem (by omega) (by rw [List.length_singleton]; omega)]
    simp only [List.getElem_singleton, hbyte]
    rw [UInt8.and_assoc, not_mask_and_mask]
    by_cases hbit : i % 8 = j % 8
    · have heq : i = j := by omega
      simp [heq]
    · have hne : i ≠ j := fun h => hbit (congrArg (· % 8) h)
      simp [hbit, hne]
  · have hne : i ≠ j := fun h => hbyte (congrArg (· / 8) h)
    rw [write_of_not_mem (by rw [List.length_singleton]; omega), decide_eq_false hne]
    rfl

end ByteStore
