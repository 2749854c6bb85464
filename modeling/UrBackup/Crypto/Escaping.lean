import UrBackup.Crypto.AESGCM
import Mathlib.Data.List.GetD

/-! The scan over the bytes of a `get`: up to where it ends the bytes are stuffed. -/
namespace UrBackup

open ZeroStuffing

namespace AESGCMEncryption

/-- The bytes that a scan of `left` bytes sees, and those that escape bytes push behind its
end. -/
def scanned : Nat → Nat → List UInt8 → List UInt8 × List UInt8
  | 0, _, bs => ([], bs)
  | _ + 1, _, [] => ([], [])
  | left + 1, k, b :: bs =>
    let rest := scanned (if b = 0 ∧ k + 1 = endMarkerZeros then left - 1 else left)
      (count endMarkerZeros k b) bs
    (b :: rest.1, rest.2)

theorem scanned_append (left k : Nat) (bs : List UInt8) :
    (scanned left k bs).1 ++ (scanned left k bs).2 = bs := by
  induction bs generalizing left k with
  | nil => cases left <;> rfl
  | cons b bs ih =>
    cases left with
    | zero => rfl
    | succ left => exact congrArg (b :: ·) (ih _ _)

section Skip

variable {b₀ b₁ b₂ b₃ : UInt8} {bs : List UInt8}

theorem stuff_skip (h : b₃ ≠ 0) :
    stuff endMarkerZeros 0 (b₀ :: b₁ :: b₂ :: b₃ :: bs) =
      b₀ :: b₁ :: b₂ :: b₃ :: stuff endMarkerZeros 0 bs := by
  by_cases h₀ : b₀ = 0 <;> by_cases h₁ : b₁ = 0 <;> by_cases h₂ : b₂ = 0 <;>
    simp [stuff, count, endMarkerZeros, h, h₀, h₁, h₂]

theorem countAll_skip (h : b₃ ≠ 0) :
    countAll endMarkerZeros 0 (b₀ :: b₁ :: b₂ :: b₃ :: bs) = countAll endMarkerZeros 0 bs := by
  simp [countAll, count, endMarkerZeros, h]

theorem scanned_skip (h : b₃ ≠ 0) (left : Nat) :
    scanned (left + 4) 0 (b₀ :: b₁ :: b₂ :: b₃ :: bs) =
      (b₀ :: b₁ :: b₂ :: b₃ :: (scanned left 0 bs).1, (scanned left 0 bs).2) := by
  by_cases h₀ : b₀ = 0 <;> by_cases h₁ : b₁ = 0 <;> by_cases h₂ : b₂ = 0 <;>
    simp [scanned, count, endMarkerZeros, h, h₀, h₁, h₂]

end Skip

theorem getD_behind {done rest tail : List UInt8} {j : Nat} (h : j < rest.length) :
    (done ++ (rest ++ tail)).getD (done.length + j) 0 = rest.getD j 0 := by
  rw [List.getD_append_right _ _ _ _ (Nat.le_add_right _ _), Nat.add_sub_cancel_left,
    List.getD_append _ _ _ _ h]

theorem exists_four {bs : List UInt8} (h : 4 ≤ bs.length) :
    ∃ b₀ b₁ b₂ b₃ bs', bs = b₀ :: b₁ :: b₂ :: b₃ :: bs' := by
  match bs, h with
  | b₀ :: b₁ :: b₂ :: b₃ :: bs', _ => exact ⟨b₀, b₁, b₂, b₃, bs', rfl⟩

theorem insertIdx_behind (done bs : List UInt8) (b : UInt8) :
    (done ++ bs).insertIdx done.length b = done ++ b :: bs := by
  induction done with
  | nil => exact List.insertIdx_zero
  | cons d done ih => exact List.insertIdx_succ_cons.trans (congrArg (d :: ·) ih)

theorem escapeLoop_byte {size k : Nat} {done bs tail : List UInt8} {b : UInt8}
    (hi : done.length < size)
    (hskip : ¬ (k = 0 ∧ done.length + endMarkerZeros ≤ size ∧
      (done ++ (b :: bs ++ tail)).getD (done.length + endMarkerZeros - 1) 0 ≠ 0)) :
    escapeLoop size (done ++ (b :: bs ++ tail)) done.length k =
      escapeLoop size
        (done ++ (if b = 0 ∧ k + 1 = endMarkerZeros then [b, escapeByte] else [b]) ++ (bs ++ tail))
        (done ++ if b = 0 ∧ k + 1 = endMarkerZeros then [b, escapeByte] else [b]).length
        (count endMarkerZeros k b) := by
  have hget : (done ++ (b :: bs ++ tail)).getD done.length 0 = b :=
    @getD_behind done (b :: bs) tail 0 (Nat.succ_pos _)
  rw [escapeLoop, if_pos hi, if_neg hskip, hget]
  unfold count
  by_cases hb : b = 0
  · rw [if_pos hb, if_pos hb]
    by_cases hfull : k + 1 = endMarkerZeros
    · have hins : (done ++ (b :: bs ++ tail)).insertIdx (done.length + 1) escapeByte =
          done ++ [b, escapeByte] ++ (bs ++ tail) := by
        have hdone : done ++ (b :: bs ++ tail) = (done ++ [b]) ++ (bs ++ tail) := by simp
        have hlen : done.length + 1 = (done ++ [b]).length := by simp
        rw [hdone, hlen, insertIdx_behind]
        simp
      rw [if_pos hfull, if_pos ⟨hb, hfull⟩, if_pos hfull, hins, List.length_append]
      rfl
    · rw [if_neg hfull, if_neg fun h => hfull h.2, if_neg hfull, List.length_append]
      simp
  · rw [if_neg hb, if_neg fun h => hb h.1, if_neg hb, List.length_append]
    simp

theorem escapeLoop_eq {size k left : Nat} {done rest tail : List UInt8}
    (hk : k < endMarkerZeros) (hleft : size - done.length = left) (hrest : left ≤ rest.length) :
    escapeLoop size (done ++ (rest ++ tail)) done.length k =
      (done ++ (stuff endMarkerZeros k (scanned left k rest).1 ++ ((scanned left k rest).2 ++ tail)),
        countAll endMarkerZeros k (scanned left k rest).1) := by
  induction left using Nat.strongRecOn generalizing k done rest with
  | ind left ih =>
    by_cases hi : done.length < size
    · by_cases hskip : k = 0 ∧ done.length + endMarkerZeros ≤ size ∧
          (done ++ (rest ++ tail)).getD (done.length + endMarkerZeros - 1) 0 ≠ 0
      · rw [escapeLoop, if_pos hi, if_pos hskip]
        obtain ⟨rfl, hfour, hne⟩ := hskip
        have hleft4 : 4 ≤ left := by
          simp only [endMarkerZeros] at hfour
          omega
        obtain ⟨b₀, b₁, b₂, b₃, bs, rfl⟩ := exists_four (Nat.le_trans hleft4 hrest)
        have hb₃ : b₃ ≠ 0 := by
          have hget : done.length + endMarkerZeros - 1 = done.length + 3 := rfl
          rw [hget, getD_behind (Nat.lt_of_lt_of_le (by omega) hrest)] at hne
          exact hne
        obtain ⟨left, rfl⟩ := Nat.exists_eq_add_of_le' hleft4
        have hdone : done ++ (b₀ :: b₁ :: b₂ :: b₃ :: bs ++ tail) =
            (done ++ [b₀, b₁, b₂, b₃]) ++ (bs ++ tail) := by simp
        have hlen : done.length + endMarkerZeros = (done ++ [b₀, b₁, b₂, b₃]).length := by
          rw [List.length_append]
          rfl
        rw [hdone, hlen, @ih left (by omega) 0 (done ++ [b₀, b₁, b₂, b₃]) bs hk
          (by rw [← hlen, endMarkerZeros]; omega) (by simp only [List.length_cons] at hrest; omega),
          scanned_skip hb₃, stuff_skip hb₃, countAll_skip hb₃]
        simp
      · obtain ⟨left, rfl⟩ := Nat.exists_eq_succ_of_ne_zero (show left ≠ 0 by omega)
        cases rest with
        | nil => simp at hrest
        | cons b bs =>
          simp only [List.length_cons, Nat.succ_eq_add_one, Nat.add_le_add_iff_right] at hrest
          rw [escapeLoop_byte hi hskip]
          by_cases hfull : b = 0 ∧ k + 1 = endMarkerZeros
          · rw [if_pos hfull, ih (left - 1) (by omega) (count_lt hk b)
              (by simp only [List.length_append, List.length_cons, List.length_nil]; omega)
              (by omega), scanned, if_pos hfull, stuff, if_pos hfull]
            simp [countAll]
          · rw [if_neg hfull, ih left (by omega) (count_lt hk b)
              (by simp only [List.length_append, List.length_cons, List.length_nil]; omega)
              (by omega), scanned, if_neg hfull, stuff, if_neg hfull]
            simp [countAll]
    · obtain rfl : left = 0 := by omega
      rw [escapeLoop, if_neg hi]
      cases rest with
      | nil => rfl
      | cons b bs => rfl

end AESGCMEncryption

end UrBackup
