import Mathlib.Data.Nat.Digits.Defs
import Mathlib.Tactic.Ring

/-! Numbers as ASCII strings in base ten. -/
namespace Decimal

def digits (n : Nat) : List UInt8 :=
  if n = 0 then [48] else ((Nat.digits 10 n).map fun d => UInt8.ofNat (48 + d)).reverse

def isDigit (b : UInt8) : Bool := 48 ≤ b && b ≤ 57

def ofDigits (bs : List UInt8) : Nat := bs.foldl (fun n b => 10 * n + (b.toNat - 48)) 0

theorem toNat_digit {d : Nat} (h : d < 10) : (UInt8.ofNat (48 + d)).toNat = 48 + d := by
  rw [UInt8.toNat_ofNat']
  exact Nat.mod_eq_of_lt (by omega)

theorem isDigit_digit {d : Nat} (h : d < 10) : isDigit (UInt8.ofNat (48 + d)) = true := by
  rw [isDigit, Bool.and_eq_true, decide_eq_true_eq, decide_eq_true_eq, UInt8.le_iff_toNat_le,
    UInt8.le_iff_toNat_le, toNat_digit h]
  exact ⟨Nat.le_add_right 48 d, by simpa using Nat.add_le_add_left (Nat.le_of_lt_succ h) 48⟩

theorem isDigit_of_mem_digits {n : Nat} {b : UInt8} (h : b ∈ digits n) : isDigit b = true := by
  unfold digits at h
  split at h
  · cases List.mem_singleton.mp h
    rfl
  · obtain ⟨d, hd, rfl⟩ := List.mem_map.mp (List.mem_reverse.mp h)
    exact isDigit_digit (Nat.digits_lt_base (by decide) hd)

theorem ofDigits_reverse {ds : List Nat} (h : ∀ d ∈ ds, d < 10) :
    ofDigits (ds.map fun d => UInt8.ofNat (48 + d)).reverse = Nat.ofDigits 10 ds := by
  unfold ofDigits
  rw [List.foldl_reverse]
  induction ds with
  | nil => rfl
  | cons d ds ih =>
    rw [List.map_cons, List.foldr_cons, ih fun d hd => h d (List.mem_cons_of_mem _ hd),
      toNat_digit (h d List.mem_cons_self), Nat.ofDigits_cons, Nat.add_sub_cancel_left]
    exact Nat.add_comm _ _

theorem ofDigits_digits (n : Nat) : ofDigits (digits n) = n := by
  unfold digits
  split
  · rename_i h
    rw [h]
    rfl
  · rw [ofDigits_reverse fun d hd => Nat.digits_lt_base (by decide) hd]
    exact Nat.ofDigits_digits 10 n

end Decimal
