import Mathlib.Data.Nat.ModEq
import Mathlib.Tactic.Linarith
import Mathlib.Tactic.Ring

/-! The checksum Adler-32 as two sums: that of the bytes, and that of the first sum after each byte.
A checksum goes on where another one ended, and two checksums can be combined. -/
namespace Adler32

def base : Nat := 65521

def sums (s : Nat × Nat) (data : List UInt8) : Nat × Nat :=
  data.foldl (fun s b => (s.1 + b.toNat, s.2 + (s.1 + b.toNat))) s

def reduce (s : Nat × Nat) : Nat × Nat := (s.1 % base, s.2 % base)

def update (s : Nat × Nat) (data : List UInt8) : Nat × Nat := reduce (sums s data)

/-- The checksum of what two checksums were made of, the second one of `n` bytes. -/
def combine (s t : Nat × Nat) (n : Nat) : Nat × Nat :=
  ((s.1 + t.1 + (base - 1)) % base, (s.2 + t.2 + n * s.1 + (base - n % base)) % base)

def start : Nat × Nat := (1, 0)

def Reduced (s : Nat × Nat) : Prop := s.1 < base ∧ s.2 < base

variable {s t : Nat × Nat} {data data' : List UInt8}

theorem sums_nil (s : Nat × Nat) : sums s [] = s := rfl

theorem sums_cons (s : Nat × Nat) (b : UInt8) (data : List UInt8) :
    sums s (b :: data) = sums (s.1 + b.toNat, s.2 + (s.1 + b.toNat)) data := rfl

theorem sums_append (s : Nat × Nat) (data data' : List UInt8) :
    sums s (data ++ data') = sums (sums s data) data' := List.foldl_append

/-- How the sums depend on where they start. Induction on the bytes. -/
theorem sums_eq (s : Nat × Nat) (data : List UInt8) :
    sums s data = (s.1 + (sums (0, 0) data).1, s.2 + data.length * s.1 + (sums (0, 0) data).2) := by
  induction data generalizing s with
  | nil => simp [sums_nil]
  | cons b data ih =>
    rw [sums_cons, sums_cons, ih, ih (0 + b.toNat, 0 + (0 + b.toNat))]
    ext
    · simp only [Nat.zero_add]
      ring
    · simp only [Nat.zero_add, List.length_cons]
      ring

theorem sums_le (s : Nat × Nat) (data : List UInt8) :
    (sums s data).1 ≤ s.1 + 255 * data.length ∧
      2 * (sums s data).2 ≤ 2 * s.2 + 2 * (data.length * s.1) + 255 * (data.length * (data.length + 1)) := by
  induction data generalizing s with
  | nil => simp [sums_nil]
  | cons b data ih =>
    obtain ⟨hfirst, hsecond⟩ := ih (s.1 + b.toNat, s.2 + (s.1 + b.toNat))
    have hb : b.toNat ≤ 255 := Nat.lt_succ_iff.mp b.toNat_lt
    rw [sums_cons, List.length_cons]
    refine ⟨by simp only at hfirst; omega, hsecond.trans ?_⟩
    have hmul : data.length * b.toNat ≤ data.length * 255 := Nat.mul_le_mul_left _ hb
    simp only
    nlinarith only [hmul, hb]

theorem reduced_reduce (s : Nat × Nat) : Reduced (reduce s) :=
  ⟨Nat.mod_lt _ (by decide), Nat.mod_lt _ (by decide)⟩

theorem reduce_eq_self (h : Reduced s) : reduce s = s :=
  Prod.ext (Nat.mod_eq_of_lt h.1) (Nat.mod_eq_of_lt h.2)

theorem sums_modEq {m : Nat} (hfirst : s.1 ≡ t.1 [MOD m]) (hsecond : s.2 ≡ t.2 [MOD m])
    (data : List UInt8) :
    (sums s data).1 ≡ (sums t data).1 [MOD m] ∧ (sums s data).2 ≡ (sums t data).2 [MOD m] := by
  rw [sums_eq s, sums_eq t]
  exact ⟨hfirst.add_right _, (hsecond.add (hfirst.mul_left data.length)).add_right _⟩

theorem reduce_sums_congr (h : reduce s = reduce t) (data : List UInt8) :
    reduce (sums s data) = reduce (sums t data) := by
  obtain ⟨hfirst, hsecond⟩ := sums_modEq (congrArg Prod.fst h) (congrArg Prod.snd h) data
  exact Prod.ext hfirst hsecond

theorem reduce_reduce (s : Nat × Nat) : reduce (reduce s) = reduce s :=
  reduce_eq_self (reduced_reduce s)

theorem update_sums (s : Nat × Nat) (data data' : List UInt8) :
    update (sums s data) data' = update s (data ++ data') := by
  rw [update, update, sums_append]

theorem update_append (s : Nat × Nat) (data data' : List UInt8) :
    update s (data ++ data') = update (update s data) data' := by
  rw [← update_sums]
  exact reduce_sums_congr (reduce_reduce _).symm data'

theorem update_nil (h : Reduced s) : update s [] = s := reduce_eq_self h

theorem reduced_update (s : Nat × Nat) (data : List UInt8) : Reduced (update s data) :=
  reduced_reduce _

theorem combine_update (s : Nat × Nat) (data : List UInt8) :
    combine s (update start data) data.length = update s data := by
  have hstart := sums_eq start data
  have hfirst : (update start data).1 ≡ 1 + (sums (0, 0) data).1 [MOD base] := by
    rw [update, hstart]
    exact Nat.mod_modEq _ _
  have hsecond : (update start data).2 ≡ data.length + (sums (0, 0) data).2 [MOD base] := by
    rw [update, hstart]
    refine (Nat.mod_modEq _ _).trans ?_
    simp only [start]
    rw [Nat.zero_add, Nat.mul_one]
  have hupdate : update s data = reduce (sums s data) := rfl
  rw [hupdate, sums_eq s]
  refine Prod.ext ?_ ?_
  · show _ ≡ _ [MOD base]
    refine ((hfirst.add_left s.1).add_right (base - 1)).trans ?_
    have heq : s.1 + (1 + (sums (0, 0) data).1) + (base - 1) = s.1 + (sums (0, 0) data).1 + base := by
      unfold base
      omega
    rw [heq]
    exact Nat.add_modEq_right
  · show _ ≡ _ [MOD base]
    refine (((hsecond.add_left s.2).add_right _).add_right _).trans ?_
    have hmod : data.length + (base - data.length % base) ≡ 0 [MOD base] := by
      have hle : data.length % base ≤ base := (Nat.mod_lt _ (by decide)).le
      have hdiv := Nat.mod_add_div data.length base
      have heq : data.length + (base - data.length % base) =
          base * (data.length / base + 1) := by
        rw [Nat.mul_succ]
        omega
      rw [heq]
      exact Nat.modEq_zero_iff_dvd.mpr (Nat.dvd_mul_right _ _)
    have heq : s.2 + (data.length + (sums (0, 0) data).2) + data.length * s.1 +
        (base - data.length % base) = s.2 + data.length * s.1 + (sums (0, 0) data).2 +
          (data.length + (base - data.length % base)) := by ring
    rw [heq]
    exact hmod.add_left _

end Adler32
