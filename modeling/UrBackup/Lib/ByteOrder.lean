import Mathlib.Data.List.Lex
import Mathlib.Data.Nat.Basic
import Mathlib.Tactic.Ring
import Mathlib.Tactic.Tauto

/-! Byte strings in memory: numbers of a fixed width, and the order in which `memcmp`
lists byte strings of one length. -/

namespace ByteOrder

/-- The `n` low bytes of a number, most significant byte first. -/
def bigEndian : Nat → Nat → List UInt8
  | 0, _ => []
  | n + 1, x => UInt8.ofNat (x / 256 ^ n) :: bigEndian n (x % 256 ^ n)

/-- `memcmp` on two buffers of the same length. -/
def memcmp : List UInt8 → List UInt8 → Ordering
  | a :: as, b :: bs => (compare a.toNat b.toNat).then (memcmp as bs)
  | _, _ => .eq

/-- The byte values of a buffer; their lexicographic order is that of `memcmp`. -/
def values (bs : List UInt8) : List ℕ := bs.map UInt8.toNat

theorem values_injective : Function.Injective values :=
  List.map_injective_iff.mpr fun _ _ => UInt8.toNat_inj.mp

@[simp] theorem values_append (as bs : List UInt8) :
    values (as ++ bs) = values as ++ values bs := List.map_append

@[simp] theorem values_length (bs : List UInt8) : (values bs).length = bs.length :=
  List.length_map ..

@[simp] theorem bigEndian_length (n x : Nat) : (bigEndian n x).length = n := by
  induction n generalizing x with
  | zero => rfl
  | succ n ih => simp [bigEndian, ih]

theorem append_lt_append_iff {l₁ l₂ r₁ r₂ : List ℕ} (h : l₁.length = l₂.length) :
    l₁ ++ r₁ < l₂ ++ r₂ ↔ l₁ < l₂ ∨ l₁ = l₂ ∧ r₁ < r₂ := by
  induction l₁ generalizing l₂ with
  | nil =>
    cases l₂ with
    | nil => simp
    | cons b l₂ => simp at h
  | cons a l₁ ih =>
    cases l₂ with
    | nil => simp at h
    | cons b l₂ =>
      simp only [List.cons_append, List.cons_lt_cons_iff, ih (Nat.succ.inj h), List.cons.injEq]
      tauto

theorem toNat_ofNat_of_lt {x : Nat} (h : x < 256) : (UInt8.ofNat x).toNat = x := by
  simpa using Nat.mod_eq_of_lt h

theorem div_pow_lt {n x : Nat} (h : x < 256 ^ (n + 1)) : x / 256 ^ n < 256 :=
  Nat.div_lt_of_lt_mul (by rwa [Nat.pow_succ] at h)

theorem bigEndian_injOn {n x y : Nat} (hx : x < 256 ^ n) (hy : y < 256 ^ n)
    (h : bigEndian n x = bigEndian n y) : x = y := by
  induction n generalizing x y with
  | zero => omega
  | succ n ih =>
    obtain ⟨hhead, htail⟩ := List.cons.inj h
    have hpos : 0 < 256 ^ n := Nat.pow_pos (by decide)
    have hdiv : x / 256 ^ n = y / 256 ^ n := by
      have := congrArg UInt8.toNat hhead
      rwa [toNat_ofNat_of_lt (div_pow_lt hx), toNat_ofNat_of_lt (div_pow_lt hy)] at this
    have hmod := ih (Nat.mod_lt _ hpos) (Nat.mod_lt _ hpos) htail
    rw [← Nat.div_add_mod x (256 ^ n), ← Nat.div_add_mod y (256 ^ n), hdiv, hmod]

theorem values_bigEndian_lt_iff {n x y : Nat} (hx : x < 256 ^ n) (hy : y < 256 ^ n) :
    values (bigEndian n x) < values (bigEndian n y) ↔ x < y := by
  induction n generalizing x y with
  | zero => simp [bigEndian, values]; omega
  | succ n ih =>
    have hpos : 0 < 256 ^ n := Nat.pow_pos (by decide)
    have htail := ih (Nat.mod_lt x hpos) (Nat.mod_lt y hpos)
    have hxy := Nat.div_add_mod x (256 ^ n)
    have hyy := Nat.div_add_mod y (256 ^ n)
    have hxm := Nat.mod_lt x hpos
    have hym := Nat.mod_lt y hpos
    rw [values, values, bigEndian, bigEndian, List.map_cons, List.map_cons,
      List.cons_lt_cons_iff, ← values, ← values, htail,
      toNat_ofNat_of_lt (div_pow_lt hx), toNat_ofNat_of_lt (div_pow_lt hy)]
    constructor
    · rintro (hlt | ⟨heq, hlt⟩)
      · exact Nat.lt_of_not_le fun hle => (Nat.div_le_div_right hle).not_gt hlt
      · rw [← hxy, ← hyy, heq]
        exact Nat.add_lt_add_left hlt _
    · intro hlt
      rcases Nat.lt_or_eq_of_le (Nat.div_le_div_right (c := 256 ^ n) hlt.le) with h | h
      · exact .inl h
      · refine .inr ⟨h, ?_⟩
        rw [← hxy, ← hyy, h] at hlt
        exact Nat.lt_of_add_lt_add_left hlt

/-- The `n` low bytes of a number, least significant byte first. -/
def littleEndian : Nat → Nat → List UInt8
  | 0, _ => []
  | n + 1, x => UInt8.ofNat (x % 256) :: littleEndian n (x / 256)

def ofLittleEndian : List UInt8 → Nat
  | [] => 0
  | b :: bs => b.toNat + 256 * ofLittleEndian bs

@[simp] theorem littleEndian_length (n x : Nat) : (littleEndian n x).length = n := by
  induction n generalizing x with
  | zero => rfl
  | succ n ih => simp [littleEndian, ih]

theorem ofLittleEndian_littleEndian {n x : Nat} (h : x < 256 ^ n) :
    ofLittleEndian (littleEndian n x) = x := by
  induction n generalizing x with
  | zero =>
    rw [Nat.pow_zero] at h
    simp only [littleEndian, ofLittleEndian]
    omega
  | succ n ih =>
    have hdiv : x / 256 < 256 ^ n := Nat.div_lt_of_lt_mul (by rwa [Nat.pow_succ'] at h)
    rw [littleEndian, ofLittleEndian, ih hdiv, toNat_ofNat_of_lt (Nat.mod_lt x (by decide)),
      Nat.mod_add_div]

theorem ofLittleEndian_lt (bytes : List UInt8) : ofLittleEndian bytes < 256 ^ bytes.length := by
  induction bytes with
  | nil => exact Nat.one_pos
  | cons b bytes ih =>
    have hb := b.toNat_lt
    rw [ofLittleEndian, List.length_cons, Nat.pow_succ']
    omega

def ofBigEndian : List UInt8 → Nat
  | [] => 0
  | b :: bs => b.toNat * 256 ^ bs.length + ofBigEndian bs

theorem ofBigEndian_bigEndian {n x : Nat} (h : x < 256 ^ n) : ofBigEndian (bigEndian n x) = x := by
  induction n generalizing x with
  | zero =>
    rw [Nat.pow_zero] at h
    simp only [bigEndian, ofBigEndian]
    omega
  | succ n ih =>
    rw [bigEndian, ofBigEndian, bigEndian_length, toNat_ofNat_of_lt (div_pow_lt h),
      ih (Nat.mod_lt x (Nat.pow_pos (by decide))), Nat.div_add_mod']

end ByteOrder
