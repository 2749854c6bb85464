import UrBackup.Metadata.MetadataSaved

/-! Numbers of variable length in messages: the encoder with its three ways, and the decoder that
goes through the bytes one by one with two accumulators of 32 bits. -/
namespace UrBackup
namespace Data

open ByteOrder
open Metadata (putVarint varintGroups highGroups)

section Encoder

/-- `(u8)((v & 0x7f) | 0x80)` -/
def highByte (v : Nat) : UInt8 := UInt8.ofNat (v &&& 0x7f ||| 0x80)

def lastByte (v : Nat) : UInt8 := UInt8.ofNat (v &&& 0x7f)

/-- The loop from `p[7]` down to `p[0]`. -/
def fillDown : (i : Nat) → Nat → List UInt8
  | 0, _ => []
  | i + 1, v => fillDown i (v >>> 7) ++ [highByte v]

theorem shiftRight_lt {v : Nat} (h : v >>> 7 ≠ 0) : v >>> 7 < v := by
  rw [Nat.shiftRight_eq_div_pow] at h ⊢
  omega

/-- The bytes in `buf`, the lowest first. -/
def fillBuf (v : Nat) : List UInt8 :=
  highByte v :: if _h : v >>> 7 = 0 then [] else fillBuf (v >>> 7)
termination_by v
decreasing_by exact shiftRight_lt _h

def putVarint64 (v : Nat) : List UInt8 :=
  if v &&& (0xff000000 <<< 32) ≠ 0 then fillDown 8 (v >>> 8) ++ [UInt8.ofNat v]
  else
    match fillBuf v with
    | [] => []
    | buf0 :: buf => ((buf0 &&& 0x7f) :: buf).reverse

def sqlite3PutVarint (v : Nat) : List UInt8 :=
  if v ≤ 0x7f then [lastByte v]
  else if v ≤ 0x3fff then [highByte (v >>> 7), lastByte v]
  else putVarint64 v

def varintLenLoop (v i : Nat) : Nat :=
  if h : v >>> 7 = 0 then i else varintLenLoop (v >>> 7) (i + 1)
termination_by v
decreasing_by exact shiftRight_lt h

def sqlite3VarintLen (v : Nat) : Nat :=
  if varintLenLoop v 1 = 10 then 9 else varintLenLoop v 1

end Encoder

section Decoder

def slot20 : Nat := 0x001fc07f
def slot420 : Nat := 0xf01fc07f

def shl (x k : Nat) : Nat := x <<< k % 2 ^ 32

def wide (s a n : Nat) : Option (Nat × Nat) := some (s <<< 32 ||| a, n)

def getVarint9 (a b s p4 : Nat) : List UInt8 → Option (Nat × Nat)
  | [] => none
  | p8 :: _ => wide (shl s 4 ||| (p4 &&& 0x7f) >>> 3)
      (shl a 15 ||| p8.toNat ||| shl (b &&& slot20) 8) 9

def getVarint8 (a b s p4 : Nat) : List UInt8 → Option (Nat × Nat)
  | [] => none
  | p7 :: p =>
    let b := shl b 14 ||| p7.toNat
    if b &&& 0x80 = 0 then wide (s >>> 4) (shl a 7 ||| b &&& slot420) 8
    else getVarint9 a b s p4 p

def getVarint7 (a b s p4 : Nat) : List UInt8 → Option (Nat × Nat)
  | [] => none
  | p6 :: p =>
    let a := shl a 14 ||| p6.toNat
    if a &&& 0x80 = 0 then wide (s >>> 11) (a &&& slot420 ||| shl (b &&& slot20) 7) 7
    else getVarint8 (a &&& slot20) b s p4 p

def getVarint6 (a b s p4 : Nat) : List UInt8 → Option (Nat × Nat)
  | [] => none
  | p5 :: p =>
    let b := shl b 14 ||| p5.toNat
    if b &&& 0x80 = 0 then wide (s >>> 18) (shl (a &&& slot20) 7 ||| b) 6
    else getVarint7 a b s p4 p

def getVarint5 (a b : Nat) : List UInt8 → Option (Nat × Nat)
  | [] => none
  | p4 :: p =>
    let s := a
    let a := shl a 14 ||| p4.toNat
    if a &&& 0x80 = 0 then wide (s >>> 18) (a ||| shl b 7) 5
    else getVarint6 a b (shl s 7 ||| b) p4.toNat p

def getVarint4 (a b : Nat) : List UInt8 → Option (Nat × Nat)
  | [] => none
  | p3 :: p =>
    let b := shl b 14 ||| p3.toNat
    if b &&& 0x80 = 0 then some (shl a 7 ||| b &&& slot20, 4)
    else getVarint5 a (b &&& slot20) p

def getVarint3 (a b : Nat) : List UInt8 → Option (Nat × Nat)
  | [] => none
  | p2 :: p =>
    let a := shl a 14 ||| p2.toNat
    if a &&& 0x80 = 0 then some (a &&& slot20 ||| shl (b &&& 0x7f) 7, 3)
    else getVarint4 (a &&& slot20) b p

/-- The value and the number of bytes, if the bytes that are left have it to its end. -/
def sqlite3GetVarint : List UInt8 → Option (Nat × Nat)
  | [] => none
  | p0 :: p =>
    if p0.toNat &&& 0x80 = 0 then some (p0.toNat, 1)
    else
      match p with
      | [] => none
      | p1 :: p =>
        if p1.toNat &&& 0x80 = 0 then some (shl (p0.toNat &&& 0x7f) 7 ||| p1.toNat, 2)
        else getVarint3 p0.toNat p1.toNat p

end Decoder

section Bits

variable {i x y z u w : Nat}

theorem or_parts (hy : y < 2 ^ i) (hw : w < 2 ^ i) :
    (2 ^ i * x + y) ||| (2 ^ i * z + w) = 2 ^ i * (x ||| z) + (y ||| w) := by
  apply Nat.eq_of_testBit_eq
  intro j
  rw [Nat.testBit_or, Nat.testBit_two_pow_mul_add x hy, Nat.testBit_two_pow_mul_add z hw,
    Nat.testBit_two_pow_mul_add _ (Nat.or_lt_two_pow hy hw)]
  split
  · rw [Nat.testBit_or]
  · rw [Nat.testBit_or]

theorem and_parts (hy : y < 2 ^ i) (hw : w < 2 ^ i) :
    (2 ^ i * x + y) &&& (2 ^ i * z + w) = 2 ^ i * (x &&& z) + (y &&& w) := by
  apply Nat.eq_of_testBit_eq
  intro j
  rw [Nat.testBit_and, Nat.testBit_two_pow_mul_add x hy, Nat.testBit_two_pow_mul_add z hw,
    Nat.testBit_two_pow_mul_add _ (Nat.and_lt_two_pow _ hw)]
  split
  · rw [Nat.testBit_and]
  · rw [Nat.testBit_and]

theorem and_low (x : Nat) : x &&& 0x7f = x % 128 := Nat.and_two_pow_sub_one_eq_mod x 7

theorem and_high (x : Nat) : x &&& 0x80 = 0 ↔ x % 256 < 128 := by
  have hbit := @and_parts 7 (x / 128) (x % 128) 1 0 (Nat.mod_lt _ (by decide)) (Nat.two_pow_pos 7)
  rw [show 2 ^ 7 * (x / 128) + x % 128 = x by omega, Nat.and_one_is_mod, Nat.and_zero] at hbit
  rw [show (0x80 : Nat) = 2 ^ 7 * 1 + 0 from rfl, hbit]
  omega

theorem shl_or (hy : y < 2 ^ 14) : shl x 14 ||| y = x % 2 ^ 18 * 2 ^ 14 + y := by
  have hshl : shl x 14 = 2 ^ 14 * (x % 2 ^ 18) := by
    rw [shl, Nat.shiftLeft_eq]
    omega
  rw [hshl, ← Nat.two_pow_add_eq_or_of_lt hy, Nat.mul_comm]

theorem and_slot20 (hy : y < 2 ^ 14) :
    (x * 2 ^ 14 + y) &&& slot20 = x % 128 * 2 ^ 14 + y % 128 := by
  rw [Nat.mul_comm, show slot20 = 2 ^ 14 * 0x7f + 0x7f from rfl, and_parts hy (by decide), and_low,
    and_low, Nat.mul_comm]

theorem and_slot20_high (hz : z < 2 ^ 14) :
    (x * 2 ^ 28 + y * 2 ^ 14 + z) &&& slot20 = y % 128 * 2 ^ 14 + z % 128 := by
  rw [show x * 2 ^ 28 + y * 2 ^ 14 + z = (x * 2 ^ 14 + y) * 2 ^ 14 + z by ring, and_slot20 hz]
  omega

theorem and_slot420 (hy : y < 2 ^ 14) (hz : z < 2 ^ 14) :
    (x * 2 ^ 28 + y * 2 ^ 14 + z) &&& slot420 =
      x % 16 * 2 ^ 28 + y % 128 * 2 ^ 14 + z % 128 := by
  have hslot : slot420 = 2 ^ 14 * (2 ^ 14 * 0xf + 0x7f) + 0x7f := rfl
  have hx : x * 2 ^ 28 + y * 2 ^ 14 + z = 2 ^ 14 * (2 ^ 14 * x + y) + z := by ring
  rw [hx, hslot, and_parts hz (by decide), and_parts hy (by decide), and_low, and_low,
    show x &&& 0xf = x % 16 from Nat.and_two_pow_sub_one_eq_mod x 4]
  ring

/-- Groups of seven bits in turn from two numbers, above a part of any width. -/
theorem or_interleave (k : Nat) (hw : w < 2 ^ k) (hu : u < 128) (hy : y < 128) (hz : z < 128) :
    2 ^ k * (x * 2 ^ 21 + y * 2 ^ 7) + w ||| 2 ^ k * (z * 2 ^ 14 + u) =
      2 ^ k * (x * 2 ^ 21 + z * 2 ^ 14 + y * 2 ^ 7 + u) + w := by
  have hlow : x * 2 ^ 21 + y * 2 ^ 7 ||| (z * 2 ^ 14 + u) =
      x * 2 ^ 21 + z * 2 ^ 14 + y * 2 ^ 7 + u := by
    have hx : x * 2 ^ 21 + y * 2 ^ 7 = 2 ^ 7 * (2 ^ 7 * (2 ^ 7 * x + 0) + y) + 0 := by ring
    have hz' : z * 2 ^ 14 + u = 2 ^ 7 * (2 ^ 7 * (2 ^ 7 * 0 + z) + 0) + u := by ring
    rw [hx, hz', or_parts (by decide) hu, or_parts hy (by decide), or_parts (by decide) hz]
    simp only [Nat.or_zero, Nat.zero_or]
    ring
  have hor := @or_parts k (x * 2 ^ 21 + y * 2 ^ 7) w (z * 2 ^ 14 + u) 0 hw (Nat.two_pow_pos k)
  rw [Nat.add_zero, Nat.or_zero, hlow] at hor
  exact hor

theorem or_seven (hw : w < 128) (hu : u < 128) (hy : y < 128) (hz : z < 128) :
    x * 2 ^ 28 + y * 2 ^ 14 + w ||| 2 ^ 7 * (z * 2 ^ 14 + u) =
      x * 2 ^ 28 + z * 2 ^ 21 + y * 2 ^ 14 + u * 2 ^ 7 + w := by
  have hor := @or_interleave x y z u w 7 hw hu hy hz
  rw [show 2 ^ 7 * (x * 2 ^ 21 + y * 2 ^ 7) + w = x * 2 ^ 28 + y * 2 ^ 14 + w by ring] at hor
  rw [hor]
  ring

end Bits

section Decoding

/-- What the decoder gives is what the digits give, with what is left behind it. -/
structure Reads (pre p : List UInt8) (left value : Nat) (r : Option (Nat × Nat)) : Prop where
  digits : r.map (fun x => (x.1, (pre ++ p).drop x.2)) = CRData.varInt left value p
  inside : ∀ x ∈ r, 0 < x.2 ∧ x.2 ≤ (pre ++ p).length

variable {pre p : List UInt8} {b : UInt8} {left value n : Nat} {r : Option (Nat × Nat)}

theorem reads_nil : Reads pre [] left value none := by
  constructor
  · cases left <;> rfl
  · intro x hx
    cases hx

theorem drop_behind (hn : n = pre.length + 1) : (pre ++ b :: p).drop n = p := by
  rw [hn, List.append_cons, List.drop_left' (by simp)]

theorem inside_behind (hn : n = pre.length + 1) (v : Nat) :
    ∀ x ∈ some (v, n), 0 < x.2 ∧ x.2 ≤ (pre ++ b :: p).length := by
  intro x hx
  cases hx
  rw [List.length_append, List.length_cons]
  omega

theorem reads_last (hb : b.toNat < 128) (hn : n = pre.length + 1) :
    Reads pre (b :: p) (left + 1) value (some (value * 128 + b.toNat, n)) where
  digits := by rw [CRData.varInt, if_pos hb, Option.map_some, drop_behind hn]
  inside := inside_behind hn _

theorem reads_ninth (hn : n = pre.length + 1) :
    Reads pre (b :: p) 0 value (some (value * 256 + b.toNat, n)) where
  digits := by rw [CRData.varInt, Option.map_some, drop_behind hn]
  inside := inside_behind hn _

theorem reads_more (hb : ¬ b.toNat < 128)
    (h : Reads (pre ++ [b]) p left (value * 128 + b.toNat % 128) r) :
    Reads pre (b :: p) (left + 1) value r := by
  have hlow : b.toNat - 128 = b.toNat % 128 := by
    have := b.toNat_lt
    omega
  obtain ⟨hdigits, hinside⟩ := h
  rw [List.append_assoc, List.singleton_append] at hdigits hinside
  refine ⟨?_, hinside⟩
  rw [CRData.varInt, if_neg hb, hlow, ← hdigits]

theorem wide_eq {s a : Nat} (ha : a < 2 ^ 32) : wide s a n = some (2 ^ 32 * s + a, n) := by
  rw [wide, Nat.shiftLeft_eq, Nat.mul_comm, ← Nat.two_pow_add_eq_or_of_lt ha]

theorem shl_eq {x k : Nat} (h : x * 2 ^ k < 2 ^ 32) : shl x k = 2 ^ k * x := by
  rw [shl, Nat.shiftLeft_eq, Nat.mod_eq_of_lt h, Nat.mul_comm]

theorem reads_taken {x acc : Nat} {last next : Option (Nat × Nat)} (hn : n = pre.length + 1)
    (hacc : acc = x * 2 ^ 14 + b.toNat)
    (hlast : b.toNat < 128 → last = some (value * 128 + b.toNat, n))
    (hnext : Reads (pre ++ [b]) p left (value * 128 + b.toNat % 128) next) :
    Reads pre (b :: p) (left + 1) value (if acc &&& 0x80 = 0 then last else next) := by
  have hbyte := b.toNat_lt
  have hbit : acc &&& 0x80 = 0 ↔ b.toNat < 128 := by
    rw [and_high]
    omega
  split
  next h =>
    rw [hbit] at h
    rw [hlast h]
    exact reads_last h hn
  next h =>
    rw [hbit] at h
    exact reads_more h hnext

theorem wide_last {s a x : Nat} (ha : a < 2 ^ 32) (hvalue : 2 ^ 32 * s + a = x) :
    wide s a n = some (x, n) := by
  rw [wide_eq ha, hvalue]

def groups (qs : List Nat) : Nat := qs.foldl (fun v q => v * 128 + q) 0

variable {q0 q1 q2 q3 q6 p4 p5 p7 t u : Nat}

theorem reads_getVarint9 (hpre : pre.length = 8) (h0 : q0 < 128) (h1 : q1 < 128) (h2 : q2 < 128)
    (h3 : q3 < 128) (h6 : q6 < 128) (h7 : p7 < 256) (p : List UInt8) :
    Reads pre p 0 (groups [q0, q1, q2, q3, p4 % 128, p5 % 128, q6, p7 % 128])
      (getVarint9 (p4 % 128 * 2 ^ 14 + q6) (t * 2 ^ 28 + p5 * 2 ^ 14 + p7)
        (q0 * 2 ^ 21 + q1 * 2 ^ 14 + q2 * 2 ^ 7 + q3) p4 p) := by
  cases p with
  | nil => exact reads_nil
  | cons p8 p =>
    have hp8 := p8.toNat_lt
    have hs : shl (q0 * 2 ^ 21 + q1 * 2 ^ 14 + q2 * 2 ^ 7 + q3) 4 ||| (p4 &&& 0x7f) >>> 3 =
        (q0 * 2 ^ 21 + q1 * 2 ^ 14 + q2 * 2 ^ 7 + q3) * 16 + p4 % 128 / 8 := by
      rw [shl_eq (by omega), and_low, Nat.shiftRight_eq_div_pow,
        ← Nat.two_pow_add_eq_or_of_lt (by omega)]
      omega
    have ha : shl (p4 % 128 * 2 ^ 14 + q6) 15 ||| p8.toNat =
        2 ^ 8 * (p4 % 8 * 2 ^ 21 + q6 * 2 ^ 7) + p8.toNat := by
      have hshl : shl (p4 % 128 * 2 ^ 14 + q6) 15 = 2 ^ 8 * (p4 % 8 * 2 ^ 21 + q6 * 2 ^ 7) := by
        rw [shl, Nat.shiftLeft_eq]
        omega
      rw [hshl, ← Nat.two_pow_add_eq_or_of_lt hp8]
    have hb : shl ((t * 2 ^ 28 + p5 * 2 ^ 14 + p7) &&& slot20) 8 =
        2 ^ 8 * (p5 % 128 * 2 ^ 14 + p7 % 128) := by
      rw [and_slot20_high (by omega), shl_eq (by omega)]
    rw [getVarint9, hs, ha, hb, or_interleave 8 hp8 (by omega) h6 (by omega),
      wide_last (by omega) (x := groups [q0, q1, q2, q3, p4 % 128, p5 % 128, q6, p7 % 128] * 256 +
        p8.toNat) (by simp only [groups, List.foldl_cons, List.foldl_nil]; omega)]
    exact reads_ninth (by rw [hpre])

theorem reads_getVarint8 (hpre : pre.length = 7) (h0 : q0 < 128) (h1 : q1 < 128) (h2 : q2 < 128)
    (h3 : q3 < 128) (h6 : q6 < 128) (h5 : p5 < 256) (p : List UInt8) :
    Reads pre p 1 (groups [q0, q1, q2, q3, p4 % 128, p5 % 128, q6])
      (getVarint8 (p4 % 128 * 2 ^ 14 + q6) (t * 2 ^ 28 + q3 * 2 ^ 14 + p5)
        (q0 * 2 ^ 21 + q1 * 2 ^ 14 + q2 * 2 ^ 7 + q3) p4 p) := by
  cases p with
  | nil => exact reads_nil
  | cons p7 p =>
    have hp7 := p7.toNat_lt
    have hb : shl (t * 2 ^ 28 + q3 * 2 ^ 14 + p5) 14 ||| p7.toNat =
        q3 % 16 * 2 ^ 28 + p5 * 2 ^ 14 + p7.toNat := by
      rw [shl_or (by omega)]
      omega
    simp only [getVarint8, hb]
    refine @reads_taken pre p p7 0 _ 8 (q3 % 16 * 2 ^ 14 + p5) _ _ _ (by rw [hpre]) (by ring)
      (fun hlast => ?_) (reads_getVarint9 (by simp [hpre]) h0 h1 h2 h3 h6 hp7 p)
    rw [and_slot420 (by omega) (by omega), shl_eq (by omega), Nat.or_comm,
      or_seven (by omega) h6 (by omega) (by omega), Nat.shiftRight_eq_div_pow]
    apply wide_last (by omega)
    simp only [groups, List.foldl_cons, List.foldl_nil]
    omega

theorem reads_getVarint7 (hpre : pre.length = 6) (h0 : q0 < 128) (h1 : q1 < 128) (h2 : q2 < 128)
    (h3 : q3 < 128) (h4 : p4 < 256) (h5 : p5 < 256) (p : List UInt8) :
    Reads pre p 2 (groups [q0, q1, q2, q3, p4 % 128, p5 % 128])
      (getVarint7 (t * 2 ^ 28 + q2 * 2 ^ 14 + p4) (u * 2 ^ 28 + q3 * 2 ^ 14 + p5)
        (q0 * 2 ^ 21 + q1 * 2 ^ 14 + q2 * 2 ^ 7 + q3) p4 p) := by
  cases p with
  | nil => exact reads_nil
  | cons p6 p =>
    have hp6 := p6.toNat_lt
    have ha : shl (t * 2 ^ 28 + q2 * 2 ^ 14 + p4) 14 ||| p6.toNat =
        q2 % 16 * 2 ^ 28 + p4 * 2 ^ 14 + p6.toNat := by
      rw [shl_or (by omega)]
      omega
    simp only [getVarint7, ha, @and_slot20_high (q2 % 16) p4 p6.toNat (by omega)]
    refine @reads_taken pre p p6 1 _ 7 (q2 % 16 * 2 ^ 14 + p4) _ _ _ (by rw [hpre]) (by ring)
      (fun hlast => ?_) (reads_getVarint8 (by simp [hpre]) h0 h1 h2 h3 (by omega) h5 p)
    rw [and_slot420 (by omega) (by omega), and_slot20_high (by omega), shl_eq (by omega),
      or_seven (by omega) (by omega) (by omega) (by omega), Nat.shiftRight_eq_div_pow]
    apply wide_last (by omega)
    simp only [groups, List.foldl_cons, List.foldl_nil]
    omega

theorem reads_getVarint6 (hpre : pre.length = 5) (h0 : q0 < 128) (h1 : q1 < 128) (h2 : q2 < 128)
    (h3 : q3 < 128) (h4 : p4 < 256) (p : List UInt8) :
    Reads pre p 3 (groups [q0, q1, q2, q3, p4 % 128])
      (getVarint6 (t * 2 ^ 28 + q2 * 2 ^ 14 + p4) (q1 * 2 ^ 14 + q3)
        (q0 * 2 ^ 21 + q1 * 2 ^ 14 + q2 * 2 ^ 7 + q3) p4 p) := by
  cases p with
  | nil => exact reads_nil
  | cons p5 p =>
    have hp5 := p5.toNat_lt
    have hb : shl (q1 * 2 ^ 14 + q3) 14 ||| p5.toNat =
        q1 % 16 * 2 ^ 28 + q3 * 2 ^ 14 + p5.toNat := by
      rw [shl_or (by omega)]
      omega
    simp only [getVarint6, hb]
    refine @reads_taken pre p p5 2 _ 6 (q1 % 16 * 2 ^ 14 + q3) _ _ _ (by rw [hpre]) (by ring)
      (fun hlast => ?_) (reads_getVarint7 (by simp [hpre]) h0 h1 h2 h3 h4 hp5 p)
    rw [and_slot20_high (by omega), shl_eq (by omega), Nat.or_comm,
      or_seven (by omega) (by omega) (by omega) (by omega), Nat.shiftRight_eq_div_pow]
    apply wide_last (by omega)
    simp only [groups, List.foldl_cons, List.foldl_nil]
    omega

theorem reads_getVarint5 (hpre : pre.length = 4) (h0 : q0 < 128) (h1 : q1 < 128) (h2 : q2 < 128)
    (h3 : q3 < 128) (p : List UInt8) : Reads pre p 4 (groups [q0, q1, q2, q3])
      (getVarint5 (q0 * 2 ^ 14 + q2) (q1 * 2 ^ 14 + q3) p) := by
  cases p with
  | nil => exact reads_nil
  | cons p4 p =>
    have hp4 := p4.toNat_lt
    have ha : shl (q0 * 2 ^ 14 + q2) 14 ||| p4.toNat =
        q0 % 16 * 2 ^ 28 + q2 * 2 ^ 14 + p4.toNat := by
      rw [shl_or (by omega)]
      omega
    have hs : shl (q0 * 2 ^ 14 + q2) 7 ||| (q1 * 2 ^ 14 + q3) =
        q0 * 2 ^ 21 + q1 * 2 ^ 14 + q2 * 2 ^ 7 + q3 := by
      have hor := @or_seven 0 q1 q0 q2 q3 h3 h2 h1 h0
      rw [shl_eq (by omega), Nat.or_comm]
      simpa using hor
    simp only [getVarint5, ha, hs]
    refine @reads_taken pre p p4 3 _ 5 (q0 % 16 * 2 ^ 14 + q2) _ _ _ (by rw [hpre]) (by ring)
      (fun hlast => ?_) (reads_getVarint6 (by simp [hpre]) h0 h1 h2 h3 hp4 p)
    rw [shl_eq (by omega), or_seven hlast (by omega) (by omega) (by omega),
      Nat.shiftRight_eq_div_pow]
    apply wide_last (by omega)
    simp only [groups, List.foldl_cons, List.foldl_nil]
    omega

theorem reads_getVarint4 (hpre : pre.length = 3) (h0 : q0 < 128) (h2 : q2 < 128) {p1 : Nat}
    (h1 : p1 < 256) (p : List UInt8) : Reads pre p 5 (groups [q0, p1 % 128, q2])
      (getVarint4 (q0 * 2 ^ 14 + q2) p1 p) := by
  cases p with
  | nil => exact reads_nil
  | cons p3 p =>
    have hp3 := p3.toNat_lt
    have hb : shl p1 14 ||| p3.toNat = p1 * 2 ^ 14 + p3.toNat := by
      rw [shl_or (by omega), Nat.mod_eq_of_lt (by omega)]
    simp only [getVarint4, hb, @and_slot20 p1 p3.toNat (by omega)]
    refine @reads_taken pre p p3 4 _ 4 p1 _ _ _ (by rw [hpre]) rfl (fun hlast => ?_)
      (reads_getVarint5 (by simp [hpre]) h0 (by omega) h2 (by omega) p)
    have hor := @or_seven 0 (p1 % 128) q0 q2 (p3.toNat % 128) (by omega) h2 (by omega) h0
    rw [Nat.zero_mul, Nat.zero_add] at hor
    rw [shl_eq (by omega), Nat.or_comm, hor]
    simp only [groups, List.foldl_cons, List.foldl_nil, Option.some.injEq, Prod.mk.injEq, and_true]
    omega

theorem reads_getVarint3 (hpre : pre.length = 2) {p0 p1 : Nat} (h0 : p0 < 256) (h1 : p1 < 256)
    (p : List UInt8) : Reads pre p 6 (groups [p0 % 128, p1 % 128]) (getVarint3 p0 p1 p) := by
  cases p with
  | nil => exact reads_nil
  | cons p2 p =>
    have hp2 := p2.toNat_lt
    have ha : shl p0 14 ||| p2.toNat = p0 * 2 ^ 14 + p2.toNat := by
      rw [shl_or (by omega), Nat.mod_eq_of_lt (by omega)]
    simp only [getVarint3, ha, @and_slot20 p0 p2.toNat (by omega), and_low]
    refine @reads_taken pre p p2 5 _ 3 p0 _ _ _ (by rw [hpre]) rfl (fun hlast => ?_)
      (reads_getVarint4 (by simp [hpre]) (by omega) (by omega) h1 p)
    have hor := @or_seven 0 (p0 % 128) 0 (p1 % 128) (p2.toNat % 128) (by omega) (by omega)
      (by omega) (by omega)
    simp only [Nat.zero_mul, Nat.zero_add, Nat.add_zero] at hor
    rw [shl_eq (by omega), hor]
    simp only [groups, List.foldl_cons, List.foldl_nil, Option.some.injEq, Prod.mk.injEq, and_true]
    omega

theorem reads_sqlite3GetVarint (p : List UInt8) : Reads [] p 8 0 (sqlite3GetVarint p) := by
  cases p with
  | nil => exact reads_nil
  | cons p0 p =>
    have hp0 := p0.toNat_lt
    have hbit (b : UInt8) : b.toNat &&& 0x80 = 0 ↔ b.toNat < 128 := by
      have hb := b.toNat_lt
      rw [and_high, Nat.mod_eq_of_lt hb]
    unfold sqlite3GetVarint
    simp only [hbit]
    split
    next hlast => simpa using @reads_last [] p p0 7 0 1 hlast rfl
    next hmore =>
      apply reads_more hmore
      cases p with
      | nil => exact reads_nil
      | cons p1 p =>
        have hp1 := p1.toNat_lt
        dsimp only
        split
        next hlast =>
          have hvalue : shl (p0.toNat &&& 0x7f) 7 ||| p1.toNat =
              (0 * 128 + p0.toNat % 128) * 128 + p1.toNat := by
            rw [and_low, shl_eq (by omega), ← Nat.two_pow_add_eq_or_of_lt hlast]
            omega
          rw [hvalue]
          exact reads_last hlast rfl
        next hmore =>
          exact reads_more hmore (@reads_getVarint3 ([] ++ [p0] ++ [p1]) rfl _ _ hp0 hp1 p)

end Decoding

section Encoding

variable {v : Nat}

theorem highByte_eq (v : Nat) : highByte v = UInt8.ofNat (v % 128 + 128) := by
  have hor := @Nat.two_pow_add_eq_or_of_lt 7 (v % 128) (Nat.mod_lt v (by decide)) 1
  rw [highByte, and_low, Nat.or_comm, Nat.add_comm]
  exact congrArg UInt8.ofNat hor.symm

theorem lastByte_eq (v : Nat) : lastByte v = UInt8.ofNat (v % 128) := by
  rw [lastByte, and_low]

theorem highByte_masked (v : Nat) : highByte v &&& 0x7f = UInt8.ofNat (v % 128) := by
  apply UInt8.toNat_inj.mp
  rw [highByte_eq, UInt8.toNat_and, toNat_ofNat_of_lt (by omega), toNat_ofNat_of_lt (by omega)]
  exact (and_low _).trans (by omega)

theorem fillDown_eq (i v : Nat) : fillDown i v = varintGroups i v := by
  induction i generalizing v with
  | zero => rfl
  | succ i ih => rw [fillDown, varintGroups, ih, highByte_eq, Nat.shiftRight_eq_div_pow]

/-- The bytes of `buf` are the groups of the number. Induction on the groups there is room for. -/
theorem fillBuf_reverse {l : Nat} (hv : v < 128 ^ l) :
    (if v = 0 then [] else fillBuf v).reverse = highGroups l v := by
  induction l generalizing v with
  | zero => rw [if_pos (by omega), highGroups, List.reverse_nil]
  | succ l ih =>
    by_cases hzero : v = 0
    · rw [if_pos hzero, highGroups, if_pos hzero, List.reverse_nil]
    · have hdiv : v / 128 < 128 ^ l := Nat.div_lt_of_lt_mul (by rwa [Nat.pow_succ'] at hv)
      rw [if_neg hzero, highGroups, if_neg hzero, fillBuf, Nat.shiftRight_eq_div_pow,
        List.reverse_cons, highByte_eq]
      have hrest := ih hdiv
      rw [show v / 2 ^ 7 = v / 128 from rfl]
      simpa using hrest

theorem fillBuf_cons (v : Nat) :
    fillBuf v = highByte v :: (if v / 128 = 0 then [] else fillBuf (v / 128)) := by
  rw [fillBuf, Nat.shiftRight_eq_div_pow, show v / 2 ^ 7 = v / 128 from rfl]
  split <;> rfl

theorem topByte_iff (hv : v < 2 ^ 64) : v &&& (0xff000000 <<< 32) ≠ 0 ↔ 2 ^ 56 ≤ v := by
  have hparts := @and_parts 56 (v / 2 ^ 56) (v % 2 ^ 56) 255 0 (Nat.mod_lt _ (by decide))
    (Nat.two_pow_pos 56)
  have htop : v / 2 ^ 56 &&& 255 = v / 2 ^ 56 := by
    rw [show (255 : Nat) = 2 ^ 8 - 1 from rfl, Nat.and_two_pow_sub_one_eq_mod]
    omega
  rw [Nat.div_add_mod, htop, Nat.and_zero] at hparts
  rw [show (0xff000000 <<< 32 : Nat) = 2 ^ 56 * 255 + 0 from rfl, hparts]
  omega

theorem sqlite3PutVarint_eq (hv : v < 2 ^ 64) : sqlite3PutVarint v = putVarint v := by
  unfold sqlite3PutVarint putVarint
  split
  next hone =>
    have hzero : v / 128 = 0 := by omega
    rw [if_neg (by omega), hzero, lastByte_eq]
    rfl
  next hone =>
    split
    next htwo =>
      have hpos : v / 128 ≠ 0 := by omega
      have hzero : v / 128 / 128 = 0 := by omega
      rw [if_neg (by omega), highGroups, if_neg hpos, hzero, lastByte_eq, highByte_eq,
        Nat.shiftRight_eq_div_pow]
      rfl
    next htwo =>
      unfold putVarint64
      split
      next htop =>
        rw [topByte_iff hv] at htop
        rw [if_pos htop, fillDown_eq, Nat.shiftRight_eq_div_pow]
        congr 2
        exact UInt8.toNat_inj.mp (by simp)
      next htop =>
        rw [topByte_iff hv] at htop
        have hdiv : v / 128 < 128 ^ 8 := by omega
        rw [if_neg htop, fillBuf_cons]
        dsimp only
        rw [List.reverse_cons, fillBuf_reverse hdiv, highByte_masked]

theorem varintLenLoop_eq (v i : Nat) : varintLenLoop v i + 1 = i + (fillBuf v).length := by
  fun_induction varintLenLoop v i with
  | case1 v i hzero => rw [fillBuf, dif_pos hzero, List.length_singleton]
  | case2 v i hmore ih =>
    have hbuf : fillBuf v = highByte v :: fillBuf (v >>> 7) := by
      rw [fillBuf, dif_neg hmore]
    rw [ih, hbuf, List.length_cons]
    omega

theorem fillBuf_length_le {k : Nat} (hv : v < 128 ^ (k + 1)) : (fillBuf v).length ≤ k + 1 := by
  induction k generalizing v with
  | zero => rw [fillBuf_cons, if_pos (by omega), List.length_singleton]
  | succ k ih =>
    have hrest := @ih (v / 128) (Nat.div_lt_of_lt_mul (by rwa [Nat.pow_succ'] at hv))
    rw [fillBuf_cons, List.length_cons]
    split
    · exact Nat.succ_le_succ (Nat.zero_le _)
    · exact Nat.succ_le_succ hrest

theorem lt_fillBuf_length {k : Nat} (hv : 128 ^ k ≤ v) : k < (fillBuf v).length := by
  induction k generalizing v with
  | zero =>
    rw [fillBuf_cons, List.length_cons]
    exact Nat.succ_pos _
  | succ k ih =>
    have hle : 128 ^ k ≤ v / 128 := (Nat.le_div_iff_mul_le (by decide)).mpr (by rwa [← Nat.pow_succ])
    have hpos : 0 < 128 ^ k := Nat.pow_pos (by decide)
    rw [fillBuf_cons, List.length_cons, if_neg (by omega)]
    exact Nat.succ_lt_succ (ih hle)

theorem sqlite3VarintLen_eq (hv : v < 2 ^ 64) : sqlite3VarintLen v = (sqlite3PutVarint v).length := by
  have hloop := varintLenLoop_eq v 1
  have hten : (fillBuf v).length ≤ 10 := @fillBuf_length_le v 9 (by omega)
  unfold sqlite3VarintLen sqlite3PutVarint
  split
  next hlen =>
    have hlarge : ¬ v < 2 ^ 56 := fun hlt => by
      have := @fillBuf_length_le v 7 (by omega)
      omega
    rw [if_neg (by omega), if_neg (by omega), putVarint64, if_pos ((topByte_iff hv).mpr (by omega)),
      fillDown_eq]
    rfl
  next hlen =>
    split
    next hone =>
      have := @fillBuf_length_le v 0 (by omega)
      have := @lt_fillBuf_length v 0
      rw [List.length_singleton]
      have hcons := congrArg List.length (fillBuf_cons v)
      rw [List.length_cons] at hcons
      omega
    next hone =>
      split
      next htwo =>
        have hle := @fillBuf_length_le v 1 (by omega)
        have hlt := @lt_fillBuf_length v 1 (by omega)
        rw [List.length_cons, List.length_singleton]
        omega
      next htwo =>
        unfold putVarint64
        split
        next htop =>
          rw [topByte_iff hv] at htop
          have hlt := @lt_fillBuf_length v 8 (by omega)
          have hnine : (fillDown 8 (v >>> 8) ++ [UInt8.ofNat v]).length = 9 := rfl
          omega
        next htop =>
          rw [fillBuf_cons]
          rw [fillBuf_cons] at hloop
          simp only [List.length_reverse, List.length_cons] at hloop ⊢
          omega

theorem sqlite3GetVarint_put (hv : v < 2 ^ 64) (rest : List UInt8) :
    sqlite3GetVarint (sqlite3PutVarint v ++ rest) = some (v, (sqlite3PutVarint v).length) := by
  obtain ⟨hdigits, hinside⟩ := reads_sqlite3GetVarint (sqlite3PutVarint v ++ rest)
  rw [sqlite3PutVarint_eq hv] at hdigits hinside ⊢
  rw [Metadata.varInt_putVarint hv, List.nil_append] at hdigits
  obtain ⟨⟨v', n⟩, hget, heq⟩ := Option.map_eq_some_iff.mp hdigits
  simp only [Prod.mk.injEq] at heq
  obtain ⟨rfl, hdrop⟩ := heq
  have hn : n ≤ _ := (hinside _ hget).2
  have hlength := congrArg List.length hdrop
  rw [List.nil_append, List.length_append] at hn
  rw [List.length_drop, List.length_append] at hlength
  rw [hget, show n = (putVarint v').length by omega]

end Encoding

end Data

end UrBackup
