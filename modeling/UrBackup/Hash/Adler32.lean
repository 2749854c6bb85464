import UrBackup.Lib.Adler32

/-! The checksums of `urb_adler32` and `urb_adler32_combine`, with their 32-bit sums. -/
namespace UrBackup

open Adler32

def adlerBase : UInt32 := 65521

def nmax : Nat := 5552

def addBytes (s : UInt32 × UInt32) (buf : List UInt8) : UInt32 × UInt32 :=
  buf.foldl (fun s b => (s.1 + b.toUInt32, s.2 + (s.1 + b.toUInt32))) s

def modBase (s : UInt32 × UInt32) : UInt32 × UInt32 := (s.1 % adlerBase, s.2 % adlerBase)

/-- The loop over blocks of `nmax` bytes, of which there are `n`. -/
def nmaxBlocks : (n : Nat) → UInt32 × UInt32 → List UInt8 → (UInt32 × UInt32) × List UInt8
  | 0, s, buf => (s, buf)
  | n + 1, s, buf => nmaxBlocks n (modBase (addBytes s (buf.take nmax))) (buf.drop nmax)

def subBase (x : UInt32) : UInt32 := if adlerBase ≤ x then x - adlerBase else x

def recombine (s : UInt32 × UInt32) : UInt32 := s.1 ||| (s.2 <<< 16)

def splitAdler (adler : UInt32) : UInt32 × UInt32 := (adler &&& 0xffff, (adler >>> 16) &&& 0xffff)

def urbAdler32 (adler : UInt32) (pbuf : Option (List UInt8)) : UInt32 :=
  match pbuf with
  | none => 1
  | some [b] =>
    let adler1 := subBase ((splitAdler adler).1 + b.toUInt32)
    recombine (adler1, subBase ((splitAdler adler).2 + adler1))
  | some buf =>
    if buf.length < 16 then
      let (adler1, sum2) := addBytes (splitAdler adler) buf
      recombine (subBase adler1, sum2 % adlerBase)
    else
      let (s, rest) := nmaxBlocks (buf.length / nmax) (splitAdler adler) buf
      recombine (if rest = [] then s else modBase (addBytes s rest))

/-- The sums stay below 32 bits, which an `unsigned long` has at least. -/
def urbAdler32Combine (adler1 adler2 len2 : UInt32) : UInt32 :=
  let rem := len2 % adlerBase
  let s1 := splitAdler adler1
  let s2 := splitAdler adler2
  let sum1 := s1.1
  let sum2 := rem * sum1 % adlerBase
  let sum1 := sum1 + (s2.1 + adlerBase - 1)
  let sum2 := sum2 + (s1.2 + s2.2 + adlerBase - rem)
  let sum1 := subBase (subBase sum1)
  let sum2 := if adlerBase <<< 1 ≤ sum2 then sum2 - adlerBase <<< 1 else sum2
  recombine (sum1, subBase sum2)

section Values

def values (s : UInt32 × UInt32) : Nat × Nat := (s.1.toNat, s.2.toNat)

def adlerSums (adler : UInt32) : Nat × Nat := values (splitAdler adler)

theorem adlerSums_eq (adler : UInt32) :
    adlerSums adler = (adler.toNat % 65536, adler.toNat / 65536) := by
  have hlt := adler.toNat_lt
  unfold adlerSums values splitAdler
  ext
  · simp only [UInt32.toNat_and]
    exact Nat.and_two_pow_sub_one_eq_mod adler.toNat 16
  · simp only [UInt32.toNat_and, UInt32.toNat_shiftRight]
    refine (Nat.and_two_pow_sub_one_eq_mod _ 16).trans ?_
    have hshift : adler.toNat >>> ((16 : UInt32).toNat % 32) = adler.toNat / 65536 :=
      Nat.shiftRight_eq_div_pow adler.toNat 16
    rw [hshift]
    omega

theorem adlerSums_injective : Function.Injective adlerSums := by
  intro a b h
  rw [adlerSums_eq, adlerSums_eq, Prod.mk.injEq] at h
  apply UInt32.toNat_inj.mp
  omega

theorem toNat_recombine {s : UInt32 × UInt32} (hfirst : s.1.toNat < 65536)
    (hsecond : s.2.toNat < 65536) : (recombine s).toNat = s.1.toNat + 65536 * s.2.toNat := by
  have hshift : (s.2 <<< 16).toNat = s.2.toNat <<< 16 := by
    rw [UInt32.toNat_shiftLeft]
    refine Nat.mod_eq_of_lt ?_
    have heq : s.2.toNat <<< ((16 : UInt32).toNat % 32) = s.2.toNat * 65536 :=
      Nat.shiftLeft_eq s.2.toNat 16
    rw [heq]
    omega
  rw [recombine, UInt32.toNat_or, hshift, Nat.or_comm]
  rw [← Nat.shiftLeft_add_eq_or_of_lt (by simpa using hfirst), Nat.shiftLeft_eq]
  omega

theorem adlerSums_recombine {s : UInt32 × UInt32} (h : Reduced (values s)) :
    adlerSums (recombine s) = values s := by
  obtain ⟨hfirst, hsecond⟩ := h
  simp only [values, base] at hfirst hsecond
  rw [adlerSums_eq, toNat_recombine (by omega) (by omega)]
  ext
  · simp only [values]
    omega
  · simp only [values]
    omega

theorem toNat_subBase {x : UInt32} (h : x.toNat < 2 * base) : (subBase x).toNat = x.toNat % base := by
  unfold subBase
  have hbase : adlerBase.toNat = base := rfl
  split
  · rename_i hle
    have hle' := UInt32.le_iff_toNat_le.mp hle
    rw [UInt32.toNat_sub_of_le _ _ hle, hbase]
    rw [hbase] at hle'
    rw [Nat.mod_eq_sub_mod hle', Nat.mod_eq_of_lt (by omega)]
  · rename_i hlt
    rw [UInt32.le_iff_toNat_le, hbase] at hlt
    rw [Nat.mod_eq_of_lt (by omega)]

theorem values_modBase (s : UInt32 × UInt32) : values (modBase s) = reduce (values s) := by
  ext
  · exact UInt32.toNat_mod _ _
  · exact UInt32.toNat_mod _ _

theorem values_addBytes (s : UInt32 × UInt32) (buf : List UInt8) :
    (addBytes s buf).1.toNat ≡ (sums (values s) buf).1 [MOD 2 ^ 32] ∧
      (addBytes s buf).2.toNat ≡ (sums (values s) buf).2 [MOD 2 ^ 32] := by
  induction buf generalizing s with
  | nil => exact ⟨rfl, rfl⟩
  | cons b buf ih =>
    obtain ⟨hfirst, hsecond⟩ := ih (s.1 + b.toUInt32, s.2 + (s.1 + b.toUInt32))
    have hone : (s.1 + b.toUInt32).toNat ≡ s.1.toNat + b.toNat [MOD 2 ^ 32] := by
      rw [UInt32.toNat_add, UInt8.toNat_toUInt32]
      exact Nat.mod_modEq _ _
    have htwo : (s.2 + (s.1 + b.toUInt32)).toNat ≡ s.2.toNat + (s.1.toNat + b.toNat)
        [MOD 2 ^ 32] := by
      rw [UInt32.toNat_add]
      exact (Nat.mod_modEq _ _).trans (hone.add_left _)
    obtain ⟨hfirst', hsecond'⟩ := @sums_modEq (values (s.1 + b.toUInt32, s.2 + (s.1 + b.toUInt32)))
      (s.1.toNat + b.toNat, s.2.toNat + (s.1.toNat + b.toNat)) _ hone htwo buf
    exact ⟨hfirst.trans hfirst', hsecond.trans hsecond'⟩

/-- Over so few bytes the sums do not wrap around. -/
theorem addBytes_spec {s : UInt32 × UInt32} {buf : List UInt8} (h : Reduced (values s))
    (hlength : buf.length ≤ nmax) : values (addBytes s buf) = sums (values s) buf := by
  obtain ⟨hfirst, hsecond⟩ := values_addBytes s buf
  obtain ⟨hle, hle'⟩ := sums_le (values s) buf
  obtain ⟨hs, hs'⟩ := h
  have hmul : buf.length * (values s).1 ≤ nmax * base := Nat.mul_le_mul hlength hs.le
  have hsquare : buf.length * (buf.length + 1) ≤ nmax * (nmax + 1) :=
    Nat.mul_le_mul hlength (Nat.succ_le_succ hlength)
  simp only [nmax, base] at hmul hsquare hs hs' hlength
  ext
  · exact Nat.ModEq.eq_of_lt_of_lt hfirst (UInt32.toNat_lt _) (by omega)
  · exact Nat.ModEq.eq_of_lt_of_lt hsecond (UInt32.toNat_lt _) (by omega)

/-- Induction on the blocks. -/
theorem nmaxBlocks_spec {n : Nat} {s : UInt32 × UInt32} {buf : List UInt8}
    (h : Reduced (values s)) (hlength : n * nmax ≤ buf.length) :
    (nmaxBlocks n s buf).2 = buf.drop (n * nmax) ∧
      values (nmaxBlocks n s buf).1 = update (values s) (buf.take (n * nmax)) := by
  induction n generalizing s buf with
  | zero => simp [nmaxBlocks, update_nil h]
  | succ n ih =>
    rw [Nat.succ_mul] at hlength
    have hblock : values (modBase (addBytes s (buf.take nmax))) =
        update (values s) (buf.take nmax) := by
      rw [values_modBase, addBytes_spec h (by simp), update]
    obtain ⟨hrest, hvalues⟩ := @ih (modBase (addBytes s (buf.take nmax))) (buf.drop nmax)
      (hblock ▸ reduced_update _ _) (by rw [List.length_drop]; omega)
    refine ⟨?_, ?_⟩
    · rw [nmaxBlocks, hrest, List.drop_drop, Nat.succ_mul, Nat.add_comm]
    · rw [nmaxBlocks, hvalues, hblock, ← update_append, Nat.succ_mul, Nat.add_comm,
        List.take_add]

theorem adlerSums_urbAdler32_single {adler : UInt32} (h : Reduced (adlerSums adler)) (b : UInt8) :
    adlerSums (urbAdler32 adler (some [b])) = update (adlerSums adler) [b] := by
  obtain ⟨hfirst, hsecond⟩ := h
  simp only [adlerSums, values, base] at hfirst hsecond
  have hb := b.toNat_lt
  have hone : ((splitAdler adler).1 + b.toUInt32).toNat = (splitAdler adler).1.toNat + b.toNat := by
    rw [UInt32.toNat_add, UInt8.toNat_toUInt32]
    exact Nat.mod_eq_of_lt (by omega)
  have hfirst' := toNat_subBase (x := (splitAdler adler).1 + b.toUInt32)
    (by rw [hone, base]; omega)
  have hlt : (subBase ((splitAdler adler).1 + b.toUInt32)).toNat < 65521 := by
    rw [hfirst']
    exact Nat.mod_lt _ (by decide)
  have htwo : ((splitAdler adler).2 + subBase ((splitAdler adler).1 + b.toUInt32)).toNat =
      (splitAdler adler).2.toNat + ((splitAdler adler).1.toNat + b.toNat) % base := by
    rw [UInt32.toNat_add, hfirst', hone]
    refine Nat.mod_eq_of_lt ?_
    rw [← hone, ← hfirst']
    omega
  have hsecond' := toNat_subBase
    (x := (splitAdler adler).2 + subBase ((splitAdler adler).1 + b.toUInt32))
    (by rw [htwo, ← hone, ← hfirst', base]; omega)
  rw [hone] at hfirst'
  rw [htwo, Nat.add_mod_mod] at hsecond'
  have hvalues : values (subBase ((splitAdler adler).1 + b.toUInt32),
      subBase ((splitAdler adler).2 + subBase ((splitAdler adler).1 + b.toUInt32))) =
      update (adlerSums adler) [b] := Prod.ext hfirst' hsecond'
  rw [urbAdler32, adlerSums_recombine (hvalues ▸ reduced_update _ _), hvalues]

theorem adlerSums_short {adler : UInt32} (h : Reduced (adlerSums adler)) {buf : List UInt8}
    (hlength : buf.length < 16) :
    adlerSums (recombine (subBase (addBytes (splitAdler adler) buf).1,
      (addBytes (splitAdler adler) buf).2 % adlerBase)) = update (adlerSums adler) buf := by
  have hsums := @addBytes_spec (splitAdler adler) buf h (by unfold nmax; omega)
  obtain ⟨hle, -⟩ := sums_le (values (splitAdler adler)) buf
  have hfirst := congrArg Prod.fst hsums
  have hreduced := h.1
  simp only [adlerSums, values, base] at hreduced hle hfirst
  have hvalues : values (subBase (addBytes (splitAdler adler) buf).1,
      (addBytes (splitAdler adler) buf).2 % adlerBase) = update (adlerSums adler) buf := by
    unfold update adlerSums
    rw [← hsums]
    refine Prod.ext (toNat_subBase ?_) (UInt32.toNat_mod _ _)
    rw [hfirst, base]
    omega
  rw [adlerSums_recombine (hvalues ▸ reduced_update _ _), hvalues]

theorem adlerSums_long {adler : UInt32} (h : Reduced (adlerSums adler)) (buf : List UInt8) :
    adlerSums (recombine (if (nmaxBlocks (buf.length / nmax) (splitAdler adler) buf).2 = [] then
        (nmaxBlocks (buf.length / nmax) (splitAdler adler) buf).1
      else modBase (addBytes (nmaxBlocks (buf.length / nmax) (splitAdler adler) buf).1
        (nmaxBlocks (buf.length / nmax) (splitAdler adler) buf).2))) =
      update (adlerSums adler) buf := by
  obtain ⟨hrest, hvalues⟩ := nmaxBlocks_spec h (Nat.div_mul_le_self buf.length nmax)
  have hreduced : Reduced (values (nmaxBlocks (buf.length / nmax) (splitAdler adler) buf).1) :=
    hvalues ▸ reduced_update _ _
  rw [hrest]
  generalize (nmaxBlocks (buf.length / nmax) (splitAdler adler) buf).1 = s at *
  have hall := List.take_append_drop (buf.length / nmax * nmax) buf
  split
  · rename_i hnil
    rw [hnil, List.append_nil] at hall
    rw [adlerSums_recombine hreduced, hvalues, hall]
    rfl
  · have hmod : values (modBase (addBytes s (buf.drop (buf.length / nmax * nmax)))) =
        update (adlerSums adler) buf := by
      rw [values_modBase, addBytes_spec hreduced, hvalues]
      · show update _ _ = _
        rw [← update_append, hall]
        rfl
      · have := Nat.mod_lt buf.length (by decide : 0 < nmax)
        have := Nat.div_add_mod' buf.length nmax
        rw [List.length_drop]
        omega
    rw [adlerSums_recombine (hmod ▸ reduced_update _ _), hmod]

theorem adlerSums_urbAdler32 {adler : UInt32} (h : Reduced (adlerSums adler)) (buf : List UInt8) :
    adlerSums (urbAdler32 adler (some buf)) = update (adlerSums adler) buf := by
  by_cases hsingle : ∃ b, buf = [b]
  · obtain ⟨b, rfl⟩ := hsingle
    exact adlerSums_urbAdler32_single h b
  · rw [urbAdler32]
    · split
      · rename_i hshort
        exact adlerSums_short h hshort
      · exact adlerSums_long h buf
    · exact fun b hb => hsingle ⟨b, hb⟩

theorem reduced_urbAdler32 {adler : UInt32} (h : Reduced (adlerSums adler)) (buf : List UInt8) :
    Reduced (adlerSums (urbAdler32 adler (some buf))) :=
  adlerSums_urbAdler32 h buf ▸ reduced_update _ _

@[simp] theorem adlerSums_none (adler : UInt32) : adlerSums (urbAdler32 adler none) = start := by
  rw [adlerSums_eq, urbAdler32]
  rfl

theorem reduced_start : Reduced start := ⟨by decide, by decide⟩

theorem toNat_add_of_lt {x y : UInt32} (h : x.toNat + y.toNat < 2 ^ 32) :
    (x + y).toNat = x.toNat + y.toNat := by
  rw [UInt32.toNat_add]
  exact Nat.mod_eq_of_lt h

theorem toNat_subBase_subBase {x : UInt32} (h : x.toNat < 3 * base) :
    (subBase (subBase x)).toNat = x.toNat % base := by
  have hbase : adlerBase.toNat = base := rfl
  by_cases hle : adlerBase ≤ x
  · have hle' := UInt32.le_iff_toNat_le.mp hle
    rw [hbase] at hle'
    have hsub : (subBase x).toNat = x.toNat - base := by
      rw [subBase, if_pos hle, UInt32.toNat_sub_of_le _ _ hle, hbase]
    rw [toNat_subBase (by omega), hsub, ← Nat.mod_eq_sub_mod hle']
  · have hsub : subBase x = x := by rw [subBase, if_neg hle]
    rw [UInt32.le_iff_toNat_le, hbase] at hle
    rw [hsub, toNat_subBase (by omega)]

theorem toNat_subTwice {x : UInt32} (h : x.toNat < 4 * base) :
    (subBase (if adlerBase <<< 1 ≤ x then x - adlerBase <<< 1 else x)).toNat = x.toNat % base := by
  have hbase : (adlerBase <<< 1).toNat = 2 * base := rfl
  split
  · rename_i hle
    have hle' := UInt32.le_iff_toNat_le.mp hle
    rw [hbase] at hle'
    have hsub : (x - adlerBase <<< 1).toNat = x.toNat - 2 * base := by
      rw [UInt32.toNat_sub_of_le _ _ hle, hbase]
    rw [toNat_subBase (by omega), hsub]
    simp only [base] at hle' ⊢
    omega
  · rename_i hlt
    rw [UInt32.le_iff_toNat_le, hbase] at hlt
    exact toNat_subBase (by omega)

theorem adlerSums_urbAdler32Combine {adler1 adler2 : UInt32} (h1 : Reduced (adlerSums adler1))
    (h2 : Reduced (adlerSums adler2)) (len2 : UInt32) :
    adlerSums (urbAdler32Combine adler1 adler2 len2) =
      combine (adlerSums adler1) (adlerSums adler2) len2.toNat := by
  obtain ⟨ha1, hb1⟩ := h1
  obtain ⟨ha2, hb2⟩ := h2
  have heq1 : adlerSums adler1 = values (splitAdler adler1) := rfl
  have heq2 : adlerSums adler2 = values (splitAdler adler2) := rfl
  rw [heq1] at ha1 hb1 ⊢
  rw [heq2] at ha2 hb2 ⊢
  simp only [urbAdler32Combine]
  clear heq1 heq2
  generalize splitAdler adler1 = s1 at *
  generalize splitAdler adler2 = s2 at *
  obtain ⟨a1, b1⟩ := s1
  obtain ⟨a2, b2⟩ := s2
  simp only [values] at ha1 hb1 ha2 hb2
  have hbase : adlerBase.toNat = base := rfl
  have hvalue : base = 65521 := rfl
  -- every sum stays below 32 bits
  have hrem : (len2 % adlerBase).toNat = len2.toNat % base := UInt32.toNat_mod _ _
  have hless : len2.toNat % base < base := Nat.mod_lt _ (by decide)
  have hmul : (len2 % adlerBase * a1 % adlerBase).toNat = len2.toNat % base * a1.toNat % base := by
    have hprod : len2.toNat % base * a1.toNat < base * base := Nat.mul_lt_mul'' hless ha1
    have hsquare : base * base < 2 ^ 32 := by decide
    rw [UInt32.toNat_mod, UInt32.toNat_mul, hrem, hbase,
      Nat.mod_eq_of_lt (hprod.trans hsquare)]
  have hmod : len2.toNat % base * a1.toNat % base < base := Nat.mod_lt _ (by decide)
  have hfirst : (a1 + (a2 + adlerBase - 1)).toNat = a1.toNat + a2.toNat + (base - 1) := by
    have hadd : (a2 + adlerBase).toNat = a2.toNat + base := toNat_add_of_lt (by rw [hbase]; omega)
    have hsub : (a2 + adlerBase - 1).toNat = a2.toNat + base - 1 := by
      rw [UInt32.toNat_sub_of_le _ _ (by rw [UInt32.le_iff_toNat_le, hadd]; show 1 ≤ _; omega), hadd]
      rfl
    rw [toNat_add_of_lt (by rw [hsub]; omega), hsub]
    omega
  have hsecond : (len2 % adlerBase * a1 % adlerBase +
      (b1 + b2 + adlerBase - len2 % adlerBase)).toNat =
        len2.toNat % base * a1.toNat % base + (b1.toNat + b2.toNat + base - len2.toNat % base) := by
    have hadd : (b1 + b2 + adlerBase).toNat = b1.toNat + b2.toNat + base := by
      have hfirst : (b1 + b2).toNat = b1.toNat + b2.toNat := toNat_add_of_lt (by omega)
      rw [toNat_add_of_lt (by rw [hfirst, hbase]; omega), hfirst, hbase]
    have hsub : (b1 + b2 + adlerBase - len2 % adlerBase).toNat =
        b1.toNat + b2.toNat + base - len2.toNat % base := by
      rw [UInt32.toNat_sub_of_le _ _ (by rw [UInt32.le_iff_toNat_le, hadd, hrem]; omega), hadd, hrem]
    rw [toNat_add_of_lt (by rw [hmul, hsub]; omega), hmul, hsub]
  have hone := toNat_subBase_subBase (x := a1 + (a2 + adlerBase - 1)) (by rw [hfirst]; omega)
  have htwo := toNat_subTwice (x := len2 % adlerBase * a1 % adlerBase +
    (b1 + b2 + adlerBase - len2 % adlerBase)) (by rw [hsecond]; omega)
  rw [hfirst] at hone
  rw [hsecond] at htwo
  have hsum : (len2.toNat % base * a1.toNat % base +
      (b1.toNat + b2.toNat + base - len2.toNat % base)) % base =
        (b1.toNat + b2.toNat + len2.toNat * a1.toNat + (base - len2.toNat % base)) % base := by
    have hsplit : b1.toNat + b2.toNat + base - len2.toNat % base =
        b1.toNat + b2.toNat + (base - len2.toNat % base) := by omega
    rw [hsplit, Nat.mod_add_mod]
    show _ ≡ _ [MOD base]
    refine (((Nat.mod_modEq len2.toNat base).mul_right a1.toNat).add_right _).trans ?_
    rw [← Nat.add_assoc, Nat.add_comm (len2.toNat * a1.toNat)]
  rw [hsum] at htwo
  rw [adlerSums_recombine, combine]
  · simp only [values, hone, htwo]
  · simp only [Reduced, values, hone, htwo]
    exact ⟨Nat.mod_lt _ (by decide), Nat.mod_lt _ (by decide)⟩

theorem urbAdler32Combine_urbAdler32 {adler : UInt32} (h : Reduced (adlerSums adler))
    (buf : List UInt8) (hlength : buf.length < 2 ^ 32) :
    urbAdler32Combine adler (urbAdler32 (urbAdler32 0 none) (some buf)) (UInt32.ofNat buf.length) =
      urbAdler32 adler (some buf) := by
  apply adlerSums_injective
  have hstart : Reduced (adlerSums (urbAdler32 0 none)) := adlerSums_none 0 ▸ reduced_start
  rw [adlerSums_urbAdler32Combine h (reduced_urbAdler32 hstart buf), adlerSums_urbAdler32 hstart,
    adlerSums_urbAdler32 h, adlerSums_none, UInt32.toNat_ofNat', Nat.mod_eq_of_lt hlength, combine_update]

theorem urbAdler32_append {adler : UInt32} (h : Reduced (adlerSums adler)) (buf buf' : List UInt8) :
    urbAdler32 adler (some (buf ++ buf')) = urbAdler32 (urbAdler32 adler (some buf)) (some buf') := by
  apply adlerSums_injective
  rw [adlerSums_urbAdler32 h, adlerSums_urbAdler32 (reduced_urbAdler32 h buf),
    adlerSums_urbAdler32 h, update_append]

end Values

end UrBackup
