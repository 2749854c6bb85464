import UrBackup.Crypto.Framing
import UrBackup.Lib.ByteOrder

/-! The IVs of the messages of a connection, which count up from the first. -/
namespace UrBackup

open ByteOrder

theorem increment_length (bs : List UInt8) : (increment bs).length = bs.length := by
  induction bs with
  | nil => rfl
  | cons b bs ih => grind [increment]

theorem ofLittleEndian_increment (bs : List UInt8) :
    ofLittleEndian (increment bs) = (ofLittleEndian bs + 1) % 256 ^ bs.length := by
  induction bs with
  | nil => rfl
  | cons b bs ih =>
    have hb := b.toNat_lt
    have hrest := ofLittleEndian_lt bs
    have hadd : (b + 1).toNat = (b.toNat + 1) % 256 := UInt8.toNat_add b 1
    rw [increment, List.length_cons, Nat.pow_succ']
    split
    · rename_i hwrap
      rw [hwrap, UInt8.toNat_zero] at hadd
      simp only [ofLittleEndian, UInt8.toNat_zero]
      rw [ih, show b.toNat + 256 * ofLittleEndian bs + 1 = 256 * (ofLittleEndian bs + 1) by omega,
        Nat.mul_mod_mul_left, Nat.zero_add]
    · rename_i hmore
      have hpos : (b + 1).toNat ≠ 0 := fun h => hmore (UInt8.toNat_inj.mp h)
      simp only [ofLittleEndian]
      rw [Nat.mod_eq_of_lt (by omega)]
      omega

theorem iterate_increment (n : Nat) (iv : List UInt8) :
    (incrementCounterByOne^[n] iv).length = iv.length ∧
      ofLittleEndian (incrementCounterByOne^[n] iv).reverse =
        (ofLittleEndian iv.reverse + n) % 256 ^ iv.length := by
  induction n with
  | zero =>
    have hlt := ofLittleEndian_lt iv.reverse
    rw [List.length_reverse] at hlt
    exact ⟨rfl, (Nat.mod_eq_of_lt hlt).symm⟩
  | succ n ih =>
    rw [Function.iterate_succ_apply', incrementCounterByOne, List.reverse_reverse,
      ofLittleEndian_increment, List.length_reverse, List.length_reverse, increment_length,
      List.length_reverse, ih.1, ih.2, Nat.mod_add_mod]
    exact ⟨rfl, rfl⟩

namespace AESGCMEncryption

variable {g : GCM} {st st' : AESGCMEncryption × List UInt8} {es more : List EncryptEvent}

theorem run_mIV (cur : List UInt8) (h : TransitionSystem.run (step g) st es = some st') :
    st'.1.mIV = incrementCounterByOne^[(EncryptEvent.messages cur es).length] st.1.mIV := by
  induction es generalizing cur st with
  | nil =>
    cases h
    rfl
  | cons ev es ih =>
    obtain ⟨st₁, hstep, hrest⟩ := TransitionSystem.run_cons h
    cases ev with
    | put data =>
      cases hstep
      exact (ih (cur ++ data) hrest :)
    | flush =>
      cases hstep
      exact (ih [] hrest :)
    | get =>
      obtain ⟨r, hget, rfl⟩ := Option.map_eq_some_iff.mp hstep
      have hsame : r.2.mIV = st.1.mIV := by grind [get]
      exact (ih cur hrest).trans (congrArg _ hsame)

/-- The IV of a message is none of those of the messages before, up to the number of all IVs. -/
theorem ivs_differ {iv : Vector UInt8 ivSize}
    (h : TransitionSystem.run (step g) (init iv, []) es = some st)
    (hmore : TransitionSystem.run (step g) st more = some st')
    (hended : EncryptEvent.messages [] more ≠ [])
    (hfew : (EncryptEvent.messages [] more).length < 256 ^ ivSize) : st'.1.mIV ≠ st.1.mIV := by
  intro hsame
  have hlength : st.1.mIV.length = ivSize := by
    rw [run_mIV [] h, (iterate_increment _ _).1]
    exact Vector.length_toList
  have hlt := ofLittleEndian_lt st.1.mIV.reverse
  have hvalue := (iterate_increment (EncryptEvent.messages [] more).length st.1.mIV).2
  have hpos := List.length_pos_iff.mpr hended
  rw [← run_mIV [] hmore, hsame, hlength] at hvalue
  rw [List.length_reverse, hlength] at hlt
  simp only [ivSize] at hvalue hlt hfew
  omega

theorem ivs_differ_zerosMessage : ∃ e out, TransitionSystem.run (step plainGCM)
    (init plainIV, []) zerosMessage = some (e, out) ∧ e.mIV ≠ plainIV.toList := by
  obtain ⟨⟨e, out⟩, hrun⟩ := Option.isSome_iff_exists.mp (show (TransitionSystem.run (step plainGCM)
    (init plainIV, []) zerosMessage).isSome by decide +kernel)
  exact ⟨e, out, hrun, @ivs_differ plainGCM (init plainIV, []) (e, out) [] zerosMessage plainIV rfl
    hrun (by decide) (by decide)⟩

end AESGCMEncryption

end UrBackup
