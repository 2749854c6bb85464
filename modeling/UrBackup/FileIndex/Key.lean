import UrBackup.Lib.ByteOrder
import UrBackup.Lib.OrderedMap
import Mathlib.Order.Fin.Basic
import Mathlib.Tactic.NormNum
import Mathlib.Data.Vector.Basic

/-! The key of the file entry index: sixteen bytes of the hash, then the file size
and the client id in big-endian byte order, compared as one packed record. -/
namespace UrBackup

abbrev bytesInIndex : Nat := 16

abbrev FileSize := Fin (2 ^ 63)

abbrev ClientId := Fin (2 ^ 31)

instance fileSize_neZero : NeZero (2 ^ 63) := ⟨by norm_num⟩

instance clientId_neZero : NeZero (2 ^ 31) := ⟨by norm_num⟩

structure SIndexKey where
  hash : Vector UInt8 bytesInIndex
  filesize : FileSize
  clientid : ClientId
  deriving DecidableEq

namespace SIndexKey

/-- The constructor copies `bytes_in_index` bytes from the start of the hash. -/
def ofHash (thash : List UInt8) (pfilesize : FileSize) (pclientid : ClientId) : SIndexKey :=
  ⟨Vector.ofFn fun i => thash.getD i 0, pfilesize, pclientid⟩

def bytes (k : SIndexKey) : List UInt8 :=
  k.hash.toList ++ ByteOrder.bigEndian 8 k.filesize ++ ByteOrder.bigEndian 4 k.clientid

def isEqualWithoutClientid (k other : SIndexKey) : Bool :=
  k.hash = other.hash ∧ k.filesize = other.filesize

theorem filesize_lt (s : FileSize) : s.val < 256 ^ 8 := lt_of_lt_of_le s.isLt (by norm_num)

theorem clientid_lt (c : ClientId) : c.val < 256 ^ 4 := lt_of_lt_of_le c.isLt (by norm_num)

theorem bytes_injective : Function.Injective bytes := by
  intro a b h
  obtain ⟨hfront, hclient⟩ := List.append_inj h (by simp)
  obtain ⟨hhash, hsize⟩ := List.append_inj hfront (by simp)
  have hsize' := ByteOrder.bigEndian_injOn (filesize_lt _) (filesize_lt _) hsize
  have hclient' := ByteOrder.bigEndian_injOn (clientid_lt _) (clientid_lt _) hclient
  cases a
  cases b
  simp only [mk.injEq]
  exact ⟨Vector.toList_inj.mp hhash, Fin.ext hsize', Fin.ext hclient'⟩

instance : LinearOrder SIndexKey where
  le a b := ByteOrder.values a.bytes ≤ ByteOrder.values b.bytes
  lt a b := ByteOrder.values a.bytes < ByteOrder.values b.bytes
  le_refl _ := le_refl _
  le_trans _ _ _ := le_trans
  lt_iff_le_not_ge _ _ := lt_iff_le_not_ge
  le_antisymm _ _ hab hba :=
    bytes_injective (ByteOrder.values_injective (le_antisymm hab hba))
  le_total _ _ := le_total _ _
  toDecidableLE a b := inferInstanceAs (Decidable (ByteOrder.values a.bytes ≤ _))
  toDecidableLT a b := inferInstanceAs (Decidable (ByteOrder.values a.bytes < _))
  toDecidableEq := instDecidableEqSIndexKey

theorem lt_def {a b : SIndexKey} :
    a < b ↔ ByteOrder.values a.bytes < ByteOrder.values b.bytes := Iff.rfl

theorem lt_iff {a b : SIndexKey} :
    a < b ↔ ByteOrder.values a.hash.toList < ByteOrder.values b.hash.toList ∨
      a.hash = b.hash ∧ (a.filesize < b.filesize ∨
        a.filesize = b.filesize ∧ a.clientid < b.clientid) := by
  rw [lt_def, bytes, bytes, List.append_assoc, List.append_assoc]
  simp only [ByteOrder.values_append]
  rw [ByteOrder.append_lt_append_iff (by simp), ByteOrder.append_lt_append_iff (by simp),
    ByteOrder.values_bigEndian_lt_iff (filesize_lt _) (filesize_lt _),
    ByteOrder.values_bigEndian_lt_iff (clientid_lt _) (clientid_lt _)]
  have hhash : ByteOrder.values a.hash.toList = ByteOrder.values b.hash.toList ↔ a.hash = b.hash :=
    ByteOrder.values_injective.eq_iff.trans Vector.toList_inj
  have hsize : ByteOrder.values (ByteOrder.bigEndian 8 a.filesize) =
      ByteOrder.values (ByteOrder.bigEndian 8 b.filesize) ↔ a.filesize = b.filesize := by
    constructor
    · intro h
      exact Fin.ext (ByteOrder.bigEndian_injOn (filesize_lt _) (filesize_lt _)
        (ByteOrder.values_injective h))
    · intro h; rw [h]
  rw [hhash, hsize]
  rfl

@[simp] theorem isEqualWithoutClientid_iff {a b : SIndexKey} :
    a.isEqualWithoutClientid b = true ↔ a.hash = b.hash ∧ a.filesize = b.filesize := by
  simp [isEqualWithoutClientid]

theorem isEqualWithoutClientid_comm (a b : SIndexKey) :
    a.isEqualWithoutClientid b = b.isEqualWithoutClientid a := by
  rw [Bool.eq_iff_iff, isEqualWithoutClientid_iff, isEqualWithoutClientid_iff]
  simp only [eq_comm]

theorem ext_of_isEqualWithoutClientid {a b : SIndexKey} (h : a.isEqualWithoutClientid b = true)
    (hc : a.clientid = b.clientid) : a = b := by
  obtain ⟨hh, hs⟩ := isEqualWithoutClientid_iff.mp h
  cases a
  cases b
  simp_all

theorem lt_iff_clientid_lt {a b : SIndexKey} (h : a.isEqualWithoutClientid b = true) :
    a < b ↔ a.clientid < b.clientid := by
  obtain ⟨hh, hs⟩ := isEqualWithoutClientid_iff.mp h
  rw [lt_iff, hh, hs]
  simp

theorem le_iff_clientid_le {a b : SIndexKey} (h : a.isEqualWithoutClientid b = true) :
    a ≤ b ↔ a.clientid ≤ b.clientid := by
  rw [isEqualWithoutClientid_comm] at h
  rw [← not_lt, lt_iff_clientid_lt h, not_lt]

theorem isEqualWithoutClientid_of_le_of_le {a b c : SIndexKey}
    (hac : a.isEqualWithoutClientid c = true) (hab : a ≤ b) (hbc : b ≤ c) :
    b.isEqualWithoutClientid c = true := by
  obtain ⟨hh, hs⟩ := isEqualWithoutClientid_iff.mp hac
  rcases hab.eq_or_lt with rfl | hab
  · exact hac
  rcases hbc.eq_or_lt with rfl | hbc
  · simp
  rw [lt_iff] at hab hbc
  rw [hh, hs] at hab
  rcases hab with hab | ⟨hab, hab'⟩
  · rcases hbc with hbc | ⟨hbc, -⟩
    · exact absurd (hab.trans hbc) (lt_irrefl _)
    · exact absurd hab (hbc ▸ lt_irrefl _)
  · rcases hbc with hbc | ⟨-, hbc'⟩
    · exact absurd hbc (hab ▸ lt_irrefl _)
    · refine isEqualWithoutClientid_iff.mpr ⟨hab.symm, ?_⟩
      rcases hab' with hab' | ⟨hab', -⟩
      · rcases hbc' with hbc' | ⟨hbc', -⟩
        · exact absurd (hab'.trans hbc') (lt_irrefl _)
        · exact hbc'
      · exact hab'.symm

theorem clientZero_le {a b : SIndexKey} (h : a.isEqualWithoutClientid b = true)
    (hc : a.clientid = 0) : a ≤ b := by
  rw [le_iff_clientid_le h, hc]
  exact Fin.zero_le _

def withClient (k : SIndexKey) (c : ClientId) : SIndexKey := { k with clientid := c }

@[simp] theorem isEqualWithoutClientid_withClient (k : SIndexKey) (c : ClientId) :
    (k.withClient c).isEqualWithoutClientid k = true := by simp [withClient]

theorem eq_withClient {a k : SIndexKey} (h : a.isEqualWithoutClientid k = true) :
    a = k.withClient a.clientid := by
  refine ext_of_isEqualWithoutClientid ?_ rfl
  obtain ⟨hh, hs⟩ := isEqualWithoutClientid_iff.mp h
  simp [withClient, hh, hs]

def zero : SIndexKey := ⟨Vector.replicate 16 0, 0, 0⟩

theorem not_lt_zeros (l : List ℕ) : ¬ l < List.replicate l.length 0 := by
  induction l with
  | nil => exact List.not_lt_nil _
  | cons a l ih =>
    rw [List.length_cons, List.replicate_succ, List.cons_lt_cons_iff]
    rintro (h | ⟨-, h⟩)
    · exact Nat.not_lt_zero a h
    · exact ih h

theorem zero_le (k : SIndexKey) : zero ≤ k := by
  rw [← not_lt, lt_iff]
  have hzeros : ByteOrder.values zero.hash.toList =
      List.replicate (ByteOrder.values k.hash.toList).length 0 := by
    simp [zero, ByteOrder.values]
  rintro (h | ⟨-, h | ⟨-, h⟩⟩)
  · rw [hzeros] at h
    exact not_lt_zeros _ h
  · exact absurd h (Fin.not_lt_zero _)
  · exact absurd h (Fin.not_lt_zero _)

end SIndexKey

end UrBackup
