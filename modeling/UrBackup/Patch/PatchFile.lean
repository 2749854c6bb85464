import UrBackup.Patch.ApplyPatch

/-! The patch file as its writer means it: the new size and a list of records, of which
some are invalidated. -/
namespace UrBackup

open ByteOrder

/-- A record of a patch; one without an offset is invalidated. -/
structure PatchRecord where
  offset : Option Nat
  data : List UInt8
  deriving DecidableEq, Repr

namespace PatchRecord

def encode (r : PatchRecord) : List UInt8 :=
  littleEndian 8 (r.offset.getD (2 ^ 64 - 1)) ++ littleEndian 4 r.data.length ++ r.data

/-- The numbers of a header are in range. -/
def Fits (r : PatchRecord) : Prop := r.offset.getD 0 < 2 ^ 63 ∧ r.data.length < 2 ^ 32

instance (r : PatchRecord) : Decidable r.Fits := inferInstanceAs (Decidable (_ ∧ _))

end PatchRecord

def encodeRecords (records : List PatchRecord) : List UInt8 := records.flatMap PatchRecord.encode

def encodePatch (filesize : Nat) (records : List PatchRecord) : List UInt8 :=
  littleEndian 8 filesize ++ encodeRecords records

def validRecords (records : List PatchRecord) : List (Nat × List UInt8) :=
  records.filterMap fun r => r.offset.map fun off => (off, r.data)

/-- Records in ascending order that do not overlap, from `pos` on. -/
def Ascending : Nat → List (Nat × List UInt8) → Prop
  | _, [] => True
  | pos, (off, data) :: rest => pos ≤ off ∧ Ascending (off + data.length) rest

instance decidableAscending : (pos : Nat) → (records : List (Nat × List UInt8)) →
    Decidable (Ascending pos records)
  | _, [] => .isTrue trivial
  | pos, (off, data) :: rest =>
    have := decidableAscending (off + data.length) rest
    inferInstanceAs (Decidable (pos ≤ off ∧ Ascending (off + data.length) rest))

/-- The first record that does not lie in front of the new end crosses it. -/
def EndsInside (filesize : Nat) : List (Nat × List UInt8) → Prop
  | [] => True
  | (off, data) :: rest =>
    if off < filesize ∧ off + data.length ≤ filesize then EndsInside filesize rest
    else off ≤ filesize ∧ filesize < off + data.length

instance decidableEndsInside (filesize : Nat) : (records : List (Nat × List UInt8)) →
    Decidable (EndsInside filesize records)
  | [] => .isTrue trivial
  | (off, data) :: rest =>
    have := decidableEndsInside filesize rest
    inferInstanceAs (Decidable (if off < filesize ∧ off + data.length ≤ filesize then
      EndsInside filesize rest else off ≤ filesize ∧ filesize < off + data.length))

def recordByte (i : Nat) (r : Nat × List UInt8) : Option UInt8 :=
  if r.1 ≤ i then r.2[i - r.1]? else none

def patchedByte (old : List UInt8) (records : List (Nat × List UInt8)) (i : Nat) : UInt8 :=
  (records.findSome? (recordByte i)).getD (old.getD i 0)

/-- The new file: the old one under the records, cut or extended to the new size. -/
def patched (filesize : Nat) (old : List UInt8) (records : List (Nat × List UInt8)) : List UInt8 :=
  (List.range filesize).map (patchedByte old records)

/-- Every place behind the old end is in a record. -/
def CoversGrowth (filesize oldSize : Nat) (records : List (Nat × List UInt8)) : Prop :=
  ∀ i < filesize, oldSize ≤ i → ∃ r ∈ records, r.1 ≤ i ∧ i < r.1 + r.2.length

instance (filesize oldSize : Nat) (records : List (Nat × List UInt8)) :
    Decidable (CoversGrowth filesize oldSize records) :=
  inferInstanceAs (Decidable (∀ i < filesize, _))

@[simp] theorem patched_length (filesize : Nat) (old : List UInt8)
    (records : List (Nat × List UInt8)) : (patched filesize old records).length = filesize := by
  simp [patched]

section Decode

theorem int64_littleEndian {x : Nat} (h : x < 2 ^ 63) : int64 (littleEndian 8 x) = x := by
  have hdecode : ofLittleEndian (littleEndian 8 x) = x :=
    ofLittleEndian_littleEndian (by omega)
  rw [int64, hdecode, if_pos h]

theorem int64_invalid : int64 (littleEndian 8 (2 ^ 64 - 1)) = -1 := by
  have hdecode : ofLittleEndian (littleEndian 8 (2 ^ 64 - 1)) = 2 ^ 64 - 1 :=
    ofLittleEndian_littleEndian (by decide)
  rw [int64, hdecode]
  decide

/-- The handle of the patch stands in front of records. -/
def Stands (patch : ReadFile) (valid : List (Nat × List UInt8)) : Prop :=
  ∃ records, (∀ r ∈ records, r.Fits) ∧ validRecords records = valid ∧
    patch.content.drop patch.pos = encodeRecords records

/-- The handle stands in front of the data of a record and then of the other records. -/
def StandsAt (patch : ReadFile) (data : List UInt8) (valid : List (Nat × List UInt8)) : Prop :=
  ∃ records, (∀ r ∈ records, r.Fits) ∧ validRecords records = valid ∧
    patch.content.drop patch.pos = data ++ encodeRecords records

theorem StandsAt.nil {patch : ReadFile} {valid : List (Nat × List UInt8)}
    (h : StandsAt patch [] valid) : Stands patch valid := h

theorem StandsAt.next {patch : ReadFile} {n : Nat} {data : List UInt8}
    {valid : List (Nat × List UInt8)} (h : StandsAt patch data valid) (hn : n ≤ data.length) :
    patch.next n = data.take n ∧ StandsAt (patch.advance n) (data.drop n) valid := by
  obtain ⟨records, hfits, hvalid, hdrop⟩ := h
  have hsplit : patch.content.drop patch.pos = data.take n ++ (data.drop n ++ encodeRecords records) := by
    rw [hdrop, ← List.append_assoc, List.take_append_drop]
  have hlen : n = (data.take n).length := by rw [List.length_take, Nat.min_eq_left hn]
  exact ⟨ReadFile.next_of_drop hsplit hlen, records, hfits, hvalid, ReadFile.drop_advance hsplit hlen⟩

namespace ChunkPatcher

/-- A read of a header gives the next valid record, or the end. -/
def HeaderRead (valid : List (Nat × List UInt8)) (result : Bool × PatchHeader × ReadFile) : Prop :=
  match valid with
  | [] => result.1 = false ∧ result.2.1 = ⟨-1, 0⟩
  | (off, data) :: rest =>
    result.1 = true ∧ result.2.1 = ⟨off, data.length⟩ ∧ StandsAt result.2.2 data rest

theorem readNextValidPatch_spec {patch : ReadFile} {valid : List (Nat × List UInt8)}
    (h : Stands patch valid) : HeaderRead valid (readNextValidPatch patch) := by
  obtain ⟨records, hfits, hvalid, hdrop⟩ := h
  induction records generalizing patch valid with
  | nil =>
    cases hvalid
    have hend : ¬ (patch.next 12).length = 12 := by
      rw [ReadFile.next, hdrop]
      decide
    rw [readNextValidPatch, dif_neg hend]
    exact ⟨rfl, rfl⟩
  | cons r records ih =>
    obtain ⟨hfit, hrest⟩ := List.forall_mem_cons.mp hfits
    have hsplit : patch.content.drop patch.pos =
        (littleEndian 8 (r.offset.getD (2 ^ 64 - 1)) ++ littleEndian 4 r.data.length) ++
          (r.data ++ encodeRecords records) := by
      rw [hdrop, encodeRecords, List.flatMap_cons, PatchRecord.encode]
      simp only [List.append_assoc, encodeRecords]
    have hnext := ReadFile.next_of_drop (n := 12) hsplit (by simp)
    have hdata := ReadFile.drop_advance (n := 12) hsplit (by simp)
    have hsize : ofLittleEndian (littleEndian 4 r.data.length) = r.data.length :=
      ofLittleEndian_littleEndian hfit.2
    rw [readNextValidPatch, dif_pos (by rw [hnext]; simp)]
    simp only [hnext, List.take_left' (littleEndian_length 8 _),
      List.drop_left' (littleEndian_length 8 _), hsize]
    cases hoff : r.offset with
    | none =>
      rw [Option.getD_none, if_pos int64_invalid]
      have hskip : validRecords (r :: records) = validRecords records := by
        simp [validRecords, hoff]
      apply ih hrest (hskip.symm.trans hvalid)
      rw [ReadFile.seek_content, ReadFile.seek_pos, ← List.drop_drop, hdata, List.drop_left']
      rfl
    | some off =>
      have hlt : off < 2 ^ 63 := by simpa [hoff] using hfit.1
      have hint := int64_littleEndian hlt
      have hvalid' : valid = (off, r.data) :: validRecords records := by
        rw [← hvalid]
        simp [validRecords, hoff]
      rw [Option.getD_some, hint, if_neg (by omega), hvalid']
      exact ⟨rfl, rfl, records, hrest, rfl, hdata⟩

end ChunkPatcher

end Decode

end UrBackup
