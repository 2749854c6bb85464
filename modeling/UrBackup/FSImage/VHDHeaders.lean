import UrBackup.FSImage.VHDTables

/-! The headers of a virtual hard disk as they are read back: a file that was finished is opened
with its blocks where they were. -/
namespace UrBackup

open ByteOrder

namespace VHDFile

section Fields

variable {pos n : Nat} {data data' : List UInt8}

theorem field_append_left (h : pos + n ≤ data.length) :
    field pos n (data ++ data') = field pos n data := by
  unfold field
  rw [List.drop_append_of_le_length (by omega), List.take_append_of_le_length]
  rw [List.length_drop]
  omega

theorem field_append_right (h : data.length ≤ pos) :
    field pos n (data ++ data') = field (pos - data.length) n data' := by
  unfold field
  rw [List.drop_append, List.drop_eq_nil_of_le h, List.nil_append]

theorem field_bigEndian {x : Nat} (h : x < 256 ^ n) : field 0 n (bigEndian n x) = x := by
  unfold field
  rw [List.drop_zero, List.take_of_length_le (Nat.le_of_eq (bigEndian_length n x)),
    ofBigEndian_bigEndian h]

theorem field_zeros (h : ∀ b ∈ data, b = 0) (pos n : Nat) : field pos n data = 0 := by
  have hzero : ∀ bytes : List UInt8, (∀ b ∈ bytes, b = 0) → ofBigEndian bytes = 0 := by
    intro bytes
    induction bytes with
    | nil => exact fun _ => rfl
    | cons b bytes ih =>
      intro hall
      rw [ofBigEndian, ih fun b' hb' => hall b' (.tail _ hb'), hall b (.head _)]
      exact Nat.zero_mul _
  exact hzero _ fun b hb => h b (List.mem_of_mem_drop (List.mem_of_mem_take hb))

theorem calculateChecksum_length (data : List UInt8) : (calculateChecksum data).length = 4 := by
  rw [calculateChecksum, List.length_map, bigEndian_length]

theorem withChecksum_length (h : pos + 4 ≤ data.length) :
    (withChecksum pos data).length = data.length := by
  rw [withChecksum, List.length_append, List.length_append, List.length_take, List.length_drop,
    calculateChecksum_length]
  omega

/-- The checksum does not depend on the one that is there. -/
theorem checksumOk_withChecksum (h : pos + 4 ≤ data.length) :
    checksumOk pos (withChecksum pos data) = true := by
  have htake : (data.take pos).length = pos := by
    rw [List.length_take]
    omega
  have hsum := calculateChecksum_length (clearChecksum pos data)
  have hdrop : (withChecksum pos data).drop pos =
      calculateChecksum (clearChecksum pos data) ++ data.drop (pos + 4) := by
    unfold withChecksum
    rw [List.append_assoc, List.drop_append_of_le_length (Nat.le_of_eq htake.symm),
      List.drop_eq_nil_of_le (Nat.le_of_eq htake), List.nil_append]
  have hclear : clearChecksum pos (withChecksum pos data) = clearChecksum pos data := by
    unfold clearChecksum
    congr 1
    · congr 1
      unfold withChecksum
      rw [List.append_assoc, List.take_append_of_le_length (Nat.le_of_eq htake.symm),
        List.take_of_length_le (Nat.le_of_eq htake)]
    · rw [← List.drop_drop, hdrop, List.drop_append_of_le_length (Nat.le_of_eq hsum.symm),
        List.drop_eq_nil_of_le (Nat.le_of_eq hsum), List.nil_append]
  unfold checksumOk
  rw [hclear, hdrop, List.take_append_of_le_length (Nat.le_of_eq hsum.symm),
    List.take_of_length_le (Nat.le_of_eq hsum)]
  exact decide_eq_true rfl

theorem field_withChecksum {c : Nat} (hc : c ≤ data.length) (h : pos + n ≤ c) :
    field pos n (withChecksum c data) = field pos n data := by
  have htake : (data.take c).length = c := by
    rw [List.length_take]
    omega
  unfold withChecksum
  rw [List.append_assoc, field_append_left (by omega)]
  conv_rhs => rw [← List.take_append_drop c data]
  rw [field_append_left (by omega)]

theorem field_withChecksum_behind {c : Nat} (hc : c + 4 ≤ data.length) (h : c + 4 ≤ pos) :
    field pos n (withChecksum c data) = field pos n data := by
  have htake : (data.take c).length = c := by
    rw [List.length_take]
    omega
  have hboth : (data.take c ++ calculateChecksum (clearChecksum c data)).length = c + 4 := by
    rw [List.length_append, htake, calculateChecksum_length]
  have hold : (data.take (c + 4)).length = c + 4 := by
    rw [List.length_take]
    omega
  unfold withChecksum
  rw [field_append_right (by omega), hboth]
  conv_rhs => rw [← List.take_append_drop (c + 4) data]
  rw [field_append_right (by omega), hold]

end Fields

section Footer

variable (stamp : VHDStamp) (dstsize diskType : Nat)

theorem footerBytes_eq : ∃ tail : List UInt8, tail.length = 448 ∧ footerBytes stamp dstsize diskType =
    withChecksum footerChecksum
    (([99, 111, 110, 101, 99, 116, 105, 120] ++ bigEndian 4 2 ++ bigEndian 4 0x00010000
      ++ bigEndian 8 defDynamicHeaderOffset) ++ (bigEndian 4 stamp.timestamp ++ [118, 112, 99, 32]
      ++ bigEndian 4 0x00050003 ++ bigEndian 4 0x5769326B ++ bigEndian 8 dstsize
      ++ bigEndian 8 dstsize ++ bigEndian 4 stamp.diskGeometry ++ bigEndian 4 diskType ++ tail)) := by
  refine ⟨List.replicate 4 0 ++ stamp.uid.toList ++ [0] ++ List.replicate 427 0, ?_, ?_⟩
  · simp only [List.length_append, List.length_replicate, Vector.length_toList, List.length_cons,
      List.length_nil]
  · unfold footerBytes
    simp only [List.append_assoc]

theorem footerBytes_spec : (footerBytes stamp dstsize diskType).length = 512 ∧
    checksumOk footerChecksum (footerBytes stamp dstsize diskType) = true ∧
    field 16 8 (footerBytes stamp dstsize diskType) = defDynamicHeaderOffset := by
  obtain ⟨tail, htail, heq⟩ := footerBytes_eq stamp dstsize diskType
  rw [heq]
  have hlength : footerChecksum + 4 ≤ (([99, 111, 110, 101, 99, 116, 105, 120] ++ bigEndian 4 2 ++
      bigEndian 4 0x00010000 ++ bigEndian 8 defDynamicHeaderOffset) ++
      (bigEndian 4 stamp.timestamp ++ [118, 112, 99, 32] ++ bigEndian 4 0x00050003 ++
      bigEndian 4 0x5769326B ++ bigEndian 8 dstsize ++ bigEndian 8 dstsize ++
      bigEndian 4 stamp.diskGeometry ++ bigEndian 4 diskType ++ tail)).length := by
    simp [htail, footerChecksum]
  refine ⟨?_, checksumOk_withChecksum hlength, ?_⟩
  · rw [withChecksum_length hlength]
    simp [htail]
  · rw [field_withChecksum (Nat.le_trans (Nat.le_add_right _ _) hlength) (by decide),
      field_append_left (by simp), field_append_right (by simp)]
    exact field_bigEndian (by decide)

end Footer

section DynamicHeader

variable {batOffset batsize blocksize : Nat} {parent : List UInt8}

theorem dynamicheaderBytes_length (hparent : parent.length = 984) :
    (dynamicheaderBytes batOffset batsize blocksize parent).length = 1024 := by
  unfold dynamicheaderBytes
  rw [withChecksum_length] <;> simp [hparent, dynamicheaderChecksum]

theorem dynamicheaderBytes_spec (hbatOffset : batOffset < 2 ^ 64) (hbatsize : batsize < 2 ^ 32)
    (hblocksize : blocksize < 2 ^ 32) :
    field 16 8 (dynamicheaderBytes batOffset batsize blocksize parent) = batOffset ∧
    field 28 4 (dynamicheaderBytes batOffset batsize blocksize parent) = batsize ∧
    field 32 4 (dynamicheaderBytes batOffset batsize blocksize parent) = blocksize := by
  have hlength : dynamicheaderChecksum ≤ ([99, 120, 115, 112, 97, 114, 115, 101] ++
      List.replicate 8 (0xFF : UInt8) ++ bigEndian 8 batOffset ++ bigEndian 4 0x00010000 ++
      bigEndian 4 batsize ++ bigEndian 4 blocksize ++ List.replicate 4 0 ++ parent).length := by
    simp only [List.length_append, List.length_replicate, bigEndian_length, List.length_cons,
      List.length_nil, dynamicheaderChecksum]
    omega
  unfold dynamicheaderBytes
  rw [field_withChecksum hlength (by decide), field_withChecksum hlength (by decide),
    field_withChecksum hlength (by decide)]
  refine ⟨?_, ?_, ?_⟩
  · rw [field_append_left (by simp), field_append_left (by simp), field_append_left (by simp),
      field_append_left (by simp), field_append_left (by simp), field_append_right (by simp)]
    exact field_bigEndian hbatOffset
  · rw [field_append_left (by simp), field_append_left (by simp), field_append_left (by simp),
      field_append_right (by simp)]
    exact field_bigEndian hbatsize
  · rw [field_append_left (by simp), field_append_left (by simp), field_append_right (by simp)]
    exact field_bigEndian hblocksize

theorem field_parent (hparent : parent.length = 984) (pos n : Nat) :
    field (40 + pos) n (dynamicheaderBytes batOffset batsize blocksize parent) =
      field pos n parent := by
  have hlength : ([99, 120, 115, 112, 97, 114, 115, 101] ++
      List.replicate 8 (0xFF : UInt8) ++ bigEndian 8 batOffset ++ bigEndian 4 0x00010000 ++
      bigEndian 4 batsize ++ bigEndian 4 blocksize ++ List.replicate 4 0).length = 40 := by
    simp
  unfold dynamicheaderBytes
  rw [field_withChecksum_behind (by rw [List.length_append, hlength, hparent]; decide)
    (by unfold dynamicheaderChecksum; omega), field_append_right (by omega), hlength,
    Nat.add_sub_cancel_left]

end DynamicHeader

section Table

variable {s : VHDFile}

theorem batBytes_entry (bat : List Nat) {i : Nat} (hi : i < bat.length) :
    ((batBytes bat).drop (4 * i)).take 4 = bigEndian 4 bat[i] := by
  induction bat generalizing i with
  | nil => cases hi
  | cons entry bat ih =>
    have hlength := bigEndian_length 4 entry
    unfold batBytes at ih ⊢
    rw [List.flatMap_cons]
    cases i with
    | zero =>
      rw [Nat.mul_zero, List.drop_zero, List.take_append_of_le_length (Nat.le_of_eq hlength.symm),
        List.take_of_length_le (Nat.le_of_eq hlength)]
      rfl
    | succ i =>
      rw [List.drop_append, List.drop_eq_nil_of_le (by omega), List.nil_append, hlength,
        (by omega : 4 * (i + 1) - 4 = 4 * i)]
      exact ih (Nat.lt_of_succ_lt_succ hi)

theorem entries_batBytes {bat : List Nat} (h : ∀ entry ∈ bat, entry < 2 ^ 32) :
    ((List.range bat.length).map fun i => ofBigEndian (((batBytes bat).drop (4 * i)).take 4)) =
      bat := by
  apply List.ext_getElem
  · simp
  · intro i hi hi'
    rw [List.getElem_map, List.getElem_range, batBytes_entry bat hi',
      ofBigEndian_bigEndian (h _ (List.getElem_mem hi'))]

end Table

/-- The fields of a created file that are read when it is opened. -/
structure Headed (c : VHDFile) : Prop where
  footerOk : checksumOk footerChecksum c.footer = true
  dynamicheader : field 16 8 c.footer = defDynamicHeaderOffset
  batOffset : field 16 8 (c.file.bytes.read defDynamicHeaderOffset 1024) = c.batOffset
  batsize : field 28 4 (c.file.bytes.read defDynamicHeaderOffset 1024) = c.bat.length
  blocksize : field 32 4 (c.file.bytes.read defDynamicHeaderOffset 1024) = c.blocksize
  behind : defDynamicHeaderOffset + 1024 ≤ c.batOffset

def lowerPart (c : VHDFile) : Area := ⟨c.nextblockOffset, c.file.bytes⟩

/-- A file that has the headers of a created one, with blocks behind them. -/
structure Descends (c s : VHDFile) : Prop where
  tidy : Tidy c.lowerPart s
  blocksize : s.blocksize = c.blocksize
  footer : s.footer = c.footer
  batOffset : s.batOffset = c.batOffset
  batLength : s.bat.length = c.bat.length

section Reopen

variable {c s t : VHDFile} {readOnly compressed fastMode : Bool} {file : StoredFile}
  {files : List StoredFile} {rest : List VHDFile}

theorem openExisting_fields
    (h : openExisting readOnly compressed fastMode (file :: files) = some (t :: rest)) :
    readFooter file = some t.footer ∧
    readBat file (field 16 8 (file.read (field 16 8 t.footer) 1024))
      (field 28 4 (file.read (field 16 8 t.footer) 1024)) = some t.bat ∧
    t.batOffset = field 16 8 (file.read (field 16 8 t.footer) 1024) ∧
    t.blocksize = field 32 4 (file.read (field 16 8 t.footer) 1024) ∧
    t.file = file ∧ t.bitmapOffset = 0 ∧
    t.nextblockOffset = file.size - sectorSize + (if (file.size - sectorSize) % sectorSize ≠ 0 then
      sectorSize - (file.size - sectorSize) % sectorSize else 0) := by
  rw [openExisting, Option.bind_eq_bind, Option.bind_eq_some_iff] at h
  obtain ⟨footer, hfooter, h⟩ := h
  dsimp only at h
  split at h
  · -- with a parent and without one
    split at h
    all_goals
      rw [Option.bind_eq_bind, Option.bind_eq_some_iff] at h
      obtain ⟨parent, -, h⟩ := h
      split at h
      · cases h
      · rw [Option.bind_eq_bind, Option.bind_eq_some_iff] at h
        obtain ⟨bat, hbat, h⟩ := h
        cases h
        exact ⟨hfooter, hbat, rfl, rfl, rfl, rfl, rfl⟩
  · cases h

theorem Synced.read {a : Area} {e pos n : Nat} (h : Synced a s e) (hin : pos + n ≤ a.start) :
    s.file.read pos n = s.file.bytes.read pos n := by
  have hstart := h.start
  have hsize := h.size
  exact StoredFile.read_of_le (by omega)

theorem Synced.readFooter {a : Area} {e : Nat} (h : Synced a s e)
    (hlength : s.footer.length = sectorSize) (hok : checksumOk footerChecksum s.footer = true) :
    readFooter s.file = some s.footer := by
  have hread : s.file.read (s.file.size - 512) 512 = s.footer := by
    have hend : s.file.size - 512 = e := by
      rw [h.size]
      exact Nat.add_sub_cancel _ _
    rw [hend]
    exact (StoredFile.read_of_le (Nat.le_of_eq h.size.symm)).trans h.tail
  have hlength' : s.footer.length = 512 := hlength
  unfold VHDFile.readFooter
  dsimp only
  rw [hread, if_neg (not_not.mpr hlength'), if_pos hok]

theorem readBat_length {bat : List Nat} {batOffset batsize : Nat}
    (h : readBat file batOffset batsize = some bat) : 4 * batsize < 2 ^ 32 := by
  unfold readBat at h
  dsimp only at h
  split at h
  · rename_i hlength
    rw [StoredFile.read_length] at hlength
    have hmod := Nat.mod_lt (4 * batsize) (by decide : 0 < 2 ^ 32)
    have hmin := Nat.min_le_left (4 * batsize % 2 ^ 32) (file.size - batOffset)
    omega
  · cases h

theorem Synced.readBat {a : Area} {e : Nat} (h : Synced a s e) (hl : Laid a s)
    (hsmall : 4 * s.bat.length < 2 ^ 32) : readBat s.file s.batOffset s.bat.length = some s.bat := by
  unfold VHDFile.readBat
  dsimp only
  rw [Nat.mod_eq_of_lt hsmall, h.read hl.table, h.table hsmall, batBytes_length, if_pos rfl,
    entries_batBytes hl.entries]

theorem Descends.header (hc : Headed c) (h : Descends c s) :
    s.file.bytes.read defDynamicHeaderOffset 1024 =
      c.file.bytes.read defDynamicHeaderOffset 1024 := by
  apply ByteStore.read_congr
  intro p _ hp
  have hbehind := hc.behind
  have htable := h.tidy.laid.table
  have hbat := h.batOffset
  exact h.tidy.laid.below p (by omega) (.inl (by omega))

theorem Descends.reopened (hc : Headed c) (h : Descends c s) {e : Nat}
    (he : Synced c.lowerPart s e)
    (hopen : openExisting readOnly compressed fastMode (s.file :: files) = some (t :: rest)) :
    Descends c t := by
  obtain ⟨hfooter, hbat, hbatOffset, hblocksize, hfile, hbitmap, hnext⟩ := openExisting_fields hopen
  have hl := h.tidy.laid
  have hread := he.readFooter hl.footer (by rw [h.footer]; exact hc.footerOk)
  rw [hread, Option.some.injEq] at hfooter
  have hbehind := hc.behind
  have htable := hl.table
  have hoffset := h.batOffset
  have hheader : s.file.read (field 16 8 t.footer) 1024 =
      c.file.bytes.read defDynamicHeaderOffset 1024 := by
    rw [← hfooter, h.footer, hc.dynamicheader, he.read (by omega), h.header hc]
  rw [hheader, hc.batOffset, ← h.batOffset] at hbatOffset
  rw [hheader, hc.blocksize, ← h.blocksize] at hblocksize
  rw [hheader, hc.batOffset, hc.batsize, ← h.batOffset, ← h.batLength] at hbat
  rw [he.readBat hl (readBat_length hbat), Option.some.injEq] at hbat
  have hsub : s.file.size - sectorSize = e := by
    rw [he.size]
    exact Nat.add_sub_cancel _ _
  rw [hsub, if_neg (not_not.mpr he.aligned), Nat.add_zero] at hnext
  have hlaid : Laid c.lowerPart t := by
    refine hl.moved hblocksize hfooter.symm hbatOffset hbat.symm ?_ ?_ ?_ ?_ ?_ (.inr hbitmap)
    · rw [hnext]
      exact he.aligned
    · rw [hnext]
      exact he.start
    · rw [hnext]
      exact he.ends
    · rw [hnext, hfile, he.size]
    · rw [hfile]
      exact fun _ _ _ => rfl
  refine ⟨⟨hlaid, fun _ => ⟨e, he.aligned, he.start, Nat.le_of_eq hnext.symm, ?_, ?_, ?_, ?_⟩⟩,
    hblocksize.trans h.blocksize, hfooter.symm.trans h.footer, hbatOffset.trans h.batOffset, ?_⟩
  · rw [← hnext]
    exact fun k o hk => (hlaid.room k o hk).2
  · rw [hfile]
    exact he.size
  · rw [hfile, ← hfooter]
    exact he.tail
  · rw [hfile, hbatOffset, ← hbat]
    exact he.table
  · rw [← hbat]
    exact h.batLength

end Reopen

end VHDFile

end UrBackup
