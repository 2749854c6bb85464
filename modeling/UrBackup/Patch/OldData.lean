import UrBackup.Patch.LoopRule

/-! Old data between the records: what the copy loop reads, and what the new file has there. -/
namespace UrBackup

/-- A record has a byte for a place. -/
def InRecord (i : Nat) (r : Nat × List UInt8) : Prop := r.1 ≤ i ∧ i < r.1 + r.2.length

section Patched

variable {old : List UInt8} {records : List (Nat × List UInt8)} {filesize i : Nat}

theorem recordByte_of_inRecord {r : Nat × List UInt8} (h : InRecord i r) :
    recordByte i r = r.2[i - r.1]? := if_pos h.1

theorem recordByte_eq_none {r : Nat × List UInt8} (h : ¬ InRecord i r) : recordByte i r = none := by
  unfold recordByte
  split
  · apply List.getElem?_eq_none
    unfold InRecord at h
    omega
  · rfl

theorem findSome?_recordByte {pos : Nat} (hasc : Ascending pos records) {r : Nat × List UInt8}
    (hr : r ∈ records) (h : InRecord i r) :
    records.findSome? (recordByte i) = r.2[i - r.1]? := by
  have hsome : ∃ b, r.2[i - r.1]? = some b :=
    ⟨_, List.getElem?_eq_getElem (by unfold InRecord at h; omega)⟩
  obtain ⟨b, hb⟩ := hsome
  induction records generalizing pos with
  | nil => cases hr
  | cons s rest ih =>
    rw [List.findSome?_cons]
    cases List.mem_cons.mp hr with
    | inl heq =>
      rw [← heq, recordByte_of_inRecord h, hb]
    | inr hr =>
      have hother : ¬ InRecord i s := by
        have hle := ChunkPatcher.le_of_ascending hasc.2 hr
        unfold InRecord at h ⊢
        omega
      rw [recordByte_eq_none hother]
      exact ih hasc.2 hr

theorem patched_getElem? (hi : i < filesize) :
    (patched filesize old records)[i]? = some (patchedByte old records i) := by
  rw [patched, List.getElem?_map, List.getElem?_range hi]
  rfl

theorem patchedByte_record {pos : Nat} (hasc : Ascending pos records) {r : Nat × List UInt8}
    (hr : r ∈ records) (h : InRecord i r) : some (patchedByte old records i) = r.2[i - r.1]? := by
  have hlt : i - r.1 < r.2.length := by
    unfold InRecord at h
    omega
  rw [patchedByte, findSome?_recordByte hasc hr h, List.getElem?_eq_getElem hlt]
  rfl

theorem patchedByte_old (h : ∀ r ∈ records, ¬ InRecord i r) :
    patchedByte old records i = old.getD i 0 := by
  have hnone : records.findSome? (recordByte i) = none :=
    List.findSome?_eq_none_iff.mpr fun r hr => recordByte_eq_none (h r hr)
  rw [patchedByte, hnone, Option.getD_none]

theorem recordsIn_patched {pos : Nat} (hasc : Ascending pos records) :
    ChunkPatcher.RecordsIn (patched filesize old records) records := by
  intro r hr
  rw [List.prefix_iff_getElem?]
  intro j hj
  rw [patched_length, List.length_take] at hj
  have hin : InRecord (r.1 + j) r := by
    unfold InRecord
    omega
  rw [List.getElem?_drop, patched_getElem? (by omega), patchedByte_record hasc hr hin,
    List.getElem_take, Nat.add_sub_cancel_left, List.getElem?_eq_getElem]

end Patched

namespace ChunkPatcher

variable {σ : Type} {cfg : PatcherConfig σ} {size : Nat} {old content : List UInt8}
  {records : List (Nat × List UInt8)} {pos n : Nat}

/-- Outside of the records that are to come the new file is the old one. -/
def OldElsewhere (old content : List UInt8) (pos : Nat) (records : List (Nat × List UInt8)) : Prop :=
  ∀ i, pos ≤ i → i < content.length → (∀ r ∈ records, ¬ InRecord i r) → content[i]? = old[i]?

theorem oldElsewhere_patched {filesize : Nat} (hgrowth : CoversGrowth filesize old.length records) :
    OldElsewhere old (patched filesize old records) 0 records := by
  intro i _ hi hnone
  rw [patched_length] at hi
  have hlt : i < old.length := by
    by_contra hge
    obtain ⟨r, hr, hin⟩ := hgrowth i hi (Nat.le_of_not_lt hge)
    exact hnone r hr hin
  rw [patched_getElem? hi, patchedByte_old hnone, List.getD_eq_getElem?_getD,
    List.getElem?_eq_getElem hlt, Option.getD_some]

theorem OldElsewhere.mono {pos' : Nat} (h : OldElsewhere old content pos records)
    (hle : pos ≤ pos') : OldElsewhere old content pos' records :=
  fun i hi => h i (hle.trans hi)

theorem OldElsewhere.tail {off : Nat} {data : List UInt8}
    (h : OldElsewhere old content pos ((off, data) :: records)) (hle : pos ≤ off) :
    OldElsewhere old content (off + data.length) records := by
  intro i hi hlt hnone
  apply h i (by omega) hlt
  intro r hr
  cases List.mem_cons.mp hr with
  | inl heq =>
    simp only [heq, InRecord]
    omega
  | inr hr => exact hnone r hr

theorem OldElsewhere.prefix (h : OldElsewhere old content pos records)
    (hfit : Fit size content pos records) (hn : n ≤ gapLimit cfg records pos)
    (hend : pos + n ≤ content.length) : (old.drop pos).take n <+: content.drop pos := by
  rw [List.prefix_iff_getElem?]
  intro j hj
  rw [List.length_take, List.length_drop] at hj
  rw [List.getElem?_drop, h (pos + j) (by omega) (by omega), List.getElem_take, List.getElem_drop,
    List.getElem?_eq_getElem]
  intro r hr
  cases records with
  | nil => cases hr
  | cons s rest =>
    have hle : s.1 ≤ r.1 := by
      cases List.mem_cons.mp hr with
      | inl heq => rw [heq]
      | inr hr =>
        have := le_of_ascending hfit.ascending.2 hr
        omega
    rw [gapLimit] at hn
    unfold InRecord
    omega

/-- A patch with records that do not overlap. -/
structure WellFormed (filesize oldSize : Nat) (records : List PatchRecord) : Prop where
  inRange : filesize < 2 ^ 63
  fits : ∀ r ∈ records, r.Fits
  ascending : Ascending 0 (validRecords records)
  growth : CoversGrowth filesize oldSize (validRecords records)

theorem WellFormed.stands {filesize oldSize : Nat} {records : List PatchRecord}
    (h : WellFormed filesize oldSize records) :
    Stands ⟨encodePatch filesize records, 8⟩ (validRecords records) := by
  refine ⟨records, h.fits, rfl, ?_⟩
  rw [encodePatch, List.drop_left' (ByteOrder.littleEndian_length 8 _)]

theorem WellFormed.int64_filesize {filesize oldSize : Nat} {records : List PatchRecord}
    (h : WellFormed filesize oldSize records) :
    ¬ (encodePatch filesize records).length < 8 ∧
      int64 ((encodePatch filesize records).take 8) = filesize := by
  refine ⟨by simp [encodePatch], ?_⟩
  rw [encodePatch, List.take_left' (ByteOrder.littleEndian_length 8 _),
    int64_littleEndian h.inRange]

theorem WellFormed.fit {filesize : Nat} {records : List PatchRecord}
    (h : WellFormed filesize old.length records) :
    Fit old.length (patched filesize old (validRecords records)) 0 (validRecords records) := by
  refine ⟨Nat.zero_le _, h.ascending, ?_, recordsIn_patched h.ascending, ?_⟩
  · intro r hr
    obtain ⟨s, hs, hsr⟩ := List.mem_filterMap.mp hr
    obtain ⟨off, -, rfl⟩ := Option.map_eq_some_iff.mp hsr
    exact (h.fits s hs).2
  · intro i hi hs _
    rw [patched_length] at hi
    exact h.growth i hi hs

/-- One read of the copy loop. The loop ends behind it, since a read is short only at the end
of the old file. -/
theorem copyUnchanged_read {R : Nat → ChunkPatcher σ → Prop} {Post : ChunkPatcher σ → Prop}
    (hC : Consumes cfg content R Post) {p : Progress σ} {tr : Nat}
    (hrequired : currRequireUnchanged cfg p = true) (hfile : (sourceFile cfg p).pos ≤ p.filePos)
    (hsize : (sourceFile cfg p).content.length = size) (hlen : 0 < runLength cfg tr p)
    (hps : p.filePos < size) (hpc : p.filePos < content.length)
    (hinit : (sourceFile cfg p).next (runLength cfg tr p) <+: content.drop p.filePos)
    (hR : R p.filePos p.members) :
    ∃ len m', len = min (runLength cfg tr p) (size - (sourceFile cfg p).pos) ∧ 0 < len ∧
      copyUnchanged cfg size content.length tr p = .ok (clearAlignEnd cfg { p with
        members := m'
        file := (sourceFile cfg p).seek ((sourceFile cfg p).pos + len)
        filePos := p.filePos + len }) ∧
      R (p.filePos + len) m' ∧ SameAlign p.members m' := by
  have hnext : ((sourceFile cfg p).next (runLength cfg tr p)).length =
      min (runLength cfg tr p) (size - (sourceFile cfg p).pos) := by
    rw [ReadFile.next_length, hsize]
  have hle := runLength_le cfg tr p
  have hpos : 0 < min (runLength cfg tr p) (size - (sourceFile cfg p).pos) := by omega
  have hnonempty : (sourceFile cfg p).next (runLength cfg tr p) ≠ [] := by
    apply List.length_pos_iff.mp
    omega
  obtain ⟨m', hdeliver, hR'⟩ := hC.deliver p.filePos _ false p.members hR hnonempty (by omega) hinit
  refine ⟨_, m', rfl, hpos, ?_, hnext ▸ hR', sameAlign_deliver hdeliver⟩
  have hadvance : (sourceFile cfg p).advance (runLength cfg tr p) = (sourceFile cfg p).seek
      ((sourceFile cfg p).pos + min (runLength cfg tr p) (size - (sourceFile cfg p).pos)) := by
    rw [← hnext]
    rfl
  rw [copyUnchanged, if_pos ⟨by omega, hps, Int.ofNat_lt.mpr hpc⟩, if_pos hrequired,
    dif_neg (by omega)]
  simp only [hdeliver, ok_bind, hnext, hadvance]
  have hclear : ∀ q : Progress σ, (clearAlignEnd cfg q).filePos = q.filePos := by
    intro q
    unfold clearAlignEnd
    split <;> rfl
  rw [copyUnchanged, if_neg]
  rw [hclear]
  simp only
  omega

end ChunkPatcher

end UrBackup
