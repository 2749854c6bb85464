import UrBackup.FSImage.VHDHeaders

/-! A new virtual hard disk: its headers and the names of its parent are in front of the place of
the first block. -/
namespace UrBackup

open ByteOrder

namespace VHDFile

/-- A new file before its table and its footer are written. -/
structure Draft (s : VHDFile) (parent : List UInt8) : Prop where
  blockFits : s.blocksize + s.bitmapSize < 2 ^ 32
  bat : ∀ entry ∈ s.bat, entry = noBlock
  batsize : s.bat.length < 2 ^ 32
  batOffset : s.batOffset < 2 ^ 64
  behind : defDynamicHeaderOffset + 1024 ≤ s.batOffset
  table : s.batOffset + 4 * s.bat.length ≤ s.nextblockOffset
  aligned : s.nextblockOffset % sectorSize = 0
  cached : s.bitmapOffset = 0
  size : s.file.size ≤ s.nextblockOffset
  footer : s.footer.length = 512 ∧ checksumOk footerChecksum s.footer = true ∧
    field 16 8 s.footer = defDynamicHeaderOffset
  parentLength : parent.length = 984
  header : s.file.bytes.read defDynamicHeaderOffset 1024 =
    dynamicheaderBytes s.batOffset s.bat.length s.blocksize parent

/-- Where the dynamic header says that a name of the parent is, and how much space it has. -/
def locator (s : VHDFile) (i : Nat) : Nat × Nat :=
  let header := s.file.bytes.read defDynamicHeaderOffset 1024
  (field (576 + 24 * i + 16) 8 header, field (576 + 24 * i + 4) 4 header)

section Draft

variable {s : VHDFile} {parent : List UInt8}

theorem blockAt_eq_none (h : ∀ entry ∈ s.bat, entry = noBlock) (k : Nat) : s.blockAt k = none := by
  unfold blockAt
  rw [Option.bind_eq_none_iff]
  intro entry hentry
  exact if_pos (h entry (List.mem_of_getElem? hentry))

theorem Draft.laid (h : Draft s parent) {file : StoredFile}
    (hsize : file.size ≤ s.nextblockOffset + sectorSize) :
    Laid ⟨s.nextblockOffset, file.bytes⟩ { s with file } := by
  have hnone : ∀ k o, s.blockAt k = some o → False := by
    intro k o hk
    rw [blockAt_eq_none h.bat] at hk
    cases hk
  refine ⟨h.blockFits, ?_, fun k o hk => (hnone k o hk).elim, fun k _ o _ _ hk => (hnone k o hk).elim,
    h.table, Nat.le_refl _, h.aligned, h.footer.1, hsize, fun _ _ _ => rfl, .inl h.cached⟩
  intro entry hentry
  rw [h.bat entry hentry]
  decide

theorem Draft.created (h : Draft s parent) {c : VHDFile} (hc : s.writeBat.2.writeFooter = c) :
    Descends c c ∧ Headed c ∧ c.nextblockOffset = s.nextblockOffset ∧ c.blocksize = s.blocksize ∧
      c.file.bytes.read defDynamicHeaderOffset 1024 =
        dynamicheaderBytes s.batOffset s.bat.length s.blocksize parent := by
  have htable := h.table
  have hbehind := h.behind
  have htake := takeBat_length s.bat
  have hsizeBat : (s.file.write s.batOffset
      ((batBytes s.bat).take (4 * s.bat.length % 2 ^ 32))).size ≤ s.nextblockOffset :=
    size_write_le h.size (by omega)
  have hlaid := h.laid (Nat.le_trans hsizeBat (Nat.le_add_right _ sectorSize))
  obtain ⟨hfooter, hsize⟩ := hlaid.writeFooter_eq
  have hc' : c = { s with file := (s.file.write s.batOffset
      ((batBytes s.bat).take (4 * s.bat.length % 2 ^ 32))).write s.nextblockOffset s.footer } :=
    hc.symm.trans hfooter
  have hlaid' := h.laid (Nat.le_of_eq hsize)
  have hheader : ((s.file.write s.batOffset
      ((batBytes s.bat).take (4 * s.bat.length % 2 ^ 32))).write s.nextblockOffset
        s.footer).bytes.read defDynamicHeaderOffset 1024 =
      dynamicheaderBytes s.batOffset s.bat.length s.blocksize parent := by
    rw [← h.header]
    apply ByteStore.read_congr
    intro p _ hp
    exact (ByteStore.write_of_lt (by omega)).trans (ByteStore.write_of_lt (by omega))
  have hread : 4 * s.bat.length < 2 ^ 32 → ((s.file.write s.batOffset
      ((batBytes s.bat).take (4 * s.bat.length % 2 ^ 32))).write s.nextblockOffset
        s.footer).bytes.read s.batOffset (4 * s.bat.length) = batBytes s.bat := by
    intro hsmall
    refine (ByteStore.read_write_of_disjoint (by omega)).trans ?_
    rw [takeBat hsmall, ← batBytes_length]
    exact ByteStore.read_write _ _ _
  have hblocksize : s.blocksize < 2 ^ 32 := Nat.lt_of_le_of_lt (Nat.le_add_right _ _) h.blockFits
  obtain ⟨hoffset, hbatsize, hsizeField⟩ :=
    @dynamicheaderBytes_spec _ _ _ parent h.batOffset h.batsize hblocksize
  subst hc'
  refine ⟨⟨⟨hlaid', fun _ => ⟨s.nextblockOffset, h.aligned, Nat.le_refl _, Nat.le_refl _, ?_, hsize,
    ?_, ?_⟩⟩, rfl, rfl, rfl, rfl⟩, ⟨h.footer.2.1, h.footer.2.2, ?_, ?_, ?_, hbehind⟩, rfl, rfl,
    hheader⟩
  · intro k o hk
    exact (hlaid'.room k o hk).2
  · have hlength : s.footer.length = sectorSize := h.footer.1
    rw [← hlength]
    exact ByteStore.read_write _ _ _
  · exact hread
  · exact (congrArg (field 16 8) hheader).trans hoffset
  · exact (congrArg (field 28 4) hheader).trans hbatsize
  · exact (congrArg (field 32 4) hheader).trans hsizeField

end Draft

/-- What a created file has in front of the place of its first block. -/
structure Fresh (c : VHDFile) : Prop where
  descends : Descends c c
  headed : Headed c
  locators : ∀ i < 8, (c.locator i).1 + (c.locator i).2 ≤ c.nextblockOffset

theorem Draft.fresh {s : VHDFile} {parent : List UInt8} (h : Draft s parent)
    (hlocators : ∀ i < 8, field (536 + 24 * i + 16) 8 parent + field (536 + 24 * i + 4) 4 parent ≤
      s.nextblockOffset) : Fresh s.writeBat.2.writeFooter := by
  obtain ⟨hdescends, hheaded, hnext, -, hheader⟩ := h.created rfl
  refine ⟨hdescends, hheaded, fun i hi => ?_⟩
  have hplace : ∀ pos n, 536 ≤ pos → field (40 + pos) n
      (s.writeBat.2.writeFooter.file.bytes.read defDynamicHeaderOffset 1024) =
        field pos n parent := by
    intro pos n _
    rw [hheader, field_parent h.parentLength]
  unfold locator
  dsimp only
  rw [hnext, (by omega : 576 + 24 * i + 16 = 40 + (536 + 24 * i + 16)),
    (by omega : 576 + 24 * i + 4 = 40 + (536 + 24 * i + 4)), hplace _ _ (by omega),
    hplace _ _ (by omega)]
  exact hlocators i hi

section Create

variable (compressed fastMode : Bool) (stamp : VHDStamp)

theorem newBatsize_lt (dstsize blocksize : Nat) : newBatsize dstsize blocksize < 2 ^ 32 :=
  Nat.mod_lt _ (by decide)

theorem same_writeFooter (s : VHDFile) : Same s s.writeFooter ∧ s.writeFooter.bat = s.bat ∧
    s.writeFooter.nextblockOffset = s.nextblockOffset := by
  unfold writeFooter
  dsimp only
  split <;> exact ⟨⟨rfl, rfl, rfl, rfl, rfl, rfl, rfl, rfl, rfl, rfl⟩, rfl, rfl⟩

theorem read_header (file : StoredFile) {data : List UInt8} (h : data.length = 1024) :
    (file.write defDynamicHeaderOffset data).bytes.read defDynamicHeaderOffset 1024 = data := by
  rw [← h]
  exact ByteStore.read_write _ _ _

theorem fresh_create (dstsize blocksize : Nat) (hpos : 0 < blocksize)
    (hfits : (create compressed fastMode stamp dstsize blocksize hpos).blocksize +
      (create compressed fastMode stamp dstsize blocksize hpos).bitmapSize < 2 ^ 32) :
    Fresh (create compressed fastMode stamp dstsize blocksize hpos) := by
  obtain ⟨hlength, hok, hfield⟩ := footerBytes_spec stamp dstsize 3
  have hblocksize : (create compressed fastMode stamp dstsize blocksize hpos).blocksize =
      blocksize := (same_writeFooter _).1.blocksize
  unfold create at hfits hblocksize ⊢
  dsimp only at hfits hblocksize ⊢
  generalize footerBytes stamp dstsize 3 = footer at *
  have hparent : (List.replicate 984 (0 : UInt8)).length = 984 := List.length_replicate
  have hbatsize : (List.replicate (newBatsize dstsize blocksize) noBlock).length =
      newBatsize dstsize blocksize := List.length_replicate
  have hle := le_nextSector (defBatOffset + 4 * newBatsize dstsize blocksize)
  have hend : defDynamicHeaderOffset + 1024 ≤
      nextSector (defBatOffset + 4 * newBatsize dstsize blocksize) :=
    Nat.le_trans (Nat.le_add_right _ _) hle
  have hoffset : defBatOffset < 2 ^ 64 := by decide
  refine @Draft.fresh _ (List.replicate 984 0) ⟨?_,
    fun entry hentry => List.eq_of_mem_replicate hentry, ?_, hoffset, Nat.le_refl _, ?_,
    nextSector_aligned _, rfl, ?_, ⟨hlength, hok, hfield⟩, hparent,
    read_header _ (dynamicheaderBytes_length hparent)⟩ ?_
  · rw [hblocksize, bitmapSize_congr (s := emptyFile compressed fastMode dstsize blocksize hpos
      footer defBatOffset) hblocksize] at hfits
    exact hfits
  · exact Nat.lt_of_le_of_lt (Nat.le_of_eq hbatsize) (newBatsize_lt _ _)
  · refine Nat.le_trans (Nat.le_of_eq ?_) hle
    exact congrArg (defBatOffset + 4 * ·) hbatsize
  · refine size_write_le (size_write_le (Nat.zero_le _) ?_) ?_
    · rw [hlength]
      exact Nat.le_trans (by decide) hend
    · rw [dynamicheaderBytes_length hparent]
      exact hend
  · intro i _
    have hzero : ∀ pos n, field pos n (List.replicate 984 0) = 0 :=
      field_zeros fun b hb => List.eq_of_mem_replicate hb
    rw [hzero, hzero]
    exact Nat.zero_le _

end Create

section CreateWithParent

theorem parentLocator_spec {space offset : Nat} (code length : Nat) (hspace : space < 2 ^ 32)
    (hoffset : offset < 2 ^ 64) :
    field 16 8 (parentLocator code space length offset) = offset ∧
    field 4 4 (parentLocator code space length offset) = space := by
  unfold parentLocator
  constructor
  · rw [field_append_right (by simp)]
    simp only [List.length_append, bigEndian_length]
    exact field_bigEndian hoffset
  · rw [field_append_left (by simp), field_append_left (by simp), field_append_left (by simp),
      field_append_right (by simp)]
    simp only [bigEndian_length]
    exact field_bigEndian hspace

@[simp] theorem parentLocator_length (code space length offset : Nat) :
    (parentLocator code space length offset).length = 24 := by
  simp [parentLocator]

theorem locatorBlocks_le {n blocks : Nat} (h : n ≤ blocks * sectorSize) :
    (n / sectorSize + if n % sectorSize ≠ 0 then 1 else 0) * sectorSize ≤ blocks * sectorSize := by
  apply Nat.mul_le_mul_right
  unfold sectorSize at *
  split <;> omega

variable {parent : VHDFile} (names : ParentNames) {absOffset relOffset : Nat}

theorem parentBytes_eq (hparent : parent.footer.length = 512) : ∃ front : List UInt8,
    front.length = 536 ∧ parentBytes parent names absOffset relOffset =
      front ++ parentLocator 0x57326B75 ((names.absUnicodename.length / sectorSize +
        if names.absUnicodename.length % sectorSize ≠ 0 then 1 else 0) * sectorSize)
          names.absUnicodename.length absOffset ++
      parentLocator 0x57327275 (128 * sectorSize) names.relUnicodename.length relOffset ++
      List.replicate (6 * 24 + 256) 0 := by
  refine ⟨parent.getUID ++ bigEndian 4 parent.getTimestamp ++ bigEndian 4 0 ++
    (names.unicodename ++ List.replicate (512 - names.unicodename.length) 0), ?_, rfl⟩
  have hname := names.unicodename_fits
  simp only [List.length_append, bigEndian_length, List.length_replicate, getUID, List.length_take,
    List.length_drop, hparent]
  omega

theorem parentBytes_length (hparent : parent.footer.length = 512) :
    (parentBytes parent names absOffset relOffset).length = 984 := by
  obtain ⟨front, hfront, heq⟩ := parentBytes_eq names hparent
  rw [heq]
  simp only [List.length_append, parentLocator_length, List.length_replicate, hfront]

theorem parentBytes_locators (hparent : parent.footer.length = 512) (habs : absOffset < 2 ^ 64)
    (hrel : relOffset < 2 ^ 64) {next : Nat}
    (habsEnd : absOffset + (names.absUnicodename.length / sectorSize +
      if names.absUnicodename.length % sectorSize ≠ 0 then 1 else 0) * sectorSize ≤ next)
    (hrelEnd : relOffset + 128 * sectorSize ≤ next) :
    ∀ i < 8, field (536 + 24 * i + 16) 8 (parentBytes parent names absOffset relOffset) +
      field (536 + 24 * i + 4) 4 (parentBytes parent names absOffset relOffset) ≤ next := by
  have hspace := locatorBlocks_le names.absUnicodename_fits
  obtain ⟨front, hfront, heq⟩ := parentBytes_eq names hparent
  rw [heq]
  generalize (names.absUnicodename.length / sectorSize +
    if names.absUnicodename.length % sectorSize ≠ 0 then 1 else 0) * sectorSize = space at *
  have hspace' : space < 2 ^ 32 := Nat.lt_of_le_of_lt hspace (by decide)
  obtain ⟨hoffset₀, hspace₀⟩ :=
    parentLocator_spec 0x57326B75 names.absUnicodename.length hspace' habs
  obtain ⟨hoffset₁, hspace₁⟩ := @parentLocator_spec (128 * sectorSize) _ 0x57327275
    names.relUnicodename.length (by decide) hrel
  generalize hloc₀ : parentLocator 0x57326B75 space names.absUnicodename.length absOffset = loc₀ at *
  generalize hloc₁ : parentLocator 0x57327275 (128 * sectorSize) names.relUnicodename.length
    relOffset = loc₁ at *
  have hlength₀ : loc₀.length = 24 := hloc₀ ▸ parentLocator_length _ _ _ _
  have hlength₁ : loc₁.length = 24 := hloc₁ ▸ parentLocator_length _ _ _ _
  have hfirst : ∀ pos n, pos + n ≤ 24 → field (536 + pos) n
      (front ++ loc₀ ++ loc₁ ++ List.replicate (6 * 24 + 256) 0) = field pos n loc₀ := by
    intro pos n hpos
    rw [field_append_left (by simp only [List.length_append]; omega),
      field_append_left (by simp only [List.length_append]; omega), field_append_right (by omega),
      hfront, Nat.add_sub_cancel_left]
  have hsecond : ∀ pos n, pos + n ≤ 24 → field (536 + (24 + pos)) n
      (front ++ loc₀ ++ loc₁ ++ List.replicate (6 * 24 + 256) 0) = field pos n loc₁ := by
    intro pos n hpos
    have hboth : (front ++ loc₀).length = 536 + 24 := by rw [List.length_append, hfront, hlength₀]
    rw [field_append_left (by rw [List.length_append, hboth]; omega), field_append_right (by omega),
      hboth, ← Nat.add_assoc, Nat.add_sub_cancel_left]
  have hrest : ∀ pos n, field (536 + (48 + pos)) n
      (front ++ loc₀ ++ loc₁ ++ List.replicate (6 * 24 + 256) 0) = 0 := by
    intro pos n
    rw [field_append_right (by simp only [List.length_append]; omega)]
    exact field_zeros (fun b hb => List.eq_of_mem_replicate hb) _ _
  intro i hi
  match i with
  | 0 =>
    rw [hfirst 16 8 (by decide), hfirst 4 4 (by decide), hoffset₀, hspace₀]
    exact habsEnd
  | 1 =>
    rw [hsecond 16 8 (by decide), hsecond 4 4 (by decide), hoffset₁, hspace₁]
    exact hrelEnd
  | i + 2 =>
    rw [(by omega : 536 + 24 * (i + 2) + 16 = 536 + (48 + (24 * i + 16))),
      (by omega : 536 + 24 * (i + 2) + 4 = 536 + (48 + (24 * i + 4))), hrest, hrest]
    exact Nat.zero_le _

/-- The names are written behind the table, or the first one in front of it. -/
structure NamesPlaced (names : ParentNames) (first absOffset relOffset : Nat) : Prop where
  abs64 : absOffset < 2 ^ 64
  rel64 : relOffset < 2 ^ 64
  start : first ≤ relOffset
  aligned : relOffset % sectorSize = 0
  absEnd : absOffset + (names.absUnicodename.length / sectorSize +
    if names.absUnicodename.length % sectorSize ≠ 0 then 1 else 0) * sectorSize ≤
      relOffset + 128 * sectorSize
  absSize : absOffset + names.absUnicodename.length ≤ relOffset + 128 * sectorSize

theorem namesPlaced {batsize : Nat} (hbatsize : batsize < 2 ^ 32) :
    let first := nextSector (defBatOffsetParent + 4 * batsize)
    let long := sectorSize < names.absUnicodename.length
    let absOffset := if long then first else defBatOffsetParent - 512
    NamesPlaced names first absOffset (if long then first + absOffset * sectorSize else first) := by
  intro first long absOffset
  have hfits := names.absUnicodename_fits
  have haligned : first % sectorSize = 0 := nextSector_aligned _
  have hle : defBatOffsetParent + 4 * batsize ≤ first := le_nextSector _
  have hlt : first < 2 ^ 40 := by
    change defBatOffsetParent + 4 * batsize +
      (sectorSize - (defBatOffsetParent + 4 * batsize) % sectorSize) < _
    unfold defBatOffsetParent sectorSize
    omega
  have hspace := locatorBlocks_le hfits
  by_cases hlong : long
  · have habs : absOffset = first := if_pos hlong
    rw [if_pos hlong, habs]
    refine ⟨?_, ?_, ?_, ?_, Nat.add_le_add (Nat.le_refl first) hspace |>.trans ?_, ?_⟩
    all_goals
      unfold defBatOffsetParent sectorSize at *
      omega
  · have habs : absOffset = defBatOffsetParent - 512 := if_neg hlong
    have hshort : names.absUnicodename.length ≤ 1 * sectorSize := by
      rw [Nat.one_mul]
      exact Nat.not_lt.mp hlong
    have hspace' := locatorBlocks_le hshort
    rw [if_neg hlong, habs]
    refine ⟨?_, ?_, ?_, ?_, Nat.add_le_add (Nat.le_refl _) hspace' |>.trans ?_, ?_⟩
    all_goals
      unfold defBatOffsetParent sectorSize at *
      omega

theorem fresh_createWithParent (compressed fastMode : Bool) (stamp : VHDStamp)
    (hparent : parent.footer.length = 512) (pDstsize : Nat)
    (hfits : (createWithParent compressed fastMode stamp parent names pDstsize).blocksize +
      (createWithParent compressed fastMode stamp parent names pDstsize).bitmapSize < 2 ^ 32) :
    Fresh (createWithParent compressed fastMode stamp parent names pDstsize) := by
  have hblocksize : (createWithParent compressed fastMode stamp parent names pDstsize).blocksize =
      parent.blocksize := (same_writeFooter _).1.blocksize
  unfold createWithParent at hfits hblocksize ⊢
  dsimp only at hfits hblocksize ⊢
  generalize (if 0 < pDstsize then pDstsize else parent.dstsize) = dstsize at *
  obtain ⟨hlength, hok, hfield⟩ := footerBytes_spec stamp dstsize 4
  generalize footerBytes stamp dstsize 4 = footer at *
  have hbatsize : (List.replicate (newBatsize dstsize parent.blocksize) noBlock).length =
      newBatsize dstsize parent.blocksize := List.length_replicate
  have hplaced := namesPlaced names (newBatsize_lt dstsize parent.blocksize)
  dsimp only at hplaced
  have hle := le_nextSector (defBatOffsetParent + 4 * newBatsize dstsize parent.blocksize)
  have haligned : (128 * sectorSize) % sectorSize = 0 := by decide
  have hoffset : defBatOffsetParent < 2 ^ 64 := by decide
  have hbehind : defDynamicHeaderOffset + 1024 ≤ defBatOffsetParent := by decide
  have hlengthParent := fun absOffset relOffset =>
    @parentBytes_length parent names absOffset relOffset hparent
  refine @Draft.fresh _ (parentBytes parent names _ _) ⟨?_,
    fun entry hentry => List.eq_of_mem_replicate hentry, ?_, hoffset, hbehind, ?_, ?_, rfl, ?_,
    ⟨hlength, hok, hfield⟩, hlengthParent _ _,
    read_header _ (dynamicheaderBytes_length (hlengthParent _ _))⟩ ?_
  · rw [hblocksize, bitmapSize_congr (s := parent) hblocksize] at hfits
    exact hfits
  · exact Nat.lt_of_le_of_lt (Nat.le_of_eq hbatsize) (newBatsize_lt _ _)
  · exact Nat.le_trans (Nat.le_of_eq (congrArg (defBatOffsetParent + 4 * ·) hbatsize))
      (Nat.le_trans hle (Nat.le_trans hplaced.start (Nat.le_add_right _ _)))
  · have hdvd : sectorSize ∣ 128 * sectorSize := ⟨128, rfl⟩
    exact Nat.mod_eq_zero_of_dvd (Nat.dvd_add (Nat.dvd_of_mod_eq_zero hplaced.aligned) hdvd)
  · have hspace := fun relOffset => Nat.le_add_left (128 * sectorSize) relOffset
    refine size_write_le (size_write_le (size_write_le (size_write_le (Nat.zero_le _) ?_)
      hplaced.absSize) (Nat.add_le_add_left names.relUnicodename_fits _)) ?_
    · rw [hlength]
      exact Nat.le_trans (by decide) (hspace _)
    · rw [dynamicheaderBytes_length (hlengthParent _ _)]
      exact Nat.le_trans (by decide) (hspace _)
  · exact parentBytes_locators names hparent hplaced.abs64 hplaced.rel64 hplaced.absEnd
      (Nat.le_refl _)

end CreateWithParent

end VHDFile

end UrBackup
