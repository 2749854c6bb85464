import UrBackup.FSImage.VHDCreated
import UrBackup.Lib.Run

/-! Runs of a virtual hard disk: it is written to, finished and opened again. -/
namespace UrBackup

namespace VHDFile

/-- A new file. A parent is one that could be opened, so it has a footer. -/
inductive Created : VHDFile → Prop where
  | alone (compressed fastMode : Bool) (stamp : VHDStamp) (dstsize blocksize : Nat)
      (hpos : 0 < blocksize) : Created (create compressed fastMode stamp dstsize blocksize hpos)
  | withParent (compressed fastMode : Bool) (stamp : VHDStamp) (parent : VHDFile)
      (hparent : parent.footer.length = 512) (names : ParentNames) (pDstsize : Nat) :
      Created (createWithParent compressed fastMode stamp parent names pDstsize)

/-- What is done to a file. It is finished before it is opened again, with the files of its
parents. -/
inductive Event where
  | write (pos : Nat) (buffer : List UInt8)
  | setUnused (unusedStart unusedEnd : Nat)
  | finish
  | reopen (readOnly fastMode : Bool) (parents : List StoredFile)

def step (s : VHDFile) : Event → Option VHDFile
  | .write pos buffer => ((s.seek pos).Write buffer).map Prod.snd
  | .setUnused unusedStart unusedEnd => (s.setUnused unusedStart unusedEnd).map Prod.snd
  | .finish => some s.finish.2
  | .reopen readOnly fastMode parents =>
    (openExisting readOnly s.compressed fastMode (s.finish.2.file :: parents)).bind List.head?

/-- The condition on an event. -/
def Fits (s : VHDFile) : Event → Prop
  | .write pos buffer => s.readOnly = true ∨ s.dstsize < buffer.length + pos ∨
      s.WriteFits pos buffer.length
  | .setUnused unusedStart unusedEnd => s.readOnly = true ∨ s.dstsize < unusedEnd ∨
      s.UnusedFits unusedStart (unusedSize unusedStart unusedEnd)
  | .finish => True
  | .reopen _ _ _ => True

/-- The blocks that an event is about. -/
def Touched (s : VHDFile) : Event → Nat → Prop
  | .write pos buffer, k => k ∈ s.blocksOf pos buffer.length
  | .setUnused unusedStart unusedEnd, k => k ∈ s.blocksOf unusedStart (unusedSize unusedStart unusedEnd)
  | .finish, _ => False
  | .reopen _ _ _, _ => False

/-- The places of the blocks of a file that was created as `c`, and what they leave free. -/
structure Placed (c s : VHDFile) : Prop where
  aligned : ∀ k o, s.blockAt k = some o → o % sectorSize = 0
  apart : ∀ k k' o o', k ≠ k' → s.blockAt k = some o → s.blockAt k' = some o' →
    s.blockEnd o ≤ o' ∨ s.blockEnd o' ≤ o
  behind : ∀ k o, s.blockAt k = some o → c.nextblockOffset ≤ o
  inFront : ∀ k o, s.blockAt k = some o → s.blockEnd o ≤ s.nextblockOffset
  dynamicheader : defDynamicHeaderOffset + 1024 ≤ s.batOffset
  table : s.batOffset + 4 * s.bat.length ≤ c.nextblockOffset
  locators : ∀ i < 8, (s.locator i).1 + (s.locator i).2 ≤ c.nextblockOffset
  headers : ∀ p < c.nextblockOffset, ¬ s.InTable p → s.file.bytes p = c.file.bytes p
  bitmap : s.bitmapOffset = 0 ∨ ∃ k, s.blockAt k = some s.bitmapOffset
  closed : Closed c.lowerPart s

section Runs

variable {c s s' t : VHDFile}

theorem Created.fresh (h : Created c) (hfits : c.blocksize + c.bitmapSize < 2 ^ 32) : Fresh c := by
  cases h with
  | alone compressed fastMode stamp dstsize blocksize hpos =>
    exact fresh_create compressed fastMode stamp dstsize blocksize hpos hfits
  | withParent compressed fastMode stamp parent hparent names pDstsize =>
    exact fresh_createWithParent names compressed fastMode stamp hparent pDstsize hfits

theorem Spares.descends {T : Nat → Prop} (hs : Spares T s s') (h : Descends c s)
    (htidy : Tidy c.lowerPart s') : Descends c s' :=
  ⟨htidy, hs.blocksize.trans h.blocksize, hs.footer.trans h.footer, hs.batOffset.trans h.batOffset,
    hs.batLength.trans h.batLength⟩

theorem Finished.tidy {a : Area} (h : Finished a s s') : Tidy a s' := ⟨h.laid, fun _ => h.synced⟩

theorem Descends.call (h : Descends c s) {e : Event} (hcall : ∀ readOnly fastMode parents,
    e ≠ .reopen readOnly fastMode parents) (hfits : Fits s e) :
    ∃ s', step s e = some s' ∧ Spares (Touched s e) s s' ∧ Descends c s' := by
  cases e with
  | write pos buffer =>
    obtain ⟨ok, s', hrun, htidy, hspares⟩ := (h.tidy.seek pos).write buffer hfits
    have hspares' := hspares.of_seek
    exact ⟨s', congrArg (Option.map Prod.snd) hrun, hspares', hspares'.descends h htidy⟩
  | setUnused unusedStart unusedEnd =>
    obtain ⟨ok, s', hrun, htidy, hspares⟩ := h.tidy.setUnused unusedStart unusedEnd hfits
    exact ⟨s', congrArg (Option.map Prod.snd) hrun, hspares, hspares.descends h htidy⟩
  | finish =>
    have hfinished := h.tidy.finish
    exact ⟨_, rfl, hfinished.spares, hfinished.spares.descends h hfinished.tidy⟩
  | reopen readOnly fastMode parents => exact absurd rfl (hcall readOnly fastMode parents)

theorem step_setUnused (s : VHDFile) (unusedStart unusedEnd : Nat) :
    step s (.setUnused unusedStart unusedEnd) =
      (s.setUnused unusedStart unusedEnd).map Prod.snd := rfl

theorem step_reopen (s : VHDFile) (readOnly fastMode : Bool) (parents : List StoredFile) :
    step s (.reopen readOnly fastMode parents) = (openExisting readOnly s.compressed fastMode
      (s.finish.2.file :: parents)).bind List.head? := rfl

theorem Descends.step (hc : Headed c) (h : Descends c s) {e : Event} (hfits : Fits s e)
    (hstep : step s e = some s') : Descends c s' := by
  by_cases hcall : ∀ readOnly fastMode parents, e ≠ .reopen readOnly fastMode parents
  · obtain ⟨s'', hrun, -, hdescends⟩ := h.call hcall hfits
    obtain rfl : s' = s'' := Option.some.inj (hstep.symm.trans hrun)
    exact hdescends
  · simp only [not_forall, not_not] at hcall
    obtain ⟨readOnly, fastMode, parents, rfl⟩ := hcall
    have hfinished := h.tidy.finish
    have hdescends := hfinished.spares.descends h hfinished.tidy
    obtain ⟨e, he⟩ := hfinished.synced
    rw [step_reopen, Option.bind_eq_some_iff] at hstep
    obtain ⟨disk, hopen, hhead⟩ := hstep
    cases disk with
    | nil => cases hhead
    | cons t rest =>
      cases hhead
      exact hdescends.reopened hc he hopen

theorem Descends.placed (hc : Fresh c) (h : Descends c s) : Placed c s := by
  have hl := h.tidy.laid
  refine ⟨?_, hl.apart, fun k o hk => (hl.room k o hk).1, fun k o hk => (hl.room k o hk).2, ?_,
    hl.table, ?_, ?_, hl.cached, h.tidy.closed⟩
  · intro k o hk
    unfold blockAt at hk
    obtain ⟨entry, -, hentry⟩ := Option.bind_eq_some_iff.mp hk
    split at hentry
    · cases hentry
    · cases hentry
      exact Nat.mul_mod_left _ _
  · rw [h.batOffset]
    exact hc.headed.behind
  · intro i hi
    unfold locator
    rw [h.header hc.headed]
    exact hc.locators i hi
  · intro p hp hout
    refine hl.below p hp ?_
    unfold InTable at hout
    omega

/-- In every run whose calls meet the condition the blocks are apart, behind the headers and in
front of the next one, and what is written by a call are its blocks, the bitmap that was in memory,
the table and what is behind all blocks. -/
theorem placed_of_run (hc : Created c) (hfits : c.blocksize + c.bitmapSize < 2 ^ 32)
    {es : List Event} (hok : TransitionSystem.Guarded step Fits c es)
    (hrun : TransitionSystem.run step c es = some t) :
    Placed c t ∧ ∀ e, (∀ readOnly fastMode parents, e ≠ .reopen readOnly fastMode parents) →
      Fits t e → ∃ t', step t e = some t' ∧ Spares (Touched t e) t t' := by
  have hfresh := hc.fresh hfits
  have hdescends : Descends c t := TransitionSystem.guarded_run_invariant
    (fun s e s' h he hstep => h.step hfresh.headed he hstep) hfresh.descends hok hrun
  refine ⟨hdescends.placed hfresh, ?_⟩
  intro e hcall he
  obtain ⟨t', hstep, hspares, -⟩ := hdescends.call hcall he
  exact ⟨t', hstep, hspares⟩

end Runs

section NewBlocks

variable {s : VHDFile} {k : Nat}

theorem same_loadBitmap (s : VHDFile) (k o : Nat) (newBlock : Bool) :
    Same s (s.loadBitmap k o newBlock) ∧ (s.loadBitmap k o newBlock).bat = s.bat ∧
      (s.loadBitmap k o newBlock).nextblockOffset = s.nextblockOffset := by
  unfold loadBitmap switchBitmap
  split
  · exact ⟨Same.refl s, rfl, rfl⟩
  · dsimp only
    split <;> split <;> exact ⟨⟨rfl, rfl, rfl, rfl, rfl, rfl, rfl, rfl, rfl, rfl⟩, rfl, rfl⟩

theorem same_storeBitmap (s : VHDFile) (o : Nat) : Same s (s.storeBitmap o) ∧
    (s.storeBitmap o).bat = s.bat ∧ (s.storeBitmap o).nextblockOffset = s.nextblockOffset := by
  unfold storeBitmap
  split <;> exact ⟨⟨rfl, rfl, rfl, rfl, rfl, rfl, rfl, rfl, rfl, rfl⟩, rfl, rfl⟩

theorem same_zeroSectors (o : Nat) {blockoffset : Nat} (first : Bool) (towrite : Nat)
    (hblock : blockoffset < s.blocksize) :
    Same s (s.zeroSectors o blockoffset first towrite).1 ∧
      (s.zeroSectors o blockoffset first towrite).1.bat = s.bat ∧
      (s.zeroSectors o blockoffset first towrite).1.nextblockOffset = s.nextblockOffset ∧
      (s.zeroSectors o blockoffset first towrite).2 = towrite - (s.blocksize - blockoffset) := by
  induction towrite using Nat.strong_induction_on generalizing s blockoffset first with
  | _ n ih =>
    rw [zeroSectors, dif_pos hblock]
    dsimp only
    generalize hwant : sectorPart s.blocksize blockoffset n first = want
    have hle : want ≤ n := hwant ▸ sectorPart_le_length _ _ _ _
    have hleBlock : want ≤ s.blocksize - blockoffset := hwant ▸ sectorPart_le_block _ _ _ _
    have hturn : ∀ t, (if (s.setBitmapBit blockoffset).1 then (s.setBitmapBit blockoffset).2
        else (s.setBitmapBit blockoffset).2.writeFile (o + s.bitmapSize + blockoffset)
          (List.replicate want 0)) = t →
        Same s t ∧ t.bat = s.bat ∧ t.nextblockOffset = s.nextblockOffset := by
      rintro t rfl
      split <;> exact ⟨⟨rfl, rfl, rfl, rfl, rfl, rfl, rfl, rfl, rfl, rfl⟩, rfl, rfl⟩
    generalize (if (s.setBitmapBit blockoffset).1 then (s.setBitmapBit blockoffset).2
        else (s.setBitmapBit blockoffset).2.writeFile (o + s.bitmapSize + blockoffset)
          (List.replicate want 0)) = t at *
    obtain ⟨hsame, hbat, hnext⟩ := hturn t rfl
    split
    · rename_i hmore
      have hwantPos : 0 < want := hwant ▸ sectorPart_pos first (by omega) hblock
      obtain ⟨hsame', hbat', hnext', hleft⟩ := ih (n - want) (by omega) (s := t) false
        (by rw [hsame.blocksize]; exact hmore.2)
      refine ⟨hsame.trans hsame', hbat'.trans hbat, hnext'.trans hnext, ?_⟩
      rw [hleft, hsame.blocksize]
      omega
    · exact ⟨hsame, hbat, hnext, by dsimp only; omega⟩

theorem same_zeroBlock (first : Bool) (n : Nat) : ∀ t,
    ((s.enter k noBlock).zeroSectors (s.dataoffset noBlock) 0 first n).1.storeBitmap
      (s.dataoffset noBlock) = t →
    Same (s.allocate k) t ∧ t.bat = (s.allocate k).bat ∧
      t.nextblockOffset = (s.allocate k).nextblockOffset ∧
      ((s.enter k noBlock).zeroSectors (s.dataoffset noBlock) 0 first n).2 = n - s.blocksize := by
  rintro t rfl
  obtain ⟨hsame, hbat, hnext⟩ := same_loadBitmap (s.allocate k) k (s.dataoffset noBlock) true
  obtain ⟨hsame', hbat', hnext', hleft⟩ := same_zeroSectors (s := s.enter k noBlock)
    (s.dataoffset noBlock) first n (s.enter k noBlock).blocksize_pos
  obtain ⟨hsame'', hbat'', hnext''⟩ := same_storeBitmap
    ((s.enter k noBlock).zeroSectors (s.dataoffset noBlock) 0 first n).1 (s.dataoffset noBlock)
  have hblocksize : (s.enter k noBlock).blocksize = s.blocksize := hsame.blocksize
  rw [hblocksize, Nat.sub_zero] at hleft
  exact ⟨(hsame.trans hsame').trans hsame'', hbat''.trans (hbat'.trans hbat),
    hnext''.trans (hnext'.trans hnext), hleft⟩

theorem zeroBlocks_new {m n : Nat} (first dwriteFooter : Bool)
    (hfits : s.blocksize + s.bitmapSize < 2 ^ 32) (haligned : s.nextblockOffset % sectorSize = 0)
    (hnew : ∀ j, k ≤ j → j ≤ k + m → s.bat[j]? = some noBlock) (hn : n = (m + 1) * s.blocksize) :
    ∃ dwriteFooter' s', s.zeroBlocks k 0 first n dwriteFooter = some (dwriteFooter', s') ∧
      s'.fastMode = s.fastMode ∧ s'.batOffset = s.batOffset ∧ s'.bat.length = s.bat.length ∧
      (∀ j < k, s'.bat[j]? = s.bat[j]?) ∧
      ∀ i ≤ m, s'.bat[k + i]? = some ((s.nextblockOffset + i * s.stride) / sectorSize % 2 ^ 32) := by
  induction m generalizing s k n first dwriteFooter with
  | zero =>
    have hbat := hnew k (Nat.le_refl _) (Nat.le_add_right _ _)
    have hlt : k < s.bat.length := (List.getElem?_eq_some_iff.mp hbat).1
    rw [zeroBlocks_eq hbat]
    dsimp only
    obtain ⟨hsame, hbat', -, hleft⟩ := same_zeroBlock (s := s) (k := k) first n _ rfl
    generalize VHDFile.storeBitmap _ _ = t at *
    rw [hleft, if_pos (by omega)]
    refine ⟨_, t, rfl, hsame.fastMode, hsame.batOffset, ?_, ?_, ?_⟩
    · rw [hbat']
      exact List.length_set
    · intro j hj
      rw [hbat']
      exact List.getElem?_set_ne (Nat.ne_of_gt hj)
    · intro i hi
      obtain rfl := Nat.le_zero.mp hi
      rw [hbat', Nat.add_zero, Nat.zero_mul, Nat.add_zero]
      exact List.getElem?_set_self hlt
  | succ m ih =>
    have hbat := hnew k (Nat.le_refl _) (Nat.le_add_right _ _)
    have hlt : k < s.bat.length := (List.getElem?_eq_some_iff.mp hbat).1
    have hpos := s.blocksize_pos
    have hleft' : n - s.blocksize = (m + 1) * s.blocksize := by
      rw [hn, Nat.add_mul (m + 1), Nat.one_mul, Nat.add_sub_cancel]
    have hmore : 0 < (m + 1) * s.blocksize := Nat.mul_pos (Nat.succ_pos m) hpos
    rw [zeroBlocks_eq hbat]
    dsimp only
    obtain ⟨hsame, hbat', hnext, hleft⟩ := same_zeroBlock (s := s) (k := k) first n _ rfl
    generalize VHDFile.storeBitmap _ _ = t at *
    rw [hleft, if_neg (by omega), if_pos (by omega)]
    have hblocksize : t.blocksize = s.blocksize := hsame.blocksize
    have hstride : t.stride = (s.allocate k).stride := hsame.stride
    change t.stride = s.stride at hstride
    have hentry : t.bat[k]? = some (s.nextblockOffset / sectorSize % 2 ^ 32) := by
      rw [hbat']
      exact List.getElem?_set_self hlt
    rw [nextblockOffset_allocate hfits, nextSector_add haligned] at hnext
    change t.nextblockOffset = s.nextblockOffset + s.stride at hnext
    obtain ⟨dwriteFooter', s', hrun, hfast, hoffset, hlength, hbefore, hentries⟩ :=
      ih false (dwriteFooter || decide (noBlock = noBlock)) (s := t) (k := k + 1)
      (n := n - s.blocksize)
      (by rw [hblocksize, bitmapSize_congr hblocksize]; exact hfits)
      (by
        rw [hnext, Nat.add_mod, haligned, s.stride_aligned]
        rfl)
      (by
        intro j hj hj'
        rw [hbat']
        exact (List.getElem?_set_ne (by omega)).trans (hnew j (by omega) (by omega)))
      (by rw [hblocksize]; exact hleft')
    refine ⟨dwriteFooter', s', hrun, hfast.trans hsame.fastMode, hoffset.trans hsame.batOffset,
      ?_, ?_, ?_⟩
    · rw [hlength, hbat']
      exact List.length_set
    · intro j hj
      rw [hbefore j (by omega), hbat']
      exact List.getElem?_set_ne (Nat.ne_of_gt hj)
    · intro i hi
      cases i with
      | zero =>
        rw [Nat.add_zero, Nat.zero_mul, Nat.add_zero, hbefore k (Nat.lt_succ_self k)]
        exact hentry
      | succ i =>
        have hplace := hentries i (Nat.le_of_succ_le_succ hi)
        rw [hnext, hstride, Nat.add_assoc k, Nat.add_comm 1 i, Nat.add_assoc,
          Nat.add_comm s.stride, ← Nat.succ_mul] at hplace
        exact hplace

theorem stride_of_blocksize (h : s.blocksize = 2 ^ 21) :
    s.bitmapSize = 512 ∧ s.stride = 4098 * 512 := by
  have hbitmapSize : s.bitmapSize = 512 := by
    unfold bitmapSize sectorSize
    rw [h]
    norm_num
  refine ⟨hbitmapSize, ?_⟩
  unfold stride nextSector sectorSize
  rw [h, hbitmapSize]
  norm_num

theorem unusedSize_zero (n : Nat) : unusedSize 0 n = n := by
  unfold unusedSize
  rw [if_neg (Nat.not_lt_zero n), Nat.sub_zero]

theorem create_same (compressed fastMode : Bool) (stamp : VHDStamp) (dstsize blocksize : Nat)
    (hpos : 0 < blocksize) :
    ∃ draft : VHDFile, Same draft (create compressed fastMode stamp dstsize blocksize hpos) ∧
      (create compressed fastMode stamp dstsize blocksize hpos).bat = draft.bat ∧
      (create compressed fastMode stamp dstsize blocksize hpos).nextblockOffset =
        draft.nextblockOffset ∧
      draft.bat = List.replicate (newBatsize dstsize blocksize) noBlock ∧
      draft.nextblockOffset = nextSector (defBatOffset + 4 * newBatsize dstsize blocksize) ∧
      draft.blocksize = blocksize ∧ draft.dstsize = dstsize ∧ draft.fastMode = fastMode ∧
      draft.readOnly = false ∧ draft.finished = false ∧ draft.batOffset = defBatOffset := by
  unfold create
  dsimp only
  generalize footerBytes stamp dstsize 3 = footer
  obtain ⟨hsame, hbat, hnext⟩ := same_writeFooter (VHDFile.writeBat
    (((emptyFile compressed fastMode dstsize blocksize hpos footer defBatOffset).writeFile 0
      footer).writeFile defDynamicHeaderOffset (dynamicheaderBytes defBatOffset
        ((emptyFile compressed fastMode dstsize blocksize hpos footer defBatOffset).writeFile 0
          footer).bat.length blocksize (List.replicate 984 0)))).2
  exact ⟨_, hsame, hbat, hnext, rfl, rfl, rfl, rfl, rfl, rfl, rfl, rfl⟩

theorem setUnused_row (hbat : s.bat = List.replicate (2 ^ 21) noBlock)
    (hplace : s.nextblockOffset = 16388 * 512) (hsize : s.blocksize = 2 ^ 21)
    (hdstsize : s.dstsize = 2 ^ 42) (hfast : s.fastMode = true) (hwritable : s.readOnly = false) :
    ∃ s', s.setUnused 0 (2 ^ 42) = some (true, s') ∧ s'.blockAt 1048061 = some (3070 * 512) ∧
      s'.batOffset = s.batOffset ∧ s'.bat.length = 2 ^ 21 := by
  obtain ⟨hbitmapSize, hstride⟩ := stride_of_blocksize hsize
  have hlength : s.bat.length = 2 ^ 21 := by
    rw [hbat, List.length_replicate]
  have hfits : (s.seek 0).blocksize + (s.seek 0).bitmapSize < 2 ^ 32 := by
    change s.blocksize + s.bitmapSize < 2 ^ 32
    omega
  have haligned : (s.seek 0).nextblockOffset % sectorSize = 0 := by
    change s.nextblockOffset % sectorSize = 0
    rw [hplace]
    exact Nat.mul_mod_left _ _
  have hnew : ∀ j, 0 ≤ j → j ≤ 0 + 2097151 → (s.seek 0).bat[j]? = some noBlock := by
    intro j _ hj
    change s.bat[j]? = some noBlock
    rw [hbat, List.getElem?_replicate]
    have hlt : j < 2 ^ 21 := by norm_num; omega
    exact if_pos hlt
  have hn : 2 ^ 42 = (2097151 + 1) * (s.seek 0).blocksize := by
    change 2 ^ 42 = (2097151 + 1) * s.blocksize
    omega
  obtain ⟨dwriteFooter, s', hrun, hfast', hoffset', hlength', -, hentries⟩ :=
    zeroBlocks_new true false hfits haligned hnew hn
  have hplace' : ((s.seek 0).nextblockOffset + 1048061 * (s.seek 0).stride) / sectorSize % 2 ^ 32 =
      3070 := by
    change (s.nextblockOffset + 1048061 * s.stride) / 512 % 2 ^ 32 = 3070
    omega
  have hentry : s'.bat[1048061]? = some 3070 := by
    rw [← hplace', ← Nat.zero_add 1048061]
    exact hentries 1048061 (by decide)
  have hrun' : (s.seek 0).zeroBlocks (0 / s.blocksize) (0 % s.blocksize) true
      (unusedSize 0 (2 ^ 42)) false = some (dwriteFooter, s') := by
    rw [Nat.zero_div, Nat.zero_mod, unusedSize_zero]
    exact hrun
  have hrefused : ¬ (s.readOnly = true ∨ s.dstsize < 2 ^ 42) := by
    rw [hwritable, hdstsize]
    rintro (hro | hlt)
    · cases hro
    · exact Nat.lt_irrefl _ hlt
  refine ⟨s', ?_, ?_, hoffset', hlength'.trans hlength⟩
  · rw [setUnused_of_blocks hrefused hrun', writeTables, if_neg]
    exact fun hslow => hslow.2 (hfast'.trans hfast)
  · unfold blockAt
    rw [hentry, Option.bind_some, if_neg (by decide)]
    rfl

def bigDisk : VHDFile := create false true ⟨0, 0, Vector.replicate 16 0⟩ (2 ^ 42) (2 ^ 21) (by decide)

/-- A range of a whole disk of 4 TB is unused: the places of blocks behind 2 TB have entries of the
table that are too large, and one of them is in the table itself. -/
theorem unused_over_table : Created bigDisk ∧ ∃ s',
    TransitionSystem.run step bigDisk [.setUnused 0 (2 ^ 42)] = some s' ∧
    s'.blockAt 1048061 = some (3070 * 512) ∧
    s'.batOffset ≤ 3070 * 512 ∧ 3070 * 512 < s'.batOffset + 4 * s'.bat.length ∧
    ¬ Placed bigDisk s' := by
  obtain ⟨draft, hsame, hbat, hnext, hdraftBat, hdraftNext, hblocksize, hdstsize, hfast, hwritable,
    -, hoffset⟩ := create_same false true ⟨0, 0, Vector.replicate 16 0⟩ (2 ^ 42) (2 ^ 21) (by decide)
  have hbatsize : newBatsize (2 ^ 42) (2 ^ 21) = 2 ^ 21 := by decide +kernel
  rw [hdraftBat, hbatsize] at hbat
  rw [hdraftNext, hbatsize] at hnext
  have hplace : bigDisk.nextblockOffset = 16388 * 512 := hnext.trans (by decide +kernel)
  have hoffset' : bigDisk.batOffset = 1536 := hsame.batOffset.trans hoffset
  obtain ⟨s', hcall, hblock, hbatOffset, hlength⟩ := setUnused_row (s := bigDisk) hbat hplace
    (hsame.blocksize.trans hblocksize) (hsame.dstsize.trans hdstsize) (hsame.fastMode.trans hfast)
    (hsame.readOnly.trans hwritable)
  refine ⟨.alone _ _ _ _ _ _, s', ?_, hblock, ?_, ?_, ?_⟩
  · refine TransitionSystem.run_single ?_
    rw [step_setUnused, hcall]
    rfl
  · omega
  · omega
  · intro hplaced
    have hbehind := hplaced.behind _ _ hblock
    omega

/-- A sector is written to the first block. -/
theorem placed_of_run_bigDisk : ∃ t,
    TransitionSystem.run step bigDisk [.write 0 (List.replicate 512 1)] = some t ∧
    Placed bigDisk t := by
  obtain ⟨draft, hsame, hbat, -, hdraftBat, -, hblocksize, -, hfast', -, hopen,
    -⟩ :=
    create_same false true ⟨0, 0, Vector.replicate 16 0⟩ (2 ^ 42) (2 ^ 21) (by decide)
  have hcreated : Created bigDisk := .alone _ _ _ _ _ _
  have hsize : bigDisk.blocksize = 2 ^ 21 := hsame.blocksize.trans hblocksize
  have hblockFits : bigDisk.blocksize + bigDisk.bitmapSize < 2 ^ 32 := by
    obtain ⟨hbitmapSize, -⟩ := stride_of_blocksize hsize
    omega
  have hlength : bigDisk.bat.length = 2 ^ 21 := by
    have hbatsize : newBatsize (2 ^ 42) (2 ^ 21) = 2 ^ 21 := by decide +kernel
    refine (congrArg List.length (hbat.trans hdraftBat)).trans ?_
    rw [List.length_replicate, hbatsize]
  have hfast : bigDisk.fastMode = true := hsame.fastMode.trans hfast'
  have hreach : bigDisk.InReach 0 512 := by
    have hnotFinished : bigDisk.finished = false := hsame.finished.trans hopen
    refine ⟨?_, fun _ hfinished => absurd (hfinished.symm.trans hnotFinished) (by decide)⟩
    intro k hk
    have hone : (0 % bigDisk.blocksize + (512 - 1)) / bigDisk.blocksize + 1 = 1 := by
      rw [hsize]
      decide +kernel
    unfold blocksOf at hk
    rw [hone, Nat.zero_div] at hk
    rw [List.mem_singleton.mp hk, hlength]
    decide +kernel
  have hfits : Fits bigDisk (.write 0 (List.replicate 512 1)) := by
    refine .inr (.inr ?_)
    rw [List.length_replicate]
    exact ⟨hreach, .inl hfast⟩
  obtain ⟨t, hstep, -⟩ := (@placed_of_run bigDisk bigDisk hcreated hblockFits [] trivial rfl).2 _
    (fun _ _ _ heq => Event.noConfusion heq) hfits
  have hguard : TransitionSystem.Guarded step Fits bigDisk [.write 0 (List.replicate 512 1)] :=
    ⟨hfits, fun _ _ => trivial⟩
  have hrun := TransitionSystem.run_single hstep
  exact ⟨t, hrun, (placed_of_run hcreated hblockFits hguard hrun).1⟩

end NewBlocks

end VHDFile

end UrBackup
