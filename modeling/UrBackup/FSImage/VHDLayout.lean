import UrBackup.FSImage.VHDBlocks

/-! Writing to a virtual hard disk and the places of its blocks: they stay apart, behind the headers
and in front of the next one, and nothing else is written to. -/
namespace UrBackup

namespace VHDFile

/-- What no write changes. -/
structure Same (s s' : VHDFile) : Prop where
  readOnly : s'.readOnly = s.readOnly
  compressed : s'.compressed = s.compressed
  fastMode : s'.fastMode = s.fastMode
  dstsize : s'.dstsize = s.dstsize
  blocksize : s'.blocksize = s.blocksize
  footer : s'.footer = s.footer
  batOffset : s'.batOffset = s.batOffset
  batLength : s'.bat.length = s.bat.length
  currOffset : s'.currOffset = s.currOffset
  finished : s'.finished = s.finished

/-- A byte of a block. -/
def InBlockAt (s : VHDFile) (k p : Nat) : Prop :=
  ∃ o, s.blockAt k = some o ∧ o ≤ p ∧ p < s.blockEnd o

/-- A byte of the bitmap in memory, where it is in the file. -/
def InBitmap (s : VHDFile) (p : Nat) : Prop :=
  s.bitmapOffset ≠ 0 ∧ s.bitmapOffset ≤ p ∧ p < s.bitmapOffset + s.bitmapSize

/-- Only some blocks are written to, and the bitmap that was in memory. -/
structure Confined (T : Nat → Prop) (s s' : VHDFile) : Prop where
  same : Same s s'
  next : s.nextblockOffset ≤ s'.nextblockOffset
  old : ∀ k o, s.blockAt k = some o → s'.blockAt k = some o
  others : ∀ k, ¬ T k → s'.bat[k]? = s.bat[k]?
  changed : ∀ p, s'.file.bytes p ≠ s.file.bytes p →
    (∃ k, T k ∧ s'.InBlockAt k p) ∨ s.InBitmap p
  cached : s'.bitmapOffset = s.bitmapOffset ∨ s'.bitmapOffset = 0 ∨
    ∃ k, T k ∧ s'.blockAt k = some s'.bitmapOffset
  grows : s.file.size ≤ s'.file.size
  ends : ∀ n, s.file.size ≤ n → (∀ k o, s'.blockAt k = some o → s'.blockEnd o ≤ n) →
    (s.bitmapOffset ≠ 0 → s.bitmapOffset + s.bitmapSize ≤ n) → s'.file.size ≤ n

/-- The places of the blocks of a file whose lower part is known. -/
structure Laid (a : Area) (s : VHDFile) : Prop where
  blockFits : s.blocksize + s.bitmapSize < 2 ^ 32
  entries : ∀ entry ∈ s.bat, entry < 2 ^ 32
  room : ∀ k o, s.blockAt k = some o → a.start ≤ o ∧ s.blockEnd o ≤ s.nextblockOffset
  apart : ∀ k k' o o', k ≠ k' → s.blockAt k = some o → s.blockAt k' = some o' →
    s.blockEnd o ≤ o' ∨ s.blockEnd o' ≤ o
  table : s.batOffset + 4 * s.bat.length ≤ a.start
  next : a.start ≤ s.nextblockOffset
  aligned : s.nextblockOffset % sectorSize = 0
  footer : s.footer.length = sectorSize
  size : s.file.size ≤ s.nextblockOffset + sectorSize
  below : ∀ p < a.start, p < s.batOffset ∨ s.batOffset + 4 * s.bat.length ≤ p →
    s.file.bytes p = a.low p
  cached : s.bitmapOffset = 0 ∨ ∃ k, s.blockAt k = some s.bitmapOffset

section Confined

variable {T : Nat → Prop} {a : Area} {s s' s'' : VHDFile} {k o : Nat}

theorem Same.refl (s : VHDFile) : Same s s :=
  ⟨rfl, rfl, rfl, rfl, rfl, rfl, rfl, rfl, rfl, rfl⟩

theorem Same.trans (h : Same s s') (h' : Same s' s'') : Same s s'' :=
  ⟨h'.readOnly.trans h.readOnly, h'.compressed.trans h.compressed, h'.fastMode.trans h.fastMode,
    h'.dstsize.trans h.dstsize, h'.blocksize.trans h.blocksize, h'.footer.trans h.footer,
    h'.batOffset.trans h.batOffset, h'.batLength.trans h.batLength,
    h'.currOffset.trans h.currOffset, h'.finished.trans h.finished⟩

theorem bitmapSize_congr (h : s'.blocksize = s.blocksize) : s'.bitmapSize = s.bitmapSize := by
  unfold bitmapSize
  rw [h]

theorem Same.bitmapSize (h : Same s s') : s'.bitmapSize = s.bitmapSize := bitmapSize_congr h.blocksize

theorem Same.blockEnd (h : Same s s') (o : Nat) : s'.blockEnd o = s.blockEnd o := by
  unfold VHDFile.blockEnd
  rw [h.bitmapSize, h.blocksize]

theorem bitmap_le_blockEnd (s : VHDFile) (o : Nat) : o + s.bitmapSize ≤ s.blockEnd o :=
  Nat.le_add_right _ _

theorem Confined.refl (T : Nat → Prop) (s : VHDFile) : Confined T s s :=
  ⟨Same.refl s, Nat.le_refl _, fun _ _ h => h, fun _ _ => rfl, fun _ h => absurd rfl h, .inl rfl,
    Nat.le_refl _, fun _ h _ _ => h⟩

theorem Confined.mono {T' : Nat → Prop} (h : Confined T s s') (hT : ∀ k, T k → T' k) :
    Confined T' s s' := by
  refine ⟨h.same, h.next, h.old, fun k hk => h.others k (mt (hT k) hk), ?_, ?_, h.grows, h.ends⟩
  · intro p hp
    exact (h.changed p hp).imp (fun ⟨k, hk, hin⟩ => ⟨k, hT k hk, hin⟩) id
  · exact h.cached.imp id (Or.imp id fun ⟨k, hk, hplace⟩ => ⟨k, hT k hk, hplace⟩)

theorem Confined.inBlockAt (h : Confined T s s') {p : Nat} (hin : s.InBlockAt k p) :
    s'.InBlockAt k p := by
  obtain ⟨o, hk, hle, hlt⟩ := hin
  exact ⟨o, h.old k o hk, hle, by rw [h.same.blockEnd]; exact hlt⟩

theorem Confined.trans (h : Confined T s s') (h' : Confined T s' s'') : Confined T s s'' := by
  have hsize := h.same.bitmapSize
  refine ⟨h.same.trans h'.same, Nat.le_trans h.next h'.next, fun k o hk => h'.old k o (h.old k o hk),
    fun k hk => (h'.others k hk).trans (h.others k hk), ?_, ?_, Nat.le_trans h.grows h'.grows, ?_⟩
  · intro p hp
    by_cases hfirst : s'.file.bytes p = s.file.bytes p
    · rw [← hfirst] at hp
      rcases h'.changed p hp with hin | ⟨hne, hle, hlt⟩
      · exact .inl hin
      · rcases h.cached with hsame | hzero | ⟨k, hk, hplace⟩
        · rw [hsame, hsize] at hlt
          rw [hsame] at hne hle
          exact .inr ⟨hne, hle, hlt⟩
        · exact absurd hzero hne
        · have hend := s'.bitmap_le_blockEnd s'.bitmapOffset
          exact .inl ⟨k, hk, h'.inBlockAt ⟨_, hplace, hle, by omega⟩⟩
    · exact (h.changed p hfirst).imp (fun ⟨k, hk, hin⟩ => ⟨k, hk, h'.inBlockAt hin⟩) id
  · rcases h'.cached with hsame | hrest
    · rw [hsame]
      exact h.cached.imp id (Or.imp id fun ⟨k, hk, hplace⟩ => ⟨k, hk, h'.old k _ hplace⟩)
    · exact .inr hrest
  · intro n hn hends hcached
    have hends' : ∀ k o, s'.blockAt k = some o → s'.blockEnd o ≤ n := by
      intro k o hk
      rw [← h'.same.blockEnd]
      exact hends k o (h'.old k o hk)
    refine h'.ends n (h.ends n hn hends' hcached) hends ?_
    intro hne
    rcases h.cached with hsame | hzero | ⟨k, -, hplace⟩
    · rw [hsame, hsize]
      exact hcached (by rwa [hsame] at hne)
    · exact absurd hzero hne
    · exact Nat.le_trans (bitmap_le_blockEnd _ _) (hends' k _ hplace)

theorem Laid.inBitmap (h : Laid a s) {p : Nat} (hp : s.InBitmap p) : ∃ k, s.InBlockAt k p := by
  obtain ⟨hne, hle, hlt⟩ := hp
  have hend := s.bitmap_le_blockEnd s.bitmapOffset
  rcases h.cached with hzero | ⟨k, hk⟩
  · exact absurd hzero hne
  · exact ⟨k, _, hk, hle, by omega⟩

theorem Laid.cached_le (h : Laid a s) {n : Nat}
    (hends : ∀ k o, s.blockAt k = some o → s.blockEnd o ≤ n) (hne : s.bitmapOffset ≠ 0) :
    s.bitmapOffset + s.bitmapSize ≤ n := by
  rcases h.cached with hzero | ⟨k, hk⟩
  · exact absurd hzero hne
  · exact Nat.le_trans (bitmap_le_blockEnd _ _) (hends k _ hk)

theorem Confined.outside (h : Confined T s s') (hl : Laid a s) (hl' : Laid a s') {p : Nat}
    (hp : p < a.start ∨ ∀ k o, s'.blockAt k = some o → s'.blockEnd o ≤ p) :
    s'.file.bytes p = s.file.bytes p := by
  by_contra hne
  have hin : ∃ k, s'.InBlockAt k p := by
    rcases h.changed p hne with ⟨k, -, hin⟩ | hin
    · exact ⟨k, hin⟩
    · obtain ⟨k, hin⟩ := hl.inBitmap hin
      exact ⟨k, h.inBlockAt hin⟩
  obtain ⟨k, o, hk, hle, hlt⟩ := hin
  rcases hp with hp | hp
  · have hroom := (hl'.room k o hk).1
    omega
  · have hend := hp k o hk
    omega

theorem confined_writeFile (hT : T k) (hk : s.blockAt k = some o) {pos : Nat} {data : List UInt8}
    (hpos : o ≤ pos) (hend : pos + data.length ≤ s.blockEnd o) :
    Confined T s (s.writeFile pos data) := by
  refine ⟨⟨rfl, rfl, rfl, rfl, rfl, rfl, rfl, rfl, rfl, rfl⟩, Nat.le_refl _, fun _ _ h => h,
    fun _ _ => rfl, ?_, .inl rfl, StoredFile.size_le_write _ _ _, ?_⟩
  · intro p hp
    refine .inl ⟨k, hT, o, hk, ?_⟩
    by_contra hout
    exact hp (ByteStore.write_of_not_mem fun hin => hout ⟨by omega, by
      change p < s.blockEnd o
      omega⟩)
  · intro n hn hends _
    exact size_write_le hn (Nat.le_trans hend (hends k o hk))

theorem Laid.writeFile (h : Laid a s) (hk : s.blockAt k = some o) {pos : Nat} {data : List UInt8}
    (hpos : o ≤ pos) (hend : pos + data.length ≤ s.blockEnd o) : Laid a (s.writeFile pos data) := by
  obtain ⟨hstart, hroom⟩ := h.room k o hk
  refine ⟨h.blockFits, h.entries, h.room, h.apart, h.table, h.next, h.aligned, h.footer,
    size_write_le h.size (Nat.le_trans hend (Nat.le_trans hroom (Nat.le_add_right _ _))), ?_,
    h.cached⟩
  intro p hp hout
  exact (ByteStore.write_of_lt (by omega)).trans (h.below p hp hout)

/-- What is in memory of a bitmap does not matter. -/
theorem Laid.withBitmap (h : Laid a s) (bitmap : ByteStore) (bitmapDirty : Bool) (currblock : Nat) :
    Laid a { s with bitmap, bitmapDirty, currblock } :=
  ⟨h.blockFits, h.entries, h.room, h.apart, h.table, h.next, h.aligned, h.footer, h.size, h.below,
    h.cached⟩

theorem confined_withBitmap (T : Nat → Prop) (s : VHDFile) (bitmap : ByteStore) (bitmapDirty : Bool)
    (currblock : Nat) : Confined T s { s with bitmap, bitmapDirty, currblock } :=
  ⟨⟨rfl, rfl, rfl, rfl, rfl, rfl, rfl, rfl, rfl, rfl⟩, Nat.le_refl _, fun _ _ h => h,
    fun _ _ => rfl, fun _ h => absurd rfl h, .inl rfl, Nat.le_refl _, fun _ h _ _ => h⟩

theorem bitmapData_length (s : VHDFile) : s.bitmapData.length = s.bitmapSize :=
  ByteStore.read_length _ _ _

theorem Laid.writeBitmap (h : Laid a s) (hT : T k) (hk : s.blockAt k = some o)
    {data : List UInt8} (hdata : data.length = s.bitmapSize) :
    Laid a (s.writeFile o data) ∧ Confined T s (s.writeFile o data) := by
  have hend : o + data.length ≤ s.blockEnd o := by
    rw [hdata]
    exact s.bitmap_le_blockEnd o
  exact ⟨h.writeFile hk (Nat.le_refl _) hend, confined_writeFile hT hk (Nat.le_refl _) hend⟩

theorem Laid.flush (h : Laid a s) (T : Nat → Prop) : Laid a s.flush ∧ Confined T s s.flush := by
  unfold VHDFile.flush
  split
  · rename_i hflush
    obtain ⟨-, -, -, hoffset⟩ := hflush
    rcases h.cached with hzero | ⟨k, hk⟩
    · exact absurd hzero hoffset
    · obtain ⟨hlaid, hc⟩ := h.writeBitmap (T := fun _ => True) trivial hk s.bitmapData_length
      refine ⟨hlaid, ⟨hc.same, hc.next, hc.old, fun _ _ => rfl, ?_, .inl rfl, hc.grows, ?_⟩⟩
      · intro p hp
        by_contra hout
        refine hp (ByteStore.write_of_not_mem fun hin => hout (.inr ⟨hoffset, hin.1, ?_⟩))
        have hlength := s.bitmapData_length
        omega
      · intro n hn _ hcached
        refine size_write_le hn ?_
        rw [s.bitmapData_length]
        exact hcached hoffset
  · exact ⟨h, Confined.refl T s⟩

@[simp] theorem flush_bat (s : VHDFile) : s.flush.bat = s.bat := by
  unfold flush
  split <;> rfl

@[simp] theorem flush_nextblockOffset (s : VHDFile) :
    s.flush.nextblockOffset = s.nextblockOffset := by
  unfold flush
  split <;> rfl

theorem blockAt_congr (h : s'.bat[k]? = s.bat[k]?) : s'.blockAt k = s.blockAt k := by
  unfold blockAt
  rw [h]

theorem Laid.switchBitmap (h : Laid a s) (hplace : o = 0 ∨ ∃ k, T k ∧ s.blockAt k = some o) :
    Laid a (s.switchBitmap o) ∧ Confined T s (s.switchBitmap o) := by
  obtain ⟨hlaid, hc⟩ := h.flush T
  have hplace' : o = 0 ∨ ∃ k, T k ∧ s.flush.blockAt k = some o :=
    hplace.imp id fun ⟨k, hT, hk⟩ => ⟨k, hT, hc.old k o hk⟩
  rw [switchBitmap_eq]
  refine ⟨⟨hlaid.blockFits, hlaid.entries, hlaid.room, hlaid.apart, hlaid.table, hlaid.next,
    hlaid.aligned, hlaid.footer, hlaid.size, hlaid.below,
    hplace'.imp id fun ⟨k, _, hk⟩ => ⟨k, hk⟩⟩, hc.trans ?_⟩
  exact ⟨⟨rfl, rfl, rfl, rfl, rfl, rfl, rfl, rfl, rfl, rfl⟩, Nat.le_refl _, fun _ _ h => h,
    fun _ _ => rfl, fun _ h => absurd rfl h, .inr hplace', Nat.le_refl _, fun _ h _ _ => h⟩

end Confined

def stride (s : VHDFile) : Nat := nextSector (s.blocksize + s.bitmapSize)

/-- The entry of the table has a place for the block that is added after `i` others. -/
def Room (s : VHDFile) (i : Nat) : Prop :=
  (s.nextblockOffset + i * s.stride) / sectorSize < noBlock

instance (s : VHDFile) (i : Nat) : Decidable (s.Room i) :=
  inferInstanceAs (Decidable ((s.nextblockOffset + i * s.stride) / sectorSize < noBlock))

section Turns

variable {T : Nat → Prop} {a : Area} {s s' : VHDFile} {k o : Nat}

theorem nextSector_add {m : Nat} (h : m % sectorSize = 0) (n : Nat) :
    nextSector (m + n) = m + nextSector n := by
  unfold nextSector sectorSize at *
  omega

theorem Same.stride (h : Same s s') : s'.stride = s.stride := by
  unfold VHDFile.stride
  rw [h.bitmapSize, h.blocksize]

theorem Laid.nextblockOffset_allocate (h : Laid a s) (k : Nat) :
    (s.allocate k).nextblockOffset = s.nextblockOffset + s.stride :=
  (VHDFile.nextblockOffset_allocate h.blockFits k).trans (nextSector_add h.aligned _)

theorem blockEnd_le_stride (s : VHDFile) (o : Nat) : s.blockEnd o ≤ o + s.stride := by
  have hle := le_nextSector (s.blocksize + s.bitmapSize)
  unfold blockEnd stride
  omega

theorem stride_aligned (s : VHDFile) : s.stride % sectorSize = 0 := nextSector_aligned _

theorem Laid.le_allocate (h : Laid a s) (k : Nat) :
    s.nextblockOffset ≤ (s.allocate k).nextblockOffset := by
  rw [h.nextblockOffset_allocate]
  exact Nat.le_add_right _ _

theorem Laid.moveNext (h : Laid a s) (k : Nat) : Laid a { s.allocate k with bat := s.bat } := by
  have hle := h.le_allocate k
  refine ⟨h.blockFits, h.entries, ?_, h.apart, h.table, Nat.le_trans h.next hle, ?_, h.footer,
    Nat.le_trans h.size (Nat.add_le_add_right hle _), h.below, h.cached⟩
  · intro k' o hk'
    obtain ⟨hstart, hroom⟩ := h.room k' o hk'
    exact ⟨hstart, Nat.le_trans hroom hle⟩
  · exact nextSector_aligned _

theorem Laid.allocate (h : Laid a s) (hT : T k) (hk : s.bat[k]? = some noBlock)
    (hfits : s.nextblockOffset / sectorSize < noBlock) :
    Laid a (s.allocate k) ∧ Confined T s (s.allocate k) ∧
      (s.allocate k).blockAt k = some s.nextblockOffset := by
  have hlt : k < s.bat.length := (List.getElem?_eq_some_iff.mp hk).1
  have habsent : s.blockAt k = none := by
    unfold blockAt
    rw [hk, Option.bind_some, if_pos rfl]
  have hplace := blockAt_allocate habsent hlt h.aligned hfits
  have hnew : (s.allocate k).blockAt k = some s.nextblockOffset := (hplace k).trans (if_pos rfl)
  have hold : ∀ k' o, s.blockAt k' = some o → (s.allocate k).blockAt k' = some o := by
    intro k' o hk'
    rw [hplace, if_neg, hk']
    rintro rfl
    rw [habsent] at hk'
    cases hk'
  have hnext := h.nextblockOffset_allocate k
  have hend : s.blockEnd s.nextblockOffset ≤ (s.allocate k).nextblockOffset := by
    rw [hnext]
    exact s.blockEnd_le_stride _
  have hm := h.moveNext k
  have hlength : (s.allocate k).bat.length = s.bat.length := List.length_set
  refine ⟨⟨h.blockFits, ?_, ?_, ?_, ?_, hm.next, hm.aligned, h.footer, hm.size, ?_, ?_⟩, ?_, hnew⟩
  · intro entry hentry
    rcases List.mem_or_eq_of_mem_set hentry with hmem | rfl
    · exact h.entries entry hmem
    · exact Nat.mod_lt _ (by decide)
  · intro k' o hk'
    rw [hplace] at hk'
    split at hk'
    · cases hk'
      exact ⟨h.next, hend⟩
    · exact hm.room k' o hk'
  · intro k₁ k₂ o₁ o₂ hne hk₁ hk₂
    rw [hplace] at hk₁ hk₂
    split at hk₁
    · cases hk₁
      split at hk₂
      · omega
      · exact .inr (h.room k₂ o₂ hk₂).2
    · split at hk₂
      · cases hk₂
        exact .inl (h.room k₁ o₁ hk₁).2
      · exact h.apart k₁ k₂ o₁ o₂ hne hk₁ hk₂
  · rw [hlength]
    exact h.table
  · rw [hlength]
    exact h.below
  · exact h.cached.imp id fun ⟨k', hk'⟩ => ⟨k', hold k' _ hk'⟩
  · refine ⟨⟨rfl, rfl, rfl, rfl, rfl, rfl, rfl, hlength, rfl, rfl⟩, h.le_allocate k, hold, ?_,
      fun _ hp => absurd rfl hp, .inl rfl, Nat.le_refl _, fun _ hn _ _ => hn⟩
    intro k' hk'
    apply List.getElem?_set_ne
    rintro rfl
    exact hk' hT

theorem Laid.loadBitmap (h : Laid a s) (hT : T k) (hk : s.blockAt k = some o) (newBlock : Bool) :
    Laid a (s.loadBitmap k o newBlock) ∧ Confined T s (s.loadBitmap k o newBlock) ∧
      (s.loadBitmap k o newBlock).bat = s.bat ∧
      (s.loadBitmap k o newBlock).nextblockOffset = s.nextblockOffset := by
  unfold VHDFile.loadBitmap
  split
  · exact ⟨h, Confined.refl T s, rfl, rfl⟩
  · obtain ⟨hlaid, hc⟩ := h.switchBitmap (.inr ⟨k, hT, hk⟩)
    have hbat : (s.switchBitmap o).bat = s.bat := s.flush_bat
    have hnext : (s.switchBitmap o).nextblockOffset = s.nextblockOffset := s.flush_nextblockOffset
    have hk' := hc.old k o hk
    generalize s.switchBitmap o = t at *
    dsimp only
    split
    · obtain ⟨hlaid', hc'⟩ := hlaid.writeBitmap hT hk'
        (List.length_replicate : (List.replicate t.bitmapSize (0 : UInt8)).length = t.bitmapSize)
      exact ⟨hlaid'.withBitmap _ _ _, hc.trans (hc'.trans (confined_withBitmap T _ _ _ _)), hbat,
        hnext⟩
    · exact ⟨hlaid.withBitmap _ _ _, hc.trans (confined_withBitmap T _ _ _ _), hbat, hnext⟩

/-- A loop over the sectors of a block writes to it. -/
structure Turned (T : Nat → Prop) (a : Area) (s s' : VHDFile) : Prop where
  laid : Laid a s'
  confined : Confined T s s'
  bat : s'.bat = s.bat
  next : s'.nextblockOffset = s.nextblockOffset

theorem Turned.trans {s'' : VHDFile} (h : Turned T a s s') (h' : Turned T a s' s'') :
    Turned T a s s'' :=
  ⟨h'.laid, h.confined.trans h'.confined, h'.bat.trans h.bat, h'.next.trans h.next⟩

theorem Turned.blockAt (h : Turned T a s s') (k : Nat) : s'.blockAt k = s.blockAt k :=
  blockAt_congr (congrArg (·[k]?) h.bat)

section

variable (h : Laid a s) (hT : T k) (hk : s.blockAt k = some o)

include h hT hk

theorem Laid.turn {blockoffset : Nat}
    {data : List UInt8} (hblock : blockoffset + data.length ≤ s.blocksize) :
    Turned T a s (s.setBitmapBit blockoffset).2 ∧
      Turned T a s ((s.setBitmapBit blockoffset).2.writeFile (o + s.bitmapSize + blockoffset) data) := by
  have hlaid : Laid a (s.setBitmapBit blockoffset).2 := h.withBitmap _ _ s.currblock
  have hc : Confined T s (s.setBitmapBit blockoffset).2 := confined_withBitmap T s _ _ s.currblock
  have hend : o + s.bitmapSize + blockoffset + data.length ≤ s.blockEnd o := by
    unfold blockEnd
    omega
  have hpos : o ≤ o + s.bitmapSize + blockoffset := by omega
  exact ⟨⟨hlaid, hc, rfl, rfl⟩, ⟨hlaid.writeFile hk hpos hend,
    hc.trans (confined_writeFile (s := (s.setBitmapBit blockoffset).2) hT hk hpos hend), rfl, rfl⟩⟩

theorem turned_writeSectors {blockoffset : Nat} (first : Bool) (buffer : List UInt8)
    (hblock : blockoffset < s.blocksize) :
    Turned T a s (s.writeSectors o blockoffset first buffer).1 ∧
      (s.writeSectors o blockoffset first buffer).2 = buffer.drop (s.blocksize - blockoffset) := by
  generalize hn : buffer.length = n
  induction n using Nat.strong_induction_on generalizing s blockoffset first buffer with
  | _ n ih =>
    rw [writeSectors, dif_pos hblock]
    dsimp only
    generalize hwant : sectorPart s.blocksize blockoffset buffer.length first = want
    have hle : want ≤ buffer.length := hwant ▸ sectorPart_le_length _ _ _ _
    have hleBlock : want ≤ s.blocksize - blockoffset := hwant ▸ sectorPart_le_block _ _ _ _
    have hlength : (buffer.take want).length = want := by
      rw [List.length_take, Nat.min_eq_left hle]
    have hturn := (h.turn hT hk (by omega : blockoffset + (buffer.take want).length ≤ _)).2
    generalize (s.setBitmapBit blockoffset).2.writeFile (o + s.bitmapSize + blockoffset)
      (buffer.take want) = t at *
    have hblocksize := hturn.confined.same.blocksize
    split
    · rename_i hmore
      have hne : buffer ≠ [] := fun hnil => hmore.1 (by rw [hnil, List.drop_nil])
      have hpos := List.length_pos_of_ne_nil hne
      have hwantPos : 0 < want := hwant ▸ sectorPart_pos first hpos hblock
      obtain ⟨hrest, hdrop⟩ := ih (buffer.length - want) (by omega) hturn.laid
        ((hturn.blockAt k).trans hk) false (buffer.drop want) (by rw [hblocksize]; exact hmore.2)
        List.length_drop
      refine ⟨hturn.trans hrest, ?_⟩
      rw [hdrop, hblocksize, List.drop_drop]
      congr 1
      omega
    · rename_i hlast
      refine ⟨hturn, ?_⟩
      by_cases hall : want = s.blocksize - blockoffset
      · rw [hall]
      · have hnil : buffer.drop want = [] := by
          by_contra hne
          exact hlast ⟨hne, by omega⟩
        have hshort := List.drop_eq_nil_iff.mp hnil
        rw [hnil, List.drop_eq_nil_of_le (by omega)]

theorem turned_zeroSectors {blockoffset : Nat} (first : Bool) (towrite : Nat)
    (hblock : blockoffset < s.blocksize) :
    Turned T a s (s.zeroSectors o blockoffset first towrite).1 ∧
      (s.zeroSectors o blockoffset first towrite).2 = towrite - (s.blocksize - blockoffset) := by
  induction towrite using Nat.strong_induction_on generalizing s blockoffset first with
  | _ n ih =>
    rw [zeroSectors, dif_pos hblock]
    dsimp only
    generalize hwant : sectorPart s.blocksize blockoffset n first = want
    have hle : want ≤ n := hwant ▸ sectorPart_le_length _ _ _ _
    have hleBlock : want ≤ s.blocksize - blockoffset := hwant ▸ sectorPart_le_block _ _ _ _
    obtain ⟨hset, hwrite⟩ := h.turn hT hk
      (by rw [List.length_replicate]; omega :
        blockoffset + (List.replicate want (0 : UInt8)).length ≤ s.blocksize)
    have hturn : Turned T a s (if (s.setBitmapBit blockoffset).1 then (s.setBitmapBit blockoffset).2
        else (s.setBitmapBit blockoffset).2.writeFile (o + s.bitmapSize + blockoffset)
          (List.replicate want 0)) := by
      split
      · exact hset
      · exact hwrite
    generalize (if (s.setBitmapBit blockoffset).1 then (s.setBitmapBit blockoffset).2
        else (s.setBitmapBit blockoffset).2.writeFile (o + s.bitmapSize + blockoffset)
          (List.replicate want 0)) = t at *
    have hblocksize := hturn.confined.same.blocksize
    split
    · rename_i hmore
      have hwantPos : 0 < want := hwant ▸ sectorPart_pos first (by omega) hblock
      obtain ⟨hrest, hleft⟩ := ih (n - want) (by omega) hturn.laid
        ((hturn.blockAt k).trans hk) false (by rw [hblocksize]; exact hmore.2)
      refine ⟨hturn.trans hrest, ?_⟩
      rw [hleft, hblocksize]
      omega
    · exact ⟨hturn, by dsimp only; omega⟩

theorem Laid.storeBitmap : Turned T a s (s.storeBitmap o) := by
  unfold VHDFile.storeBitmap
  split
  · exact ⟨h, Confined.refl T s, rfl, rfl⟩
  · obtain ⟨hlaid, hc⟩ := h.writeBitmap hT hk s.bitmapData_length
    exact ⟨hlaid, hc, rfl, rfl⟩

end

end Turns

def dataoffset (s : VHDFile) (batRef : Nat) : Nat :=
  if batRef = noBlock then s.nextblockOffset else batRef * sectorSize

/-- A block that is written to: it has a place, and its bitmap is in memory. -/
def enter (s : VHDFile) (k batRef : Nat) : VHDFile :=
  loadBitmap (if batRef = noBlock then s.allocate k else s) k (s.dataoffset batRef)
    (decide (batRef = noBlock))

def added (s : VHDFile) (ks : List Nat) : Nat := ks.countP fun k => s.bat[k]? = some noBlock

/-- One block of a loop over blocks was written to. -/
structure BlockTurn (k batRef : Nat) (a : Area) (s s' : VHDFile) : Prop where
  laid : Laid a s'
  confined : Confined (· = k) s s'
  next : s'.nextblockOffset = s.nextblockOffset + if batRef = noBlock then s.stride else 0
  bat : batRef ≠ noBlock → s'.bat = s.bat

section Blocks

variable {T : Nat → Prop} {a : Area} {s s' : VHDFile} {k o batRef : Nat}

theorem writeBlocks_eq (hbat : s.bat[k]? = some batRef) (blockoffset : Nat) (first : Bool)
    (buffer : List UInt8) (dwriteFooter : Bool) :
    s.writeBlocks k blockoffset first buffer dwriteFooter =
      if batRef = noBlock ∧ noBlock ≤ s.dataoffset batRef / sectorSize then
        some (false, dwriteFooter,
          { (if batRef = noBlock then s.allocate k else s) with bat := s.bat })
      else
        let r := (s.enter k batRef).writeSectors (s.dataoffset batRef) blockoffset first buffer
        let s₃ := r.1.storeBitmap (s.dataoffset batRef)
        if r.2 = [] then some (true, dwriteFooter || decide (batRef = noBlock), s₃)
        else if r.2.length < buffer.length then
          s₃.writeBlocks (k + 1) 0 false r.2 (dwriteFooter || decide (batRef = noBlock))
        else none := by
  rw [writeBlocks, hbat]
  rfl

theorem zeroBlocks_eq (hbat : s.bat[k]? = some batRef) (blockoffset : Nat) (first : Bool)
    (towrite : Nat) (dwriteFooter : Bool) :
    s.zeroBlocks k blockoffset first towrite dwriteFooter =
      let r := (s.enter k batRef).zeroSectors (s.dataoffset batRef) blockoffset first towrite
      let s₃ := r.1.storeBitmap (s.dataoffset batRef)
      if r.2 = 0 then some (dwriteFooter || decide (batRef = noBlock), s₃)
      else if r.2 < towrite then
        s₃.zeroBlocks (k + 1) 0 false r.2 (dwriteFooter || decide (batRef = noBlock))
      else none := by
  rw [zeroBlocks, hbat]
  rfl

theorem room_zero : s.Room 0 ↔ s.nextblockOffset / sectorSize < noBlock := by
  unfold Room
  rw [Nat.zero_mul, Nat.add_zero]

theorem dataoffset_of_new (hnew : batRef = noBlock) : s.dataoffset batRef = s.nextblockOffset :=
  if_pos hnew

theorem Laid.enter (h : Laid a s) (hbat : s.bat[k]? = some batRef)
    (hroom : batRef = noBlock → s.Room 0) :
    BlockTurn k batRef a s (s.enter k batRef) ∧
      (s.enter k batRef).blockAt k = some (s.dataoffset batRef) := by
  unfold VHDFile.enter dataoffset
  by_cases hnew : batRef = noBlock
  · simp only [if_pos hnew, decide_eq_true hnew]
    have hfits := room_zero.mp (hroom hnew)
    obtain ⟨hlaid, hc, hplace⟩ := h.allocate (T := (· = k)) rfl (by rw [hbat, hnew]) hfits
    have hnext := h.nextblockOffset_allocate k
    obtain ⟨hlaid', hc', -, hnext'⟩ := hlaid.loadBitmap (T := (· = k)) rfl hplace true
    refine ⟨⟨hlaid', hc.trans hc', ?_, fun hne => absurd hnew hne⟩, hc'.old k _ hplace⟩
    rw [if_pos hnew]
    exact hnext'.trans hnext
  · simp only [if_neg hnew, decide_eq_false hnew]
    have hplace : s.blockAt k = some (batRef * sectorSize) := by
      unfold blockAt
      rw [hbat, Option.bind_some, if_neg hnew]
    obtain ⟨hlaid, hc, hbat', hnext⟩ := h.loadBitmap (T := (· = k)) rfl hplace false
    refine ⟨⟨hlaid, hc, ?_, fun _ => hbat'⟩, hc.old k _ hplace⟩
    rw [if_neg hnew]
    exact hnext

theorem BlockTurn.turned (h : BlockTurn k batRef a s s') {s'' : VHDFile}
    (h' : Turned (· = k) a s' s'') : BlockTurn k batRef a s s'' :=
  ⟨h'.laid, h.confined.trans h'.confined, h'.next.trans h.next,
    fun hne => h'.bat.trans (h.bat hne)⟩

theorem BlockTurn.room (h : BlockTurn k batRef a s s') (i : Nat) :
    s'.Room i ↔ s.Room (i + if batRef = noBlock then 1 else 0) := by
  unfold Room
  rw [h.confined.same.stride, h.next]
  split
  · rw [Nat.add_mul, Nat.one_mul, Nat.add_comm (i * s.stride), Nat.add_assoc]
  · rw [Nat.add_zero, Nat.add_zero]

theorem BlockTurn.added (h : BlockTurn k batRef a s s') {ks : List Nat} (hk : k ∉ ks) :
    s'.added ks = s.added ks := by
  apply List.countP_congr
  intro j hj
  rw [h.confined.others j (fun hjk => hk (hjk ▸ hj))]

theorem added_cons (hbat : s.bat[k]? = some batRef) (ks : List Nat) :
    s.added (k :: ks) = s.added ks + if batRef = noBlock then 1 else 0 := by
  unfold VHDFile.added
  rw [List.countP_cons, hbat]
  simp only [Option.some.injEq, decide_eq_true_eq]

theorem BlockTurn.rooms (h : BlockTurn k batRef a s s') (hbat : s.bat[k]? = some batRef)
    {ks : List Nat} (hk : k ∉ ks) (hroom : ∀ i < s.added (k :: ks), s.Room i) :
    ∀ i < s'.added ks, s'.Room i := by
  intro i hi
  rw [h.room]
  apply hroom
  rw [added_cons hbat]
  rw [h.added hk] at hi
  exact Nat.add_lt_add_right hi _

theorem notMem_range' (k m : Nat) : k ∉ List.range' (k + 1) m := by
  intro h
  rw [List.mem_range'_1] at h
  omega

theorem nextBlock_count {blocksize blockoffset n m : Nat} (hblock : blockoffset < blocksize)
    (hm : (blockoffset + (n - 1)) / blocksize = m + 1) :
    0 < n - (blocksize - blockoffset) ∧
      (0 + (n - (blocksize - blockoffset) - 1)) / blocksize = m := by
  have hpos : 0 < blocksize := by omega
  have hle : blocksize ≤ blockoffset + (n - 1) := by
    by_contra hlt
    rw [Nat.div_eq_of_lt (Nat.not_le.mp hlt)] at hm
    omega
  have hsplit : blockoffset + (n - 1) = (n - (blocksize - blockoffset) - 1) + blocksize := by omega
  rw [hsplit, Nat.add_div_right _ hpos] at hm
  refine ⟨by omega, ?_⟩
  rw [Nat.zero_add]
  omega

theorem lastBlock_left {blocksize blockoffset n : Nat} (hblock : blockoffset < blocksize)
    (hm : (blockoffset + (n - 1)) / blocksize = 0) : n - (blocksize - blockoffset) = 0 := by
  have hlt := (Nat.div_eq_zero_iff.mp hm).resolve_left (by omega)
  omega

/-- What a loop over blocks does. If there was a new block, the tables are to be written; it stops in
front of a block that has no room. -/
structure BlocksTurned (T : Nat → Prop) (a : Area) (ks : List Nat) (s s' : VHDFile)
    (ok dwriteFooter : Bool) : Prop where
  laid : Laid a s'
  confined : Confined T s s'
  tables : ok = true → dwriteFooter = false → s'.bat = s.bat
  kept : ¬ s.Room 0 ∨ s.added ks = 0 → s'.bat = s.bat
  rooms : (∀ i < s.added ks, s.Room i) → ok = true

theorem BlockTurn.old (hbat : s.bat[k]? = some batRef) (hroom : batRef = noBlock → s.Room 0)
    {ks : List Nat} (hkept : ¬ s.Room 0 ∨ s.added (k :: ks) = 0) : batRef ≠ noBlock := by
  intro hnew
  rcases hkept with hnone | hnone
  · exact hnone (hroom hnew)
  · rw [added_cons hbat, if_pos hnew] at hnone
    omega

theorem BlockTurn.single (h : BlockTurn k batRef a s s') (hbat : s.bat[k]? = some batRef)
    (hroom : batRef = noBlock → s.Room 0) (hT : T k) (dwriteFooter : Bool) :
    BlocksTurned T a [k] s s' true (dwriteFooter || decide (batRef = noBlock)) := by
  refine ⟨h.laid, h.confined.mono (by rintro _ rfl; exact hT), ?_, ?_, fun _ => rfl⟩
  · intro _ hno
    exact h.bat (of_decide_eq_false (Bool.or_eq_false_iff.mp hno).2)
  · exact fun hkept => h.bat (BlockTurn.old hbat hroom hkept)

theorem BlockTurn.blocks (h : BlockTurn k batRef a s s') (hbat : s.bat[k]? = some batRef)
    (hroom : batRef = noBlock → s.Room 0) (hT : T k) {ks : List Nat} (hk : k ∉ ks) {s'' : VHDFile}
    {ok dwriteFooter : Bool} (h' : BlocksTurned T a ks s' s'' ok dwriteFooter)
    (htables : ok = true → dwriteFooter = false → batRef ≠ noBlock) :
    BlocksTurned T a (k :: ks) s s'' ok dwriteFooter := by
  refine ⟨h'.laid, (h.confined.mono (by rintro _ rfl; exact hT)).trans h'.confined, ?_, ?_, ?_⟩
  · intro hok hno
    exact (h'.tables hok hno).trans (h.bat (htables hok hno))
  · intro hkept
    have hold := BlockTurn.old hbat hroom hkept
    refine (h'.kept ?_).trans (h.bat hold)
    rw [h.room, if_neg hold, h.added hk]
    rw [added_cons hbat, if_neg hold] at hkept
    exact hkept
  · exact fun hrooms => h'.rooms (h.rooms hbat hk hrooms)

theorem Laid.zeroBlock (h : Laid a s) (hbat : s.bat[k]? = some batRef)
    (hroom : batRef = noBlock → s.Room 0) {blockoffset : Nat} (hblock : blockoffset < s.blocksize)
    (first : Bool) (n : Nat) :
    BlockTurn k batRef a s (((s.enter k batRef).zeroSectors (s.dataoffset batRef) blockoffset first
      n).1.storeBitmap (s.dataoffset batRef)) ∧
    ((s.enter k batRef).zeroSectors (s.dataoffset batRef) blockoffset first n).2 =
      n - (s.blocksize - blockoffset) := by
  obtain ⟨hturn, hplace⟩ := h.enter hbat hroom
  have hblocksize := hturn.confined.same.blocksize
  obtain ⟨hsectors, hleft⟩ := turned_zeroSectors hturn.laid (T := (· = k)) rfl hplace first n
    (by rw [hblocksize]; exact hblock)
  rw [hblocksize] at hleft
  refine ⟨(hturn.turned hsectors).turned ?_, hleft⟩
  exact hsectors.laid.storeBitmap rfl ((hsectors.blockAt k).trans hplace)

theorem Laid.writeBlock (h : Laid a s) (hbat : s.bat[k]? = some batRef)
    (hroom : batRef = noBlock → s.Room 0) {blockoffset : Nat} (hblock : blockoffset < s.blocksize)
    (first : Bool) (buffer : List UInt8) :
    BlockTurn k batRef a s (((s.enter k batRef).writeSectors (s.dataoffset batRef) blockoffset first
      buffer).1.storeBitmap (s.dataoffset batRef)) ∧
    ((s.enter k batRef).writeSectors (s.dataoffset batRef) blockoffset first buffer).2 =
      buffer.drop (s.blocksize - blockoffset) := by
  obtain ⟨hturn, hplace⟩ := h.enter hbat hroom
  have hblocksize := hturn.confined.same.blocksize
  obtain ⟨hsectors, hleft⟩ := turned_writeSectors hturn.laid (T := (· = k)) rfl hplace first buffer
    (by rw [hblocksize]; exact hblock)
  rw [hblocksize] at hleft
  refine ⟨(hturn.turned hsectors).turned ?_, hleft⟩
  exact hsectors.laid.storeBitmap rfl ((hsectors.blockAt k).trans hplace)

theorem Room.of_added (hbat : s.bat[k]? = some batRef) {ks : List Nat}
    (hroom : ∀ i < s.added (k :: ks), s.Room i) (hnew : batRef = noBlock) : s.Room 0 := by
  apply hroom
  rw [added_cons hbat, if_pos hnew]
  exact Nat.succ_pos _

theorem entry_of_lt (h : k < s.bat.length) : ∃ batRef, s.bat[k]? = some batRef :=
  ⟨_, List.getElem?_eq_getElem h⟩

theorem zeroBlocks_laid {blockoffset n m : Nat} (first dwriteFooter : Bool) (h : Laid a s)
    (hT : ∀ j ∈ List.range' k (m + 1), T j) (hblock : blockoffset < s.blocksize)
    (hm : (blockoffset + (n - 1)) / s.blocksize = m) (hin : k + m < s.bat.length)
    (hroom : ∀ i < s.added (List.range' k (m + 1)), s.Room i) :
    ∃ dwriteFooter' s', s.zeroBlocks k blockoffset first n dwriteFooter = some (dwriteFooter', s') ∧
      BlocksTurned T a (List.range' k (m + 1)) s s' true dwriteFooter' ∧
      (dwriteFooter' = false → dwriteFooter = false) := by
  induction m generalizing s k blockoffset n first dwriteFooter with
  | zero =>
    obtain ⟨batRef, hbat⟩ := s.entry_of_lt (k := k) (by omega)
    rw [List.range'_succ] at hT hroom ⊢
    have hroom₀ := Room.of_added hbat hroom
    obtain ⟨hturn, hleft⟩ := h.zeroBlock hbat hroom₀ hblock first n
    rw [lastBlock_left hblock hm] at hleft
    rw [zeroBlocks_eq hbat]
    dsimp only
    rw [if_pos hleft]
    exact ⟨_, _, rfl, hturn.single hbat hroom₀ (hT k (.head _)) dwriteFooter,
      fun hno => (Bool.or_eq_false_iff.mp hno).1⟩
  | succ m ih =>
    obtain ⟨batRef, hbat⟩ := s.entry_of_lt (k := k) (by omega)
    rw [List.range'_succ] at hT hroom ⊢
    have hroom₀ := Room.of_added hbat hroom
    obtain ⟨hturn, hleft⟩ := h.zeroBlock hbat hroom₀ hblock first n
    obtain ⟨hmore, hm'⟩ := nextBlock_count hblock hm
    rw [zeroBlocks_eq hbat]
    dsimp only
    rw [if_neg (by omega), if_pos (by omega), hleft]
    generalize VHDFile.storeBitmap _ _ = t at *
    have hblocksize := hturn.confined.same.blocksize
    have hnotMem := notMem_range' k (m + 1)
    obtain ⟨dwriteFooter', s', hrun, hblocks, hor⟩ := ih false
      (dwriteFooter || decide (batRef = noBlock)) hturn.laid (fun j hj => hT j (.tail _ hj))
      t.blocksize_pos (by rw [hblocksize]; exact hm')
      (by rw [hturn.confined.same.batLength]; omega) (hturn.rooms hbat hnotMem hroom)
    refine ⟨dwriteFooter', s', hrun, hturn.blocks hbat hroom₀ (hT k (.head _)) hnotMem hblocks ?_,
      fun hno => (Bool.or_eq_false_iff.mp (hor hno)).1⟩
    exact fun _ hno => of_decide_eq_false (Bool.or_eq_false_iff.mp (hor hno)).2

theorem Laid.noRoom (h : Laid a s) (hbat : s.bat[k]? = some batRef) (hnew : batRef = noBlock)
    (hfull : noBlock ≤ s.dataoffset batRef / sectorSize) (ks : List Nat) (dwriteFooter : Bool) :
    BlocksTurned T a (k :: ks) s { (if batRef = noBlock then s.allocate k else s) with bat := s.bat }
      false dwriteFooter := by
  rw [if_pos hnew]
  refine ⟨h.moveNext k, ⟨⟨rfl, rfl, rfl, rfl, rfl, rfl, rfl, rfl, rfl, rfl⟩, h.le_allocate k,
    fun _ _ hk => hk, fun _ _ => rfl, fun _ hp => absurd rfl hp, .inl rfl, Nat.le_refl _,
    fun _ hn _ _ => hn⟩, nofun, fun _ => rfl, ?_⟩
  intro hroom
  have hroom₀ := room_zero.mp (Room.of_added hbat hroom hnew)
  rw [dataoffset_of_new hnew] at hfull
  omega

theorem Room.of_fits (hfits : ¬ (batRef = noBlock ∧ noBlock ≤ s.dataoffset batRef / sectorSize))
    (hnew : batRef = noBlock) : s.Room 0 := by
  rw [room_zero, ← dataoffset_of_new hnew]
  by_contra hfull
  exact hfits ⟨hnew, Nat.not_lt.mp hfull⟩

theorem writeBlocks_laid {blockoffset m : Nat} {buffer : List UInt8} (first dwriteFooter : Bool)
    (h : Laid a s) (hT : ∀ j ∈ List.range' k (m + 1), T j) (hblock : blockoffset < s.blocksize)
    (hm : (blockoffset + (buffer.length - 1)) / s.blocksize = m) (hin : k + m < s.bat.length) :
    ∃ ok dwriteFooter' s', s.writeBlocks k blockoffset first buffer dwriteFooter =
        some (ok, dwriteFooter', s') ∧
      BlocksTurned T a (List.range' k (m + 1)) s s' ok dwriteFooter' ∧
      (dwriteFooter' = false → dwriteFooter = false) := by
  induction m generalizing s k blockoffset buffer first dwriteFooter with
  | zero =>
    obtain ⟨batRef, hbat⟩ := s.entry_of_lt (k := k) (by omega)
    rw [List.range'_succ] at hT ⊢
    rw [writeBlocks_eq hbat]
    split
    · rename_i hfull
      exact ⟨_, _, _, rfl, h.noRoom hbat hfull.1 hfull.2 _ _, id⟩
    · rename_i hfull
      have hroom₀ := Room.of_fits hfull
      obtain ⟨hturn, hleft⟩ := h.writeBlock hbat hroom₀ hblock first buffer
      have hnil : buffer.drop (s.blocksize - blockoffset) = [] := by
        have hlast := lastBlock_left hblock hm
        exact List.drop_eq_nil_of_le (by omega)
      dsimp only
      rw [if_pos (hleft.trans hnil)]
      exact ⟨_, _, _, rfl, hturn.single hbat hroom₀ (hT k (.head _)) dwriteFooter,
        fun hno => (Bool.or_eq_false_iff.mp hno).1⟩
  | succ m ih =>
    obtain ⟨batRef, hbat⟩ := s.entry_of_lt (k := k) (by omega)
    rw [List.range'_succ] at hT ⊢
    rw [writeBlocks_eq hbat]
    split
    · rename_i hfull
      exact ⟨_, _, _, rfl, h.noRoom hbat hfull.1 hfull.2 _ _, id⟩
    · rename_i hfull
      have hroom₀ := Room.of_fits hfull
      obtain ⟨hturn, hleft⟩ := h.writeBlock hbat hroom₀ hblock first buffer
      obtain ⟨hmore, hm'⟩ := nextBlock_count hblock hm
      have hlength := @List.length_drop _ (s.blocksize - blockoffset) buffer
      have hne : buffer.drop (s.blocksize - blockoffset) ≠ [] :=
        List.ne_nil_of_length_pos (by omega)
      dsimp only
      rw [hleft, if_neg hne, if_pos (by omega)]
      generalize VHDFile.storeBitmap _ _ = t at *
      have hblocksize := hturn.confined.same.blocksize
      obtain ⟨ok, dwriteFooter', s', hrun, hblocks, hor⟩ := ih false
        (dwriteFooter || decide (batRef = noBlock)) hturn.laid (fun j hj => hT j (.tail _ hj))
        t.blocksize_pos (by rw [hblocksize, hlength]; exact hm')
        (by rw [hturn.confined.same.batLength]; omega)
      refine ⟨ok, dwriteFooter', s', hrun, hturn.blocks hbat hroom₀ (hT k (.head _))
        (notMem_range' k (m + 1)) hblocks ?_, fun hno => (Bool.or_eq_false_iff.mp (hor hno)).1⟩
      exact fun _ hno => of_decide_eq_false (Bool.or_eq_false_iff.mp (hor hno)).2

end Blocks

end VHDFile

end UrBackup
