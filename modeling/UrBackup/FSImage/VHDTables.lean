import UrBackup.FSImage.VHDLayout

/-! What is written behind the blocks of a virtual hard disk: a file that can be opened again, and
what a call leaves of it. -/
namespace UrBackup

open ByteOrder

namespace VHDFile

/-- The file ends with its footer behind all blocks, and has their table. -/
structure Synced (a : Area) (s : VHDFile) (e : Nat) : Prop where
  aligned : e % sectorSize = 0
  start : a.start ≤ e
  next : e ≤ s.nextblockOffset
  ends : ∀ k o, s.blockAt k = some o → s.blockEnd o ≤ e
  size : s.file.size = e + sectorSize
  tail : s.file.bytes.read e sectorSize = s.footer
  table : 4 * s.bat.length < 2 ^ 32 →
    s.file.bytes.read s.batOffset (4 * s.bat.length) = batBytes s.bat

/-- In fast mode the file is not written to its end before it is finished. -/
def Closed (a : Area) (s : VHDFile) : Prop :=
  s.fastMode = false ∨ s.readOnly = true ∨ s.finished = true → ∃ e, Synced a s e

/-- A byte of the table. -/
def InTable (s : VHDFile) (p : Nat) : Prop :=
  s.batOffset ≤ p ∧ p < s.batOffset + 4 * s.bat.length

/-- What a call for some blocks leaves: the other blocks have their places, and what is written are
these blocks, the bitmap that was in memory, the table and what is behind all blocks. -/
structure Spares (T : Nat → Prop) (s s' : VHDFile) : Prop where
  blocksize : s'.blocksize = s.blocksize
  footer : s'.footer = s.footer
  batOffset : s'.batOffset = s.batOffset
  batLength : s'.bat.length = s.bat.length
  old : ∀ k o, s.blockAt k = some o → s'.blockAt k = some o
  others : ∀ k, ¬ T k → s'.blockAt k = s.blockAt k
  changed : ∀ p, s'.file.bytes p ≠ s.file.bytes p →
    (∃ k, T k ∧ s'.InBlockAt k p) ∨ s.InBitmap p ∨ s'.InTable p ∨ s'.nextblockOffset ≤ p

section Tables

variable {T : Nat → Prop} {a : Area} {s s' : VHDFile} {e : Nat}

@[simp] theorem batBytes_length (bat : List Nat) : (batBytes bat).length = 4 * bat.length := by
  unfold batBytes
  induction bat with
  | nil => rfl
  | cons entry bat ih =>
    rw [List.flatMap_cons, List.length_append, ih, bigEndian_length, List.length_cons]
    omega

theorem Synced.confined (h : Synced a s e) (hl : Laid a s) (hl' : Laid a s') (hc : Confined T s s')
    (hbat : s'.bat = s.bat) : Synced a s' e := by
  have hends : ∀ k o, s'.blockAt k = some o → s'.blockEnd o ≤ e := by
    intro k o hk
    rw [blockAt_congr (congrArg (·[k]?) hbat)] at hk
    rw [hc.same.blockEnd]
    exact h.ends k o hk
  have hle : s'.file.size ≤ e + sectorSize := by
    refine hc.ends _ (Nat.le_of_eq h.size) ?_ ?_
    · exact fun k o hk => Nat.le_trans (hends k o hk) (Nat.le_add_right _ _)
    · exact fun hne => Nat.le_trans (hl.cached_le h.ends hne) (Nat.le_add_right _ _)
  refine ⟨h.aligned, h.start, Nat.le_trans h.next hc.next, hends, ?_, ?_, ?_⟩
  · have hgrows := hc.grows
    have hsize := h.size
    omega
  · rw [hc.same.footer, ← h.tail]
    apply ByteStore.read_congr
    intro p hp _
    exact hc.outside hl hl' (.inr fun k o hk => Nat.le_trans (hends k o hk) hp)
  · rw [hbat, hc.same.batOffset]
    intro hsmall
    rw [← h.table hsmall]
    apply ByteStore.read_congr
    intro p _ hp
    have htable := hl.table
    exact hc.outside hl hl' (.inl (by omega))

theorem Laid.writeFooter_eq (h : Laid a s) :
    s.writeFooter = s.writeFile s.nextblockOffset s.footer ∧
      (s.writeFile s.nextblockOffset s.footer).file.size = s.nextblockOffset + sectorSize := by
  have hne : s.footer ≠ [] := by
    intro hnil
    have hlength := h.footer
    rw [hnil] at hlength
    cases hlength
  have hge := StoredFile.le_size_write s.file s.nextblockOffset hne
  have hle : (s.file.write s.nextblockOffset s.footer).size ≤ s.nextblockOffset + sectorSize :=
    size_write_le h.size (Nat.le_of_eq (by rw [h.footer]))
  have hsize : (s.writeFile s.nextblockOffset s.footer).file.size =
      s.nextblockOffset + sectorSize := by
    rw [h.footer] at hge
    exact Nat.le_antisymm hle hge
  refine ⟨?_, hsize⟩
  unfold writeFooter
  dsimp only
  rw [if_neg]
  rintro ⟨-, hother⟩
  exact hother (hsize.trans (congrArg (s.nextblockOffset + ·) h.footer.symm))

theorem Laid.moved (h : Laid a s) (hblocksize : s'.blocksize = s.blocksize)
    (hfooter : s'.footer = s.footer) (hbatOffset : s'.batOffset = s.batOffset)
    (hbat : s'.bat = s.bat) (haligned : s'.nextblockOffset % sectorSize = 0)
    (hstart : a.start ≤ s'.nextblockOffset)
    (hends : ∀ k o, s.blockAt k = some o → s.blockEnd o ≤ s'.nextblockOffset)
    (hsize : s'.file.size ≤ s'.nextblockOffset + sectorSize)
    (hbelow : ∀ p < a.start, ¬ s.InTable p → s'.file.bytes p = s.file.bytes p)
    (hcached : s'.bitmapOffset = s.bitmapOffset ∨ s'.bitmapOffset = 0) : Laid a s' := by
  have hplace : ∀ k, s'.blockAt k = s.blockAt k := fun k => blockAt_congr (congrArg (·[k]?) hbat)
  have hbitmapSize := bitmapSize_congr hblocksize
  have hend : ∀ o, s'.blockEnd o = s.blockEnd o := by
    intro o
    unfold blockEnd
    rw [hbitmapSize, hblocksize]
  refine ⟨?_, ?_, ?_, ?_, ?_, hstart, haligned, ?_, hsize, ?_, ?_⟩
  · rw [hbitmapSize, hblocksize]
    exact h.blockFits
  · rw [hbat]
    exact h.entries
  · intro k o hk
    rw [hplace] at hk
    rw [hend]
    exact ⟨(h.room k o hk).1, hends k o hk⟩
  · intro k k' o o' hne hk hk'
    rw [hplace] at hk hk'
    rw [hend, hend]
    exact h.apart k k' o o' hne hk hk'
  · rw [hbatOffset, hbat]
    exact h.table
  · rw [hfooter]
    exact h.footer
  · rw [hbatOffset, hbat]
    intro p hp hout
    rw [← h.below p hp hout]
    refine hbelow p hp ?_
    rintro ⟨hle, hlt⟩
    omega
  · rcases hcached with hsame | hzero
    · rw [hsame]
      exact h.cached.imp id fun ⟨k, hk⟩ => ⟨k, (hplace k).trans hk⟩
    · exact .inl hzero

theorem Laid.tables_eq (h : Laid a s) : s.writeFooter.writeBat =
    (decide (4 * s.bat.length < 2 ^ 32), { s with
      file := (s.file.write s.nextblockOffset s.footer).write s.batOffset
        ((batBytes s.bat).take (4 * s.bat.length % 2 ^ 32)) }) := by
  rw [h.writeFooter_eq.1]
  rfl

theorem takeBat_length (bat : List Nat) :
    ((batBytes bat).take (4 * bat.length % 2 ^ 32)).length ≤ 4 * bat.length := by
  rw [List.length_take, batBytes_length]
  exact Nat.min_le_right _ _

theorem takeBat {bat : List Nat} (h : 4 * bat.length < 2 ^ 32) :
    (batBytes bat).take (4 * bat.length % 2 ^ 32) = batBytes bat := by
  rw [Nat.mod_eq_of_lt h]
  exact List.take_of_length_le (Nat.le_of_eq (batBytes_length _))

theorem Laid.writeTables (h : Laid a s) {s' : VHDFile} (hs' : s.writeFooter.writeBat.2 = s') :
    Laid a s' ∧ Synced a s' s.nextblockOffset ∧ Same s s' ∧ s'.bat = s.bat ∧
    s'.nextblockOffset = s.nextblockOffset ∧
    ∀ p, s'.file.bytes p ≠ s.file.bytes p → s.InTable p ∨ s.nextblockOffset ≤ p := by
  rw [h.tables_eq] at hs'
  subst hs'
  have htable := h.table
  have hstart := h.next
  have htake := takeBat_length s.bat
  have hends := fun k o hk => (h.room k o hk).2
  have hbytes : ∀ p, ((s.file.write s.nextblockOffset s.footer).write s.batOffset
      ((batBytes s.bat).take (4 * s.bat.length % 2 ^ 32))).bytes p ≠ s.file.bytes p →
      s.InTable p ∨ s.nextblockOffset ≤ p := by
    intro p hp
    by_contra hout
    unfold InTable at hout
    exact hp ((ByteStore.write_of_not_mem (by omega)).trans (ByteStore.write_of_lt (by omega)))
  have hsize : ((s.file.write s.nextblockOffset s.footer).write s.batOffset
      ((batBytes s.bat).take (4 * s.bat.length % 2 ^ 32))).size = s.nextblockOffset + sectorSize := by
    have hsize := h.writeFooter_eq.2
    refine Nat.le_antisymm (size_write_le (Nat.le_of_eq hsize) (by omega)) ?_
    exact Nat.le_trans (Nat.le_of_eq hsize.symm) (StoredFile.size_le_write _ _ _)
  refine ⟨h.moved rfl rfl rfl rfl h.aligned hstart hends (Nat.le_of_eq hsize) ?_ (.inl rfl),
    ⟨h.aligned, hstart, Nat.le_refl _, hends, hsize, ?_, ?_⟩,
    ⟨rfl, rfl, rfl, rfl, rfl, rfl, rfl, rfl, rfl, rfl⟩, rfl, rfl, hbytes⟩
  · intro p hp hout
    by_contra hne
    rcases hbytes p hne with hin | hle
    · exact hout hin
    · omega
  · refine (ByteStore.read_write_of_disjoint (by omega)).trans ?_
    rw [← h.footer]
    exact ByteStore.read_write _ _ _
  · intro hsmall
    rw [takeBat hsmall, ← batBytes_length]
    exact ByteStore.read_write _ _ _

theorem Confined.spares (h : Confined T s s') : Spares T s s' :=
  ⟨h.same.blocksize, h.same.footer, h.same.batOffset, h.same.batLength, h.old,
    fun k hk => blockAt_congr (h.others k hk), fun p hp => (h.changed p hp).imp id .inl⟩

theorem Spares.tables {s'' : VHDFile} (h : Spares T s s') (hsame : Same s' s'')
    (hbat : s''.bat = s'.bat) (hnext : s''.nextblockOffset = s'.nextblockOffset)
    (hbytes : ∀ p, s''.file.bytes p ≠ s'.file.bytes p → s'.InTable p ∨ s'.nextblockOffset ≤ p) :
    Spares T s s'' := by
  have hplace : ∀ k, s''.blockAt k = s'.blockAt k := fun k => blockAt_congr (congrArg (·[k]?) hbat)
  have htable : ∀ p, s''.InTable p ↔ s'.InTable p := by
    intro p
    unfold InTable
    rw [hsame.batOffset, hbat]
  have hblock : ∀ k p, s''.InBlockAt k p ↔ s'.InBlockAt k p := by
    intro k p
    unfold InBlockAt
    simp only [hplace, hsame.blockEnd]
  refine ⟨hsame.blocksize.trans h.blocksize, hsame.footer.trans h.footer,
    hsame.batOffset.trans h.batOffset, hsame.batLength.trans h.batLength,
    fun k o hk => (hplace k).trans (h.old k o hk), fun k hk => (hplace k).trans (h.others k hk), ?_⟩
  intro p hp
  simp only [htable, hblock, hnext]
  by_cases hfirst : s'.file.bytes p = s.file.bytes p
  · rw [← hfirst] at hp
    exact .inr (.inr (hbytes p hp))
  · exact h.changed p hfirst

theorem Spares.seek (h : Spares T s s') (offset : Nat) : Spares T s (s'.seek offset) :=
  ⟨h.blocksize, h.footer, h.batOffset, h.batLength, h.old, h.others, h.changed⟩

theorem Spares.of_seek {offset : Nat} (h : Spares T (s.seek offset) s') : Spares T s s' :=
  ⟨h.blocksize, h.footer, h.batOffset, h.batLength, h.old, h.others, h.changed⟩

theorem Spares.finished (h : Spares T s s') (finished : Bool) : Spares T s { s' with finished } :=
  ⟨h.blocksize, h.footer, h.batOffset, h.batLength, h.old, h.others, h.changed⟩

/-- A file that can be written to. -/
structure Tidy (a : Area) (s : VHDFile) : Prop where
  laid : Laid a s
  closed : Closed a s

/-- The state does not depend on where it is read or written next. -/
theorem Tidy.seek (h : Tidy a s) (offset : Nat) : Tidy a (s.seek offset) := by
  have hl := h.laid
  refine ⟨⟨hl.blockFits, hl.entries, hl.room, hl.apart, hl.table, hl.next, hl.aligned, hl.footer,
    hl.size, hl.below, hl.cached⟩, ?_⟩
  intro hclosed
  obtain ⟨e, he⟩ := h.closed hclosed
  exact ⟨e, he.aligned, he.start, he.next, he.ends, he.size, he.tail, he.table⟩

theorem Tidy.confined (h : Tidy a s) (hl : Laid a s') (hc : Confined T s s') (hbat : s'.bat = s.bat) :
    Tidy a s' := by
  refine ⟨hl, ?_⟩
  unfold Closed
  rw [hc.same.fastMode, hc.same.readOnly, hc.same.finished]
  intro hclosed
  obtain ⟨e, he⟩ := h.closed hclosed
  exact ⟨e, he.confined h.laid hl hc hbat⟩

theorem tidy_open (hl : Laid a s) (hw : s.readOnly = false) (hfast : s.fastMode = true)
    (hopen : s.finished = false) : Tidy a s := by
  refine ⟨hl, ?_⟩
  rintro (hslow | hro | hfin)
  · rw [hfast] at hslow
    cases hslow
  · rw [hw] at hro
    cases hro
  · rw [hopen] at hfin
    cases hfin

variable {ks : List Nat} {ok dwriteFooter : Bool}

theorem Tidy.fastBlocks (h : Tidy a s) (hw : s.readOnly = false) (hfast : s.fastMode = true)
    (hb : BlocksTurned T a ks s s' ok dwriteFooter)
    (hfin : s.finished = true → s.added ks = 0) : Tidy a s' := by
  by_cases hfinished : s.finished = true
  · exact h.confined hb.laid hb.confined (hb.kept (.inr (hfin hfinished)))
  · have hsame := hb.confined.same
    exact tidy_open hb.laid (hsame.readOnly.trans hw) (hsame.fastMode.trans hfast)
      (hsame.finished.trans (Bool.eq_false_iff.mpr hfinished))

theorem Tidy.blocks (h : Tidy a s) (hw : s.readOnly = false)
    (hb : BlocksTurned T a ks s s' ok dwriteFooter)
    (hfin : s.fastMode = true → s.finished = true → s.added ks = 0)
    (hrooms : s.fastMode = true ∨ (s.Room 0 → ∀ i < s.added ks, s.Room i)) :
    (ok = false → Tidy a s' ∧ Spares T s s') ∧
      (ok = true → Tidy a (s'.writeTables dwriteFooter).2 ∧
        Spares T s (s'.writeTables dwriteFooter).2 ∧
        (s'.writeTables dwriteFooter).2.currOffset = s.currOffset) := by
  have hsame := hb.confined.same
  have hspares := hb.confined.spares
  constructor
  · intro hbad
    refine ⟨?_, hspares⟩
    by_cases hfast : s.fastMode = true
    · exact h.fastBlocks hw hfast hb (hfin hfast)
    · have hnone : ¬ s.Room 0 := by
        intro hroom
        rw [hb.rooms (hrooms.resolve_left hfast hroom)] at hbad
        cases hbad
      exact h.confined hb.laid hb.confined (hb.kept (.inl hnone))
  · intro hok
    unfold writeTables
    by_cases hfast : s.fastMode = true
    · rw [if_neg (fun hslow => hslow.2 (hsame.fastMode.trans hfast))]
      exact ⟨h.fastBlocks hw hfast hb (hfin hfast), hspares, hsame.currOffset⟩
    · split
      · obtain ⟨hlaid, hsynced, hsame', hbat, hnext, hbytes⟩ := hb.laid.writeTables rfl
        exact ⟨⟨hlaid, fun _ => ⟨_, hsynced⟩⟩, hspares.tables hsame' hbat hnext hbytes,
          hsame'.currOffset.trans hsame.currOffset⟩
      · rename_i hno
        have hdw : dwriteFooter = false := by
          by_contra hdw
          refine hno ⟨by simpa using hdw, ?_⟩
          rw [hsame.fastMode]
          exact hfast
        exact ⟨h.confined hb.laid hb.confined (hb.tables hok hdw), hspares, hsame.currOffset⟩

end Tables

/-- The blocks that have `n` bytes from a position on. -/
def blocksOf (s : VHDFile) (pos n : Nat) : List Nat :=
  List.range' (pos / s.blocksize) ((pos % s.blocksize + (n - 1)) / s.blocksize + 1)

/-- The blocks of a call are in the table, and none is added to a file that was finished before its
end was written. -/
def InReach (s : VHDFile) (pos n : Nat) : Prop :=
  (∀ k ∈ s.blocksOf pos n, k < s.bat.length) ∧
    (s.fastMode = true → s.finished = true → s.added (s.blocksOf pos n) = 0)

/-- A write that does not add a block and then come to one that has no room. In fast mode it can. -/
def WriteFits (s : VHDFile) (pos n : Nat) : Prop :=
  s.InReach pos n ∧
    (s.fastMode = true ∨ (s.Room 0 → ∀ i < s.added (s.blocksOf pos n), s.Room i))

/-- All blocks that are added have room. -/
def UnusedFits (s : VHDFile) (pos n : Nat) : Prop :=
  s.InReach pos n ∧ ∀ i < s.added (s.blocksOf pos n), s.Room i

/-- The number of bytes that `setUnused` begins with; it has 64 bits. -/
def unusedSize (unusedStart unusedEnd : Nat) : Nat :=
  if unusedEnd < unusedStart then 2 ^ 64 - (unusedStart - unusedEnd) else unusedEnd - unusedStart

section Calls

variable {T : Nat → Prop} {a : Area} {s s' : VHDFile} {e : Nat}

theorem InReach.last {pos n : Nat} (h : s.InReach pos n) :
    pos / s.blocksize + (pos % s.blocksize + (n - 1)) / s.blocksize < s.bat.length :=
  h.1 _ (List.mem_range'_1.mpr ⟨Nat.le_add_right _ _, Nat.lt_succ_self _⟩)

theorem Write_of_blocks {buffer : List UInt8} {ok dwriteFooter : Bool}
    (hrefused : ¬ (s.readOnly = true ∨ s.dstsize < buffer.length + s.currOffset))
    (hrun : s.writeBlocks (s.currOffset / s.blocksize) (s.currOffset % s.blocksize) true buffer
      false = some (ok, dwriteFooter, s')) :
    s.Write buffer = if ok = false then some (false, s') else
      some ((s'.writeTables dwriteFooter).1, if (s'.writeTables dwriteFooter).1 then
        (s'.writeTables dwriteFooter).2.seek
          ((s'.writeTables dwriteFooter).2.currOffset + buffer.length)
        else (s'.writeTables dwriteFooter).2) := by
  unfold VHDFile.Write
  rw [if_neg hrefused, hrun]
  cases ok <;> rfl

theorem Tidy.write (h : Tidy a s) (buffer : List UInt8)
    (hfits : s.readOnly = true ∨ s.dstsize < buffer.length + s.currOffset ∨
      s.WriteFits s.currOffset buffer.length) :
    ∃ ok s', s.Write buffer = some (ok, s') ∧ Tidy a s' ∧
      Spares (· ∈ s.blocksOf s.currOffset buffer.length) s s' := by
  by_cases hrefused : s.readOnly = true ∨ s.dstsize < buffer.length + s.currOffset
  · refine ⟨false, s, ?_, h, (Confined.refl _ s).spares⟩
    unfold VHDFile.Write
    rw [if_pos hrefused]
  · obtain ⟨hreach, hrooms⟩ : s.WriteFits s.currOffset buffer.length := by
      rcases hfits with hro | hbehind | hfits
      · exact absurd (.inl hro) hrefused
      · exact absurd (.inr hbehind) hrefused
      · exact hfits
    obtain ⟨ok, dwriteFooter, s', hrun, hblocks, -⟩ :=
      writeBlocks_laid (T := (· ∈ s.blocksOf s.currOffset buffer.length)) true false h.laid
        (fun _ hj => hj) (Nat.mod_lt _ s.blocksize_pos) rfl hreach.last
    obtain ⟨hbad, hgood⟩ :=
      h.blocks (Bool.eq_false_iff.mpr fun hro => hrefused (.inl hro)) hblocks hreach.2 hrooms
    rw [Write_of_blocks hrefused hrun]
    cases ok with
    | false =>
      obtain ⟨htidy, hspares⟩ := hbad rfl
      exact ⟨_, _, rfl, htidy, hspares⟩
    | true =>
      obtain ⟨htidy, hspares, -⟩ := hgood rfl
      rw [if_neg (by decide)]
      split
      · exact ⟨_, _, rfl, htidy.seek _, hspares.seek _⟩
      · exact ⟨_, _, rfl, htidy, hspares⟩

theorem setUnused_of_blocks {unusedStart unusedEnd : Nat} {dwriteFooter : Bool}
    (hrefused : ¬ (s.readOnly = true ∨ s.dstsize < unusedEnd))
    (hrun : (s.seek unusedStart).zeroBlocks (unusedStart / s.blocksize) (unusedStart % s.blocksize)
      true (unusedSize unusedStart unusedEnd) false = some (dwriteFooter, s')) :
    s.setUnused unusedStart unusedEnd = some (s'.writeTables dwriteFooter) := by
  have hrefused' : ¬ ((s.seek unusedStart).readOnly = true ∨
    (s.seek unusedStart).dstsize < unusedEnd) := hrefused
  have hrun' : (s.seek unusedStart).zeroBlocks
      ((s.seek unusedStart).currOffset / (s.seek unusedStart).blocksize)
      ((s.seek unusedStart).currOffset % (s.seek unusedStart).blocksize) true
      (if unusedEnd < unusedStart then 2 ^ 64 - (unusedStart - unusedEnd)
        else unusedEnd - unusedStart) false = some (dwriteFooter, s') := hrun
  unfold VHDFile.setUnused
  dsimp only
  rw [if_neg hrefused', hrun']

theorem Tidy.setUnused (h : Tidy a s) (unusedStart unusedEnd : Nat)
    (hfits : s.readOnly = true ∨ s.dstsize < unusedEnd ∨
      s.UnusedFits unusedStart (unusedSize unusedStart unusedEnd)) :
    ∃ ok s', s.setUnused unusedStart unusedEnd = some (ok, s') ∧ Tidy a s' ∧
      Spares (· ∈ s.blocksOf unusedStart (unusedSize unusedStart unusedEnd)) s s' := by
  have hseek := h.seek unusedStart
  by_cases hrefused : s.readOnly = true ∨ s.dstsize < unusedEnd
  · refine ⟨false, s.seek unusedStart, ?_, hseek, (Confined.refl _ s).spares.seek _⟩
    have hrefused' : (s.seek unusedStart).readOnly = true ∨
      (s.seek unusedStart).dstsize < unusedEnd := hrefused
    unfold VHDFile.setUnused
    dsimp only
    rw [if_pos hrefused']
  · obtain ⟨hreach, hrooms⟩ : s.UnusedFits unusedStart (unusedSize unusedStart unusedEnd) := by
      rcases hfits with hro | hbehind | hfits
      · exact absurd (.inl hro) hrefused
      · exact absurd (.inr hbehind) hrefused
      · exact hfits
    obtain ⟨dwriteFooter, s', hrun, hblocks, -⟩ := zeroBlocks_laid (s := s.seek unusedStart)
      (T := (· ∈ s.blocksOf unusedStart (unusedSize unusedStart unusedEnd))) true false hseek.laid
      (fun _ hj => hj) (Nat.mod_lt _ s.blocksize_pos) rfl hreach.last hrooms
    obtain ⟨-, hgood⟩ := hseek.blocks (Bool.eq_false_iff.mpr fun hro => hrefused (.inl hro)) hblocks
      hreach.2 (.inr fun _ => hrooms)
    obtain ⟨htidy, hspares, -⟩ := hgood rfl
    exact ⟨_, _, setUnused_of_blocks hrefused hrun, htidy, hspares.of_seek⟩

theorem Synced.finished (h : Synced a s e) (finished : Bool) : Synced a { s with finished } e :=
  ⟨h.aligned, h.start, h.next, h.ends, h.size, h.tail, h.table⟩

theorem Laid.finished (h : Laid a s) (finished : Bool) : Laid a { s with finished } :=
  ⟨h.blockFits, h.entries, h.room, h.apart, h.table, h.next, h.aligned, h.footer, h.size, h.below,
    h.cached⟩

/-- What a file that is finished has. -/
structure Finished (a : Area) (s s' : VHDFile) : Prop where
  laid : Laid a s'
  synced : ∃ e, Synced a s' e
  spares : Spares (fun _ => False) s s'
  bat : s'.bat = s.bat

theorem Finished.withFinished (h : Finished a s s') (finished : Bool) :
    Finished a s { s' with finished } := by
  obtain ⟨e, he⟩ := h.synced
  exact ⟨h.laid.finished _, ⟨e, he.finished _⟩, h.spares.finished _, h.bat⟩

theorem Tidy.finish (h : Tidy a s) : Finished a s s.finish.2 := by
  unfold VHDFile.finish
  split
  · rename_i hfinished
    exact ⟨h.laid, h.closed (.inr (.inr hfinished)), (Confined.refl _ s).spares, rfl⟩
  · obtain ⟨hlaid, hc⟩ := h.laid.switchBitmap (T := fun _ => False) (o := 0) (.inl rfl)
    have hbat : (s.switchBitmap 0).bat = s.bat := s.flush_bat
    have hsame := hc.same
    dsimp only
    by_cases hfast : (s.switchBitmap 0).fastMode = true ∧ ¬ (s.switchBitmap 0).readOnly = true
    · rw [if_pos hfast]
      obtain ⟨hlaid', hsynced, hsame', hbat', hnext, hbytes⟩ := hlaid.writeTables rfl
      have hfinished : Finished a s (s.switchBitmap 0).writeFooter.writeBat.2 :=
        ⟨hlaid', ⟨_, hsynced⟩, hc.spares.tables hsame' hbat' hnext hbytes, hbat'.trans hbat⟩
      split
      · exact hfinished.withFinished true
      · exact hfinished
    · rw [if_neg hfast, if_pos rfl]
      refine Finished.withFinished ⟨hlaid, ?_, hc.spares, hbat⟩ true
      have hclosed : s.fastMode = false ∨ s.readOnly = true := by
        rw [hsame.fastMode, hsame.readOnly] at hfast
        by_contra hopen
        rw [not_or, Bool.not_eq_false] at hopen
        exact hfast hopen
      obtain ⟨e, he⟩ := h.closed (hclosed.imp id .inl)
      exact ⟨e, he.confined h.laid hlaid hc hbat⟩

end Calls

end VHDFile

end UrBackup
