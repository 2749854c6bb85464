import UrBackup.FSImage.CowFile
import UrBackup.Lib.Run

/-! Which bytes of the file lie in blocks whose bit is set, over all writes and all ranges that are
given back. -/
namespace UrBackup

namespace CowFile

variable {f : CowFile} {offset start stop i j n : Nat} {v : Bool}

section Bits

/-- The bitmap has a bit for every block. -/
def Fits (f : CowFile) : Prop := f.filesize ≤ 8 * f.bitmap.length * blocksize

theorem bits_set {b : UInt8} (h : i < f.bitmap.length) :
    bits { f with bitmap := f.bitmap.set i b } = f.bits.write i [b] := by
  ext j
  by_cases hij : i = j
  · subst hij
    rw [ByteStore.write_of_mem (Nat.le_refl _) (by simp)]
    simp [bits, h]
  · rw [ByteStore.write_of_not_mem (by rw [List.length_singleton]; omega)]
    simp [bits, hij]

@[simp] theorem setBitmapBit_length :
    (f.setBitmapBit offset v).bitmap.length = f.bitmap.length := List.length_set

theorem bit_setBitmapBit (h : offset / blocksize < 8 * f.bitmap.length) :
    (f.setBitmapBit offset v).bits.bit j =
      if offset / blocksize = j then v else f.bits.bit j := by
  have hbyte : offset / blocksize / 8 < f.bitmap.length := by omega
  cases v with
  | true =>
    have hbits : (f.setBitmapBit offset true).bits = f.bits.setBit (offset / blocksize) :=
      bits_set hbyte
    rw [hbits, ByteStore.bit_setBit]
    by_cases hj : offset / blocksize = j <;> simp [hj]
  | false =>
    have hbits : (f.setBitmapBit offset false).bits = f.bits.clearBit (offset / blocksize) :=
      bits_set hbyte
    rw [hbits, ByteStore.bit_clearBit]
    by_cases hj : offset / blocksize = j <;> simp [hj]

/-- The bits of a range of blocks are set or cleared. Induction on the blocks. -/
theorem foldl_setBitmapBit (blocks : List Nat) (hblocks : ∀ b ∈ blocks, b < 8 * f.bitmap.length) :
    ∀ f', f' = blocks.foldl (fun f block => f.setBitmapBit (block * blocksize) v) f →
      f'.filesize = f.filesize ∧ f'.currOffset = f.currOffset ∧
        f'.bitmap.length = f.bitmap.length ∧
          ∀ j, f'.bits.bit j = if j ∈ blocks then v else f.bits.bit j := by
  induction blocks generalizing f with
  | nil =>
    rintro f' rfl
    exact ⟨rfl, rfl, rfl, fun j => rfl⟩
  | cons block blocks ih =>
    rintro f' rfl
    have hdiv : block * blocksize / blocksize = block := Nat.mul_div_cancel _ (by decide)
    have hrest := @ih (f.setBitmapBit (block * blocksize) v)
      (fun b hb => by
        rw [setBitmapBit_length]
        exact hblocks b (List.mem_cons_of_mem _ hb)) _ rfl
    obtain ⟨hsize, hoffset, hlength, hbits⟩ := hrest
    refine ⟨hsize, hoffset, hlength.trans setBitmapBit_length, ?_⟩
    intro j
    refine (hbits j).trans ?_
    rw [bit_setBitmapBit (by rw [hdiv]; exact hblocks block List.mem_cons_self), hdiv]
    by_cases hj : j ∈ blocks
    · simp [hj]
    · by_cases heq : block = j
      · simp [heq]
      · have hne : j ≠ block := fun h => heq h.symm
        simp [hj, heq, hne]

theorem setBitmapRange_spec (hstop : stop / blocksize ≤ 8 * f.bitmap.length) :
    (f.setBitmapRange start stop v).filesize = f.filesize ∧
      (f.setBitmapRange start stop v).currOffset = f.currOffset ∧
        (f.setBitmapRange start stop v).bitmap.length = f.bitmap.length ∧
          ∀ offset, (f.setBitmapRange start stop v).isBitmapSet offset =
            if start / blocksize ≤ offset / blocksize ∧ offset / blocksize < stop / blocksize then v
            else f.isBitmapSet offset := by
  obtain ⟨hsize, hoffset, hlength, hbits⟩ := @foldl_setBitmapBit f v
    (List.range' (start / blocksize) (stop / blocksize - start / blocksize)) (by
      intro b hb
      have := List.mem_range'_1.mp hb
      omega) _ rfl
  refine ⟨hsize, hoffset, hlength, ?_⟩
  intro offset
  refine (hbits _).trans ?_
  have hmem : offset / blocksize ∈ List.range' (start / blocksize)
      (stop / blocksize - start / blocksize) ↔
        start / blocksize ≤ offset / blocksize ∧ offset / blocksize < stop / blocksize := by
    rw [List.mem_range'_1]
    omega
  simp only [hmem]
  rfl

theorem nBits_spec (filesize : Nat) : filesize ≤ 8 * nBits filesize * blocksize := by
  unfold nBits nBlocks blocksize
  split <;> split <;> omega

theorem resizeBitmap_spec (f : CowFile) : f.resizeBitmap.Fits ∧
    f.resizeBitmap.filesize = f.filesize ∧ f.resizeBitmap.currOffset = f.currOffset ∧
      f.resizeBitmap.bits = f.bits := by
  unfold resizeBitmap
  split
  · refine ⟨?_, rfl, rfl, ?_⟩
    · have hbits := nBits_spec f.filesize
      unfold Fits
      rw [List.length_append, List.length_replicate]
      rwa [Nat.add_sub_cancel' (by omega)]
    · ext i
      unfold bits
      simp only [List.getD_eq_getElem?_getD, List.getElem?_append]
      split
      · rfl
      · rename_i hlong
        rw [List.getElem?_eq_none (Nat.not_lt.mp hlong)]
        simp [List.getElem?_replicate]
        split <;> rfl
  · rename_i hlong
    refine ⟨(nBits_spec f.filesize).trans ?_, rfl, rfl, rfl⟩
    exact Nat.mul_le_mul_right _ (Nat.mul_le_mul_left _ (Nat.not_lt.mp hlong))

theorem Fits.div_le (hfits : f.Fits) (h : offset ≤ f.filesize) :
    offset / blocksize ≤ 8 * f.bitmap.length := by
  have hle := Nat.div_le_div_right (c := blocksize) (h.trans hfits)
  rwa [Nat.mul_div_cancel _ (by decide)] at hle

/-- What a write of some bytes does to the file. -/
structure Wrote (f : CowFile) (n : Nat) (f' : CowFile) : Prop where
  fits : f'.Fits
  grows : f.filesize ≤ f'.filesize
  inside : 0 < n → f.currOffset + n ≤ f'.filesize
  offset : f'.currOffset = f.currOffset + n
  sets : ∀ offset, f'.isBitmapSet offset = true ↔ f.isBitmapSet offset = true ∨
    f.currOffset / blocksize ≤ offset / blocksize ∧
      offset / blocksize < (f.currOffset + n) / blocksize

theorem wrote_nothing (hfits : f.Fits) : Wrote f 0 f where
  fits := hfits
  grows := Nat.le_refl _
  inside := nofun
  offset := rfl
  sets := by
    intro offset
    rw [Nat.add_zero]
    refine ⟨.inl, fun h => h.elim id ?_⟩
    rintro ⟨hge, hlt⟩
    omega

theorem write_spec (hfits : f.Fits) (w : Option Nat) :
    (f.write w).1 = w.getD 0 ∧ Wrote f (w.getD 0) (f.write w).2 := by
  cases w with
  | none => exact ⟨rfl, wrote_nothing hfits⟩
  | some w =>
    refine ⟨rfl, ?_⟩
    -- the bitmap grows with the file before its bits are set
    obtain ⟨g, hg, hgfits, hgsize, hgset⟩ : ∃ g, (if f.filesize < f.currOffset + w then
        resizeBitmap { f with filesize := f.currOffset + w } else f) = g ∧ g.Fits ∧
        g.filesize = max f.filesize (f.currOffset + w) ∧ g.isBitmapSet = f.isBitmapSet := by
      refine ⟨_, rfl, ?_⟩
      split
      · rename_i hlt
        obtain ⟨hfits', hsize, -, hbits⟩ :=
          resizeBitmap_spec { f with filesize := f.currOffset + w }
        refine ⟨hfits', by rw [hsize, Nat.max_eq_right hlt.le], ?_⟩
        ext offset
        unfold isBitmapSet
        rw [hbits]
        rfl
      · rename_i hge
        exact ⟨hfits, by rw [Nat.max_eq_left (Nat.not_lt.mp hge)], rfl⟩
    have hend : f.currOffset + w ≤ g.filesize := hgsize ▸ Nat.le_max_right _ _
    obtain ⟨hsize, -, hlength, hset⟩ :=
      @setBitmapRange_spec g f.currOffset (f.currOffset + w) true (hgfits.div_le hend)
    have heq : (f.write (some w)).2 =
        { g.setBitmapRange f.currOffset (f.currOffset + w) true with
          currOffset := f.currOffset + w } := by
      subst hg
      rfl
    rw [heq]
    refine ⟨?_, ?_, fun _ => hend.trans hsize.ge, rfl, ?_⟩
    · show (g.setBitmapRange _ _ _).filesize ≤ _
      rw [hsize, hlength]
      exact hgfits
    · show _ ≤ (g.setBitmapRange _ _ _).filesize
      rw [hsize, hgsize]
      exact Nat.le_max_left _ _
    · intro offset
      have hbit := hset offset
      rw [hgset] at hbit
      show (g.setBitmapRange _ _ _).isBitmapSet offset = true ↔ _
      rw [hbit, Option.getD_some]
      split
      · rename_i hin
        exact ⟨fun _ => .inr hin, fun _ => rfl⟩
      · rename_i hout
        exact ⟨.inl, fun h => h.elim id fun hin => absurd hin hout⟩

/-- Zeros set the bits of whole blocks of their range at most. -/
structure Zeroed (f : CowFile) (size : Nat) (f' : CowFile) : Prop where
  fits : f'.Fits
  grows : f.filesize ≤ f'.filesize
  keeps : ∀ offset, f.isBitmapSet offset = true → f'.isBitmapSet offset = true
  within : ∀ offset, f'.isBitmapSet offset = true → f.isBitmapSet offset = true ∨
    f.currOffset / blocksize ≤ offset / blocksize ∧
      offset / blocksize < (f.currOffset + size) / blocksize

theorem Wrote.zeroed {f' : CowFile} {size : Nat} (h : Wrote f n f') (hn : n ≤ size) :
    Zeroed f size f' where
  fits := h.fits
  grows := h.grows
  keeps := fun offset hset => (h.sets offset).mpr (.inl hset)
  within := by
    intro offset hset
    refine ((h.sets offset).mp hset).imp id fun hin => ⟨hin.1, hin.2.trans_le ?_⟩
    exact Nat.div_le_div_right (Nat.add_le_add_left hn _)

/-- Induction on the system calls. -/
theorem writeZeros_spec {size written : Nat} {results : List (Option Nat)} (hfits : f.Fits)
    {ok : Bool} {f' : CowFile} (h : writeZeros size written results f = some (ok, f')) :
    Zeroed f (size - written) f' := by
  induction results generalizing f written with
  | nil =>
    rw [writeZeros] at h
    split at h
    · cases h
    · cases h
      exact (wrote_nothing hfits).zeroed (Nat.zero_le _)
  | cons w results ih =>
    rw [writeZeros] at h
    split at h
    · dsimp only at h
      split at h
      · rename_i hle
        obtain ⟨hn, hwrote⟩ := write_spec hfits w
        have hsize : w.getD 0 ≤ size - written := hle.trans (Nat.min_le_left _ _)
        split at h
        · cases h
          exact hwrote.zeroed hsize
        · rename_i hfull
          rw [not_not, hn] at hfull
          have hrest := ih hwrote.fits h
          have hfirst := hwrote.zeroed hsize
          refine ⟨hrest.fits, hfirst.grows.trans hrest.grows,
            fun offset hset => hrest.keeps offset (hfirst.keeps offset hset), ?_⟩
          intro offset hset
          cases hrest.within offset hset with
          | inl hbefore => exact hfirst.within offset hbefore
          | inr hin =>
            rw [hwrote.offset] at hin
            refine .inr ⟨(Nat.div_le_div_right (Nat.le_add_right _ _)).trans hin.1, ?_⟩
            convert hin.2 using 2
            omega
      · cases h
    · cases h
      exact (wrote_nothing hfits).zeroed (Nat.zero_le _)

end Bits

theorem clip_le (h : start < f.filesize) :
    f.clip start stop ≤ f.filesize ∧ f.clip start stop ≤ stop := by
  unfold clip
  split
  · omega
  · omega

theorem trim_spec {how : Trim} {ok : Bool} {f' : CowFile} (hfits : f.Fits)
    (h : f.trim start stop how = some (ok, f')) : Zeroed (f.seek start) (stop - start) f' := by
  cases how with
  | punch _ =>
    cases h
    exact ⟨hfits, Nat.le_refl _, fun _ => id, fun _ => .inl⟩
  | zeros results => exact @writeZeros_spec (f.seek start) _ 0 results hfits ok f' h

/-- What is done to a file from outside. -/
inductive CowEvent
  | seek (offset : Nat)
  | read (bytes : Nat)
  | write (bsize : Nat) (w : Option Nat)
  | setUnused (unusedStart unusedEnd : Nat) (how : Trim)
  deriving DecidableEq, Repr

/-- A file with the bytes that were written and not set unused afterwards. -/
structure CowRun where
  file : CowFile
  live : Nat → Bool

namespace CowRun

def opened (filesize : Nat) (bitmap : List UInt8) : CowRun :=
  ⟨CowFile.opened filesize bitmap, fun _ => false⟩

def step (s : CowRun) : CowEvent → Option CowRun
  | .seek offset => some { s with file := s.file.seek offset }
  | .read bytes => some { s with file := s.file.seek (s.file.currOffset + bytes) }
  | .write bsize w =>
    let (n, file) := s.file.write w
    if n ≤ bsize then
      some ⟨file, fun p => decide (s.file.currOffset ≤ p ∧ p < s.file.currOffset + n) || s.live p⟩
    else none
  | .setUnused unusedStart unusedEnd how =>
    (s.file.setUnused unusedStart unusedEnd how).map fun (ok, file) =>
      ⟨file, fun p => s.live p && !(ok && decide (unusedStart ≤ p ∧ p < unusedEnd))⟩

/-- Every live byte lies in a block whose bit is set. -/
def Covered (s : CowRun) : Prop := ∀ p, s.live p = true → s.file.isBitmapSet p = true

/-- The bitmap is large enough, and there are no live bytes behind the end. -/
structure Sound (s : CowRun) : Prop where
  fits : s.file.Fits
  inside : ∀ p, s.live p = true → p < s.file.filesize

/-- A write ends with a block, or in one that is used already. A range that is given back starts with
a block, or in one without live bytes before it, or has no whole block to its last one. -/
def Keeps (s : CowRun) : CowEvent → Prop
  | .seek _ | .read _ => True
  | .write _ w => w.getD 0 = 0 ∨ (s.file.currOffset + w.getD 0) % blocksize = 0 ∨
      s.file.isBitmapSet (s.file.currOffset + w.getD 0) = true
  | .setUnused unusedStart unusedEnd how => s.file.filesize ≤ unusedStart ∨
      (s.file.trim unusedStart (s.file.clip unusedStart unusedEnd) how).any (fun res => res.1) = false ∨
        s.file.clip unusedStart unusedEnd / blocksize ≤ unusedStart / blocksize ∨
          ∀ p, unusedStart / blocksize * blocksize ≤ p → p < unusedStart → s.live p = false

variable {s s' : CowRun}

theorem step_write (hsound : Sound s) (hcovered : Covered s) {bsize : Nat} {w : Option Nat}
    (h : s.step (.write bsize w) = some s') : Sound s' ∧ (Covered s' ↔ s.Keeps (.write bsize w)) := by
  obtain ⟨hn, hwrote⟩ := write_spec hsound.fits w
  rcases hw : s.file.write w with ⟨n, file⟩
  rw [hw] at hn hwrote
  simp only [step, hw] at h
  obtain rfl := hn
  split at h
  · cases h
    have hmem : ∀ p, (decide (s.file.currOffset ≤ p ∧ p < s.file.currOffset + w.getD 0) ||
        s.live p) = true ↔ (s.file.currOffset ≤ p ∧ p < s.file.currOffset + w.getD 0) ∨
          s.live p = true := by
      intro p
      rw [Bool.or_eq_true, decide_eq_true_eq]
    refine ⟨⟨hwrote.fits, ?_⟩, ?_⟩
    · intro p hp
      rcases (hmem p).mp hp with hin | hlive
      · exact hin.2.trans_le (hwrote.inside (by omega))
      · exact (hsound.inside p hlive).trans_le hwrote.grows
    · simp only [Covered, hmem, hwrote.sets, Keeps]
      constructor
      · intro hall
        by_contra hnot
        rw [not_or, not_or] at hnot
        obtain ⟨hpos, haligned, hclear⟩ := hnot
        -- the last byte lies in the block in which the write ends
        have hblock : (s.file.currOffset + w.getD 0 - 1) / blocksize =
            (s.file.currOffset + w.getD 0) / blocksize := by
          unfold blocksize at *
          omega
        rcases hall (s.file.currOffset + w.getD 0 - 1) (.inl (by omega)) with hset | hin
        · rw [isBitmapSet, hblock] at hset
          exact hclear hset
        · omega
      · rintro hkeeps p (hin | hlive)
        · by_cases hlast : p / blocksize < (s.file.currOffset + w.getD 0) / blocksize
          · exact .inr ⟨Nat.div_le_div_right hin.1, hlast⟩
          · have hblock : p / blocksize = (s.file.currOffset + w.getD 0) / blocksize :=
              Nat.le_antisymm (Nat.div_le_div_right hin.2.le) (Nat.not_lt.mp hlast)
            rcases hkeeps with hzero | haligned | hset
            · omega
            · unfold blocksize at haligned hblock
              omega
            · rw [isBitmapSet, hblock]
              exact .inl hset
        · exact .inl (hcovered p hlive)
  · cases h

theorem cleared_iff {live : Nat → Bool} {stop' : Nat} (hstop : stop' ≤ stop) :
    (∀ p, live p = true → ¬ (start ≤ p ∧ p < stop) →
        ¬ (start / blocksize ≤ p / blocksize ∧ p / blocksize < stop' / blocksize)) ↔
      stop' / blocksize ≤ start / blocksize ∨
        ∀ p, start / blocksize * blocksize ≤ p → p < start → live p = false := by
  constructor
  · intro hall
    refine or_iff_not_imp_left.mpr fun hblocks p hp hp' => ?_
    by_contra hlive
    refine hall p (Bool.not_eq_false _ ▸ hlive) (by omega) ⟨?_, ?_⟩
    · exact (Nat.le_div_iff_mul_le (by decide)).mpr hp
    · exact (Nat.div_le_div_right hp'.le).trans_lt (Nat.not_le.mp hblocks)
  · rintro hor p hlive hout ⟨hge, hlt⟩
    rcases hor with hblocks | hnone
    · omega
    · have hp : p < stop' := by
        unfold blocksize at hlt
        omega
      rw [hnone p ((Nat.le_div_iff_mul_le (by decide)).mp hge) (by omega)] at hlive
      cases hlive

theorem step_setUnused (hsound : Sound s) (hcovered : Covered s) {how : Trim}
    (h : s.step (.setUnused start stop how) = some s') :
    Sound s' ∧ (Covered s' ↔ s.Keeps (.setUnused start stop how)) := by
  obtain ⟨⟨ok, file⟩, hunused, rfl⟩ := Option.map_eq_some_iff.mp h
  rw [setUnused] at hunused
  by_cases hbehind : s.file.filesize ≤ start
  · rw [if_pos hbehind] at hunused
    cases hunused
    refine ⟨⟨hsound.fits, fun p hp => hsound.inside p (Bool.and_eq_true_iff.mp hp).1⟩, ?_⟩
    exact ⟨fun _ => .inl hbehind, fun _ p hp => hcovered p (Bool.and_eq_true_iff.mp hp).1⟩
  · rw [if_neg hbehind] at hunused
    obtain ⟨⟨ok', f'⟩, htrim, hres⟩ := Option.map_eq_some_iff.mp hunused
    have hzeroed := trim_spec hsound.fits htrim
    obtain ⟨hclip, hclip'⟩ := @clip_le s.file start stop (Nat.not_le.mp hbehind)
    generalize hstop : s.file.clip start stop = stop' at *
    have hkeeps : ∀ p, s.file.isBitmapSet p = true → f'.isBitmapSet p = true := hzeroed.keeps
    have hiff : s.Keeps (.setUnused start stop how) ↔ ok' = false ∨
        stop' / blocksize ≤ start / blocksize ∨
          ∀ p, start / blocksize * blocksize ≤ p → p < start → s.live p = false := by
      simp only [Keeps, hbehind, false_or, hstop, htrim, Option.any_some]
    rw [hiff]
    cases ok' with
    | false =>
      obtain ⟨rfl, rfl⟩ := Prod.mk.inj hres
      refine ⟨⟨hzeroed.fits, fun p hp => ?_⟩, fun _ => .inl rfl, fun _ p hp => ?_⟩
      · exact (hsound.inside p (Bool.and_eq_true_iff.mp hp).1).trans_le hzeroed.grows
      · exact hkeeps p (hcovered p (Bool.and_eq_true_iff.mp hp).1)
    | true =>
      obtain ⟨rfl, rfl⟩ := Prod.mk.inj hres
      have hdiv := hzeroed.fits.div_le (hclip.trans hzeroed.grows)
      obtain ⟨hsize, -, hlength, hbits⟩ := @setBitmapRange_spec f' start stop' false hdiv
      have hmem : ∀ p, (s.live p && !(true && decide (start ≤ p ∧ p < stop))) = true ↔
          s.live p = true ∧ ¬ (start ≤ p ∧ p < stop) := by
        intro p
        simp only [Bool.true_and, Bool.and_eq_true, Bool.not_eq_true', decide_eq_false_iff_not]
      refine ⟨⟨?_, ?_⟩, ?_⟩
      · show (f'.setBitmapRange start stop' false).filesize ≤ _
        rw [hsize]
        exact hzeroed.fits.trans_eq (by rw [← hlength]; rfl)
      · intro p hp
        show p < (f'.setBitmapRange start stop' false).filesize
        rw [hsize]
        exact (hsound.inside p ((hmem p).mp hp).1).trans_le hzeroed.grows
      · have hcov : Covered ⟨(f'.setBitmapRange start stop' false).seek s.file.currOffset,
            fun p => s.live p && !(true && decide (start ≤ p ∧ p < stop))⟩ ↔
            ∀ p, s.live p = true → ¬ (start ≤ p ∧ p < stop) →
              ¬ (start / blocksize ≤ p / blocksize ∧ p / blocksize < stop' / blocksize) := by
          unfold Covered
          apply forall_congr'
          intro p
          simp only [hmem, and_imp]
          refine imp_congr_right fun hlive => imp_congr_right fun _ => ?_
          have hbit : ((f'.setBitmapRange start stop' false).seek s.file.currOffset).isBitmapSet p =
              _ := hbits p
          rw [hbit]
          split
          · rename_i hin
            simp [hin]
          · rename_i hout
            exact ⟨fun _ => hout, fun _ => hkeeps p (hcovered p hlive)⟩
        exact (hcov.trans (cleared_iff hclip')).trans (or_iff_right Bool.true_eq_false.mp).symm

theorem step_covered (s : CowRun) (e : CowEvent) (s' : CowRun) (hsound : Sound s)
    (hcovered : Covered s) (h : s.step e = some s') : Sound s' ∧ (Covered s' ↔ s.Keeps e) := by
  cases e with
  | seek offset =>
    cases h
    exact ⟨⟨hsound.fits, hsound.inside⟩, fun _ => trivial, fun _ => hcovered⟩
  | read bytes =>
    cases h
    exact ⟨⟨hsound.fits, hsound.inside⟩, fun _ => trivial, fun _ => hcovered⟩
  | write bsize w => exact step_write hsound hcovered h
  | setUnused start stop how => exact step_setUnused hsound hcovered h

/-- In a run every byte that was written and not set unused lies in a block whose bit is set at all
times, exactly if every step meets its condition. -/
theorem covered_iff_keeps (filesize : Nat) (bitmap : List UInt8) {events : List CowEvent} {t : CowRun}
    (h : TransitionSystem.run step (opened filesize bitmap) events = some t) :
    (∀ before after s, events = before ++ after →
      TransitionSystem.run step (opened filesize bitmap) before = some s → Covered s) ↔
      TransitionSystem.Guarded step Keeps (opened filesize bitmap) events :=
  TransitionSystem.guarded_iff_always step_covered
    ⟨(resizeBitmap_spec _).1, nofun⟩ nofun h

section Example

def wholeBlocks : List CowEvent :=
  [.write 4096 (some 4096), .write 4096 (some 4096), .setUnused 0 4096 (.punch true)]

theorem covered_wholeBlocks : ∃ t,
    TransitionSystem.run step (opened 0 []) wholeBlocks = some t ∧ Covered t := by
  have hrun : (TransitionSystem.run step (opened 0 []) wholeBlocks).isSome = true := by decide +kernel
  obtain ⟨t, ht⟩ := Option.isSome_iff_exists.mp hrun
  refine ⟨t, ht, (covered_iff_keeps 0 [] ht).mpr ?_ wholeBlocks [] t rfl ht⟩
  refine ⟨.inr (.inl (by decide +kernel)), ?_⟩
  rintro s₁ ⟨⟩
  refine ⟨.inr (.inl (by decide +kernel)), ?_⟩
  rintro s₂ ⟨⟩
  exact ⟨.inr (.inr (.inr fun p _ hp => absurd hp (Nat.not_lt_zero p))), fun _ _ => trivial⟩

/-- A byte is written, and its block is not used. -/
theorem written_byte_is_not_covered : ∃ t,
    TransitionSystem.run step (opened 4096 []) [.write 1 (some 1)] = some t ∧ ¬ Covered t := by
  refine ⟨_, rfl, ?_⟩
  intro h
  have hset := h 0 (by decide)
  revert hset
  decide

end Example

end CowRun

end CowFile

end UrBackup
