import UrBackup.Patch.Delivery

/-! `ApplyPatch` for any patch file. A record that claims more data than the patch file has is
copied for ever: reading behind its end gives nothing, and is no error. -/
namespace UrBackup.ChunkPatcher

open ByteOrder

variable {σ : Type} (cfg : PatcherConfig σ)

/-- The callback comes back from every call. -/
def Returning (cb : ChunkPatcherCallback σ) : Prop :=
  ∀ client buf bsize changed isSparse, ∃ result,
    cb.nextChunkPatcherBytes client buf bsize changed isSparse = .ok result

def loaded (st : ApplyState σ) : ApplyState σ :=
  if st.hasHeader = true ∧ st.nextHeader.patchOff = -1 then readHeader cfg st else st

/-- How much of the record at the position is copied: what is in front of the new end. -/
def recordSize (filesize : Int) (st : ApplyState σ) : Nat :=
  if filesize < st.out.filePos + st.nextHeader.patchSize then
    toUnsigned (filesize - st.out.filePos)
  else st.nextHeader.patchSize

/-- If a turn applies a record, the patch file has as much data. -/
def RecordFits (filesize : Int) (st : ApplyState σ) : Prop :=
  distance cfg (loaded cfg st).nextHeader (loaded cfg st).out.filePos = 0 →
    recordSize filesize (loaded cfg st) ≤
      (loaded cfg st).patch.content.length - (loaded cfg st).patch.pos

/-- All turns of the loop that apply a record find its data. -/
def PatchFits (members : ChunkPatcher σ) (file patch : List UInt8)
    (extents : Option (List SparseExtent)) : Prop :=
  8 ≤ patch.length → ∀ st,
    Loop.Reaches (applyLoop cfg file.length (int64 (patch.take 8)))
      (start cfg members file patch extents) st →
    RecordFits cfg (int64 (patch.take 8)) st

/-- `ApplyPatch` returns, or an assertion fails in it. -/
def Terminates (members : ChunkPatcher σ) (file patch : List UInt8)
    (extents : Option (List SparseExtent)) : Prop :=
  ∃ result, ApplyPatch cfg members file patch extents result ∧ result ≠ .error .endless

/-- A turn comes further in the new file or in the patch file, or it applies an empty record whose
header was read in a turn before. -/
def Advances (st st' : ApplyState σ) : Prop :=
  st.out.filePos < st'.out.filePos ∨ st.patch.pos < st'.patch.pos ∨
    (st.nextHeader.patchOff = st.out.filePos ∧ st.nextHeader.patchSize = 0 ∧
      st'.nextHeader.patchOff = -1)

/-- A computation has a result with a property, or an assertion fails in it. -/
def Leads {α : Type} (x : Except Fault α) (P : α → Prop) : Prop :=
  match x with
  | .ok a => P a
  | .error e => e = .assertion ∧ cfg.assertions = true

section Leads

variable {cfg} {α β : Type}

theorem Leads.ok {a : α} {P : α → Prop} (h : P a) : Leads cfg (.ok a) P := h

theorem Leads.bind {x : Except Fault α} {f : α → Except Fault β} {P : α → Prop} {Q : β → Prop}
    (h : Leads cfg x P) (hf : ∀ a, P a → Leads cfg (f a) Q) : Leads cfg (x >>= f) Q := by
  cases x with
  | ok a => exact hf a h
  | error e => exact h

theorem Leads.imp {x : Except Fault α} {P Q : α → Prop} (h : Leads cfg x P)
    (himp : ∀ a, P a → Q a) : Leads cfg x Q := by
  cases x with
  | ok a => exact himp a h
  | error e => exact h

theorem leads_assertThat (p : Prop) [Decidable p] :
    Leads cfg (assertThat cfg p) fun _ => True := by
  unfold assertThat
  split
  · trivial
  · rename_i h
    refine ⟨rfl, ?_⟩
    simpa using fun hfalse => h (.inl hfalse)

theorem leads_assertPos (client : σ) (pos : Nat) :
    Leads cfg (assertPos cfg client pos) fun _ => True := leads_assertThat _

theorem leads_call (hcb : Returning cfg.cb) (client : σ) (buf : Option (List UInt8)) (bsize : Nat)
    (changed : Bool) (isSparse : Option Bool) :
    Leads cfg (cfg.cb.nextChunkPatcherBytes client buf bsize changed isSparse) fun _ => True := by
  obtain ⟨result, h⟩ := hcb client buf bsize changed isSparse
  rw [h]
  trivial

theorem leads_endOfBlock (hcb : Returning cfg.cb) (pos next : Nat) (m : ChunkPatcher σ) :
    Leads cfg (nextBytesLoop.endOfBlock cfg pos next m) fun _ => True := by
  unfold nextBytesLoop.endOfBlock
  split
  · apply (leads_call hcb _ _ _ _ _).bind
    intro result _
    apply (leads_assertPos _ _).bind
    exact fun _ _ => trivial
  · apply (leads_call hcb _ _ _ _ _).bind
    intro result _
    apply (leads_assertPos _ _).bind
    exact fun _ _ => trivial

theorem leads_nextBytesLoop (hcb : Returning cfg.cb) (pos : Nat) (buf : List UInt8)
    (changed : Bool) (m : ChunkPatcher σ) :
    Leads cfg (nextBytesLoop cfg pos buf changed m) fun _ => True := by
  induction hn : buf.length using Nat.strongRecOn generalizing pos buf m with
  | ind n ih =>
    rw [nextBytesLoop]
    split
    · trivial
    · rename_i hne
      have hpos : 0 < buf.length := List.length_pos_iff.mpr hne
      split
      · split
        · apply (leads_assertPos _ _).bind
          intro _ _
          apply (leads_call hcb _ _ _ _ _).bind
          exact fun _ _ => trivial
        · apply (leads_assertPos _ _).bind
          intro _ _
          apply (leads_call hcb _ _ _ _ _).bind
          exact fun _ _ => trivial
      · have hless : (buf.drop (min buf.length
            (roundDown pos sparseBlocksize + sparseBlocksize - pos))).length < n := by
          have hcheck : pos < roundDown pos sparseBlocksize + sparseBlocksize := by
            unfold roundDown sparseBlocksize
            omega
          rw [List.length_drop]
          omega
        dsimp only
        split
        · apply (leads_endOfBlock hcb _ _ _).bind
          intro m' _
          exact ih _ hless _ _ _ rfl
        · exact ih _ hless _ _ _ rfl

theorem leads_deliver (hcb : Returning cfg.cb) (pos : Nat) (buf : List UInt8) (changed : Bool)
    (m : ChunkPatcher σ) : Leads cfg (deliver cfg pos buf changed m) fun _ => True := by
  unfold deliver
  split
  · exact leads_nextBytesLoop hcb _ _ _ _
  · apply (leads_assertPos _ _).bind
    intro _ _
    apply (leads_call hcb _ _ _ _ _).bind
    exact fun _ _ => trivial

theorem leads_nextSparseBytes (hcb : Returning cfg.cb) (pos bsize : Nat) (changed : Bool)
    (m : ChunkPatcher σ) : Leads cfg (nextSparseBytes cfg pos bsize changed m) fun _ => True := by
  unfold nextSparseBytes
  apply (leads_assertThat _).bind
  intro _ _
  apply (leads_assertThat _).bind
  intro _ _
  apply (leads_assertPos _ _).bind
  intro _ _
  apply (leads_call hcb _ _ _ _ _).bind
  exact fun _ _ => trivial

theorem leads_finishChunkPatcher (hcb : Returning cfg.cb) (pos : Nat) (m : ChunkPatcher σ) :
    Leads cfg (finishChunkPatcher cfg pos m) fun _ => True := by
  unfold finishChunkPatcher
  dsimp only
  split
  · apply (leads_call hcb _ _ _ _ _).bind
    intro _ _
    apply (leads_assertPos _ _).bind
    exact fun _ _ => trivial
  · trivial

theorem leads_finish (hcb : Returning cfg.cb) (p : Progress σ) :
    Leads cfg (finish cfg p) fun r => ∃ b, r = .inl b := by
  unfold finish
  split
  · apply (leads_finishChunkPatcher hcb _ _).bind
    intro m _
    exact ⟨(true, m), rfl⟩
  · exact ⟨(true, p.members), rfl⟩

end Leads

section Record

variable {cfg} {patch : ReadFile}

theorem leads_copyRecord (hcb : Returning cfg.cb) {size : Nat} (p : Progress σ)
    (h : size ≤ patch.content.length - patch.pos) :
    Leads cfg (copyRecord cfg size patch p) fun r =>
      r.1.content = patch.content ∧ r.1.pos = patch.pos + size ∧
        r.2.file = p.file ∧ r.2.filePos = p.filePos + size := by
  induction hn : size using Nat.strongRecOn generalizing size patch p with
  | ind n ih =>
    subst hn
    rw [copyRecord]
    have hlength := @ReadFile.next_length patch (min bufferSize size)
    have hbuffer : 0 < bufferSize := by decide
    split
    · rename_i hpos
      rw [dif_neg (by omega)]
      apply (leads_deliver hcb _ _ _ _).bind
      intro m _
      have hless : size - (patch.next (min bufferSize size)).length < size := by omega
      apply (ih _ hless _ ?_ rfl).imp
      · rintro r ⟨hcontent, hpos', hfile, hfilePos⟩
        refine ⟨hcontent, ?_, hfile, ?_⟩
        · rw [hpos', ReadFile.advance_pos]
          omega
        · rw [hfilePos]
          dsimp only
          omega
      · rw [ReadFile.advance_content, ReadFile.advance_pos]
        omega
    · obtain rfl : size = 0 := by omega
      exact ⟨rfl, rfl, rfl, rfl⟩

theorem copyRecord_short (hcb : Returning cfg.cb) {size : Nat} (p : Progress σ)
    (h : patch.content.length - patch.pos < size) :
    ∃ e, copyRecord cfg size patch p = .error e ∧ (cfg.assertions = false → e = .endless) := by
  induction hn : size using Nat.strongRecOn generalizing size patch p with
  | ind n ih =>
    subst hn
    rw [copyRecord, if_pos (by omega)]
    have hlength := @ReadFile.next_length patch (min bufferSize size)
    split
    · exact ⟨.endless, rfl, fun _ => rfl⟩
    · rename_i hsome
      have hdeliver := leads_deliver hcb p.filePos (patch.next (min bufferSize size)) true p.members
      dsimp only
      cases hd : deliver cfg p.filePos (patch.next (min bufferSize size)) true p.members with
      | error e =>
        rw [hd] at hdeliver
        refine ⟨e, rfl, fun hoff => ?_⟩
        rw [hdeliver.2] at hoff
        cases hoff
      | ok m =>
        rw [ok_bind]
        have hless : size - (patch.next (min bufferSize size)).length < size := by omega
        apply ih _ hless _ _ rfl
        rw [ReadFile.advance_content, ReadFile.advance_pos]
        omega

end Record

section Gap

variable {cfg} {size tr : Nat} {filesize : Int} {p p' p'' : Progress σ}

/-- The old file is one file, and its handle does not run ahead of the new file. -/
structure Moved (p p' : Progress σ) : Prop where
  content : p'.file.content = p.file.content
  handle : p'.file.pos ≤ p'.filePos
  le : p.filePos ≤ p'.filePos

theorem runLength_pos (h : 0 < tr) (p : Progress σ) : 0 < runLength cfg tr p := by
  have hbuffer : 0 < bufferSize := by decide
  have hsmall : bufferSize < 2 ^ 32 := by decide
  simp only [runLength, toUnsigned]
  split
  · omega
  · split
    · omega
    · split <;> omega

@[simp] theorem clearAlignEnd_file (p : Progress σ) : (clearAlignEnd cfg p).file = p.file := by
  unfold clearAlignEnd
  split <;> rfl

@[simp] theorem clearAlignEnd_filePos (p : Progress σ) :
    (clearAlignEnd cfg p).filePos = p.filePos := by
  unfold clearAlignEnd
  split <;> rfl

theorem leads_skipUnchanged (hcb : Returning cfg.cb) (tr : Nat) (p : Progress σ) :
    Leads cfg (skipUnchanged cfg tr p) fun p' =>
      p'.file = p.file ∧ p'.filePos = p.filePos + tr := by
  unfold skipUnchanged
  apply (leads_assertPos _ _).bind
  intro _ _
  apply (leads_call hcb _ _ _ _ _).bind
  intro _ _
  exact ⟨rfl, rfl⟩

theorem sourceFile_content (p : Progress σ) : (sourceFile cfg p).content = p.file.content := by
  unfold sourceFile
  split <;> rfl

theorem sourceFile_pos (h : p.file.pos ≤ p.filePos) : (sourceFile cfg p).pos ≤ p.filePos := by
  unfold sourceFile
  split
  · exact Nat.le_refl _
  · exact h

theorem leads_copyUnchanged (hcb : Returning cfg.cb) (hsize : p.file.content.length = size)
    (hhandle : p.file.pos ≤ p.filePos) :
    Leads cfg (copyUnchanged cfg size filesize tr p) fun p' => Moved p p' ∧
      (0 < tr → p.filePos < size → p.filePos < filesize → p.filePos < p'.filePos) := by
  induction hn : tr using Nat.strongRecOn generalizing tr p with
  | ind n ih =>
    subst hn
    rw [copyUnchanged]
    split
    · rename_i hmore
      have hrun := @runLength_pos σ cfg tr hmore.1 p
      split
      · have hcontent := @sourceFile_content _ cfg p
        have hpos := @sourceFile_pos _ cfg p hhandle
        have hlength := @ReadFile.next_length (sourceFile cfg p) (runLength cfg tr p)
        rw [hcontent, hsize] at hlength
        rw [dif_neg (by omega)]
        apply (leads_deliver hcb _ _ _ _).bind
        intro m _
        have hle := runLength_le cfg tr p
        apply (ih _ (by omega) _ _ rfl).imp
        · rintro p' ⟨hmoved, -⟩
          have hle' := hmoved.le
          rw [clearAlignEnd_filePos] at hle'
          refine ⟨⟨?_, hmoved.handle, by dsimp only at hle'; omega⟩, fun _ _ _ => by
            dsimp only at hle'
            omega⟩
          rw [hmoved.content, clearAlignEnd_file, ReadFile.advance_content, hcontent]
        · rw [clearAlignEnd_file, ReadFile.advance_content, hcontent, hsize]
        · rw [clearAlignEnd_file, clearAlignEnd_filePos, ReadFile.advance_pos]
          dsimp only
          omega
      · dsimp only
        apply (leads_skipUnchanged hcb _ _).bind
        rintro p' ⟨hfile, hfilePos⟩
        refine ⟨⟨?_, ?_, ?_⟩, fun _ _ _ => ?_⟩
        · rw [clearAlignEnd_file, hfile]
        · rw [clearAlignEnd_file, clearAlignEnd_filePos, hfile, hfilePos]
          omega
        · rw [clearAlignEnd_filePos, hfilePos]
          omega
        · rw [clearAlignEnd_filePos, hfilePos]
          split <;> omega
    · rename_i hdone
      refine ⟨⟨rfl, hhandle, Nat.le_refl _⟩, ?_⟩
      intro htr hlt hend
      exact absurd ⟨htr, hlt, hend⟩ hdone

theorem leads_skipSparse (hcb : Returning cfg.cb) (halign : cfg.unchangedAlign ≤ sparseBlocksize)
    (htr : sparseBlocksize ≤ tr) (p : Progress σ) :
    Leads cfg (skipSparse cfg tr p) fun p' => p'.file = p.file ∧ p.filePos < p'.filePos := by
  have hblock : 0 < sparseBlocksize := by decide
  have hwhole : sparseBlocksize ≤ tr - tr % sparseBlocksize := by
    have hsplit := Nat.div_add_mod' tr sparseBlocksize
    have hone := Nat.div_pos htr hblock
    have hmul := Nat.mul_le_mul_right sparseBlocksize hone
    omega
  have hrun : 0 < if cfg.unchangedAlign ≠ 0 then
      tr - tr % sparseBlocksize - (tr - tr % sparseBlocksize) % cfg.unchangedAlign
      else tr - tr % sparseBlocksize := by
    split
    · rename_i hne
      have hmod := Nat.mod_lt (tr - tr % sparseBlocksize) (Nat.pos_of_ne_zero hne)
      omega
    · omega
  unfold skipSparse
  dsimp only
  split
  · apply (leads_nextSparseBytes hcb _ _ _ _).bind
    intro m _
    exact ⟨rfl, Nat.lt_add_of_pos_right hrun⟩
  · apply (leads_assertPos _ _).bind
    intro _ _
    apply (leads_call hcb _ _ _ _ _).bind
    intro _ _
    exact ⟨rfl, Nat.lt_add_of_pos_right hrun⟩

theorem leads_copyGap (hcb : Returning cfg.cb) (halign : cfg.unchangedAlign ≤ sparseBlocksize)
    (hsize : p.file.content.length = size) (hhandle : p.file.pos ≤ p.filePos) (htr : 0 < tr)
    (hmax : tr < 2 ^ 32) (hlt : p.filePos < size) (hend : p.filePos < filesize) :
    Leads cfg (copyGap cfg size filesize tr p) fun p' => Moved p p' ∧ p.filePos < p'.filePos := by
  unfold copyGap
  generalize nextExtent p.filePos p.currSparseExtent p.extents = next
  dsimp only
  generalize hcut : (if filesize < p.filePos + tr then toUnsigned (filesize - p.filePos) else tr) =
    cut
  have hpos : 0 < cut := by
    rw [← hcut]
    unfold toUnsigned
    split <;> omega
  have hcopy : ∀ run, 0 < run → Leads cfg (copyUnchanged cfg size filesize run
      { p with currSparseExtent := next.1, extents := next.2 }) fun p' =>
      Moved p p' ∧ p.filePos < p'.filePos := by
    intro run hrun
    have hcopied := @leads_copyUnchanged σ cfg size run filesize
      { p with currSparseExtent := next.1, extents := next.2 } hcb hsize hhandle
    apply hcopied.imp
    rintro p' ⟨hmoved, hless⟩
    exact ⟨⟨hmoved.content, hmoved.handle, hmoved.le⟩, hless hrun hlt hend⟩
  split
  · rename_i hcovered
    split
    · apply (leads_skipSparse hcb halign hcovered.1 _).imp
      rintro p' ⟨hfile, hless⟩
      refine ⟨⟨by rw [hfile], ?_, Nat.le_of_lt hless⟩, hless⟩
      rw [hfile]
      exact hhandle.trans (Nat.le_of_lt hless)
    · apply hcopy
      have hblock := Nat.mod_lt p.filePos (by decide : 0 < sparseBlocksize)
      have halignment : cfg.unchangedAlign ≠ 0 → p.filePos % cfg.unchangedAlign < cfg.unchangedAlign :=
        fun h => Nat.mod_lt _ (Nat.pos_of_ne_zero h)
      split <;> split <;> omega
  · exact hcopy cut hpos

end Gap

section Turn

variable {cfg} {size : Nat} {filesize : Int} {st st' : ApplyState σ}

theorem readNextValidPatch_moves (patch : ReadFile) :
    (readNextValidPatch patch).2.2.content = patch.content ∧
      patch.pos ≤ (readNextValidPatch patch).2.2.pos ∧
      ((readNextValidPatch patch).1 = true → (readNextValidPatch patch).2.1.patchOff ≠ -1 ∧
        patch.pos < (readNextValidPatch patch).2.2.pos ∧
        (readNextValidPatch patch).2.2.pos ≤ patch.content.length) ∧
      ((readNextValidPatch patch).1 = false → (readNextValidPatch patch).2.1.patchOff = -1) := by
  induction patch using readNextValidPatch.induct with
  | case1 patch hread patchOff patchSize patch' hinvalid ih =>
    rw [readNextValidPatch, dif_pos hread]
    dsimp only
    rw [if_pos hinvalid]
    have hpos : patch.pos ≤ (patch'.seek (patch'.pos + patchSize)).pos := by
      change patch.pos ≤ patch.pos + _ + patchSize
      omega
    obtain ⟨hcontent, hle, hfound, hnone⟩ := ih
    refine ⟨hcontent, hpos.trans hle, ?_, hnone⟩
    intro h
    obtain ⟨hoff, hlt, hend⟩ := hfound h
    exact ⟨hoff, Nat.lt_of_le_of_lt hpos hlt, hend⟩
  | case2 patch hread patchOff hvalid =>
    rw [readNextValidPatch, dif_pos hread]
    dsimp only
    rw [if_neg hvalid]
    have hlength := @ReadFile.next_length patch 12
    have hpos := @ReadFile.advance_pos patch 12
    refine ⟨rfl, ?_, fun _ => ⟨hvalid, ?_, ?_⟩, (by simp)⟩ <;> dsimp only <;> omega
  | case3 patch hread =>
    rw [readNextValidPatch, dif_neg hread]
    have hpos := @ReadFile.advance_pos patch 12
    refine ⟨rfl, ?_, (by simp), fun _ => rfl⟩
    dsimp only
    omega

/-- What every turn keeps. -/
structure Sound (size : Nat) (st : ApplyState σ) : Prop where
  file : st.out.file.content.length = size
  handle : st.out.file.pos ≤ st.out.filePos
  header : st.hasHeader = false → st.nextHeader.patchOff = -1

/-- What is left of the old file and of the patch file, and whether there is a header to read or
to apply. -/
def left (size : Nat) (st : ApplyState σ) : Nat :=
  (size - st.out.filePos) + (st.patch.content.length - st.patch.pos) +
    (if st.hasHeader then 1 else 0) + if st.nextHeader.patchOff = -1 then 0 else 1

theorem noteHeader_file (h : PatchHeader) (p : Progress σ) :
    (noteHeader cfg h p).file = p.file ∧ (noteHeader cfg h p).filePos = p.filePos := by
  unfold noteHeader
  dsimp only
  split
  · exact ⟨rfl, rfl⟩
  · exact ⟨rfl, rfl⟩

/-- What the header at the start of a turn changes. -/
structure HeaderLoaded (size : Nat) (st st' : ApplyState σ) : Prop where
  sound : Sound size st'
  filePos : st'.out.filePos = st.out.filePos
  left : left size st' ≤ left size st
  patch : st' = st ∨ st'.nextHeader.patchOff = -1 ∧ st.patch.pos ≤ st'.patch.pos ∨
    st.patch.pos < st'.patch.pos

theorem Sound.loaded (h : Sound size st) : HeaderLoaded size st (loaded cfg st) := by
  unfold ChunkPatcher.loaded
  split
  · rename_i hmore
    obtain ⟨hcontent, hle, hfound, hnone⟩ := readNextValidPatch_moves st.patch
    obtain ⟨hfile, hfilePos⟩ := @noteHeader_file σ cfg (readNextValidPatch st.patch).2.1 st.out
    have hsound : Sound size (readHeader cfg st) := by
      refine ⟨?_, ?_, hnone⟩
      · change (noteHeader cfg _ st.out).file.content.length = size
        rw [hfile, h.file]
      · change (noteHeader cfg _ st.out).file.pos ≤ (noteHeader cfg _ st.out).filePos
        rw [hfile, hfilePos]
        exact h.handle
    refine ⟨hsound, hfilePos, ?_, ?_⟩
    · unfold ChunkPatcher.left
      change (size - (noteHeader cfg _ st.out).filePos) +
        ((readNextValidPatch st.patch).2.2.content.length - (readNextValidPatch st.patch).2.2.pos) +
        (if (readNextValidPatch st.patch).1 then 1 else 0) +
        (if (readNextValidPatch st.patch).2.1.patchOff = -1 then 0 else 1) ≤ _
      rw [hfilePos, hcontent, hmore.1, if_pos rfl, if_pos hmore.2]
      cases hheader : (readNextValidPatch st.patch).1 with
      | true =>
        obtain ⟨hoff, hlt, hend⟩ := hfound hheader
        rw [if_pos rfl, if_neg hoff]
        omega
      | false =>
        rw [if_neg (by decide), if_pos (hnone hheader)]
        omega
    · cases hheader : (readNextValidPatch st.patch).1 with
      | true => exact .inr (.inr (hfound hheader).2.1)
      | false => exact .inr (.inl ⟨hnone hheader, hle⟩)
  · exact ⟨h, rfl, Nat.le_refl _, .inl rfl⟩

theorem maxRead_pos (halign : cfg.unchangedAlign ≤ sparseBlocksize) : 0 < maxRead cfg := by
  unfold maxRead
  split
  · rename_i hne
    have hmod := Nat.mod_lt uintMax (Nat.pos_of_ne_zero hne)
    have hless : sparseBlocksize < uintMax := by decide
    have hle := Nat.mod_le uintMax cfg.unchangedAlign
    omega
  · decide

theorem maxRead_lt : maxRead cfg < 2 ^ 32 := by
  have hmax : uintMax < 2 ^ 32 := by decide
  unfold maxRead
  split <;> omega

theorem distance_le (h : PatchHeader) (pos : Nat) : distance cfg h pos ≤ maxRead cfg := by
  unfold distance
  dsimp only
  split <;> omega

theorem distance_eq_zero (halign : cfg.unchangedAlign ≤ sparseBlocksize) {h : PatchHeader}
    {pos : Nat} (hzero : distance cfg h pos = 0) : h.patchOff = pos := by
  have hmax := maxRead_pos halign
  unfold distance at hzero
  dsimp only at hzero
  split at hzero <;> omega

/-- What the application of a record leaves. -/
structure Applied (size n : Nat) (st st' : ApplyState σ) : Prop where
  sound : Sound size st'
  filePos : st'.out.filePos = st.out.filePos + n
  content : st'.patch.content = st.patch.content
  patch : st'.patch.pos = st.patch.pos + n
  hasHeader : st'.hasHeader = st.hasHeader
  header : st'.nextHeader.patchOff = -1

theorem Sound.applyRecord (hcb : Returning cfg.cb) (h : Sound size st)
    (hfits : st.nextHeader.patchSize ≤ st.patch.content.length - st.patch.pos) :
    Leads cfg (applyRecord cfg st) fun st' => Applied size st.nextHeader.patchSize st st' := by
  unfold ChunkPatcher.applyRecord
  apply (leads_assertThat _).bind
  intro _ _
  apply (leads_copyRecord hcb _ hfits).bind
  rintro ⟨patch, out⟩ ⟨hcontent, hpos, hfile, hfilePos⟩
  refine ⟨⟨?_, ?_, fun _ => rfl⟩, hfilePos, hcontent, hpos, rfl, rfl⟩
  · dsimp only at hfile ⊢
    split
    · rw [ReadFile.seek_content, hfile, h.file]
    · rw [hfile, h.file]
  · dsimp only at hfile hfilePos ⊢
    split
    · exact Nat.le_refl _
    · rw [hfile, hfilePos]
      exact h.handle.trans (Nat.le_add_right _ _)

theorem applyRecord_short (hcb : Returning cfg.cb) (hpos : st.nextHeader.patchOff = st.out.filePos)
    (hshort : st.patch.content.length - st.patch.pos < st.nextHeader.patchSize) :
    ∃ e, ChunkPatcher.applyRecord cfg st = .error e ∧ (cfg.assertions = false → e = .endless) := by
  unfold ChunkPatcher.applyRecord
  rw [assertThat_of hpos.symm, ok_bind]
  dsimp only
  obtain ⟨e, he, hendless⟩ := copyRecord_short hcb { st.out with
    members := { st.out.members with
      unchangedAlignEnd := st.out.members.unchangedAlignEndNext } } hshort
  rw [he]
  exact ⟨e, rfl, hendless⟩

/-- A turn that goes on. -/
structure GoesOn (size : Nat) (st st' : ApplyState σ) : Prop where
  sound : Sound size st'
  left : left size st' < left size st
  patch : st.patch.pos ≤ st'.patch.pos
  moves : st.out.filePos < st'.out.filePos ∨ (st.nextHeader.patchOff = st.out.filePos ∧
    st.nextHeader.patchSize = 0 ∧ st'.nextHeader.patchOff = -1)

theorem Applied.goesOn {n : Nat} (h : Applied size n st st')
    (hpos : st.nextHeader.patchOff = st.out.filePos) (hn : n = st.nextHeader.patchSize) :
    GoesOn size st st' := by
  obtain ⟨hsound, hfilePos, hcontent, hpatch, hheader, hoff⟩ := h
  refine ⟨hsound, ?_, by omega, ?_⟩
  · have hvalid : ¬ st.nextHeader.patchOff = -1 := by omega
    unfold ChunkPatcher.left
    rw [hfilePos, hcontent, hpatch, hheader, if_pos hoff, if_neg hvalid]
    omega
  · by_cases hzero : n = 0
    · exact .inr ⟨hpos, hn.symm.trans hzero, hoff⟩
    · exact .inl (by omega)

theorem Sound.turn (hcb : Returning cfg.cb) (halign : cfg.unchangedAlign ≤ sparseBlocksize)
    (h : Sound size st) (hfits : distance cfg st.nextHeader st.out.filePos = 0 →
      recordSize filesize st ≤ st.patch.content.length - st.patch.pos) :
    Leads cfg (turn cfg size filesize st) fun r => ∀ st', r = .inr st' → GoesOn size st st' := by
  have hstop : ∀ b, ∀ st' : ApplyState σ, (Sum.inl b : TurnResult σ) = .inr st' →
      GoesOn size st st' := by
    rintro b st' heq
    cases heq
  unfold ChunkPatcher.turn
  dsimp only
  split
  · apply (leads_finish hcb _).imp
    rintro r ⟨b, rfl⟩
    exact hstop b
  · apply (leads_assertThat _).bind
    intro _ _
    split
    · -- the record crosses the new end
      rename_i hcross
      have hsize := hfits hcross.1
      rw [recordSize, if_pos hcross.2] at hsize
      have happly := @Sound.applyRecord σ cfg size { st with nextHeader :=
        { st.nextHeader with patchSize := toUnsigned (filesize - st.out.filePos) } } hcb
        ⟨h.file, h.handle, h.header⟩ hsize
      apply happly.bind
      intro st₁ _
      apply (leads_finish hcb _).imp
      rintro r ⟨b, rfl⟩
      exact hstop b
    · rename_i hcross
      split
      · apply (leads_assertThat _).bind
        intro _ _
        exact hstop _
      · rename_i hend
        split
        · rename_i hzero
          have hsize := hfits hzero
          rw [recordSize, if_neg fun hlt => hcross ⟨hzero, hlt⟩] at hsize
          apply (h.applyRecord hcb hsize).bind
          intro st₁ happlied
          refine Leads.ok ?_
          rintro st' hst'
          cases hst'
          exact happlied.goesOn (distance_eq_zero halign hzero) rfl
        · rename_i hpositive
          split
          · rename_i hlt
            have hmax := @maxRead_lt σ cfg
            have hdistance := @distance_le σ cfg st.nextHeader st.out.filePos
            apply (leads_copyGap hcb halign h.file h.handle (Nat.pos_of_ne_zero hpositive)
              (by omega) hlt (by omega)).bind
            rintro p ⟨hmoved, hless⟩
            refine Leads.ok ?_
            rintro st' hst'
            cases hst'
            refine ⟨⟨by rw [hmoved.content, h.file], hmoved.handle, h.header⟩, ?_, Nat.le_refl _,
              .inl hless⟩
            unfold ChunkPatcher.left
            dsimp only
            omega
          · apply (leads_assertThat _).bind
            intro _ _
            exact hstop _

theorem Sound.turn_short (hcb : Returning cfg.cb) (halign : cfg.unchangedAlign ≤ sparseBlocksize)
    (h : Sound size st) (hzero : distance cfg st.nextHeader st.out.filePos = 0)
    (hshort : st.patch.content.length - st.patch.pos < recordSize filesize st) :
    ∃ e, ChunkPatcher.turn cfg size filesize st = .error e ∧
      (cfg.assertions = false → e = .endless) := by
  have hpos := distance_eq_zero halign hzero
  have hheader : ¬ (st.hasHeader = false ∧
      (filesize ≤ st.out.filePos ∨ size ≤ st.out.filePos)) := by
    rintro ⟨hnone, -⟩
    have hoff := h.header hnone
    omega
  unfold ChunkPatcher.turn
  dsimp only
  rw [if_neg hheader, assertThat_of (.inr (Int.le_of_eq hpos.symm)), ok_bind]
  unfold recordSize at hshort
  by_cases hcross : filesize < st.out.filePos + st.nextHeader.patchSize
  · rw [if_pos hcross] at hshort
    rw [if_pos ⟨hzero, hcross⟩]
    obtain ⟨e, he, hendless⟩ := @applyRecord_short σ cfg { st with nextHeader :=
      { st.nextHeader with patchSize := toUnsigned (filesize - st.out.filePos) } } hcb hpos hshort
    rw [he]
    exact ⟨e, rfl, hendless⟩
  · rw [if_neg hcross] at hshort
    rw [if_neg fun hboth => hcross hboth.2, if_neg (by omega), if_pos hzero]
    obtain ⟨e, he, hendless⟩ := applyRecord_short hcb hpos hshort
    rw [he]
    exact ⟨e, rfl, hendless⟩

theorem applyTurn_eq (st : ApplyState σ) : applyTurn cfg size filesize st =
    if (st.out.filePos < size ∧ st.out.filePos < filesize) ∨ st.hasHeader = true then
      turn cfg size filesize (loaded cfg st)
    else finish cfg st.out := rfl

theorem HeaderLoaded.advances {st₁ : ApplyState σ} (h : HeaderLoaded size st st₁)
    (hnext : GoesOn size st₁ st') : Advances st st' := by
  have hfilePos := h.filePos
  have hpatch := hnext.patch
  unfold Advances
  rcases h.patch with rfl | ⟨hoff, hle⟩ | hlt
  · rcases hnext.moves with hless | hempty
    · exact .inl hless
    · exact .inr (.inr hempty)
  · rcases hnext.moves with hless | ⟨hpos, -⟩
    · exact .inl (by omega)
    · omega
  · exact .inr (.inl (by omega))

section

variable (hcb : Returning cfg.cb) (halign : cfg.unchangedAlign ≤ sparseBlocksize)
  (h : Sound size st)

include hcb halign h

theorem Sound.applyTurn (hfits : RecordFits cfg filesize st) :
    Leads cfg (applyTurn cfg size filesize st) fun r => ∀ st', r = .inr st' →
      Sound size st' ∧ left size st' < left size st ∧ Advances st st' := by
  rw [applyTurn_eq]
  split
  · have hloaded := @Sound.loaded σ cfg size st h
    apply (hloaded.sound.turn hcb halign hfits).imp
    intro r hgoes st' hr
    have hnext := hgoes st' hr
    exact ⟨hnext.sound, Nat.lt_of_lt_of_le hnext.left hloaded.left, hloaded.advances hnext⟩
  · apply (leads_finish hcb _).imp
    rintro r ⟨b, rfl⟩ st' heq
    cases heq

theorem Sound.applyTurn_short (hshort : ¬ RecordFits cfg filesize st) :
    ∃ e, ChunkPatcher.applyTurn cfg size filesize st = .error e ∧
      (cfg.assertions = false → e = .endless) := by
  have hloaded := @Sound.loaded σ cfg size st h
  unfold RecordFits at hshort
  push Not at hshort
  obtain ⟨hzero, hless⟩ := hshort
  have hheader : st.hasHeader = true := by
    by_contra hnone
    have hsame : ChunkPatcher.loaded cfg st = st := if_neg fun hboth => hnone hboth.1
    have hoff := h.header (Bool.not_eq_true _ ▸ hnone)
    have hpos := distance_eq_zero halign hzero
    rw [hsame] at hpos
    omega
  rw [applyTurn_eq, if_pos (.inr hheader)]
  exact hloaded.sound.turn_short hcb halign hzero hless

theorem Sound.next (hnext : applyLoop cfg size filesize st = .inr st') :
    RecordFits cfg filesize st ∧ Sound size st' ∧ left size st' < left size st ∧
      Advances st st' := by
  have hturn : ChunkPatcher.applyTurn cfg size filesize st = .ok (.inr st') := by
    unfold applyLoop at hnext
    split at hnext
    · cases hnext
    · cases hnext
    · rename_i heq
      cases hnext
      exact heq
  have hfits : RecordFits cfg filesize st := by
    by_contra hshort
    obtain ⟨e, he, -⟩ := h.applyTurn_short hcb halign hshort
    rw [he] at hturn
    cases hturn
  have hleads := h.applyTurn hcb halign hfits
  rw [hturn] at hleads
  exact ⟨hfits, hleads st' rfl⟩

theorem Sound.last {result : Except Fault (Bool × ChunkPatcher σ)}
    (hlast : applyLoop cfg size filesize st = .inl result) (hfits : RecordFits cfg filesize st) :
    result ≠ .error .endless := by
  have hleads := h.applyTurn hcb halign hfits
  unfold applyLoop at hlast
  split at hlast
  · rename_i e heq
    rw [heq] at hleads
    cases hlast
    rw [hleads.1]
    exact nofun
  · cases hlast
    exact nofun
  · cases hlast

theorem Sound.endless (hoff : cfg.assertions = false) (hshort : ¬ RecordFits cfg filesize st) :
    applyLoop cfg size filesize st = .inl (.error .endless) := by
  obtain ⟨e, he, hendless⟩ := h.applyTurn_short hcb halign hshort
  unfold applyLoop
  rw [he, hendless hoff]

theorem Sound.reaches (hreaches : Loop.Reaches (applyLoop cfg size filesize) st st') :
    Sound size st' := by
  induction hreaches with
  | here => exact h
  | turn hbody _ ih => exact ih (h.next hcb halign hbody).2.1

theorem Sound.ends (hfits : ∀ st', Loop.Reaches (applyLoop cfg size filesize) st st' →
      RecordFits cfg filesize st') :
    ∃ result, Loop.Ends (applyLoop cfg size filesize) st result ∧ result ≠ .error .endless := by
  refine Loop.Ends.of_invariant (I := fun st' => Sound size st' ∧
    Loop.Reaches (applyLoop cfg size filesize) st st') (left size) ?_ ⟨h, .here st⟩
  rintro st' ⟨hsound, hreaches⟩
  cases hbody : applyLoop cfg size filesize st' with
  | inl result => exact hsound.last hcb halign hbody (hfits st' hreaches)
  | inr st'' =>
    obtain ⟨-, hsound', hleft, -⟩ := hsound.next hcb halign hbody
    exact ⟨⟨hsound', hreaches.next hbody⟩, hleft⟩

end

theorem sound_start (members : ChunkPatcher σ) (file patch : List UInt8)
    (extents : Option (List SparseExtent)) :
    Sound file.length (start cfg members file patch extents) :=
  ⟨rfl, Nat.le_refl _, nofun⟩

end Turn

section Ends

variable {cfg} {members : ChunkPatcher σ} {file patch : List UInt8}
  {extents : Option (List SparseExtent)}

/-- The application of a patch ends if it finds the data of all records that it applies. Where
assertions are left out it ends only then. Every turn that another one follows comes further, or
takes an empty record. -/
theorem applyPatch_ends_iff (hcb : Returning cfg.cb)
    (halign : cfg.unchangedAlign ≤ sparseBlocksize) :
    (PatchFits cfg members file patch extents → Terminates cfg members file patch extents) ∧
    (cfg.assertions = false → Terminates cfg members file patch extents →
      PatchFits cfg members file patch extents) ∧
    ∀ st st', Loop.Reaches (applyLoop cfg file.length (int64 (patch.take 8)))
        (start cfg members file patch extents) st →
      applyLoop cfg file.length (int64 (patch.take 8)) st = .inr st' → Advances st st' := by
  have hstart := @sound_start σ cfg members file patch extents
  refine ⟨?_, ?_, ?_⟩
  · intro hfits
    by_cases hshort : patch.length < 8
    · refine ⟨.ok (false, resetAlign members), ?_, nofun⟩
      unfold ApplyPatch
      rw [if_pos hshort]
    · obtain ⟨result, hends, hresult⟩ := hstart.ends hcb halign (hfits (Nat.not_lt.mp hshort))
      refine ⟨result, ?_, hresult⟩
      unfold ApplyPatch
      rw [if_neg hshort]
      exact hends
  · rintro hoff ⟨result, happly, hresult⟩ hlong st hreaches
    unfold ApplyPatch at happly
    rw [if_neg (Nat.not_lt.mpr hlong)] at happly
    by_contra hshort
    have hbody := (hstart.reaches hcb halign hreaches).endless hcb halign hoff hshort
    exact hresult ((hreaches.ends happly).unique (.done hbody))
  · intro st st' hreaches hnext
    exact ((hstart.reaches hcb halign hreaches).next hcb halign hnext).2.2.2

theorem returning_recorder : Returning recorder := fun _ _ _ _ _ => ⟨_, rfl⟩

/-- The new file is to have ten bytes, and the first five are to be in the patch, which ends behind
their header. -/
def cutPatch : List UInt8 := littleEndian 8 10 ++ littleEndian 8 0 ++ littleEndian 4 5

theorem applyPatch_ends_iff_cutPatch :
    (PatchFits (plainConfig false) freshMembers [1, 2, 3] cutPatch none →
      Terminates (plainConfig false) freshMembers [1, 2, 3] cutPatch none) ∧
    ((plainConfig false).assertions = false →
      Terminates (plainConfig false) freshMembers [1, 2, 3] cutPatch none →
      PatchFits (plainConfig false) freshMembers [1, 2, 3] cutPatch none) ∧
    ∀ st st', Loop.Reaches (applyLoop (plainConfig false) 3 (int64 (cutPatch.take 8)))
        (start (plainConfig false) freshMembers [1, 2, 3] cutPatch none) st →
      applyLoop (plainConfig false) 3 (int64 (cutPatch.take 8)) st = .inr st' → Advances st st' :=
  applyPatch_ends_iff returning_recorder (by decide)

theorem readNextValidPatch_cutPatch :
    readNextValidPatch ⟨cutPatch, 8⟩ = (true, ⟨0, 5⟩, ⟨cutPatch, 20⟩) := by
  rw [readNextValidPatch, dif_pos (by decide)]
  dsimp only
  rw [if_neg (by decide)]
  rfl

/-- The record of that patch is copied for ever. -/
theorem applyPatch_endless :
    ApplyPatch (plainConfig false) freshMembers [1, 2, 3] cutPatch none (.error .endless) ∧
    ¬ Terminates (plainConfig false) freshMembers [1, 2, 3] cutPatch none := by
  have hloaded : loaded (plainConfig false)
      (start (plainConfig false) freshMembers [1, 2, 3] cutPatch none) =
      { start (plainConfig false) freshMembers [1, 2, 3] cutPatch none with
        nextHeader := ⟨0, 5⟩, patch := ⟨cutPatch, 20⟩ } := by
    unfold loaded
    rw [if_pos ⟨rfl, rfl⟩]
    unfold readHeader
    change ApplyState.mk (noteHeader _ (readNextValidPatch ⟨cutPatch, 8⟩).2.1 _)
      (readNextValidPatch ⟨cutPatch, 8⟩).2.2 (readNextValidPatch ⟨cutPatch, 8⟩).2.1
      (readNextValidPatch ⟨cutPatch, 8⟩).1 = _
    rw [readNextValidPatch_cutPatch]
    rfl
  have hshort : ¬ RecordFits (plainConfig false) (int64 (cutPatch.take 8))
      (start (plainConfig false) freshMembers [1, 2, 3] cutPatch none) := by
    unfold RecordFits
    rw [hloaded]
    decide
  have hends : ApplyPatch (plainConfig false) freshMembers [1, 2, 3] cutPatch none
      (.error .endless) := by
    unfold ApplyPatch
    rw [if_neg (by decide)]
    exact .done ((sound_start freshMembers [1, 2, 3] cutPatch none).endless returning_recorder
      (by decide) rfl hshort)
  refine ⟨hends, ?_⟩
  rintro ⟨result, happly, hresult⟩
  exact hresult (ApplyPatch.unique _ happly hends)

end Ends

end UrBackup.ChunkPatcher
