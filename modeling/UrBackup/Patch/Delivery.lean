import UrBackup.Patch.OldData

/-! `ApplyPatch` without sparse handling: the data that reaches the callback is the patched
file. -/
namespace UrBackup.ChunkPatcher

/-- A run that was handed to the callback. -/
structure Run where
  buf : Option (List UInt8)
  bsize : Nat
  changed : Bool
  deriving DecidableEq, Repr

def delivered (runs : List Run) : List UInt8 := runs.flatMap fun r => r.buf.getD []

/-- A callback that keeps what it is given. Its position is the number of bytes so far. -/
def recorder : ChunkPatcherCallback (List Run) where
  nextChunkPatcherBytes runs buf bsize changed isSparse :=
    .ok (runs ++ [⟨buf, bsize, changed⟩], isSparse)
  nextSparseExtentBytes runs _ := runs
  chunkPatcherPos runs := (delivered runs).length

def plainConfig (assertions : Bool) : PatcherConfig (List Run) where
  cb := recorder
  requireUnchanged := true
  withSparse := false
  unchangedAlign := 0
  assertions

section Plain

variable {assertions : Bool} {size : Nat} {old content : List UInt8}

/-- The bytes so far are those of the new file. -/
def Delivered (content : List UInt8) (pos : Nat) (m : ChunkPatcher (List Run)) : Prop :=
  delivered m.client = content.take pos ∧ pos ≤ content.length

theorem delivered_append (runs : List Run) (buf : List UInt8) (n : Nat) (changed : Bool) :
    delivered (runs ++ [⟨some buf, n, changed⟩]) = delivered runs ++ buf := by
  simp [delivered]

theorem consumes_recorder : Consumes (plainConfig assertions) content (Delivered content)
    fun m => delivered m.client = content := by
  refine ⟨?_, fun _ _ _ _ _ h => h, ?_⟩
  · intro pos chunk changed m hR hne hlen hinit
    obtain ⟨hdelivered, hle⟩ := hR
    have hpos : assertPos (plainConfig assertions) m.client pos = .ok () := by
      apply assertThat_of
      right
      simp only [plainConfig, recorder, hdelivered, List.length_take]
      omega
    refine ⟨{ m with client := m.client ++ [⟨some chunk, chunk.length, changed⟩] }, ?_, ?_, ?_⟩
    · rw [deliver, if_neg (by simp [plainConfig]), hpos]
      rfl
    · obtain ⟨rest, hrest⟩ := hinit
      rw [delivered_append, hdelivered, List.take_add, ← hrest, List.take_left']
      rfl
    · have := hinit.length_le
      rw [List.length_drop] at this
      have := List.length_pos_iff.mpr hne
      omega
  · intro p hend hR
    refine ⟨p.members, ?_, ?_⟩
    · rw [finish, if_neg (by simp [plainConfig])]
      rfl
    · rw [hR.1, hend, List.take_length]

/-- The old file is read where the new one has come to. -/
def InStep (old content : List UInt8) (records : List (Nat × List UInt8)) (_ : Bool)
    (p : Progress (List Run)) : Prop :=
  p.file = ⟨old, p.filePos⟩ ∧ p.currSparseExtent = none ∧ p.extents = [] ∧
    OldElsewhere old content p.filePos records

theorem gapRule_plain : GapRule (plainConfig assertions) old.length content (Delivered content)
    (InStep old content) := by
  have hmax : maxRead (plainConfig assertions) = uintMax := rfl
  refine ⟨by rw [hmax]; decide, ?_, ?_, ?_⟩
  · intro off data rest p hK _
    unfold noteHeader
    rw [if_neg fun h => h.2 rfl]
    exact hK
  · intro records loaded p hK hR hheader hfit hlimit hps hpc
    obtain ⟨hfile, hextent, hextents, hold⟩ := hK
    have hle : gapLimit (plainConfig assertions) records p.filePos ≤ uintMax := by
      unfold gapLimit
      split <;> omega
    have hsource : sourceFile (plainConfig assertions) p = p.file := rfl
    have hrun : ∀ tr, runLength (plainConfig assertions) tr p = min tr bufferSize := fun _ => rfl
    have hB : 0 < bufferSize := by decide
    have hold' : ∀ n ≤ gapLimit (plainConfig assertions) records p.filePos,
        p.filePos + n ≤ content.length → (old.drop p.filePos).take n <+: content.drop p.filePos :=
      fun n hn hend => hold.prefix hfit hn hend
    generalize gapLimit (plainConfig assertions) records p.filePos = limit at *
    have hcut : (if (content.length : Int) < p.filePos + limit then
        toUnsigned (content.length - p.filePos) else limit) =
        min limit (content.length - p.filePos) := by
      unfold toUnsigned uintMax at *
      split <;> omega
    have hgap : copyGap (plainConfig assertions) old.length content.length limit p =
        copyUnchanged (plainConfig assertions) old.length content.length
          (min limit (content.length - p.filePos)) p := by
      rw [copyGap]
      simp only [hextent, nextExtent, hcut]
      rw [if_neg fun h => Bool.false_ne_true h.2.2, ← hextent]
    generalize htr : min limit (content.length - p.filePos) = tr at *
    have hinit : (sourceFile (plainConfig assertions) p).next
        (runLength (plainConfig assertions) tr p) <+: content.drop p.filePos := by
      rw [hsource, hrun, hfile]
      exact hold' _ (by omega) (by omega)
    obtain ⟨len, m', hlen, hpos, hcopy, hR', -⟩ := copyUnchanged_read consumes_recorder rfl
      (by rw [hsource, hfile]) (by rw [hsource, hfile]) (by rw [hrun]; omega) hps hpc hinit hR
    rw [hrun] at hlen
    refine ⟨_, hgap.trans hcopy, ?_, ?_, ?_, ?_, ?_⟩
    · exact ⟨by simp only [clearAlignEnd, hsource, hfile]; rfl, hextent, hextents,
        hold.mono (Nat.le_add_right _ _)⟩
    · exact hR'
    · exact Nat.lt_add_of_pos_right hpos
    · change p.filePos + len ≤ _
      omega
    · change p.filePos + len ≤ _
      omega
  · intro off data rest p m hK hpos _ _ _
    obtain ⟨hfile, hextent, hextents, hold⟩ := hK
    refine ⟨?_, hextent, hextents, hold.tail (by omega)⟩
    simp only [plainConfig, if_true, hfile]
    rfl

theorem applyPatch_outcome {filesize : Nat} {records : List PatchRecord}
    {members : ChunkPatcher (List Run)} (h : WellFormed filesize old.length records)
    (hclient : members.client = []) :
    ∃ o, ApplyPatch (plainConfig assertions) members old (encodePatch filesize records) none o ∧
      Outcome (patched filesize old (validRecords records))
        (fun m => delivered m.client = patched filesize old (validRecords records))
        (validRecords records) o := by
  obtain ⟨o, houtcome, hends⟩ := @applyLoop_ends _ (plainConfig assertions) old.length
    (patched filesize old (validRecords records)) _ _ _ (validRecords records) consumes_recorder
    gapRule_plain (start (plainConfig assertions) members old (encodePatch filesize records) none)
    ⟨rfl, .inl ⟨rfl, h.stands⟩⟩ ⟨rfl, rfl, rfl, oldElsewhere_patched h.growth⟩
    ⟨congrArg delivered hclient, Nat.zero_le _⟩ h.fit
  refine ⟨o, ?_, houtcome⟩
  rw [ApplyPatch, if_neg h.int64_filesize.1, h.int64_filesize.2]
  rw [patched_length] at hends
  exact hends

/-- The application of a patch to an old file ends. It delivers the patched file, in order and
in step with the callback, if the first record that does not lie in front of the new end
crosses it, and takes the patch for corrupt otherwise. -/
theorem applyPatch_delivers {filesize : Nat} {records : List PatchRecord}
    {members : ChunkPatcher (List Run)} (h : WellFormed filesize old.length records)
    (hclient : members.client = []) :
    ∃ o, ApplyPatch (plainConfig assertions) members old (encodePatch filesize records) none o ∧
      if EndsInside filesize (validRecords records) then
        ∃ m, o = .ok (true, m) ∧ delivered m.client = patched filesize old (validRecords records)
      else o = .error .assertion ∨ ∃ m, o = .ok (false, m) := by
  obtain ⟨o, happly, houtcome⟩ := @applyPatch_outcome assertions old filesize records members h hclient
  refine ⟨o, happly, ?_⟩
  rw [Outcome, patched_length] at houtcome
  exact houtcome

end Plain

section Example

def freshMembers : ChunkPatcher (List Run) := ⟨[], none, true, false, [], -1, -1, -1, false⟩

/-- One byte is left of two, and a record lies behind the new end. -/
theorem applyPatch_refuses_record_behind_end : ¬ ∀ (assertions : Bool) (old : List UInt8)
    (filesize : Nat) (records : List PatchRecord) (members : ChunkPatcher (List Run)),
    WellFormed filesize old.length records → members.client = [] →
    ∃ m, ApplyPatch (plainConfig assertions) members old (encodePatch filesize records) none
        (.ok (true, m)) ∧
      delivered m.client = patched filesize old (validRecords records) := by
  intro h
  have hformed : WellFormed 1 [97, 98].length [⟨some 5, [120]⟩] :=
    ⟨by decide, by decide, by decide, by decide⟩
  obtain ⟨m, happly, -⟩ := h false [97, 98] 1 [⟨some 5, [120]⟩] freshMembers hformed rfl
  obtain ⟨o, happly', houtcome⟩ := @applyPatch_outcome false [97, 98] 1 [⟨some 5, [120]⟩]
    freshMembers hformed rfl
  rw [← ApplyPatch.unique _ happly happly', Outcome, if_neg (by decide)] at houtcome
  rcases houtcome with h | ⟨m', h⟩ <;> cases h

/-- Two records and an invalidated one; the file grows by one byte. -/
theorem applyPatch_delivers_two_records :
    ∃ o, ApplyPatch (plainConfig true) freshMembers [1, 2, 3, 4]
        (encodePatch 5 [⟨some 1, [9]⟩, ⟨none, [7, 7]⟩, ⟨some 4, [5, 6]⟩]) none o ∧
      ∃ m, o = .ok (true, m) ∧ delivered m.client = [1, 9, 3, 4, 5] := by
  have hformed : WellFormed 5 [1, 2, 3, 4].length
      [⟨some 1, [9]⟩, ⟨none, [7, 7]⟩, ⟨some 4, [5, 6]⟩] :=
    ⟨by decide, by decide, by decide, by decide⟩
  obtain ⟨o, happly, houtcome⟩ := @applyPatch_delivers true [1, 2, 3, 4] 5
    [⟨some 1, [9]⟩, ⟨none, [7, 7]⟩, ⟨some 4, [5, 6]⟩] freshMembers hformed rfl
  rw [if_pos (by decide)] at houtcome
  exact ⟨o, happly, houtcome⟩

end Example

end UrBackup.ChunkPatcher
