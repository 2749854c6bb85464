import UrBackup.Metadata.StreamSteps

/-! Runs over whole queues: which bytes come out however large the buffers are. -/
namespace UrBackup
namespace Metadata

open FileMetadataPipe

variable {w : World} {s : FileMetadataPipe} {c : Call} {n : Nat}

section Messages

/-- The record of a file fits into the buffer, and the metadata of a callback is there. -/
def Message.Fits (w : World) : Message → Prop
  | .sendFile _ localFn folderItems metadataId none =>
    (commonRecord w localFn folderItems metadataId).length + 2 * 4 < metadataBufferSize
  | .sendFile publicFn localFn _ _ (some getMetadata) =>
    ∀ kind m, w.fileType localFn = some kind → getMetadata (kind.char :: publicFn) = some m →
      m.seeks = true
  | .sendRaw _ _ => True
  | .sendRawFiledata _ _ => True

/-- What is still to be sent of the message that the client is at fits. -/
structure Fitting (w : World) (s : FileMetadataPipe) : Prop where
  record : s.metadataState = .common ∨
      s.metadataState ∈ [.fnSize, .fn, .fnChecksum] ∧ s.callback = false →
    (commonRecord w s.localFn s.folderItems s.metadataId).length + 2 * 4 < metadataBufferSize
  seeks : s.metadataState ∈ [.fnSize, .fn, .fnChecksum] → s.callback = true →
    s.metadataFileSeeks = true

/-- What a call does that takes a message. -/
structure Takes (w : World) (s : FileMetadataPipe) (msg : Message) (c : Call) : Prop where
  more : c.more = true
  sound : Sound c.pipe
  queue : c.pipe.queue = s.queue
  out_append : c.out ++ rest w c.pipe = streamOf w s.lastPublicFns (msg :: s.queue)
  fitting : msg.Fits w → Fitting w c.pipe

theorem nop_takes (hsound : Sound s) (hstate : s.metadataState = .wait) {t : FileMetadataPipe}
    {msg : Message} (hqueue : s.queue = t.queue)
    (hstream : streamOf w t.lastPublicFns (msg :: t.queue) =
      idMetadataNop :: streamOf w s.lastPublicFns s.queue) : Takes w t msg s.nop where
  more := rfl
  sound := hsound
  queue := hqueue
  out_append := by simp [nop, rest, current, hstate, hstream]
  fitting := fun _ => ⟨by simp [nop, hstate], by simp [nop, hstate]⟩

theorem startFile_takes (h : Sound s) (hstate : s.metadataState = .wait)
    (publicFn localFn : List UInt8) (folderItems metadataId : Int)
    (callback : Option (List UInt8 → Option CallbackMetadata)) :
    Takes w s (.sendFile publicFn localFn folderItems metadataId callback)
      (s.startFile w publicFn localFn folderItems metadataId callback) := by
  have hinit := h.statInit (by simp [hstate])
  have hoff : s.fnOff ≤ 4 := by simpa [hstate] using h.fnOff_le
  unfold startFile
  by_cases hsent : publicFn ∈ s.lastPublicFns
  · simp only [if_pos hsent]
    refine nop_takes ?_ ?_ rfl ?_
    · exact Sound.plain h.reduced hinit h.keys_ne (by simpa [hstate] using hoff) (by simp [hstate])
    · exact hstate
    · simp [streamOf, hsent]
  · simp only [if_neg hsent]
    cases hkind : w.fileType localFn with
    | none =>
      refine nop_takes ?_ ?_ rfl ?_
      · exact Sound.plain h.reduced hinit h.keys_ne (by simpa [hstate] using hoff)
          (by simp [hstate])
      · exact hstate
      · simp [streamOf, hsent, hkind]
    | some kind =>
      cases callback with
      | none => exact {
          more := rfl
          sound := Sound.plain reduced_init hinit h.keys_ne (by simp) (by simp)
          queue := rfl
          out_append := by
            simp [streamOf, hsent, hkind, rest, current, fileBytes, body, namePart, summed]
          fitting := fun hfits => ⟨fun _ => hfits, by simp⟩ }
      | some getMetadata =>
        simp only
        cases hmetadata : getMetadata (kind.char :: publicFn) with
        | none =>
          refine nop_takes ?_ rfl rfl ?_
          · exact Sound.plain reduced_init hinit h.keys_ne (by simp) (by simp)
          · simp [streamOf, hsent, hkind, fileBytes, hmetadata]
        | some m => exact {
            more := rfl
            sound := Sound.plain reduced_init hinit h.keys_ne (by simp) (by simp)
            queue := rfl
            out_append := by
              simp [streamOf, hsent, hkind, rest, current, fileBytes, hmetadata, body, namePart,
                summed, readMetadata, paddedTo]
            fitting := fun hfits => ⟨by simp, fun _ _ => hfits kind m hkind hmetadata⟩ }

theorem takeMessage_takes (h : Sound s) (hstate : s.metadataState = .wait) (msg : Message)
    (hn : 0 < n) : Takes w s msg (s.takeMessage w n msg) := by
  have hinit := h.statInit (by simp [hstate])
  have hoff : s.fnOff ≤ 4 := by simpa [hstate] using h.fnOff_le
  cases msg with
  | sendFile publicFn localFn folderItems metadataId callback =>
    exact startFile_takes h hstate publicFn localFn folderItems metadataId callback
  | sendRaw publicFn rawMetadata =>
    have hkeeps := @sendRawMetadata_keeps w { s with
      publicFn, rawMetadata
      metadataState := .raw
      metadataBufferOff := 0 } n (Sound.plain h.reduced hinit h.keys_ne (by simpa using hoff)
        (by simp)) rfl hn
    exact { hkeeps with
      more := rfl
      fitting := by
        intro _
        simp only [takeMessage, sendRawMetadata]
        split
        · exact ⟨by simp, by simp⟩
        · exact ⟨by simp, by simp⟩ }
  | sendRawFiledata publicFn transmitFile =>
    exact {
      more := rfl
      sound := Sound.plain reduced_init hinit h.keys_ne (by simp [takeMessage])
        (by simp [takeMessage])
      queue := rfl
      out_append := by
        simp [takeMessage, rest, current, streamOf, namePart, summed, rawBody]
      fitting := fun _ => ⟨by simp [takeMessage], by simp [takeMessage]⟩ }

end Messages

section Calls

theorem call_keeps (h : Sound s) (hwait : s.metadataState ≠ .wait) (hfit : ¬ Misfit s)
    (hn : 0 < n) (hcall : s.readStdoutIntoBuffer w n = some c) (hmore : c.more = true) :
    Keeps w s c := by
  revert hcall
  unfold readStdoutIntoBuffer
  cases hstate : s.metadataState with
  | wait => exact absurd hstate hwait
  | fnSize =>
    rintro ⟨⟩
    exact sendFnSize_keeps h (.inl ⟨hstate, rfl⟩) hn
  | fn =>
    rintro ⟨⟩
    exact sendFn_keeps h (.inl ⟨hstate, rfl⟩) hn
  | fnChecksum =>
    rintro ⟨⟩
    exact fnChecksum_keeps h hstate hn hmore
  | common =>
    rintro ⟨⟩
    exact sendCommon_keeps h hstate hn hmore
  | os =>
    rintro ⟨⟩
    exact sendOs_keeps h hstate hn
  | osChecksum =>
    rintro ⟨⟩
    exact osChecksum_keeps h (.inl hstate) hn
  | file =>
    rintro ⟨⟩
    exact sendFile_keeps h hstate hn hfit
  | fileChecksum =>
    rintro ⟨⟩
    exact osChecksum_keeps h (.inr hstate) hn
  | raw =>
    rintro ⟨⟩
    exact sendRawMetadata_keeps h hstate hn
  | rawFileFnSize =>
    rintro ⟨⟩
    exact sendFnSize_keeps h (.inr ⟨hstate, rfl⟩) hn
  | rawFileFn =>
    rintro ⟨⟩
    exact sendFn_keeps h (.inr ⟨hstate, rfl⟩) hn
  | rawFileFnChecksum =>
    rintro ⟨⟩
    exact rawFileFnChecksum_keeps h hstate hn
  | rawFileDataSize =>
    rintro ⟨⟩
    exact rawFileDataSize_keeps h hstate hn
  | rawFileData =>
    rintro ⟨⟩
    exact sendRawFileData_keeps h hstate hn
  | rawFileDataChecksum =>
    rintro ⟨⟩
    exact rawFileDataChecksum_keeps h hstate hn

theorem read_message {msg : Message} {queue : List Message} (hwait : s.metadataState = .wait)
    (hqueue : s.queue = msg :: queue) :
    s.readStdoutIntoBuffer w n = some ({ s with queue }.takeMessage w n msg) := by
  cases s
  cases hwait
  cases hqueue
  rfl

theorem call_takes (h : Sound s) (hwait : s.metadataState = .wait) (hn : 0 < n)
    (hcall : s.readStdoutIntoBuffer w n = some c) :
    ∃ msg queue, s.queue = msg :: queue ∧ Takes w { s with queue } msg c := by
  cases hqueue : s.queue with
  | nil =>
    simp only [readStdoutIntoBuffer, hwait, hqueue] at hcall
    exact absurd hcall (by simp)
  | cons msg queue =>
    rw [read_message hwait hqueue, Option.some.injEq] at hcall
    have hsound : Sound { s with queue } := ⟨h.reduced, h.statInit, h.fnOff_le, h.common,
      h.keyOff_lt, h.valOff_lt, h.keys_ne, h.fileSize, h.fileOff, h.transmitted⟩
    subst hcall
    exact ⟨msg, queue, rfl, takeMessage_takes hsound hwait msg hn⟩

theorem misfit_goes (h : Sound s) (hmisfit : Misfit s) (hn : 0 < n)
    (hcall : s.readStdoutIntoBuffer w n = some c) :
    Goes s c ∧ c.out = [] ∧ (rest w c.pipe).length < (rest w s).length := by
  simp only [readStdoutIntoBuffer, hmisfit.1, Option.some.injEq] at hcall
  subst hcall
  exact ⟨sendFile_goes w h hmisfit.1 hn, hmisfit.rest_lt h⟩

/-- A call keeps to the stream, unless it is a misfit. -/
theorem call_append (h : Sound s) (hfit : ¬ Misfit s) (hn : 0 < n)
    (hcall : s.readStdoutIntoBuffer w n = some c) (hmore : c.more = true) :
    c.out ++ rest w c.pipe = rest w s := by
  by_cases hwait : s.metadataState = .wait
  · obtain ⟨msg, queue, hqueue, htakes⟩ := call_takes h hwait hn hcall
    rw [htakes.out_append, rest, current, hwait, hqueue]
    rfl
  · exact (call_keeps h hwait hfit hn hcall hmore).out_append

theorem call_sound (h : Sound s) (hn : 0 < n) (hcall : s.readStdoutIntoBuffer w n = some c)
    (hmore : c.more = true) : Sound c.pipe := by
  by_cases hmisfit : Misfit s
  · exact (misfit_goes h hmisfit hn hcall).1.sound
  · by_cases hwait : s.metadataState = .wait
    · obtain ⟨msg, queue, -, htakes⟩ := call_takes h hwait hn hcall
      exact htakes.sound
    · exact (call_keeps h hwait hmisfit hn hcall hmore).sound

def distance (w : World) (s : FileMetadataPipe) : Nat × Nat × Nat :=
  (s.queue.length, rank s, (rest w s).length)

theorem call_distance (h : Sound s) (hn : 0 < n) (hcall : s.readStdoutIntoBuffer w n = some c)
    (hmore : c.more = true) : Prod.Lex (· < ·) (Prod.Lex (· < ·) (· < ·)) (distance w c.pipe)
      (distance w s) := by
  by_cases hwait : s.metadataState = .wait
  · obtain ⟨msg, queue, hqueue, htakes⟩ := call_takes h hwait hn hcall
    refine Prod.Lex.left _ _ ?_
    rw [htakes.queue, hqueue]
    exact Nat.lt_succ_self _
  · have hgoes : Goes s c ∧ (c.out ≠ [] → (rest w c.pipe).length < (rest w s).length) := by
      by_cases hmisfit : Misfit s
      · obtain ⟨hgoes, -, hlt⟩ := misfit_goes (w := w) h hmisfit hn hcall
        exact ⟨hgoes, fun _ => hlt⟩
      · have hkeeps := call_keeps h hwait hmisfit hn hcall hmore
        refine ⟨hkeeps.toGoes, fun hout => ?_⟩
        rw [← hkeeps.out_append, List.length_append]
        exact Nat.lt_add_of_pos_left (List.length_pos_of_ne_nil hout)
    obtain ⟨hgoes, hout⟩ := hgoes
    refine Prod.lex_def.mpr (.inr ⟨congrArg List.length hgoes.queue, Prod.lex_def.mpr ?_⟩)
    exact hgoes.forward.imp id fun hsame => ⟨hsame.1, hout hsame.2⟩

theorem backupRank_le (backup : BackupState) : backupRank backup ≤ 4 := by
  cases backup <;> decide

theorem fitting_of_rank (h : stateRank s.metadataState ≤ 11) : Fitting w s where
  record := by
    rintro (hstate | ⟨hstate, -⟩)
    · simp [hstate, stateRank] at h
    · simp only [List.mem_cons, List.not_mem_nil, or_false] at hstate
      obtain hstate | hstate | hstate := hstate <;> simp [hstate, stateRank] at h
  seeks := by
    intro hstate
    simp only [List.mem_cons, List.not_mem_nil, or_false] at hstate
    obtain hstate | hstate | hstate := hstate <;> simp [hstate, stateRank] at h

theorem sendFnSize_fitting (h : Fitting w s) (hstate : s.metadataState = .fnSize) :
    Fitting w (s.sendFnSize n .fn).pipe := by
  simp only [sendFnSize]
  split
  · exact ⟨fun hrecord => h.record (hrecord.imp (by simp) fun hname => ⟨by simp [hstate], hname.2⟩),
      fun _ => h.seeks (by simp [hstate])⟩
  · exact ⟨h.record, h.seeks⟩

theorem sendFn_fitting (h : Fitting w s) (hstate : s.metadataState = .fn) :
    Fitting w (s.sendFn n .fnChecksum).pipe := by
  simp only [sendFn]
  split
  · exact ⟨fun hrecord => h.record (hrecord.imp (by simp) fun hname => ⟨by simp [hstate], hname.2⟩),
      fun _ => h.seeks (by simp [hstate])⟩
  · exact ⟨h.record, h.seeks⟩

theorem fnChecksum_fitting (h : Fitting w s) (hstate : s.metadataState = .fnChecksum) :
    (s.sendChecksum n fnDone).more = true ∧ Fitting w (s.sendChecksum n fnDone).pipe := by
  simp only [sendChecksum]
  split
  · by_cases hcallback : s.callback = false
    · have hrecord := h.record (.inr ⟨by simp [hstate], hcallback⟩)
      simp only [fnDone, hcallback, if_true]
      exact ⟨trivial, fun _ => hrecord, by simp⟩
    · have hseeks := h.seeks (by simp [hstate]) (Bool.eq_true_of_not_eq_false hcallback)
      simp only [fnDone, hcallback, hseeks, Bool.true_eq_false, if_false, if_true]
      exact ⟨trivial, by simp, by simp⟩
  · exact ⟨rfl, h.record, h.seeks⟩

theorem sendCommon_fitting (h : Fitting w s) (hstate : s.metadataState = .common) :
    (s.sendCommon w n).more = true ∧ Fitting w (s.sendCommon w n).pipe := by
  have hrecord := h.record (.inl hstate)
  simp only [sendCommon, hrecord, if_true]
  split
  all_goals
    simp only [sendBuffer]
    split
    · exact ⟨trivial, fitting_of_rank (by simp [stateRank])⟩
    · exact ⟨trivial, h.record, h.seeks⟩

theorem call_more (hsound : Sound s) (h : Fitting w s) (hn : 0 < n)
    (hcall : s.readStdoutIntoBuffer w n = some c) : c.more = true := by
  by_cases hwait : s.metadataState = .wait
  · obtain ⟨msg, queue, -, htakes⟩ := call_takes hsound hwait hn hcall
    exact htakes.more
  · revert hcall
    unfold readStdoutIntoBuffer
    cases hstate : s.metadataState with
    | wait => exact absurd hstate hwait
    | fnChecksum =>
      rintro ⟨⟩
      exact (fnChecksum_fitting h hstate).1
    | common =>
      rintro ⟨⟩
      exact (sendCommon_fitting h hstate).1
    | osChecksum | fileChecksum | rawFileFnChecksum =>
      rintro ⟨⟩
      simp only [sendChecksum]
      split <;> rfl
    | file =>
      rintro ⟨⟩
      simp only [sendFile]
      split <;> rfl
    | _ =>
      rintro ⟨⟩
      rfl

theorem call_fitting (hsound : Sound s) (h : Fitting w s) (hqueue : ∀ msg ∈ s.queue, msg.Fits w)
    (hn : 0 < n) (hcall : s.readStdoutIntoBuffer w n = some c) :
    Fitting w c.pipe ∧ ∀ msg ∈ c.pipe.queue, msg.Fits w := by
  have hmore := call_more hsound h hn hcall
  by_cases hwait : s.metadataState = .wait
  · obtain ⟨msg, queue, hmsg, htakes⟩ := call_takes hsound hwait hn hcall
    rw [hmsg, List.forall_mem_cons] at hqueue
    exact ⟨htakes.fitting hqueue.1, htakes.queue ▸ hqueue.2⟩
  · have hgoes : Goes s c := by
      by_cases hmisfit : Misfit s
      · exact (misfit_goes (w := w) hsound hmisfit hn hcall).1
      · exact (call_keeps hsound hwait hmisfit hn hcall hmore).toGoes
    refine ⟨?_, hgoes.queue ▸ hqueue⟩
    by_cases hrank : stateRank s.metadataState ≤ 11
    · -- a state behind the records is left for such a state only
      have hle : rank c.pipe ≤ rank s := hgoes.forward.elim le_of_lt fun hsame => le_of_eq hsame.1
      have hbackup := backupRank_le s.backupState
      apply fitting_of_rank
      unfold rank at hle
      omega
    · revert hcall
      unfold readStdoutIntoBuffer
      cases hstate : s.metadataState with
      | fnSize =>
        rintro ⟨⟩
        exact sendFnSize_fitting h hstate
      | fn =>
        rintro ⟨⟩
        exact sendFn_fitting h hstate
      | fnChecksum =>
        rintro ⟨⟩
        exact (fnChecksum_fitting h hstate).2
      | common =>
        rintro ⟨⟩
        exact (sendCommon_fitting h hstate).2
      | _ => simp [hstate, stateRank] at hrank

end Calls

section Runs

/-- Calls with buffers of these sizes: the states before them, what they give, and the state that
they end in. -/
def calls (w : World) :
    FileMetadataPipe → List Nat → Option (List FileMetadataPipe × List UInt8 × FileMetadataPipe)
  | s, [] => some ([], [], s)
  | s, n :: avail =>
    match s.readStdoutIntoBuffer w n with
    | none => none
    | some c =>
      if c.more then
        (calls w c.pipe avail).map fun run => (s :: run.1, c.out ++ run.2.1, run.2.2)
      else none

/-- The client is at the end of the last message. -/
def AtEnd (s : FileMetadataPipe) : Prop := s.metadataState = .wait ∧ s.queue = []

theorem calls_cons {avail : List Nat} {visited : List FileMetadataPipe} {out : List UInt8}
    {t : FileMetadataPipe} (h : calls w s (n :: avail) = some (visited, out, t)) :
    ∃ c visited' out', s.readStdoutIntoBuffer w n = some c ∧ c.more = true ∧
      calls w c.pipe avail = some (visited', out', t) ∧ visited = s :: visited' ∧
      out = c.out ++ out' := by
  unfold calls at h
  split at h
  · exact absurd h (by simp)
  · rename_i c hcall
    by_cases hmore : c.more = true
    · rw [if_pos hmore, Option.map_eq_some_iff] at h
      obtain ⟨⟨visited', out', t'⟩, hrun, ⟨⟩⟩ := h
      exact ⟨c, visited', out', hcall, hmore, hrun, rfl, rfl⟩
    · rw [if_neg hmore] at h
      exact absurd h (by simp)

theorem call_exists (h : ¬ AtEnd s) : ∃ c, s.readStdoutIntoBuffer w n = some c := by
  by_cases hwait : s.metadataState = .wait
  · obtain ⟨msg, queue, hqueue⟩ := List.exists_cons_of_ne_nil fun hnil => h ⟨hwait, hnil⟩
    exact ⟨_, read_message hwait hqueue⟩
  · unfold readStdoutIntoBuffer
    cases hstate : s.metadataState with
    | wait => exact absurd hstate hwait
    | _ => exact ⟨_, rfl⟩

/-- A run without a misfit gives the stream, one with a misfit gives less. Induction on the
buffers. -/
theorem calls_append {avail : List Nat} (hsound : Sound s) (hpos : ∀ n ∈ avail, 0 < n)
    {visited : List FileMetadataPipe} {out : List UInt8} {t : FileMetadataPipe}
    (h : calls w s avail = some (visited, out, t)) :
    ((∀ u ∈ visited, ¬ Misfit u) → out ++ rest w t = rest w s) ∧
      ((∃ u ∈ visited, Misfit u) → (out ++ rest w t).length < (rest w s).length) ∧
      (out ++ rest w t).length ≤ (rest w s).length := by
  induction avail generalizing s visited out with
  | nil =>
    cases h
    exact ⟨fun _ => rfl, by simp, le_refl _⟩
  | cons n avail ih =>
    obtain ⟨c, visited, out, hcall, hmore, hrun, rfl, rfl⟩ := calls_cons h
    rw [List.forall_mem_cons] at hpos
    obtain ⟨hall, hmisfits, hle⟩ := ih (call_sound hsound hpos.1 hcall hmore) hpos.2 hrun
    by_cases hmisfit : Misfit s
    · obtain ⟨-, hout, hlt⟩ := misfit_goes (w := w) hsound hmisfit hpos.1 hcall
      have hless : (c.out ++ out ++ rest w t).length < (rest w s).length := by
        rw [hout, List.nil_append]
        exact lt_of_le_of_lt hle hlt
      exact ⟨fun hnone => absurd hmisfit (hnone s List.mem_cons_self), fun _ => hless,
        le_of_lt hless⟩
    · have happend := call_append hsound hmisfit hpos.1 hcall hmore
      have hrest : (rest w s).length = c.out.length + (rest w c.pipe).length := by
        rw [← happend, List.length_append]
      have hout : (c.out ++ out ++ rest w t).length = c.out.length + (out ++ rest w t).length := by
        rw [List.append_assoc, List.length_append]
      refine ⟨fun hnone => ?_, fun hsome => ?_, by omega⟩
      · rw [List.append_assoc, hall fun u hu => hnone u (List.mem_cons_of_mem _ hu), happend]
      · obtain ⟨u, hu, hmisfitAt⟩ := hsome
        obtain rfl | hu := List.mem_cons.mp hu
        · exact absurd hmisfitAt hmisfit
        · have hless := hmisfits ⟨u, hu, hmisfitAt⟩
          omega

theorem calls_end {s : FileMetadataPipe} (hsound : Sound s) (hfitting : Fitting w s)
    (hqueue : ∀ msg ∈ s.queue, msg.Fits w) (avail : Nat → Nat)
    (hpos : ∀ i, 0 < avail i) :
    ∃ k visited out t, calls w s ((List.range k).map avail) = some (visited, out, t) ∧ AtEnd t := by
  by_cases hend : AtEnd s
  · exact ⟨0, [], [], s, rfl, hend⟩
  · obtain ⟨c, hcall⟩ := call_exists (w := w) (n := avail 0) hend
    have hmore := call_more hsound hfitting (hpos 0) hcall
    have hnear := call_distance hsound (hpos 0) hcall hmore
    obtain ⟨hfitting', hqueue'⟩ := call_fitting hsound hfitting hqueue (hpos 0) hcall
    obtain ⟨k, visited, out, t, hrun, hdone⟩ := calls_end (call_sound hsound (hpos 0) hcall hmore)
      hfitting' hqueue' (fun i => avail (i + 1)) fun i => hpos (i + 1)
    refine ⟨k + 1, s :: visited, c.out ++ out, t, ?_, hdone⟩
    rw [List.range_succ_eq_map, List.map_cons, List.map_map]
    have hrun' : calls w c.pipe (List.map (avail ∘ Nat.succ) (List.range k)) =
        some (visited, out, t) := hrun
    simp only [calls, hcall, hmore, if_true, hrun', Option.map_some]
termination_by distance w s
decreasing_by exact hnear

theorem start_sound (queue : List Message) : Sound (start queue) :=
  Sound.plain (⟨by decide, by decide⟩ : Adler32.Reduced (adlerSums 0)) rfl (by simp [start])
    (Nat.zero_le _) (by simp [start])

theorem rest_start (queue : List Message) : rest w (start queue) = streamOf w [] queue := rfl

theorem AtEnd.rest_eq {t : FileMetadataPipe} (h : AtEnd t) : rest w t = [] := by
  rw [rest, current, h.1, h.2]
  rfl

theorem calls_stream {queue : List Message} {avail : List Nat} (hpos : ∀ n ∈ avail, 0 < n)
    {visited : List FileMetadataPipe} {out : List UInt8} {t : FileMetadataPipe}
    (hrun : calls w (start queue) avail = some (visited, out, t)) (hend : AtEnd t) :
    out = streamOf w [] queue ↔ ∀ s ∈ visited, ¬ Misfit s := by
  obtain ⟨hsame, hless, -⟩ := calls_append (start_sound queue) hpos hrun
  rw [hend.rest_eq, List.append_nil, rest_start] at hsame hless
  refine ⟨?_, hsame⟩
  rintro hout s hs hmisfit
  exact absurd (congrArg List.length hout) (Nat.ne_of_lt (hless ⟨s, hs, hmisfit⟩))

theorem pos_of_mem_range {avail : Nat → Nat} (hpos : ∀ i, 0 < avail i) (k : Nat) :
    ∀ n ∈ (List.range k).map avail, 0 < n := by
  intro n hn
  obtain ⟨i, -, rfl⟩ := List.mem_map.mp hn
  exact hpos i

theorem start_end {queue : List Message} (hfits : ∀ msg ∈ queue, msg.Fits w) {avail : Nat → Nat}
    (hpos : ∀ i, 0 < avail i) :
    ∃ k visited out t, calls w (start queue) ((List.range k).map avail) = some (visited, out, t) ∧
      AtEnd t :=
  calls_end (start_sound queue) (fitting_of_rank (by simp [start, stateRank])) hfits avail hpos

/-- With buffers of any sizes the messages are sent to their end. What comes out is the stream,
with a checksum behind each of its parts, if and only if there is no misfit. -/
theorem stream_sent_iff (w : World) (queue : List Message) (hfits : ∀ msg ∈ queue, msg.Fits w)
    (avail : Nat → Nat) (hpos : ∀ i, 0 < avail i) :
    ∃ k visited out t, calls w (start queue) ((List.range k).map avail) = some (visited, out, t) ∧
      AtEnd t ∧ (out = streamOf w [] queue ↔ ∀ s ∈ visited, ¬ Misfit s) := by
  obtain ⟨k, visited, out, t, hrun, hend⟩ := start_end hfits hpos
  exact ⟨k, visited, out, t, hrun, hend, calls_stream (pos_of_mem_range hpos k) hrun hend⟩

def plainWorld : World where
  fileType := fun _ => some .file
  lastModified := fun _ => 0
  accessed := fun _ => 0
  fileTokens := fun _ => []
  lstat := fun _ => some ⟨0, 0o100644, 0, 0, 0, 0, 0, 0, 0, 0, 0⟩
  symlinkTarget := fun _ => none
  listXattr := fun _ => .names []
  getXattr := fun _ _ => none
  sha512 := fun _ => List.replicate 64 0

def twoBytes : Message :=
  .sendFile [97] [97] 0 0 (some fun _ => some
    { origPath := [97], content := [1, 2], size := 2, version := 0, seeks := true })

theorem stream_sent_twoBytes : ∃ k visited out t,
    calls plainWorld (start [twoBytes]) ((List.range k).map fun _ => 8) = some (visited, out, t) ∧
      AtEnd t ∧ (out = streamOf plainWorld [] [twoBytes] ↔ ∀ s ∈ visited, ¬ Misfit s) :=
  stream_sent_iff plainWorld [twoBytes]
    (List.forall_mem_singleton.mpr fun _ _ _ hmetadata => Option.some.inj hmetadata ▸ rfl)
    (fun _ => 8) fun _ => by decide

/-- Buffers of two bytes are full with the metadata, and its checksum is left out. -/
theorem twoBytes_differ : ¬ ∀ (w : World) (queue : List Message) (avail avail' : List Nat),
    (∀ msg ∈ queue, msg.Fits w) → (∀ n ∈ avail, 0 < n) → (∀ n ∈ avail', 0 < n) →
      ∀ visited visited' out out' t t', calls w (start queue) avail = some (visited, out, t) →
        calls w (start queue) avail' = some (visited', out', t') → AtEnd t → AtEnd t' →
          out = out' := by
  intro hsame
  have hfits : ∀ msg ∈ [twoBytes], msg.Fits plainWorld :=
    List.forall_mem_singleton.mpr fun _ _ _ hmetadata => Option.some.inj hmetadata ▸ rfl
  have hlarge : (calls plainWorld (start [twoBytes]) (List.replicate 7 8)).map (fun run =>
      (run.2.1.length, run.2.2.metadataState, run.2.2.queue.length)) = some (17, .wait, 0) := by
    decide
  have hsmall : (calls plainWorld (start [twoBytes]) (List.replicate 9 2)).map (fun run =>
      (run.2.1.length, run.2.2.metadataState, run.2.2.queue.length)) = some (13, .wait, 0) := by
    decide
  rw [Option.map_eq_some_iff] at hlarge hsmall
  obtain ⟨⟨visited, out, t⟩, hrun, hresult⟩ := hlarge
  obtain ⟨⟨visited', out', t'⟩, hrun', hresult'⟩ := hsmall
  simp only [Prod.mk.injEq, List.length_eq_zero_iff] at hresult hresult'
  have hout := hsame plainWorld [twoBytes] (List.replicate 7 8) (List.replicate 9 2) hfits
    (by decide) (by decide) visited visited' out out' t t' hrun hrun' hresult.2 hresult'.2
  exact absurd (hresult.1.symm.trans ((congrArg List.length hout).trans hresult'.1)) (by decide)

end Runs

end Metadata
end UrBackup
