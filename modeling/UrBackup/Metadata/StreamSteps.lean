import UrBackup.Metadata.MetadataStream
import Mathlib.Data.List.GetD

/-! One call of the client and the metadata stream: what the call gives is what the stream has
next. -/
namespace UrBackup
namespace Metadata

open ByteOrder Adler32 FileMetadataPipe

variable {w : World} {s : FileMetadataPipe} {n : Nat}

section Names

theorem Sound.plain (hreduced : Reduced (adlerSums s.currChecksum))
    (hinit : s.backupState = .statInit) (hkeys : ∀ key ∈ s.eattrKeys, key ≠ [])
    (hoff : s.fnOff ≤ (if s.metadataState = .fn ∨ s.metadataState = .rawFileFn then
      s.publicFn.length else 4))
    (hstate : s.metadataState ∉ [.common, .os, .rawFileDataSize, .rawFileData]) : Sound s := by
  simp only [List.mem_cons, List.not_mem_nil, not_or, or_false] at hstate
  obtain ⟨hcommon, hos, hsize, hdata⟩ := hstate
  exact {
    reduced := hreduced
    statInit := fun _ => hinit
    fnOff_le := hoff
    common := fun h => absurd h hcommon
    keyOff_lt := fun h => absurd h hos
    valOff_lt := fun h => absurd h hos
    keys_ne := hkeys
    fileSize := fun h => absurd h (not_or.mpr ⟨hsize, hdata⟩)
    fileOff := fun h => absurd h hsize
    transmitted := fun h => absurd h hdata }

theorem sendFnSize_keeps {next : MetadataState} (h : Sound s)
    (hstate : s.metadataState = .fnSize ∧ next = .fn ∨
      s.metadataState = .rawFileFnSize ∧ next = .rawFileFn) (hn : 0 < n) :
    Keeps w s (s.sendFnSize n next) := by
  have hinit := h.statInit (by rintro h; simp [h] at hstate)
  have hoff : s.fnOff ≤ 4 := by
    obtain ⟨hstate, rfl⟩ | ⟨hstate, rfl⟩ := hstate <;> simpa [hstate] using h.fnOff_le
  have hlen := length_emit_le (littleEndian 4 s.publicFn.length) s.fnOff n
  have hemit := sumFrom_emit h.reduced (littleEndian 4 s.publicFn.length) s.publicFn s.fnOff n
  rw [littleEndian_length] at hlen
  by_cases hend : s.fnOff + (emit (littleEndian 4 s.publicFn.length) s.fnOff n).length = 4
  · rw [hend, List.drop_of_length_le (by simp), List.nil_append] at hemit
    simp only [sendFnSize, hend, if_true]
    obtain ⟨hstate, rfl⟩ | ⟨hstate, rfl⟩ := hstate
    all_goals exact {
      out_append := by
        simp only [rest, current, hstate, List.drop_zero]
        rw [← hemit]
        simp [body, rawBody, readMetadata]
      sound := Sound.plain (reduced_urbAdler32 h.reduced _) hinit h.keys_ne (Nat.zero_le _)
        (by simp)
      queue := rfl
      forward := .inl (by simp [rank, stateRank, hstate]) }
  · simp only [sendFnSize, hend, if_false]
    obtain ⟨hstate, rfl⟩ | ⟨hstate, rfl⟩ := hstate
    all_goals exact {
      out_append := by
        simp only [rest, current, hstate]
        rw [← hemit]
        simp [body, rawBody, readMetadata]
      sound := Sound.plain (reduced_urbAdler32 h.reduced _) hinit h.keys_ne
        (by simp [hstate]; omega) (by simp [hstate])
      queue := rfl
      forward := .inr ⟨by simp [rank, stateRank, hstate], emit_ne_nil (by simp; omega) hn⟩ }

theorem sendFn_keeps {next : MetadataState} (h : Sound s)
    (hstate : s.metadataState = .fn ∧ next = .fnChecksum ∨
      s.metadataState = .rawFileFn ∧ next = .rawFileFnChecksum) (hn : 0 < n) :
    Keeps w s (s.sendFn n next) := by
  have hinit := h.statInit (by rintro h; simp [h] at hstate)
  have hoff : s.fnOff ≤ s.publicFn.length := by
    obtain ⟨hstate, rfl⟩ | ⟨hstate, rfl⟩ := hstate <;> simpa [hstate] using h.fnOff_le
  have hlen := length_emit_le s.publicFn s.fnOff n
  have hreduced := reduced_urbAdler32 h.reduced (emit s.publicFn s.fnOff n)
  have hemit := sumFrom_emit h.reduced s.publicFn [] s.fnOff n
  rw [List.append_nil, List.append_nil] at hemit
  by_cases hend : s.fnOff + (emit s.publicFn s.fnOff n).length = s.publicFn.length
  · rw [hend, List.drop_length, sumFrom_nil hreduced] at hemit
    simp only [sendFn, hend, if_true]
    obtain ⟨hstate, rfl⟩ | ⟨hstate, rfl⟩ := hstate
    all_goals exact {
      out_append := by
        simp only [rest, current, hstate, List.drop_zero]
        rw [← hemit]
        simp [body, rawBody, readMetadata]
      sound := Sound.plain hreduced hinit h.keys_ne (Nat.zero_le _) (by simp)
      queue := rfl
      forward := .inl (by simp [rank, stateRank, hstate]) }
  · simp only [sendFn, hend, if_false]
    obtain ⟨hstate, rfl⟩ | ⟨hstate, rfl⟩ := hstate
    all_goals exact {
      out_append := by
        simp only [rest, current, hstate]
        rw [← hemit]
        simp [body, rawBody, readMetadata]
      sound := Sound.plain hreduced hinit h.keys_ne (by simp [hstate]; omega) (by simp [hstate])
      queue := rfl
      forward := .inr ⟨by simp [rank, stateRank, hstate], emit_ne_nil (by omega) hn⟩ }

end Names

section Checksums

theorem sendChecksum_keeps {done : FileMetadataPipe → Bool × FileMetadataPipe}
    {tail : List UInt8} (h : Sound s)
    (hplain : s.metadataState ∈ [.fnChecksum, .osChecksum, .fileChecksum, .rawFileFnChecksum])
    (hcurrent : ∀ off, current w { s with fnOff := off } =
      (checksumBytes s.currChecksum).drop off ++ tail)
    (hdone : (done { s with fnOff := 4 }).1 = true →
      Keeps w { s with fnOff := 4 } ⟨[], true, (done { s with fnOff := 4 }).2⟩)
    (hn : 0 < n) (hmore : (s.sendChecksum n done).more = true) :
    Keeps w s (s.sendChecksum n done) := by
  have hname : ¬ (s.metadataState = .fn ∨ s.metadataState = .rawFileFn) := by
    rintro (hstate | hstate) <;> simp [hstate] at hplain
  have hparts : s.metadataState ∉ [.common, .os, .rawFileDataSize, .rawFileData] := by
    intro hmem
    simp only [List.mem_cons, List.not_mem_nil, or_false] at hmem
    obtain hstate | hstate | hstate | hstate := hmem <;> simp [hstate] at hplain
  have hinit := h.statInit (by rintro hstate; simp [hstate] at hplain)
  have hoff : s.fnOff ≤ 4 := by simpa only [if_neg hname] using h.fnOff_le
  have hbytes : (checksumBytes s.currChecksum).length = 4 := littleEndian_length 4 _
  have hlen := length_emit_le (checksumBytes s.currChecksum) s.fnOff n
  have hemit := emit_append (checksumBytes s.currChecksum) s.fnOff n
  have hrest : rest w s = (checksumBytes s.currChecksum).drop s.fnOff ++
      (tail ++ streamOf w s.lastPublicFns s.queue) := by
    rw [rest, ← List.append_assoc, ← hcurrent s.fnOff]
  by_cases hend : s.fnOff + (emit (checksumBytes s.currChecksum) s.fnOff n).length = 4
  · have hgoes : (done { s with fnOff := 4 }).1 = true := by
      change (s.fnOff + (emit (littleEndian 4 s.currChecksum.toNat) s.fnOff n).length = 4) at hend
      simpa only [sendChecksum, hend, if_true] using hmore
    have hcall : s.sendChecksum n done =
        ⟨emit (checksumBytes s.currChecksum) s.fnOff n, true, (done { s with fnOff := 4 }).2⟩ := by
      change (s.fnOff + (emit (littleEndian 4 s.currChecksum.toNat) s.fnOff n).length = 4) at hend
      simp only [sendChecksum, hend, if_true, hgoes, checksumBytes]
    have hkeeps := hdone hgoes
    have hsent : rest w (done { s with fnOff := 4 }).2 =
        tail ++ streamOf w s.lastPublicFns s.queue := by
      have hout := hkeeps.out_append
      rw [List.nil_append, rest, rest, hcurrent 4, List.drop_of_length_le (by omega)] at hout
      exact hout
    rw [hend, List.drop_of_length_le (by omega), List.append_nil] at hemit
    rw [hcall]
    exact { hkeeps with
      out_append := by rw [hsent, hrest, hemit]
      forward := hkeeps.forward.imp id fun hsame => absurd rfl hsame.2 }
  · have hcall : s.sendChecksum n done =
        ⟨emit (checksumBytes s.currChecksum) s.fnOff n, true, { s with
          fnOff := s.fnOff + (emit (checksumBytes s.currChecksum) s.fnOff n).length }⟩ :=
      if_neg hend
    rw [hcall]
    exact {
      out_append := by
        rw [rest, hcurrent, hrest, ← hemit]
        simp only [List.append_assoc]
      sound := Sound.plain h.reduced hinit h.keys_ne (by rw [if_neg hname]; simp only; omega)
        hparts
      queue := rfl
      forward := .inr ⟨rfl, emit_ne_nil (by omega) hn⟩ }

theorem Keeps.of_eq {t : FileMetadataPipe} {c : Call} (h : Keeps w t c) (hrest : rest w t = rest w s)
    (hqueue : t.queue = s.queue) (hrank : rank t = rank s) : Keeps w s c where
  out_append := h.out_append.trans hrest
  sound := h.sound
  queue := h.queue.trans hqueue
  forward := hrank ▸ h.forward

theorem fnChecksum_keeps (h : Sound s) (hstate : s.metadataState = .fnChecksum) (hn : 0 < n)
    (hmore : (s.sendChecksum n fnDone).more = true) : Keeps w s (s.sendChecksum n fnDone) := by
  have hinit := h.statInit (by simp [hstate])
  have hend : (checksumBytes s.currChecksum).drop 4 = [] :=
    List.drop_of_length_le (le_of_eq (littleEndian_length 4 _))
  refine @sendChecksum_keeps w s n _ (body w s) h (by simp [hstate]) ?_ ?_ hn hmore
  · intro off
    simp [current, hstate, body, readMetadata]
  · intro hgoes
    by_cases hcallback : s.callback = false
    · have hdone : (fnDone { s with fnOff := 4 }).2 = { s with
          fnOff := 4
          metadataBuffer := []
          metadataBufferOff := 0
          currChecksum := urbAdler32 0 none
          metadataState := .common } := by simp only [fnDone, hcallback, if_true]
      rw [hdone]
      exact {
        out_append := by simp [rest, current, hcallback, hstate, hend, body]
        sound := {
          reduced := reduced_init
          statInit := fun _ => hinit
          fnOff_le := by simp
          common := fun _ _ => ⟨rfl, rfl⟩
          keyOff_lt := by simp
          valOff_lt := by simp
          keys_ne := h.keys_ne
          fileSize := by simp
          fileOff := by simp
          transmitted := by simp }
        queue := rfl
        forward := by simp [rank, stateRank, hstate] }
    · have hseeks : s.metadataFileSeeks = true := by
        by_contra hseeks
        simp [fnDone, hcallback, hseeks] at hgoes
      have hdone : (fnDone { s with fnOff := 4 }).2 = { s with
          fnOff := 4
          metadataBuffer := []
          metadataBufferOff := 0
          currChecksum := urbAdler32 0 none
          metadataState := .file } := by
        simp [fnDone, hcallback, hseeks]
      rw [hdone]
      exact {
        out_append := by
          simp [rest, current, hcallback, hstate, hend, body, summed, readMetadata]
        sound := Sound.plain reduced_init hinit h.keys_ne (by simp) (by simp)
        queue := rfl
        forward := by simp [rank, stateRank, hstate] }

theorem osChecksum_keeps (h : Sound s)
    (hstate : s.metadataState = .osChecksum ∨ s.metadataState = .fileChecksum) (hn : 0 < n) :
    Keeps w s (s.sendChecksum n toWait) := by
  have hinit := h.statInit (by rintro h; simp [h] at hstate)
  have hmore : (s.sendChecksum n toWait).more = true := by
    rw [sendChecksum]
    split <;> rfl
  refine @sendChecksum_keeps w s n _ [] h ?_ ?_ ?_ hn hmore
  · obtain hstate | hstate := hstate <;> simp [hstate]
  · intro off
    obtain hstate | hstate := hstate <;> simp [current, hstate]
  · intro _
    have hend : (checksumBytes s.currChecksum).drop 4 = [] :=
      List.drop_of_length_le (le_of_eq (littleEndian_length 4 _))
    exact {
      out_append := by
        obtain hstate | hstate := hstate <;> simp [rest, current, toWait, hstate, hend]
      sound := Sound.plain h.reduced hinit h.keys_ne (by simp [toWait]) (by simp [toWait])
      queue := rfl
      forward := by
        obtain hstate | hstate := hstate <;> simp [rank, stateRank, toWait, hstate] }

theorem rawFileFnChecksum_keeps (h : Sound s) (hstate : s.metadataState = .rawFileFnChecksum)
    (hn : 0 < n) : Keeps w s (s.sendChecksum n rawFnDone) := by
  have hinit := h.statInit (by simp [hstate])
  have hmore : (s.sendChecksum n rawFnDone).more = true := by
    rw [sendChecksum]
    split <;> rfl
  refine @sendChecksum_keeps w s n _ (rawBody w s) h (by simp [hstate]) ?_ ?_ hn hmore
  · intro off
    simp [current, hstate, rawBody]
  · intro _
    have hend : (checksumBytes s.currChecksum).drop 4 = [] :=
      List.drop_of_length_le (le_of_eq (littleEndian_length 4 _))
    exact {
      out_append := by simp [rest, current, rawFnDone, hstate, hend, rawBody]
      sound := { h with
        statInit := fun _ => hinit
        fnOff_le := by simp [rawFnDone]
        common := by simp [rawFnDone]
        keyOff_lt := by simp [rawFnDone]
        valOff_lt := by simp [rawFnDone]
        fileSize := fun _ => rfl
        fileOff := fun _ => rfl
        transmitted := by simp [rawFnDone] }
      queue := rfl
      forward := by simp [rank, stateRank, rawFnDone, hstate] }

end Checksums

section Buffers

theorem sendBuffer_keeps {done : FileMetadataPipe → FileMetadataPipe} {tail : List UInt8}
    (hcurrent : ∀ off, current w { s with metadataBufferOff := off } =
      s.metadataBuffer.drop off ++ tail)
    (hsound : ∀ off, Sound { s with metadataBufferOff := off })
    (hdone : ∀ off, s.metadataBuffer.length ≤ off → Keeps w { s with metadataBufferOff := off }
      ⟨[], true, done { s with metadataBufferOff := off }⟩)
    (hn : 0 < n) : Keeps w s (s.sendBuffer n done) := by
  have hemit := emit_append s.metadataBuffer s.metadataBufferOff n
  have hrest : ∀ off, rest w { s with metadataBufferOff := off } =
      s.metadataBuffer.drop off ++ (tail ++ streamOf w s.lastPublicFns s.queue) := by
    intro off
    rw [rest, ← List.append_assoc, ← hcurrent off]
  have hrest' := hrest s.metadataBufferOff
  by_cases hend : s.metadataBuffer.length - (s.metadataBufferOff +
      (emit s.metadataBuffer s.metadataBufferOff n).length) = 0
  · have hkeeps := hdone _ (Nat.le_of_sub_eq_zero hend)
    have hout := hkeeps.out_append
    rw [List.nil_append, hrest] at hout
    simp only [sendBuffer, hend, if_true]
    exact { hkeeps with
      out_append := by
        rw [hout, ← List.append_assoc, hemit]
        exact hrest'.symm
      forward := hkeeps.forward.imp id fun hsame => absurd rfl hsame.2 }
  · simp only [sendBuffer, hend, if_false]
    exact {
      out_append := by
        rw [hrest, ← List.append_assoc, hemit]
        exact hrest'.symm
      sound := hsound _
      queue := rfl
      forward := .inr ⟨rfl, emit_ne_nil (by omega) hn⟩ }

theorem commonBuffer_keeps (h : Sound s) (hstate : s.metadataState = .common)
    (hbuffer : s.metadataBuffer.length ≠ 0) (hn : 0 < n) :
    Keeps w s (s.sendBuffer n fun s => { s with
      metadataBuffer := []
      metadataBufferOff := 0
      currChecksum := urbAdler32 0 none
      metadataState := .os }) := by
  have hinit := h.statInit (by simp [hstate])
  refine @sendBuffer_keeps w s n _ (summed (osData w s.localFn)) ?_ ?_ ?_ hn
  · intro off
    simp only [current, hstate, if_neg hbuffer]
  · exact fun off => ⟨h.reduced, h.statInit, h.fnOff_le, fun _ hempty => absurd hempty hbuffer,
      h.keyOff_lt, h.valOff_lt, h.keys_ne, h.fileSize, h.fileOff, h.transmitted⟩
  · intro off hend
    exact {
      out_append := by
        simp only [rest, current, osRest, hstate, hinit, if_neg hbuffer,
          List.drop_of_length_le hend, summed, List.nil_append]
      sound := {
        reduced := reduced_init
        statInit := by simp
        fnOff_le := by simpa [hstate] using h.fnOff_le
        common := by simp
        keyOff_lt := by simp [hinit]
        valOff_lt := by simp [hinit]
        keys_ne := h.keys_ne
        fileSize := by simp
        fileOff := by simp
        transmitted := by simp }
      queue := rfl
      forward := by simp [rank, stateRank, hstate] }

theorem sendCommon_keeps (h : Sound s) (hstate : s.metadataState = .common) (hn : 0 < n)
    (hmore : (s.sendCommon w n).more = true) : Keeps w s (s.sendCommon w n) := by
  by_cases hbuffer : s.metadataBuffer.length = 0
  · have hfits : (commonRecord w s.localFn s.folderItems s.metadataId).length + 2 * 4 <
        metadataBufferSize := by
      by_contra hlarge
      simp only [sendCommon, hbuffer, if_true, hlarge, if_false] at hmore
      exact absurd hmore (by decide)
    obtain ⟨hchecksum, hoff⟩ := h.common hstate hbuffer
    have hinit := h.statInit (by simp [hstate])
    simp only [sendCommon, hbuffer, if_true, hfits]
    -- the record is in the buffer now, the stream is as before
    refine Keeps.of_eq (commonBuffer_keeps ?_ hstate (by simp) hn) ?_ rfl rfl
    · exact { h with
        reduced := reduced_urbAdler32 h.reduced _
        common := fun _ hempty => absurd hempty (by simp)
        keyOff_lt := by simp [hstate]
        valOff_lt := by simp [hstate]
        fileSize := by simp [hstate]
        fileOff := by simp [hstate]
        transmitted := by simp [hstate] }
    · simp [rest, current, hstate, hbuffer, hoff, hchecksum, commonPart, summed, sumFrom,
        checksumBytes]
  · simp only [sendCommon, hbuffer, if_false]
    exact commonBuffer_keeps h hstate hbuffer hn

theorem rawFileDataSize_keeps (h : Sound s) (hstate : s.metadataState = .rawFileDataSize)
    (hn : 0 < n) : Keeps w s (s.sendBuffer n fun s => { s with
      metadataBuffer := []
      metadataBufferOff := 0
      currChecksum := urbAdler32 0 none
      metadataState := .rawFileData
      transmitted := [] }) := by
  have hoff := h.fileOff hstate
  refine @sendBuffer_keeps w s n _ (s.transmitFile ++ w.sha512 s.transmitFile) ?_ ?_ ?_ hn
  · intro off
    simp [current, hstate]
  · exact fun off => ⟨h.reduced, h.statInit, h.fnOff_le, by simp [hstate], h.keyOff_lt,
      h.valOff_lt, h.keys_ne, h.fileSize, h.fileOff, h.transmitted⟩
  · intro off hend
    exact {
      out_append := by
        simp [rest, current, hstate, hoff, List.drop_of_length_le hend]
      sound := {
        reduced := reduced_init
        statInit := fun _ => h.statInit (by simp [hstate])
        fnOff_le := by simpa [hstate] using h.fnOff_le
        common := by simp
        keyOff_lt := by simp
        valOff_lt := by simp
        keys_ne := h.keys_ne
        fileSize := fun _ => h.fileSize (.inl hstate)
        fileOff := by simp
        transmitted := by simp [hoff] }
      queue := rfl
      forward := by simp [rank, stateRank, hstate] }

theorem rawFileDataChecksum_keeps (h : Sound s) (hstate : s.metadataState = .rawFileDataChecksum)
    (hn : 0 < n) : Keeps w s (s.sendBuffer n fun s => { s with metadataState := .wait }) := by
  have hinit := h.statInit (by simp [hstate])
  have hoff : s.fnOff ≤ 4 := by simpa [hstate] using h.fnOff_le
  refine @sendBuffer_keeps w s n _ [] ?_ ?_ ?_ hn
  · intro off
    simp [current, hstate]
  · exact fun off => Sound.plain h.reduced hinit h.keys_ne (by simpa [hstate] using hoff)
      (by simp [hstate])
  · intro off hend
    exact {
      out_append := by simp [rest, current, hstate, List.drop_of_length_le hend]
      sound := Sound.plain h.reduced hinit h.keys_ne (by simpa using hoff) (by simp)
      queue := rfl
      forward := by simp [rank, stateRank, hstate] }

end Buffers

section Os

/-- What a call for the part of the operating system does, other than to the checksum. -/
structure Transmits (w : World) (s : FileMetadataPipe) (c : Call) : Prop where
  frame : c.pipe = { s with
    metadataBuffer := c.pipe.metadataBuffer
    metadataBufferOff := c.pipe.metadataBufferOff
    backupState := c.pipe.backupState
    eattrIdx := c.pipe.eattrIdx
    eattrKeys := c.pipe.eattrKeys
    eattrKeyOff := c.pipe.eattrKeyOff
    eattrVal := c.pipe.eattrVal
    eattrValOff := c.pipe.eattrValOff }
  out_append : c.out ++ (if c.more then osRest w c.pipe else []) = osRest w s
  keyOff_lt : c.more = true → c.pipe.backupState = .eAttrValsKey →
    c.pipe.eattrIdx < c.pipe.eattrKeys.length ∧
      c.pipe.eattrKeyOff < (c.pipe.eattrKeys.getD c.pipe.eattrIdx []).length
  valOff_lt : c.more = true → c.pipe.backupState = .eAttrValsVal →
    c.pipe.eattrIdx < c.pipe.eattrKeys.length ∧ c.pipe.eattrValOff < c.pipe.eattrVal.length
  keys_ne : ∀ key ∈ c.pipe.eattrKeys, key ≠ []
  forward : c.more = true → backupRank c.pipe.backupState < backupRank s.backupState ∨
    backupRank c.pipe.backupState = backupRank s.backupState ∧ c.out ≠ []

theorem addString_ne_nil (str : List UInt8) : addString str ≠ [] := by
  apply List.ne_nil_of_length_pos
  simp [addString, addUInt]

theorem getXattr_ne_nil (w : World) (localFn key : List UInt8) : getXattr w localFn key ≠ [] := by
  unfold getXattr
  split
  · apply List.ne_nil_of_length_pos
    simp
  · exact addString_ne_nil _

theorem getXattrKeys_ne_nil {localFn : List UInt8} {keys : List (List UInt8)}
    (h : getXattrKeys w localFn = some keys) {key : List UInt8} (hkey : key ∈ keys) : key ≠ [] := by
  unfold getXattrKeys at h
  split at h
  · cases h
    simp at hkey
  · cases h
  · cases h
    obtain ⟨name, -, rfl⟩ := List.mem_map.mp hkey
    exact addString_ne_nil name

theorem attributes_drop {localFn : List UInt8} {keys : List (List UInt8)} {i : Nat}
    (h : i < keys.length) :
    attributes w localFn (keys.drop i) = keys.getD i [] ++ (getXattr w localFn (keys.getD i []) ++
      attributes w localFn (keys.drop (i + 1))) := by
  rw [List.drop_eq_getElem_cons h, attributes, List.flatMap_cons, List.getD_eq_getElem _ _ h,
    List.append_assoc]
  rfl

theorem sendStat_transmits (hstate : s.backupState = .stat) (hkeys : ∀ key ∈ s.eattrKeys, key ≠ [])
    (hn : 0 < n) : Transmits w s (s.sendStat n) := by
  have hemit := emit_append s.metadataBuffer s.metadataBufferOff n
  by_cases hend : s.metadataBuffer.length - (s.metadataBufferOff +
      (emit s.metadataBuffer s.metadataBufferOff n).length) = 0
  · rw [List.drop_of_length_le (Nat.le_of_sub_eq_zero hend), List.append_nil] at hemit
    simp only [sendStat, hend, if_true]
    exact {
      frame := rfl
      out_append := by simp [osRest, hstate, hemit]
      keyOff_lt := by simp
      valOff_lt := by simp
      keys_ne := hkeys
      forward := fun _ => .inl (by simp [backupRank, hstate]) }
  · simp only [sendStat, hend, if_false]
    exact {
      frame := rfl
      out_append := by simp [osRest, hstate, ← hemit]
      keyOff_lt := by simp [hstate]
      valOff_lt := by simp [hstate]
      keys_ne := hkeys
      forward := fun _ => .inr ⟨rfl, emit_ne_nil (by omega) hn⟩ }

theorem sendEAttr_transmits (hstate : s.backupState = .eAttr)
    (hkeys : ∀ key ∈ s.eattrKeys, key ≠ []) (hn : 0 < n) : Transmits w s (s.sendEAttr n) := by
  have hemit := emit_append s.metadataBuffer s.metadataBufferOff n
  by_cases hend : s.metadataBuffer.length - (s.metadataBufferOff +
      (emit s.metadataBuffer s.metadataBufferOff n).length) = 0
  · rw [List.drop_of_length_le (Nat.le_of_sub_eq_zero hend), List.append_nil] at hemit
    by_cases hempty : s.eattrKeys = []
    · have hcall : s.sendEAttr n = ⟨emit s.metadataBuffer s.metadataBufferOff n, false, { s with
          metadataBufferOff := s.metadataBufferOff +
            (emit s.metadataBuffer s.metadataBufferOff n).length }⟩ := by
        rw [sendEAttr]
        exact (if_pos hend).trans (if_neg (not_not.mpr hempty))
      rw [hcall]
      exact {
        frame := rfl
        out_append := by simp [osRest, hstate, hemit, hempty, attributes]
        keyOff_lt := by simp
        valOff_lt := by simp
        keys_ne := hkeys
        forward := by simp }
    · have hpos : 0 < s.eattrKeys.length := List.length_pos_of_ne_nil hempty
      have hfirst : s.eattrKeys.getD 0 [] ≠ [] := by
        rw [List.getD_eq_getElem _ _ hpos]
        exact hkeys _ (List.getElem_mem hpos)
      have hattributes := @attributes_drop w s.localFn s.eattrKeys 0 hpos
      rw [List.drop_zero] at hattributes
      simp only [sendEAttr, hend, if_true, ne_eq, hempty, not_false_eq_true]
      exact {
        frame := rfl
        out_append := by simp [osRest, hstate, hemit, hattributes, laterAttributes]
        keyOff_lt := fun _ _ => ⟨hpos, List.length_pos_of_ne_nil hfirst⟩
        valOff_lt := by simp
        keys_ne := hkeys
        forward := fun _ => .inl (by simp [backupRank, hstate]) }
  · simp only [sendEAttr, hend, if_false]
    exact {
      frame := rfl
      out_append := by simp [osRest, hstate, ← hemit]
      keyOff_lt := by simp [hstate]
      valOff_lt := by simp [hstate]
      keys_ne := hkeys
      forward := fun _ => .inr ⟨rfl, emit_ne_nil (by omega) hn⟩ }

theorem sendKey_transmits (hstate : s.backupState = .eAttrValsKey)
    (hoff : s.eattrIdx < s.eattrKeys.length ∧
      s.eattrKeyOff < (s.eattrKeys.getD s.eattrIdx []).length)
    (hkeys : ∀ key ∈ s.eattrKeys, key ≠ []) (hn : 0 < n) : Transmits w s (s.sendKey w n) := by
  have hemit := emit_append (s.eattrKeys.getD s.eattrIdx []) s.eattrKeyOff n
  have hne := emit_ne_nil hoff.2 hn
  by_cases hend : (s.eattrKeys.getD s.eattrIdx []).length - (s.eattrKeyOff +
      (emit (s.eattrKeys.getD s.eattrIdx []) s.eattrKeyOff n).length) = 0
  · rw [List.drop_of_length_le (Nat.le_of_sub_eq_zero hend), List.append_nil] at hemit
    have hval := getXattr_ne_nil w s.localFn (s.eattrKeys.getD s.eattrIdx [])
    simp only [sendKey, hend, if_true]
    exact {
      frame := rfl
      out_append := by simp only [osRest, hstate, hemit, if_true, List.drop_zero, laterAttributes]
      keyOff_lt := by simp
      valOff_lt := fun _ _ => ⟨hoff.1, List.length_pos_of_ne_nil hval⟩
      keys_ne := hkeys
      forward := fun _ => .inr ⟨by simp [backupRank, hstate], hne⟩ }
  · simp only [sendKey, hend, if_false]
    exact {
      frame := rfl
      out_append := by
        simp only [osRest, hstate, ← hemit, if_true, laterAttributes, List.append_assoc]
      keyOff_lt := fun _ _ => ⟨hoff.1, by simp only; omega⟩
      valOff_lt := by simp [hstate]
      keys_ne := hkeys
      forward := fun _ => .inr ⟨rfl, hne⟩ }

theorem sendVal_transmits (hstate : s.backupState = .eAttrValsVal)
    (hoff : s.eattrIdx < s.eattrKeys.length ∧ s.eattrValOff < s.eattrVal.length)
    (hkeys : ∀ key ∈ s.eattrKeys, key ≠ []) (hn : 0 < n) :
    Transmits w s (s.sendVal n) := by
  have hemit := emit_append s.eattrVal s.eattrValOff n
  have hne := emit_ne_nil hoff.2 hn
  by_cases hend : s.eattrVal.length - (s.eattrValOff + (emit s.eattrVal s.eattrValOff n).length) = 0
  · rw [List.drop_of_length_le (Nat.le_of_sub_eq_zero hend), List.append_nil] at hemit
    by_cases hnext : s.eattrIdx + 1 < s.eattrKeys.length
    · have hkey : s.eattrKeys.getD (s.eattrIdx + 1) [] ≠ [] := by
        rw [List.getD_eq_getElem _ _ hnext]
        exact hkeys _ (List.getElem_mem hnext)
      simp only [sendVal, hend, if_true, hnext]
      exact {
        frame := rfl
        out_append := by
          simp only [osRest, hstate, hemit, if_true, List.drop_zero, laterAttributes,
            attributes_drop hnext]
        keyOff_lt := fun _ _ => ⟨hnext, List.length_pos_of_ne_nil hkey⟩
        valOff_lt := by simp
        keys_ne := hkeys
        forward := fun _ => .inr ⟨by simp [backupRank, hstate], hne⟩ }
    · simp only [sendVal, hend, if_true, hnext, if_false]
      exact {
        frame := rfl
        out_append := by
          simp [osRest, hstate, hemit, laterAttributes, attributes,
            List.drop_of_length_le (Nat.le_of_not_lt hnext)]
        keyOff_lt := by simp
        valOff_lt := by simp
        keys_ne := hkeys
        forward := by simp }
  · simp only [sendVal, hend, if_false]
    exact {
      frame := rfl
      out_append := by
        simp only [osRest, hstate, ← hemit, if_true, laterAttributes, List.append_assoc]
      keyOff_lt := by simp [hstate]
      valOff_lt := fun _ _ => ⟨hoff.1, by simp only; omega⟩
      keys_ne := hkeys
      forward := fun _ => .inr ⟨rfl, hne⟩ }

theorem transmitCurrMetadata_transmits (h : Sound s) (hstate : s.metadataState = .os)
    (hn : 0 < n) : Transmits w s (s.transmitCurrMetadata w n) := by
  cases hbackup : s.backupState with
  | statInit =>
    cases hdata : statRecord w s.localFn with
    | none =>
      simp only [transmitCurrMetadata, hbackup, hdata]
      exact {
        frame := rfl
        out_append := by simp [osRest, hbackup, osData, hdata]
        keyOff_lt := by simp
        valOff_lt := by simp
        keys_ne := h.keys_ne
        forward := by simp }
    | some data =>
      simp only [transmitCurrMetadata, hbackup, hdata]
      have hsent := @sendStat_transmits w { s with
        metadataBuffer := addString data
        metadataBufferOff := 0
        backupState := .stat } n rfl h.keys_ne hn
      exact { hsent with
        out_append := by rw [hsent.out_append]; simp [osRest, hbackup, osData, hdata]
        forward := fun hmore => .inl (by
          have hle := hsent.forward hmore
          simp only [backupRank, hbackup] at hle ⊢
          omega) }
  | stat =>
    simp only [transmitCurrMetadata, hbackup]
    exact sendStat_transmits hbackup h.keys_ne hn
  | eAttrInit =>
    cases hkeys : getXattrKeys w s.localFn with
    | none =>
      simp only [transmitCurrMetadata, hbackup, hkeys]
      exact {
        frame := rfl
        out_append := by simp [osRest, hbackup, attributeData, hkeys]
        keyOff_lt := by simp
        valOff_lt := by simp
        keys_ne := by simp
        forward := by simp }
    | some keys =>
      simp only [transmitCurrMetadata, hbackup, hkeys]
      have hsent := @sendEAttr_transmits w { s with
        eattrKeys := keys
        metadataBuffer := littleEndian 8 keys.length
        metadataBufferOff := 0
        backupState := .eAttr } n rfl (fun key hkey => getXattrKeys_ne_nil hkeys hkey) hn
      exact { hsent with
        out_append := by rw [hsent.out_append]; simp [osRest, hbackup, attributeData, hkeys]
        forward := fun hmore => .inl (by
          have hle := hsent.forward hmore
          simp only [backupRank, hbackup] at hle ⊢
          omega) }
  | eAttr =>
    simp only [transmitCurrMetadata, hbackup]
    exact sendEAttr_transmits hbackup h.keys_ne hn
  | eAttrValsKey =>
    simp only [transmitCurrMetadata, hbackup]
    exact sendKey_transmits hbackup (h.keyOff_lt hstate hbackup) h.keys_ne hn
  | eAttrValsVal =>
    simp only [transmitCurrMetadata, hbackup]
    exact sendVal_transmits hbackup (h.valOff_lt hstate hbackup) h.keys_ne hn

theorem sendOs_keeps (h : Sound s) (hstate : s.metadataState = .os) (hn : 0 < n) :
    Keeps w s (s.sendOs w n) := by
  have hsent := @transmitCurrMetadata_transmits w s n h hstate hn
  obtain ⟨⟨out, more, pipe⟩, hcall⟩ : ∃ c, c = s.transmitCurrMetadata w n := ⟨_, rfl⟩
  rw [← hcall] at hsent
  obtain ⟨buffer, bufferOff, backup, idx, keys, keyOff, val, valOff, hpipe⟩ :
      ∃ buffer bufferOff backup idx keys keyOff val valOff, pipe = { s with
        metadataBuffer := buffer
        metadataBufferOff := bufferOff
        backupState := backup
        eattrIdx := idx
        eattrKeys := keys
        eattrKeyOff := keyOff
        eattrVal := val
        eattrValOff := valOff } := ⟨_, _, _, _, _, _, _, _, hsent.frame⟩
  have hsum : (if 0 < out.length then
      { pipe with currChecksum := urbAdler32 pipe.currChecksum (some out) } else pipe) =
      { pipe with currChecksum := urbAdler32 s.currChecksum (some out) } := by
    subst hpipe
    cases out with
    | nil => simp [urbAdler32_nil h.reduced]
    | cons b out => simp
  have hreduced := reduced_urbAdler32 h.reduced out
  have hfnOff : s.fnOff ≤ 4 := by simpa [hstate] using h.fnOff_le
  simp only [sendOs, ← hcall, hsum]
  cases more with
  | true =>
    have hout : out ++ osRest w pipe = osRest w s := hsent.out_append
    simp only [if_true]
    subst hpipe
    exact {
      out_append := by
        simp only [rest, current, hstate]
        rw [← hout, sumFrom_append h.reduced, List.append_assoc]
        rfl
      sound := {
        reduced := hreduced
        statInit := by simp [hstate]
        fnOff_le := by simpa [hstate] using hfnOff
        common := by simp [hstate]
        keyOff_lt := fun _ => hsent.keyOff_lt rfl
        valOff_lt := fun _ => hsent.valOff_lt rfl
        keys_ne := hsent.keys_ne
        fileSize := by simp [hstate]
        fileOff := by simp [hstate]
        transmitted := by simp [hstate] }
      queue := rfl
      forward := (hsent.forward rfl).imp (fun hlt => Nat.add_lt_add_left hlt _)
        fun hsame => ⟨congrArg (8 * stateRank s.metadataState + ·) hsame.1, hsame.2⟩ }
  | false =>
    have hout : out = osRest w s := by
      have hout := hsent.out_append
      simpa using hout
    simp only [Bool.false_eq_true, if_false]
    subst hpipe
    exact {
      out_append := by
        simp only [rest, current, hstate, List.drop_zero]
        rw [← hout, sumFrom, List.append_assoc]
      sound := Sound.plain hreduced rfl hsent.keys_ne (by simp) (by simp)
      queue := rfl
      forward := .inl (by
        simp only [rank, stateRank, backupRank, hstate]
        omega) }

end Os

section Files

theorem length_paddedTo (size : Nat) (content : List UInt8) :
    (paddedTo size content).length = size := by
  rw [paddedTo, List.length_append, List.length_take, List.length_replicate]
  omega

theorem paddedTo_append {r size : Nat} (h : r ≤ size) (content : List UInt8) :
    paddedTo r content ++ paddedTo (size - r) (content.drop r) = paddedTo size content := by
  by_cases hcontent : r ≤ content.length
  · have htake : content.take size = content.take r ++ (content.drop r).take (size - r) := by
      rw [← List.take_add, Nat.add_sub_cancel' h]
    have hnone : r - content.length = 0 := Nat.sub_eq_zero_of_le hcontent
    have hzeros : size - r - (content.length - r) = size - content.length := by omega
    simp only [paddedTo, htake, hnone, List.length_drop, hzeros, List.replicate_zero,
      List.append_nil, List.append_assoc]
  · have hdrop : content.drop r = [] := List.drop_of_length_le (by omega)
    have hzeros : size - content.length = r - content.length + (size - r) := by omega
    simp only [paddedTo, hdrop, hzeros, List.take_nil, List.nil_append, List.length_nil,
      Nat.sub_zero, List.replicate_add, List.append_assoc,
      List.take_of_length_le (by omega : content.length ≤ r),
      List.take_of_length_le (by omega : content.length ≤ size)]

/-- The metadata of a file is at its end, with an offset from the checksum before it. -/
def Misfit (s : FileMetadataPipe) : Prop :=
  s.metadataState = .file ∧ s.metadataFileSize = 0 ∧ s.fnOff ≠ 0

theorem sendFile_end (hsize : s.metadataFileSize = 0) :
    s.sendFile n = ⟨[], true, { s with metadataState := .fileChecksum }⟩ := by
  simp [sendFile, hsize]

theorem sendFile_end_goes (h : Sound s) (hstate : s.metadataState = .file)
    (hsize : s.metadataFileSize = 0) : Goes s (s.sendFile n) := by
  have hoff : s.fnOff ≤ 4 := by simpa [hstate] using h.fnOff_le
  rw [sendFile_end hsize]
  exact {
    sound := Sound.plain h.reduced (h.statInit (by simp [hstate])) h.keys_ne (by simpa using hoff)
      (by simp)
    queue := rfl
    forward := by simp [rank, stateRank, hstate] }

theorem sendFile_part_keeps (h : Sound s) (hstate : s.metadataState = .file)
    (hsize : s.metadataFileSize ≠ 0) (hn : 0 < n) : Keeps w s (s.sendFile n) := by
  have hinit := h.statInit (by simp [hstate])
  have hoff : s.fnOff ≤ 4 := by simpa [hstate] using h.fnOff_le
  obtain ⟨r, hr⟩ : ∃ r, r = min n s.metadataFileSize := ⟨_, rfl⟩
  have hpos : r ≠ 0 := by omega
  have hle : r ≤ s.metadataFileSize := hr ▸ Nat.min_le_right _ _
  have hreduced := reduced_urbAdler32 h.reduced (paddedTo r s.metadataFile)
  have hout : paddedTo r s.metadataFile ++
      sumFrom (urbAdler32 s.currChecksum (some (paddedTo r s.metadataFile)))
        (paddedTo (s.metadataFileSize - r) (s.metadataFile.drop r)) =
      sumFrom s.currChecksum (paddedTo s.metadataFileSize s.metadataFile) := by
    rw [← sumFrom_append h.reduced, paddedTo_append hle]
  have hne : paddedTo r s.metadataFile ≠ [] := by
    apply List.ne_nil_of_length_pos
    rw [length_paddedTo]
    exact Nat.pos_of_ne_zero hpos
  simp only [sendFile, ← hr, if_neg hpos]
  by_cases hshort : r < n
  · rw [if_pos hshort]
    exact {
      out_append := by
        simp only [rest, current, hstate]
        rw [← List.append_assoc]
        exact congrArg (· ++ _) hout
      sound := Sound.plain hreduced hinit h.keys_ne (by simp) (by simp)
      queue := rfl
      forward := .inr ⟨by simp [rank, stateRank, hstate], hne⟩ }
  · rw [if_neg hshort]
    exact {
      out_append := by
        simp only [rest, current, hstate]
        rw [← List.append_assoc]
        exact congrArg (· ++ _) hout
      sound := Sound.plain hreduced hinit h.keys_ne (by simpa [hstate] using hoff)
        (by simp [hstate])
      queue := rfl
      forward := .inr ⟨rfl, hne⟩ }

theorem sendFile_goes (w : World) (h : Sound s) (hstate : s.metadataState = .file) (hn : 0 < n) :
    Goes s (s.sendFile n) := by
  by_cases hsize : s.metadataFileSize = 0
  · exact sendFile_end_goes h hstate hsize
  · exact (@sendFile_part_keeps w s n h hstate hsize hn).toGoes

theorem sendFile_keeps (h : Sound s) (hstate : s.metadataState = .file) (hn : 0 < n)
    (hfit : ¬ Misfit s) : Keeps w s (s.sendFile n) := by
  by_cases hsize : s.metadataFileSize = 0
  · have hoff : s.fnOff = 0 := by
      by_contra hoff
      exact hfit ⟨hstate, hsize, hoff⟩
    refine { sendFile_end_goes h hstate hsize with out_append := ?_ }
    rw [sendFile_end hsize]
    simp [rest, current, hstate, hsize, hoff, readMetadata, sumFrom_nil h.reduced]
  · exact sendFile_part_keeps h hstate hsize hn

theorem Misfit.rest_lt (h : Sound s) (hmisfit : Misfit s) :
    (s.sendFile n).out = [] ∧ (rest w (s.sendFile n).pipe).length < (rest w s).length := by
  obtain ⟨hstate, hsize, hoff⟩ := hmisfit
  rw [sendFile_end hsize]
  refine ⟨rfl, ?_⟩
  simp [rest, current, hstate, hsize, readMetadata, sumFrom_nil h.reduced, checksumBytes]
  omega

theorem sendRawMetadata_keeps (h : Sound s) (hstate : s.metadataState = .raw) (hn : 0 < n) :
    Keeps w s (s.sendRawMetadata n) := by
  have hinit := h.statInit (by simp [hstate])
  have hoff : s.fnOff ≤ 4 := by simpa [hstate] using h.fnOff_le
  have hemit := emit_append s.rawMetadata s.metadataBufferOff n
  by_cases hend : s.rawMetadata.length - (s.metadataBufferOff +
      (emit s.rawMetadata s.metadataBufferOff n).length) = 0
  · rw [List.drop_of_length_le (Nat.le_of_sub_eq_zero hend), List.append_nil] at hemit
    simp only [sendRawMetadata, hend, if_true]
    exact {
      out_append := by simp [rest, current, hstate, hemit]
      sound := Sound.plain h.reduced hinit h.keys_ne (by simpa using hoff) (by simp)
      queue := rfl
      forward := by simp [rank, stateRank, hstate] }
  · simp only [sendRawMetadata, hend, if_false]
    exact {
      out_append := by simp [rest, current, hstate, ← hemit]
      sound := Sound.plain h.reduced hinit h.keys_ne (by simpa [hstate] using hoff)
        (by simp [hstate])
      queue := rfl
      forward := .inr ⟨rfl, emit_ne_nil (by omega) hn⟩ }

theorem sendRawFileData_keeps (h : Sound s) (hstate : s.metadataState = .rawFileData)
    (hn : 0 < n) : Keeps w s (s.sendRawFileData w n) := by
  have hinit := h.statInit (by simp [hstate])
  have hoff : s.fnOff ≤ 4 := by simpa [hstate] using h.fnOff_le
  have hsize := h.fileSize (.inr hstate)
  obtain ⟨hle, htransmitted⟩ := h.transmitted hstate
  obtain ⟨maxRead, hmax⟩ : ∃ maxRead, maxRead =
      min (s.metadataFileSize - s.metadataFileOff) (min 32768 n) := ⟨_, rfl⟩
  have hlen := length_emit_le s.transmitFile s.metadataFileOff maxRead
  have hemit := emit_append s.transmitFile s.metadataFileOff maxRead
  have htaken : s.transmitted ++ emit s.transmitFile s.metadataFileOff maxRead =
      s.transmitFile.take (s.metadataFileOff +
        (emit s.transmitFile s.metadataFileOff maxRead).length) := by
    rw [htransmitted, List.take_add, emit, List.length_take, List.take_eq_take_min]
    simp
  simp only [sendRawFileData, ← hmax]
  by_cases hend : s.metadataFileOff + (emit s.transmitFile s.metadataFileOff maxRead).length =
      s.metadataFileSize
  · rw [hend, hsize, List.drop_length, List.append_nil] at hemit
    rw [hend, hsize, List.take_length, hemit] at htaken
    rw [if_pos hend]
    exact {
      out_append := by simp [rest, current, hstate, hemit, htaken]
      sound := Sound.plain h.reduced hinit h.keys_ne (by simpa using hoff) (by simp)
      queue := rfl
      forward := by simp [rank, stateRank, hstate] }
  · have hne : emit s.transmitFile s.metadataFileOff maxRead ≠ [] := by
      by_cases hread : s.metadataFileOff = s.metadataFileSize
      · omega
      · exact emit_ne_nil (by omega) (by omega)
    rw [if_neg hend]
    exact {
      out_append := by simp [rest, current, hstate, ← hemit]
      sound := { h with
        common := by simp [hstate]
        keyOff_lt := by simp [hstate]
        valOff_lt := by simp [hstate]
        fileSize := fun _ => hsize
        fileOff := by simp [hstate]
        transmitted := fun _ => ⟨by simp only; omega, htaken⟩ }
      queue := rfl
      forward := .inr ⟨rfl, hne⟩ }

end Files

end Metadata
end UrBackup
