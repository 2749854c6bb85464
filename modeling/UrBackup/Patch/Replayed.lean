import UrBackup.Patch.WritePatch

/-! A patch file replays to the data that was delivered. -/
namespace UrBackup
namespace WritePatch

open ByteOrder ChunkPatcher

def placed (records : List (Nat × List UInt8)) : List (UInt8 × Nat) :=
  records.flatMap fun r => r.2.zipIdx r.1

@[simp] theorem placed_append (records records' : List (Nat × List UInt8)) :
    placed (records ++ records') = placed records ++ placed records' := List.flatMap_append

@[simp] theorem placed_singleton (pos : Nat) (data : List UInt8) :
    placed [(pos, data)] = data.zipIdx pos := by
  simp [placed]

/-- The records of a patch file that are not invalidated, read one by one. -/
inductive ReadsAll : ReadFile → List (Nat × List UInt8) → Prop where
  | done {patch} (h : (readNextValidPatch patch).1 = false) : ReadsAll patch []
  | next {patch off size patch' rest} (h : readNextValidPatch patch = (true, ⟨Int.ofNat off, size⟩, patch'))
      (hrest : ReadsAll (patch'.advance size) rest) :
      ReadsAll patch ((off, patch'.next size) :: rest)

theorem ReadsAll.unique {patch : ReadFile} {records records' : List (Nat × List UInt8)}
    (h : ReadsAll patch records) (h' : ReadsAll patch records') : records = records' := by
  induction h generalizing records' with
  | done hend =>
    cases h' with
    | done => rfl
    | next hnext => simp [hnext] at hend
  | next hnext _ ih =>
    cases h' with
    | done hend => simp [hnext] at hend
    | next hnext' hrest' =>
      cases hnext.symm.trans hnext'
      rw [ih hrest']

theorem readsAll_of_stands {patch : ReadFile} {valid : List (Nat × List UInt8)}
    (h : Stands patch valid) : ReadsAll patch valid := by
  induction valid generalizing patch with
  | nil => exact .done (readNextValidPatch_spec h).1
  | cons r rest ih =>
    obtain ⟨hfound, hheader, hdata⟩ := readNextValidPatch_spec h
    obtain ⟨hnext, hrest⟩ := hdata.next (Nat.le_refl _)
    rw [List.take_length] at hnext
    rw [List.drop_length] at hrest
    have hread := @ReadsAll.next _ r.1 _ _ _ (Prod.ext hfound (Prod.ext hheader rfl)) (ih hrest.nil)
    rwa [hnext] at hread

section Invalidate

def recordPositions (pos : Nat) : List PatchRecord → List Nat
  | [] => []
  | r :: records => pos :: recordPositions (pos + r.encode.length) records

theorem recordPositions_append (pos : Nat) (records records' : List PatchRecord) :
    recordPositions pos (records ++ records') = recordPositions pos records ++
      recordPositions (pos + (encodeRecords records).length) records' := by
  induction records generalizing pos with
  | nil => rfl
  | cons r records ih =>
    simp only [List.cons_append, recordPositions, ih, encodeRecords, List.flatMap_cons,
      List.length_append, Nat.add_assoc]

def invalid (r : PatchRecord) : PatchRecord := { r with offset := none }

theorem validRecords_invalid (records : List PatchRecord) :
    validRecords (records.map invalid) = [] := by
  simp [validRecords, invalid]

theorem encode_invalid_length (r : PatchRecord) : (invalid r).encode.length = r.encode.length := by
  simp [PatchRecord.encode, invalid]

theorem encodeRecords_append (records records' : List PatchRecord) :
    encodeRecords (records ++ records') = encodeRecords records ++ encodeRecords records' :=
  List.flatMap_append

theorem invalidateAt_record {f : ReadFile} {pre post : List UInt8} {r : PatchRecord}
    (h : f.content = pre ++ (r.encode ++ post)) :
    (PatchWriter.invalidateAt f pre.length).content = pre ++ ((invalid r).encode ++ post) := by
  have hsplit : f.content = pre ++ (littleEndian 8 (r.offset.getD (2 ^ 64 - 1)) ++
      (littleEndian 4 r.data.length ++ r.data ++ post)) := by
    simp only [h, PatchRecord.encode, List.append_assoc]
  have hwrite : ((f.seek pre.length).write (littleEndian 8 (2 ^ 64 - 1))).content = _ :=
    ReadFile.write_over hsplit rfl (by simp)
  simpa only [PatchWriter.invalidateAt, PatchRecord.encode, invalid, Option.getD_none,
    List.append_assoc] using hwrite

theorem foldl_invalidateAt {f : ReadFile} {pre post : List UInt8} {records : List PatchRecord}
    (h : f.content = pre ++ (encodeRecords records ++ post)) :
    ((recordPositions pre.length records).foldl PatchWriter.invalidateAt f).content =
      pre ++ (encodeRecords (records.map invalid) ++ post) := by
  induction records generalizing f pre with
  | nil => exact h
  | cons r records ih =>
    have hrecord : f.content = pre ++ (r.encode ++ (encodeRecords records ++ post)) := by
      simpa only [encodeRecords, List.flatMap_cons, List.append_assoc] using h
    have hrest := @ih (PatchWriter.invalidateAt f pre.length) (pre ++ (invalid r).encode)
      (by rw [invalidateAt_record hrecord, List.append_assoc])
    rw [List.length_append, encode_invalid_length] at hrest
    simpa only [recordPositions, List.foldl_cons, List.map_cons, encodeRecords, List.flatMap_cons,
      List.append_assoc] using hrest

end Invalidate

namespace PatchWriter

/-- The patch file has records of earlier blocks and of the current one, and the writer knows
where the latter are. -/
structure Holds (w : PatchWriter) (old current : List PatchRecord) : Prop where
  content : ∃ size : List UInt8, size.length = 8 ∧
    w.patchfile.content = size ++ encodeRecords (old ++ current)
  pos_eq : w.patchfile.pos = w.patchfilePos
  patchfilePos_eq : w.patchfilePos = w.patchfile.content.length
  last_eq : w.lastChunkPatches = recordPositions (8 + (encodeRecords old).length) current
  fits : ∀ r ∈ old ++ current, r.Fits
  buf_le : w.patchBuf.length ≤ chunkSize

def pending (w : PatchWriter) : List (UInt8 × Nat) := w.patchBuf.zipIdx w.patchBufStart

variable {w : PatchWriter} {old current : List PatchRecord}

theorem Holds.writePatchInt (h : w.Holds old current) {pos : Nat} {buf : List UInt8}
    (hpos : pos < 2 ^ 63) (hlength : buf.length < 2 ^ 32) :
    (w.writePatchInt pos buf).Holds old (current ++ [⟨some pos, buf⟩]) := by
  obtain ⟨size, hsize, hcontent⟩ := h.content
  have hheader : (w.patchfile.write (littleEndian 8 pos ++ littleEndian 4 buf.length)).content =
      w.patchfile.content ++ (littleEndian 8 pos ++ littleEndian 4 buf.length) :=
    ReadFile.write_at_end (h.pos_eq.trans h.patchfilePos_eq)
  have hbuf : ((w.patchfile.write (littleEndian 8 pos ++ littleEndian 4 buf.length)).write buf).content =
      (w.patchfile.write (littleEndian 8 pos ++ littleEndian 4 buf.length)).content ++ buf :=
    ReadFile.write_at_end (by simp [hheader, h.pos_eq, h.patchfilePos_eq])
  have hfile : (w.writePatchInt pos buf).patchfile.content =
      w.patchfile.content ++ (⟨some pos, buf⟩ : PatchRecord).encode := by
    rw [PatchWriter.writePatchInt, hbuf, hheader]
    simp [PatchRecord.encode]
  have hlen : (⟨some pos, buf⟩ : PatchRecord).encode.length = 12 + buf.length := by
    simp only [PatchRecord.encode, List.length_append, littleEndian_length]
  have hend : w.patchfilePos = 8 + (encodeRecords old).length + (encodeRecords current).length := by
    rw [h.patchfilePos_eq, hcontent, encodeRecords_append]
    simp only [List.length_append, hsize]
    omega
  constructor
  · refine ⟨size, hsize, ?_⟩
    rw [hfile, hcontent]
    simp [encodeRecords]
  · change (w.patchfile.pos + _) + buf.length = w.patchfilePos + (12 + buf.length)
    simp [h.pos_eq]
    omega
  · rw [hfile, List.length_append, hlen, ← h.patchfilePos_eq]
    rfl
  · rw [recordPositions_append, ← h.last_eq, ← hend]
    rfl
  · rw [← List.append_assoc]
    refine List.forall_mem_append.mpr ⟨h.fits, List.forall_mem_singleton.mpr ⟨hpos, hlength⟩⟩
  · exact h.buf_le

theorem Holds.flushBuf (h : w.Holds old current) (hpos : w.patchBufStart < 2 ^ 63) :
    w.flushBuf.Holds old (current ++ [⟨some w.patchBufStart, w.patchBuf⟩]) := by
  have hle := h.buf_le
  have hsize : chunkSize < 2 ^ 32 := by decide
  have hsmall : w.patchBuf.length < 2 ^ 32 := by omega
  have hwritten := h.writePatchInt hpos hsmall
  exact ⟨hwritten.content, hwritten.pos_eq, hwritten.patchfilePos_eq, hwritten.last_eq,
    hwritten.fits, Nat.zero_le _⟩

theorem Holds.buffered (h : w.Holds old current) {buf : List UInt8} (hle : buf.length ≤ chunkSize)
    (pos : Nat) : ({ w with patchBuf := buf, patchBufStart := pos } : PatchWriter).Holds old current :=
  ⟨h.content, h.pos_eq, h.patchfilePos_eq, h.last_eq, h.fits, hle⟩

/-- The writer has bytes of the current block, in the file or in its buffer, and what goes on at
a position goes on with the buffer. -/
def Delivers (w : PatchWriter) (old : List PatchRecord) (bytes : List (UInt8 × Nat)) (pos : Nat) :
    Prop :=
  ∃ current, w.Holds old current ∧ placed (validRecords current) ++ w.pending = bytes ∧
    (w.patchBuf = [] ∨ pos = w.patchBufStart + w.patchBuf.length)

theorem placed_record (current : List PatchRecord) (pos : Nat) (buf : List UInt8) :
    placed (validRecords (current ++ [⟨some pos, buf⟩])) =
      placed (validRecords current) ++ buf.zipIdx pos := by
  simp [validRecords]

theorem pending_of_nil (h : w.patchBuf = []) : w.pending = [] := by
  simp [pending, h]

variable {bytes : List (UInt8 × Nat)} {pos : Nat} {buf : List UInt8}

theorem Delivers.flushBuf (h : w.Delivers old bytes pos) (hstart : w.patchBufStart < 2 ^ 63)
    (pos' : Nat) : w.flushBuf.Delivers old bytes pos' := by
  obtain ⟨current, hholds, hbytes, -⟩ := h
  refine ⟨_, hholds.flushBuf hstart, ?_, .inl rfl⟩
  rw [placed_record, pending_of_nil rfl, List.append_nil]
  exact hbytes

theorem Delivers.append (h : w.Delivers old bytes pos)
    (hroom : buf.length ≤ chunkSize - w.patchBuf.length)
    (hcontinues : w.patchBuf.length = 0 ∨ pos = w.patchBufStart + w.patchBuf.length) :
    ({ w with
      patchBuf := w.patchBuf ++ buf
      patchBufStart := if w.patchBuf.length = 0 then pos else w.patchBufStart } : PatchWriter).Delivers
        old (bytes ++ buf.zipIdx pos) (pos + buf.length) := by
  obtain ⟨current, hholds, hbytes, -⟩ := h
  have hle := hholds.buf_le
  refine ⟨current, hholds.buffered (by rw [List.length_append]; omega) _, ?_, .inr ?_⟩
  · rw [← hbytes, List.append_assoc]
    congr 1
    by_cases hempty : w.patchBuf.length = 0
    · have hnil := List.length_eq_zero_iff.mp hempty
      simp [pending, hnil]
    · have hpos : pos = w.patchBufStart + w.patchBuf.length := hcontinues.resolve_left hempty
      simp only [pending, hempty, if_false, List.zipIdx_append, hpos]
  · by_cases hempty : w.patchBuf.length = 0
    · have hnil := List.length_eq_zero_iff.mp hempty
      simp [hnil]
    · have hpos : pos = w.patchBufStart + w.patchBuf.length := hcontinues.resolve_left hempty
      simp only [hempty, if_false, List.length_append, hpos]
      omega

theorem Delivers.startBuf (h : w.Delivers old bytes pos) (hnil : w.patchBuf = [])
    (hlength : buf.length ≤ chunkSize) :
    ({ w with patchBuf := w.patchBuf ++ buf, patchBufStart := pos } : PatchWriter).Delivers old
      (bytes ++ buf.zipIdx pos) (pos + buf.length) := by
  have hroom : buf.length ≤ chunkSize - w.patchBuf.length := by
    rw [hnil]
    exact hlength
  have hbuf := h.append hroom (.inl (by rw [hnil]; rfl))
  rwa [if_pos (by rw [hnil]; rfl)] at hbuf

theorem Delivers.writePatchInt (h : w.Delivers old bytes pos) (hnil : w.patchBuf = [])
    (hpos : pos < 2 ^ 63) (hlength : buf.length < 2 ^ 32) :
    (w.writePatchInt pos buf).Delivers old (bytes ++ buf.zipIdx pos) (pos + buf.length) := by
  obtain ⟨current, hholds, hbytes, -⟩ := h
  refine ⟨_, hholds.writePatchInt hpos hlength, ?_, .inl hnil⟩
  rw [placed_record, pending_of_nil (w := w.writePatchInt pos buf) hnil, List.append_nil, ← hbytes,
    pending_of_nil hnil, List.append_nil]

/-- Whatever is done with the buffer, a piece is added to the bytes of the block, and behind the
last piece nothing is left in the buffer. -/
theorem Delivers.writePatch (h : w.Delivers old bytes pos) (last : Bool)
    (hpos : pos + buf.length < 2 ^ 63) (hlength : buf.length < 2 ^ 32) :
    (w.writePatch pos buf last).Delivers old (bytes ++ buf.zipIdx pos) (pos + buf.length) ∧
      (last = true → (w.writePatch pos buf last).patchBuf = []) := by
  have hstart : w.patchBuf = [] ∨ w.patchBufStart ≤ pos := by
    obtain ⟨-, -, -, hcontinues⟩ := h
    exact hcontinues.imp_right (by omega)
  by_cases hfits : buf.length ≤ chunkSize - w.patchBuf.length ∧
      (w.patchBuf.length = 0 ∨ pos = w.patchBufStart + w.patchBuf.length)
  · have happend := h.append hfits.1 hfits.2
    have hle : (if w.patchBuf.length = 0 then pos else w.patchBufStart) < 2 ^ 63 := by
      by_cases hempty : w.patchBuf.length = 0
      · rw [if_pos hempty]
        omega
      · rw [if_neg hempty]
        have hle := hstart.resolve_left (mt List.length_eq_zero_iff.mpr hempty)
        omega
    rw [PatchWriter.writePatch, if_pos hfits]
    by_cases hflush : last = true ∨ (w.patchBuf ++ buf).length = chunkSize ∨ buf.length = 0
    · rw [if_pos hflush]
      exact ⟨happend.flushBuf hle _, fun _ => rfl⟩
    · rw [if_neg hflush]
      exact ⟨happend, fun hlast => absurd (.inl hlast) hflush⟩
  · rw [PatchWriter.writePatch, if_neg hfits]
    dsimp only
    have hflushed : (if 0 < w.patchBuf.length then w.flushBuf else w).Delivers old bytes pos ∧
        (if 0 < w.patchBuf.length then w.flushBuf else w).patchBuf = [] := by
      by_cases hbuf : 0 < w.patchBuf.length
      · rw [if_pos hbuf]
        have hne : w.patchBuf ≠ [] := List.length_pos_iff.mp hbuf
        have hle : w.patchBufStart ≤ pos := hstart.resolve_left hne
        exact ⟨h.flushBuf (by omega) _, rfl⟩
      · rw [if_neg hbuf]
        exact ⟨h, by simpa using hbuf⟩
    obtain ⟨hdelivers, hnil⟩ := hflushed
    by_cases hsmall : last = false ∧ 0 < buf.length ∧ buf.length < chunkSize
    · rw [if_pos hsmall]
      refine ⟨hdelivers.startBuf hnil hsmall.2.2.le, fun hlast => ?_⟩
      cases hsmall.1.symm.trans hlast
    · rw [if_neg hsmall]
      exact ⟨hdelivers.writePatchInt hnil (by omega) hlength, fun _ => hnil⟩

theorem Holds.invalidateLastPatches (h : w.Holds old current) :
    w.invalidateLastPatches.Holds (old ++ current.map invalid) [] := by
  obtain ⟨size, hsize, hcontent⟩ := h.content
  have hpre : (size ++ encodeRecords old).length = 8 + (encodeRecords old).length := by
    rw [List.length_append, hsize]
  have hsplit : w.patchfile.content = (size ++ encodeRecords old) ++ (encodeRecords current ++ []) := by
    rw [hcontent, encodeRecords_append, List.append_nil, List.append_assoc]
  have hinvalid := foldl_invalidateAt hsplit
  rw [hpre, ← h.last_eq, List.append_nil] at hinvalid
  have hlength : (encodeRecords (current.map invalid)).length = (encodeRecords current).length := by
    simp [encodeRecords, List.length_flatMap, Function.comp_def, encode_invalid_length]
  refine ⟨⟨size, hsize, ?_⟩, rfl, ?_, rfl, ?_, Nat.zero_le _⟩
  · rw [List.append_nil, encodeRecords_append, ← List.append_assoc]
    exact hinvalid
  · change w.patchfilePos = (w.lastChunkPatches.foldl invalidateAt w.patchfile).content.length
    rw [hinvalid, h.patchfilePos_eq, hsplit, List.append_nil]
    simp only [List.length_append, hlength]
  · rw [List.append_nil]
    refine List.forall_mem_append.mpr ⟨fun r hr => h.fits r (List.mem_append_left _ hr), ?_⟩
    intro r hr
    obtain ⟨r', hr', rfl⟩ := List.mem_map.mp hr
    exact ⟨Nat.two_pow_pos 63, (h.fits r' (List.mem_append_right _ hr')).2⟩

theorem Delivers.invalidateLastPatches (h : w.Delivers old bytes pos) (pos' : Nat) :
    ∃ old', placed (validRecords old') = placed (validRecords old) ∧
      w.invalidateLastPatches.Delivers old' [] pos' := by
  obtain ⟨current, hholds, -⟩ := h
  refine ⟨old ++ current.map invalid, ?_, [], hholds.invalidateLastPatches, rfl, .inl rfl⟩
  rw [validRecords, List.filterMap_append, placed_append, ← validRecords, ← validRecords,
    validRecords_invalid]
  exact List.append_nil _

theorem Delivers.close (h : w.Delivers old bytes pos) (hnil : w.patchBuf = []) (pos' : Nat) :
    ∃ old', placed (validRecords old') = placed (validRecords old) ++ bytes ∧
      ({ w with lastChunkPatches := [], patchBuf := [] } : PatchWriter).Delivers old' [] pos' := by
  obtain ⟨current, hholds, hbytes, -⟩ := h
  refine ⟨old ++ current, ?_, [], ⟨?_, hholds.pos_eq, hholds.patchfilePos_eq, rfl, ?_, ?_⟩, rfl, .inl rfl⟩
  · rw [← hbytes, pending_of_nil hnil, List.append_nil]
    simp [validRecords]
  · rw [List.append_nil]
    exact hholds.content
  · rw [List.append_nil]
    exact hholds.fits
  · exact Nat.zero_le _

theorem Delivers.writePatchSize (h : w.Delivers old bytes pos) (remoteFs : Nat) :
    (w.writePatchSize remoteFs).Delivers old bytes pos := by
  obtain ⟨current, hholds, hbytes, hcontinues⟩ := h
  obtain ⟨size, hsize, hcontent⟩ := hholds.content
  have hfile : ((w.patchfile.seek 0).write (littleEndian 8 remoteFs)).content =
      [] ++ (littleEndian 8 remoteFs ++ encodeRecords (old ++ current)) :=
    ReadFile.write_over hcontent rfl (by simp [hsize])
  have hpos : w.patchfilePos ≠ 0 := by
    rw [hholds.patchfilePos_eq, hcontent, List.length_append]
    omega
  rw [PatchWriter.writePatchSize, if_neg hpos]
  refine ⟨current, ⟨⟨littleEndian 8 remoteFs, by simp, hfile⟩, rfl, ?_, hholds.last_eq, hholds.fits,
    hholds.buf_le⟩, hbytes, hcontinues⟩
  rw [hholds.patchfilePos_eq, hcontent]
  change _ = ((w.patchfile.seek 0).write (littleEndian 8 remoteFs)).content.length
  simp [hfile, hsize]

theorem delivers_fresh (remoteFs : Nat) : (fresh.writePatchSize remoteFs).Delivers [] [] 0 := by
  refine ⟨[], ⟨⟨littleEndian 8 remoteFs, by simp, ?_⟩, ?_, ?_, rfl, by simp, Nat.zero_le _⟩, rfl,
    .inl rfl⟩
  · simp [writePatchSize, fresh, ReadFile.write, encodeRecords]
  · simp [writePatchSize, fresh]
  · simp [writePatchSize, fresh, ReadFile.write]

end PatchWriter

/-- The bytes that count, each with its place: those of earlier blocks and of the current one. -/
structure Delivery where
  closed : List (UInt8 × Nat)
  current : List (UInt8 × Nat)

namespace Delivery

def bytes (d : Delivery) : List (UInt8 × Nat) := d.closed ++ d.current

@[simp] theorem bytes_closed (closed : List (UInt8 × Nat)) : bytes ⟨closed, []⟩ = closed :=
  List.append_nil closed

/-- What is delivered again takes the place of what was delivered of the current block. -/
def step (c : PatchClient) (d : Delivery) : PatchEvent → Delivery
  | .filesize _ => d
  | .wholeBlock _ => d
  | .updateChunk m => if c.newBlock m.start then ⟨d.bytes, []⟩ else d
  | .received buf => ⟨d.closed, d.current ++ (buf.take c.remaining).zipIdx c.filePos⟩
  | .blockHash => ⟨d.bytes, []⟩
  | .wrongHash => ⟨d.closed, []⟩
  | .reconnect => ⟨d.closed, []⟩

/-- Blocks and chunks come in ascending order, a whole block not in the middle of another. -/
def Ascends (d : Delivery) : PatchEvent → Prop
  | .wholeBlock m => d.current = [] ∧ ∀ x ∈ d.bytes, x.2 < m.start
  | .updateChunk m => ∀ x ∈ d.bytes, x.2 < m.start
  | _ => True

end Delivery

/-- A download comes to a state with these bytes delivered. -/
inductive Comes (remoteFs : Nat) : PatchClient → Delivery → Prop where
  | start : Comes remoteFs (PatchClient.start remoteFs) ⟨[], []⟩
  | step {c c' d} (e : PatchEvent) (h : Comes remoteFs c d) (hascends : d.Ascends e)
      (hstep : c.step e = some c') : Comes remoteFs c' (d.step c e)

def Sorted (bytes : List (UInt8 × Nat)) : Prop := bytes.Pairwise fun x y => x.2 < y.2

/-- The client and its patch file against what was delivered. -/
structure Tracks (c : PatchClient) (d : Delivery) : Prop where
  delivers : ∃ old, placed (validRecords old) = d.closed ∧
    c.writer.Delivers old d.current c.filePos
  flushed : c.state = .first → c.writer.patchBuf = []
  missing : c.state = .chunk → 0 < c.remaining
  remaining_lt : c.remaining < 2 ^ 32
  end_lt : c.filePos + c.remaining < 2 ^ 63
  sorted : Sorted d.bytes
  before : c.state ≠ .first → ∀ x ∈ d.bytes, x.2 < c.filePos

theorem sorted_zipIdx (buf : List UInt8) (pos : Nat) : Sorted (buf.zipIdx pos) := by
  have hpositions : ((buf.zipIdx pos).map Prod.snd).Pairwise (· < ·) := by
    rw [List.zipIdx_map_snd]
    exact List.pairwise_lt_range'
  exact List.pairwise_map.mp hpositions

theorem Sorted.append {bytes : List (UInt8 × Nat)} {pos : Nat} (h : Sorted bytes)
    (hbefore : ∀ x ∈ bytes, x.2 < pos) (buf : List UInt8) : Sorted (bytes ++ buf.zipIdx pos) := by
  refine List.pairwise_append.mpr ⟨h, sorted_zipIdx buf pos, fun x hx y hy => ?_⟩
  exact Nat.lt_of_lt_of_le (hbefore x hx) (List.le_snd_of_mem_zipIdx hy)

variable {c : PatchClient} {d : Delivery}

theorem tracks_start (remoteFs : Nat) : Tracks (PatchClient.start remoteFs) ⟨[], []⟩ where
  delivers := ⟨[], rfl, PatchWriter.delivers_fresh remoteFs⟩
  flushed _ := by
    simp [PatchClient.start, PatchWriter.writePatchSize, PatchWriter.fresh]
  missing h := by cases h
  remaining_lt := Nat.two_pow_pos 32
  end_lt := Nat.two_pow_pos 63
  sorted := .nil
  before _ _ hx := by cases hx

theorem Tracks.moves (h : Tracks c d) (hfirst : c.state = .first) (pos : Nat) :
    ∃ old, placed (validRecords old) = d.closed ∧ c.writer.Delivers old d.current pos := by
  obtain ⟨old, hclosed, current, hholds, hbytes, -⟩ := h.delivers
  exact ⟨old, hclosed, current, hholds, hbytes, .inl (h.flushed hfirst)⟩

theorem Tracks.closes (h : Tracks c d) (hfirst : c.state = .first) (pos : Nat) :
    ∃ old, placed (validRecords old) = d.bytes ∧
      ({ c.writer with lastChunkPatches := [], patchBuf := [] } : PatchWriter).Delivers old [] pos := by
  obtain ⟨old, hclosed, hdelivers⟩ := h.delivers
  obtain ⟨old', hold', hdelivers'⟩ := hdelivers.close (h.flushed hfirst) pos
  exact ⟨old', by rw [hold', hclosed, Delivery.bytes], hdelivers'⟩

theorem Tracks.invalidates (h : Tracks c d) (pos : Nat) :
    ∃ old, placed (validRecords old) = d.closed ∧
      c.writer.invalidateLastPatches.Delivers old [] pos := by
  obtain ⟨old, hclosed, hdelivers⟩ := h.delivers
  obtain ⟨old', hold', hdelivers'⟩ := hdelivers.invalidateLastPatches pos
  exact ⟨old', hold'.trans hclosed, hdelivers'⟩

theorem Tracks.sorted_closed (h : Tracks c d) : Sorted (Delivery.bytes ⟨d.closed, []⟩) := by
  rw [Delivery.bytes_closed]
  exact (List.pairwise_append.mp h.sorted).1

/-- The client behind data of a message. -/
structure Wrote (c : PatchClient) (d : Delivery) : Prop where
  delivers : ∃ old, placed (validRecords old) = d.closed ∧
    c.writer.Delivers old d.current c.filePos
  flushed : c.remaining = 0 → c.writer.patchBuf = []
  remaining_lt : c.remaining < 2 ^ 32
  end_lt : c.filePos + c.remaining < 2 ^ 63
  sorted : Sorted d.bytes
  before : ∀ x ∈ d.bytes, x.2 < c.filePos

theorem Wrote.tracks (h : Wrote c d) (hmissing : c.remaining ≠ 0) (hstate : c.state ≠ .first) :
    Tracks c d :=
  ⟨h.delivers, fun hfirst => absurd hfirst hstate, fun _ => Nat.pos_of_ne_zero hmissing,
    h.remaining_lt, h.end_lt, h.sorted, fun _ => h.before⟩

theorem Wrote.ends (h : Wrote c d) (hnone : c.remaining = 0) (hash : Bool) :
    Tracks { c with hashForWholeBlock := hash, state := .first } d :=
  ⟨h.delivers, fun _ => h.flushed hnone, fun hchunk => (by cases hchunk), h.remaining_lt, h.end_lt,
    h.sorted, fun hnot => absurd rfl hnot⟩

theorem Tracks.writeData (h : Tracks c d) (hstate : c.state ≠ .first) {buf : List UInt8}
    (hle : buf.length ≤ c.remaining) :
    Wrote (c.writeData buf) ⟨d.closed, d.current ++ buf.zipIdx c.filePos⟩ := by
  obtain ⟨old, hclosed, hdelivers⟩ := h.delivers
  have hremaining := h.remaining_lt
  have hend := h.end_lt
  have hplace : c.filePos + buf.length < 2 ^ 63 := by omega
  obtain ⟨hwritten, hlast⟩ := hdelivers.writePatch (c.remaining - buf.length == 0) hplace (by omega)
  have hbytes : Delivery.bytes ⟨d.closed, d.current ++ buf.zipIdx c.filePos⟩ =
      d.bytes ++ buf.zipIdx c.filePos := by
    rw [Delivery.bytes, Delivery.bytes, List.append_assoc]
  refine ⟨⟨old, hclosed, hwritten⟩, fun hnone => hlast (beq_iff_eq.mpr hnone), ?_, ?_, ?_, ?_⟩
  · change c.remaining - buf.length < 2 ^ 32
    omega
  · change c.filePos + buf.length + (c.remaining - buf.length) < 2 ^ 63
    omega
  · rw [hbytes]
    exact h.sorted.append (h.before hstate) buf
  · rw [hbytes]
    intro x hx
    change x.2 < c.filePos + buf.length
    rcases List.mem_append.mp hx with hx | hx
    · exact Nat.lt_of_lt_of_le (h.before hstate x hx) (Nat.le_add_right _ _)
    · have hlt := List.snd_lt_of_mem_zipIdx hx
      omega

theorem Tracks.stateBlock (h : Tracks c d) (hstate : c.state = .block) (buf : List UInt8) :
    Tracks (c.stateBlock buf)
      ⟨d.closed, d.current ++ (buf.take c.remaining).zipIdx c.filePos⟩ := by
  have hne : c.state ≠ .first := fun hfirst => by cases hstate.symm.trans hfirst
  have hwrote := h.writeData hne (List.length_take_le c.remaining buf)
  rw [PatchClient.stateBlock]
  by_cases hnone : (c.writeData (buf.take c.remaining)).remaining = 0
  · rw [if_pos hnone]
    exact hwrote.ends hnone true
  · rw [if_neg hnone]
    exact hwrote.tracks hnone hne

theorem Tracks.stateChunk (h : Tracks c d) (hstate : c.state = .chunk) (buf : List UInt8) :
    Tracks (c.stateChunk buf)
      ⟨d.closed, d.current ++ (buf.take c.remaining).zipIdx c.filePos⟩ := by
  have hne : c.state ≠ .first := fun hfirst => by cases hstate.symm.trans hfirst
  rw [PatchClient.stateChunk]
  by_cases hsome : 0 < (buf.take c.remaining).length
  · have hwrote := h.writeData hne (List.length_take_le c.remaining buf)
    rw [if_pos hsome]
    by_cases hnone : (c.writeData (buf.take c.remaining)).remaining = 0
    · rw [if_pos hnone]
      exact hwrote.ends hnone _
    · rw [if_neg hnone]
      exact hwrote.tracks hnone hne
  · have hnil : buf.take c.remaining = [] := by
      simpa only [List.length_pos_iff, not_not] using hsome
    rw [if_neg hsome, if_neg (h.missing hstate).ne', hnil, List.zipIdx_nil, List.append_nil]
    exact h

theorem Tracks.header {w : PatchWriter} (m : Announced)
    (hdelivers : ∃ old, placed (validRecords old) = d.closed ∧ w.Delivers old d.current m.start)
    (hnil : w.patchBuf = []) (hsorted : Sorted d.bytes) (hbefore : ∀ x ∈ d.bytes, x.2 < m.start)
    (hwriter : c.writer = w) (hpos : c.filePos = m.start) (hsize : c.remaining = m.size)
    (hmissing : c.state = .chunk → 0 < m.size) : Tracks c d := by
  subst hwriter
  refine ⟨hpos ▸ hdelivers, fun _ => hnil, hsize ▸ hmissing, hsize ▸ m.size_lt, ?_, hsorted,
    fun _ => hpos ▸ hbefore⟩
  rw [hpos, hsize]
  exact m.end_lt

theorem Tracks.wholeBlock (h : Tracks c d) {m : Announced} (hascends : d.Ascends (.wholeBlock m))
    {c' : PatchClient} (hstep : c.step (.wholeBlock m) = some c') : Tracks c' d := by
  obtain ⟨hfirst, ⟨⟩⟩ := Option.ite_none_right_eq_some.mp hstep
  exact .header m (h.moves hfirst m.start) (h.flushed hfirst) h.sorted hascends.2 rfl rfl rfl
    fun hchunk => (by cases hchunk)

theorem Tracks.updateChunk (h : Tracks c d) {m : Announced} (hascends : d.Ascends (.updateChunk m))
    {c' : PatchClient} (hstep : c.step (.updateChunk m) = some c') :
    Tracks c' (d.step c (.updateChunk m)) := by
  obtain ⟨⟨hfirst, -⟩, ⟨⟩⟩ := Option.ite_none_right_eq_some.mp hstep
  have hmissing : (if 0 < m.size then ClientState.chunk else .first) = .chunk → 0 < m.size := by
    intro hchunk
    by_contra hsize
    rw [if_neg hsize] at hchunk
    cases hchunk
  by_cases hnew : c.newBlock m.start
  · have hstep : d.step c (.updateChunk m) = ⟨d.bytes, []⟩ := if_pos hnew
    rw [hstep]
    refine .header m (h.closes hfirst m.start) rfl ?_ ?_ ?_ rfl rfl hmissing
    · rw [Delivery.bytes_closed]
      exact h.sorted
    · rw [Delivery.bytes_closed]
      exact hascends
    simp only [PatchClient.hashUpto, if_pos hnew]
  · have hstep : d.step c (.updateChunk m) = d := if_neg hnew
    rw [hstep]
    refine .header m (h.moves hfirst m.start) (h.flushed hfirst) h.sorted hascends ?_ rfl rfl hmissing
    simp only [PatchClient.hashUpto, if_neg hnew]

theorem Tracks.blockHash (h : Tracks c d) {c' : PatchClient} (hstep : c.step .blockHash = some c') :
    Tracks c' ⟨d.bytes, []⟩ := by
  obtain ⟨hfirst, ⟨⟩⟩ := Option.ite_none_right_eq_some.mp hstep
  have hnil := h.flushed hfirst
  have hwriter : ({ c.writer with lastChunkPatches := [], patchBuf := [] } : PatchWriter) =
      { c.writer with lastChunkPatches := [] } :=
    congrArg (fun buf => ({ c.writer with lastChunkPatches := [], patchBuf := buf } : PatchWriter))
      hnil.symm
  refine ⟨?_, fun _ => hnil, h.missing, h.remaining_lt, h.end_lt, ?_, ?_⟩
  · rw [← hwriter]
    exact h.closes hfirst c.filePos
  · rw [Delivery.bytes_closed]
    exact h.sorted
  · rw [Delivery.bytes_closed]
    exact h.before

theorem Tracks.reconnect (h : Tracks c d) (hash : Option Nat) :
    Tracks { c with
      writer := c.writer.invalidateLastPatches
      blockForChunkStart := hash
      state := .first } ⟨d.closed, []⟩ :=
  ⟨h.invalidates c.filePos, fun _ => rfl, fun hchunk => (by cases hchunk), h.remaining_lt, h.end_lt,
    h.sorted_closed, fun hnot => absurd rfl hnot⟩

theorem Tracks.step (h : Tracks c d) {e : PatchEvent} (hascends : d.Ascends e) {c' : PatchClient}
    (hstep : c.step e = some c') : Tracks c' (d.step c e) := by
  cases e with
  | filesize remoteFs =>
    obtain ⟨hfirst, ⟨⟩⟩ := Option.ite_none_right_eq_some.mp hstep
    obtain ⟨old, hclosed, hdelivers⟩ := h.delivers
    refine ⟨⟨old, hclosed, hdelivers.writePatchSize remoteFs⟩, fun _ => ?_, h.missing,
      h.remaining_lt, h.end_lt, h.sorted, h.before⟩
    rw [← h.flushed hfirst, PatchWriter.writePatchSize]
    split_ifs <;> rfl
  | wholeBlock m => exact h.wholeBlock hascends hstep
  | updateChunk m => exact h.updateChunk hascends hstep
  | received buf =>
    cases hstate : c.state with
    | first => simp [PatchClient.step, hstate] at hstep
    | block =>
      simp only [PatchClient.step, hstate, Option.some.injEq] at hstep
      exact hstep ▸ h.stateBlock hstate buf
    | chunk =>
      simp only [PatchClient.step, hstate, Option.some.injEq] at hstep
      exact hstep ▸ h.stateChunk hstate buf
  | blockHash => exact h.blockHash hstep
  | wrongHash =>
    obtain ⟨⟨hfirst, -⟩, ⟨⟩⟩ := Option.ite_none_right_eq_some.mp hstep
    have hreload := h.reconnect none
    rwa [← hfirst] at hreload
  | reconnect =>
    cases hstep
    exact h.reconnect none

theorem Comes.tracks {remoteFs : Nat} (h : Comes remoteFs c d) : Tracks c d := by
  induction h with
  | start => exact tracks_start remoteFs
  | step e _ hascends hstep ih => exact ih.step hascends hstep

def PatchClient.opened (c : PatchClient) : ReadFile := c.writer.patchfile.seek 8

theorem Tracks.stands (h : Tracks c d) (hfirst : c.state = .first) :
    ∃ records, Stands c.opened (validRecords records) ∧ placed (validRecords records) = d.bytes := by
  obtain ⟨old, hclosed, current, hholds, hbytes, -⟩ := h.delivers
  obtain ⟨size, hsize, hcontent⟩ := hholds.content
  refine ⟨old ++ current, ⟨old ++ current, hholds.fits, rfl, ?_⟩, ?_⟩
  · change c.writer.patchfile.content.drop 8 = _
    rw [hcontent, ← hsize, List.drop_left]
  · rw [PatchWriter.pending_of_nil (h.flushed hfirst), List.append_nil] at hbytes
    rw [validRecords, List.filterMap_append, placed_append, ← validRecords, ← validRecords, hclosed,
      hbytes, Delivery.bytes]

theorem patch_replays {remoteFs : Nat} (h : Comes remoteFs c d) (hfirst : c.state = .first) :
    ∃ records, (∀ records', ReadsAll c.opened records' ↔ records' = records) ∧
      placed records = d.bytes ∧ Sorted (placed records) := by
  obtain ⟨records, hstands, hplaced⟩ := h.tracks.stands hfirst
  have hread := readsAll_of_stands hstands
  refine ⟨validRecords records, fun records' => ?_, hplaced, hplaced ▸ h.tracks.sorted⟩
  constructor
  · intro hread'
    exact hread'.unique hread
  · rintro rfl
    exact hread

def threeBytes : Announced := ⟨0, 3, by decide, by decide⟩

/-- The connection ends in the middle of a block, and the block comes again in two pieces. -/
theorem patch_replays_rewritten : ∃ c d, Comes 3 c d ∧ d.bytes = [(5, 0), (6, 1), (7, 2)] ∧
    ∃ records, (∀ records', ReadsAll c.opened records' ↔ records' = records) ∧
      placed records = d.bytes ∧ Sorted (placed records) := by
  have hstart : Comes 3 _ _ := .start
  have hcut := ((hstart.step (.wholeBlock threeBytes) ⟨rfl, by decide⟩ rfl).step
    (.received [1, 2]) trivial rfl).step .reconnect trivial rfl
  have hagain := (((hcut.step (.filesize 3) trivial rfl).step (.wholeBlock threeBytes)
    ⟨rfl, by decide⟩ rfl).step (.received [5]) trivial rfl).step (.received [6, 7]) trivial rfl
  have hall := hagain.step .blockHash trivial rfl
  exact ⟨_, _, hall, rfl, patch_replays hall rfl⟩

end WritePatch
end UrBackup
