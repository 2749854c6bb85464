import Mathlib.Data.Prod.Lex
import UrBackup.Lib.Run
import UrBackup.Net.CompressedPipe

/-! What is read from a compressed connection is what was written to it. -/
namespace UrBackup

namespace Compressed

/-- The prefixes of compressed streams, and what can be decompressed from each of them. -/
structure Codec where
  Valid : Bytes → Prop
  plain : Bytes → Bytes
  plain_nil : plain [] = []
  valid_prefix : ∀ {c c'}, c <+: c' → Valid c' → Valid c
  plain_prefix : ∀ {c c'}, c <+: c' → Valid c' → plain c <+: plain c'

/-- A compressor: `Tracks` relates its state to the input that it has read and the output that it has
given. It stops when its output is full or its input is read, and a flush then leaves nothing back. -/
structure Deflater (codec : Codec) (δ : Type) where
  deflate : Deflate δ
  init : δ
  Tracks : δ → Bytes → Bytes → Prop
  tracks_init : Tracks init [] []
  sound : ∀ {s read given}, Tracks s read given → codec.Valid given ∧ codec.plain given <+: read
  rc : ∀ {s read given} input flush room, Tracks s read given → 0 < room →
    (deflate s input flush room).rc ≠ .error
  output_le : ∀ s input flush room, (deflate s input flush room).output.length ≤ room
  tracks : ∀ {s read given} input flush room, Tracks s read given → 0 < room →
    Tracks (deflate s input flush room).state
      (read ++ input.take (deflate s input flush room).consumed)
      (given ++ (deflate s input flush room).output)
  reads : ∀ {s read given} input flush room, Tracks s read given →
    (deflate s input flush room).output.length < room →
    (deflate s input flush room).consumed = input.length
  flushes : ∀ {s read given} input room, Tracks s read given →
    (deflate s input true room).output.length < room →
    codec.plain (given ++ (deflate s input true room).output) = read ++ input

/-- A decompressor. It stops when its output is full, with input left or with output still to give,
or when it has read all input and given all that can be decompressed from it. -/
structure Decoder (codec : Codec) (σ : Type) where
  inflate : Inflate σ
  init : σ
  Tracks : σ → Bytes → Bytes → Prop
  tracks_init : Tracks init [] []
  sound : ∀ {s read given}, Tracks s read given → given <+: codec.plain read
  rc : ∀ {s read given} input room, Tracks s read given → codec.Valid (read ++ input) → 0 < room →
    (inflate s input room).rc ≠ .error
  output_le : ∀ s input room, (inflate s input room).output.length ≤ room
  tracks : ∀ {s read given} input room, Tracks s read given → codec.Valid (read ++ input) →
    0 < room → Tracks (inflate s input room).state
      (read ++ input.take (inflate s input room).consumed)
      (given ++ (inflate s input room).output)
  stops : ∀ {s read given} input room, Tracks s read given → codec.Valid (read ++ input) →
    (inflate s input room).output.length < room →
    (inflate s input room).consumed = input.length ∧
      given ++ (inflate s input room).output = codec.plain (read ++ input)

section Writes

variable {codec : Codec} {δ : Type} (d : Deflater codec δ)

/-- In the loops of `Write`: what was read before and in this call, and what is still to be read. -/
structure Writing (before out data : Bytes) (w : WriteLoop δ) : Prop where
  tracks : ∃ done, d.Tracks w.defState (before ++ done) (out ++ w.sent) ∧
    done ++ w.input ++ w.left = data
  flush : w.left = [] → w.flush = true → w.currFlush = true

variable {d} {before out data : Bytes} {w : WriteLoop δ}

theorem Writing.nextPart {done : Bytes} (htracks : d.Tracks w.defState (before ++ done)
    (out ++ w.sent)) (hdata : done ++ w.left = data) : Writing d before out data w.nextPart := by
  refine ⟨⟨done, htracks, ?_⟩, ?_⟩
  · simp only [WriteLoop.nextPart, List.append_assoc, List.take_append_drop, hdata]
  · intro hleft hflush
    simp only [WriteLoop.nextPart] at hleft hflush ⊢
    simp [hleft, hflush]

theorem Writing.read (h : Writing d before out data w)
    (hlt : (d.deflate w.defState w.input w.currFlush compBufferSize).output.length <
      compBufferSize) :
    ∃ done, d.Tracks (d.deflate w.defState w.input w.currFlush compBufferSize).state
        (before ++ done)
        (out ++ (w.sent ++ (d.deflate w.defState w.input w.currFlush compBufferSize).output)) ∧
      done ++ w.left = data ∧ (w.left = [] → w.flush = true →
        codec.plain (out ++ (w.sent ++
          (d.deflate w.defState w.input w.currFlush compBufferSize).output)) = before ++ data) := by
  obtain ⟨done, htracks, hdata⟩ := h.tracks
  have hread := d.reads _ w.currFlush _ htracks hlt
  have hnext := d.tracks w.input w.currFlush compBufferSize htracks (by decide)
  rw [hread, List.take_length, List.append_assoc, List.append_assoc] at hnext
  refine ⟨done ++ w.input, hnext, hdata, ?_⟩
  intro hleft hflush
  rw [h.flush hleft hflush] at hlt ⊢
  have hall := d.flushes _ _ htracks hlt
  rw [List.append_assoc, List.append_assoc] at hall
  rw [hall, ← hdata, hleft, List.append_nil]

/-- What a call of `Write` leaves: all of its bytes were read, and a flush leaves nothing back. -/
def Written (d : Deflater codec δ) (before out data : Bytes) (flush : Bool)
    (result : Bool × δ × Bytes) : Prop :=
  d.Tracks result.2.1 (before ++ data) (out ++ result.2.2) ∧
    (flush = true → codec.plain (out ++ result.2.2) = before ++ data)

theorem Writing.turn (h : Writing d before out data w) :
    match w.turn d.deflate with
    | .inl result => result.1 = true ∧ Written d before out data w.flush result
    | .inr w' => Writing d before out data w' ∧ w'.flush = w.flush := by
  obtain ⟨done, htracks, hdata⟩ := h.tracks
  have hrc := d.rc w.input w.currFlush compBufferSize htracks (by decide)
  have hle := d.output_le w.defState w.input w.currFlush compBufferSize
  unfold WriteLoop.turn
  simp only [if_neg hrc]
  split_ifs with hflush hfull hleft
  · have hlt : (d.deflate w.defState w.input w.currFlush compBufferSize).output.length <
        compBufferSize := by
      rw [hflush.1]
      decide
    obtain ⟨done', htracks', hdata', hplain⟩ := h.read hlt
    rw [hflush.2.1, List.append_nil] at hdata'
    exact ⟨rfl, hdata' ▸ htracks', hplain hflush.2.1⟩
  · have hnext := d.tracks w.input w.currFlush compBufferSize htracks (by decide)
    rw [List.append_assoc, List.append_assoc] at hnext
    refine ⟨⟨⟨_, hnext, ?_⟩, h.flush⟩, rfl⟩
    rw [← hdata]
    simp only [List.append_assoc, List.take_append_drop]
  · obtain ⟨done', htracks', hdata', -⟩ := h.read (lt_of_le_of_ne hle hfull)
    exact ⟨Writing.nextPart htracks' hdata', rfl⟩
  · obtain ⟨done', htracks', hdata', hplain⟩ := h.read (lt_of_le_of_ne hle hfull)
    have hnil := not_not.mp hleft
    rw [hnil, List.append_nil] at hdata'
    exact ⟨rfl, hdata' ▸ htracks', hplain hnil⟩

theorem written_of_write {turns : Nat} {s : δ} {flush : Bool} {late : List Bool}
    {result : Bool × δ × Bytes} (htracks : d.Tracks s before out)
    (h : write d.deflate turns s data flush late = some result) :
    Written d before out data flush result := by
  have hrun : ∀ (turns : Nat) (w : WriteLoop δ), Writing d before out data w → w.flush = flush →
      Loop.turns (WriteLoop.turn d.deflate) turns w = some result →
      Written d before out data flush result := by
    intro turns
    induction turns with
    | zero => exact fun _ _ _ hnone => nomatch hnone
    | succ turns ih =>
      intro w hw hflush hsome
      have hturn := hw.turn
      rw [Loop.turns] at hsome
      cases hbody : w.turn d.deflate with
      | inl done =>
        rw [hbody] at hturn hsome
        cases hsome
        exact hflush ▸ hturn.2
      | inr w' =>
        rw [hbody] at hturn hsome
        exact ih w' hturn.1 (hturn.2.trans hflush) hsome
  refine hrun turns _ (@Writing.nextPart _ _ d before out data _ [] ?_ rfl) rfl h
  rw [List.append_nil, List.append_nil]
  exact htracks

end Writes

section Reads

variable {codec : Codec} {σ : Type} (d : Decoder codec σ)

/-- Between two calls: what was read from the connection and what was returned. If the buffer is not
in use, there is nothing more to return without more bytes. -/
structure Reads (delivered given : Bytes) (conn : Conn σ) : Prop where
  tracks : ∃ fed, d.Tracks conn.pipe.infState fed given ∧
    fed ++ conn.pipe.nextIn ++ conn.cs.flatten = delivered ∧
    (conn.pipe.inputBuffer = [] → conn.pipe.nextIn = [] ∧ given = codec.plain fed)
  noError : conn.pipe.hasError = false

variable {d} {delivered given : Bytes} {conn : Conn σ} {s : CompressedPipe2 σ} {bsize : Nat}
  {fromLast : Bool} {fed : Bytes}

/-- What `ProcessToBuffer` leaves on a connection without errors. -/
structure ProcessedRight (d : Decoder codec σ) (fed given : Bytes) (bsize : Nat) (fromLast : Bool)
    (s : CompressedPipe2 σ) (p : Processed σ) : Prop where
  tracks : ∃ fed', d.Tracks p.pipe.infState fed' (given ++ p.output) ∧
    fed' ++ p.pipe.nextIn = fed ++ s.input fromLast ∧
    (p.pipe.inputBuffer = [] → p.pipe.nextIn = [] ∧ given ++ p.output = codec.plain fed')
  used : p.used = p.output.length
  output_le : p.output.length ≤ bsize
  availOut : p.pipe.availOut = bsize - p.output.length
  noError : p.pipe.hasError = s.hasError
  notFull : p.output.length < bsize → p.pipe.inputBuffer = []

theorem processedRight (htracks : d.Tracks s.infState fed given)
    (hvalid : codec.Valid (fed ++ s.input fromLast)) (hpos : 0 < bsize) (hlt : bsize < 2 ^ 32)
    (hbuffer : s.inputBuffer ≠ []) :
    ProcessedRight d fed given bsize fromLast s (processToBuffer d.inflate bsize fromLast s) := by
  let p := processToBuffer d.inflate bsize fromLast s
  have hmod : bsize % 2 ^ 32 = bsize := Nat.mod_eq_of_lt hlt
  have hreply : s.reply d.inflate bsize fromLast =
      d.inflate s.infState (s.input fromLast) bsize := by rw [CompressedPipe2.reply, hmod]
  have hrc : (s.reply d.inflate bsize fromLast).rc ≠ .error :=
    hreply ▸ d.rc _ _ htracks hvalid hpos
  have houtput : p.output = (s.reply d.inflate bsize fromLast).output := processToBuffer_output
  have hle : p.output.length ≤ bsize := by
    rw [houtput, hreply]
    exact d.output_le _ _ _
  have havail : p.pipe.availOut = bsize - p.output.length := by
    have hsame : p.pipe.availOut =
        bsize % 2 ^ 32 - (s.reply d.inflate bsize fromLast).output.length := processToBuffer_availOut
    rw [hsame, hmod, houtput]
  have hnextIn : p.pipe.nextIn =
      (s.input fromLast).drop (s.reply d.inflate bsize fromLast).consumed := processToBuffer_nextIn
  have hstops : p.output.length < bsize → p.pipe.nextIn = [] ∧
      given ++ p.output = codec.plain (fed ++ s.input fromLast) := by
    intro hshort
    rw [houtput, hreply] at hshort ⊢
    obtain ⟨hconsumed, hplain⟩ := d.stops _ _ htracks hvalid hshort
    rw [hnextIn, hreply, hconsumed]
    exact ⟨List.drop_length, hplain⟩
  have hnotFull : p.output.length < bsize → p.pipe.inputBuffer = [] := by
    intro hshort
    have hroom : p.pipe.availOut ≠ 0 := by omega
    exact processToBuffer_inputBuffer.trans (if_pos ⟨hrc, (hstops hshort).1, hroom⟩)
  refine ⟨⟨fed ++ (s.input fromLast).take (s.reply d.inflate bsize fromLast).consumed, ?_, ?_, ?_⟩,
    ?_, hle, havail, processToBuffer_hasError hrc, hnotFull⟩
  · have hnext := d.tracks (s.input fromLast) bsize htracks hvalid hpos
    rw [← hreply] at hnext
    rw [houtput, processToBuffer_infState]
    exact hnext
  · rw [hnextIn, List.append_assoc, List.take_append_drop]
  · intro hnil
    have hshort : p.output.length < bsize := by
      by_contra hfull
      have hzero : p.pipe.availOut = 0 := by omega
      exact hbuffer ((processToBuffer_inputBuffer.trans
        (if_neg fun h => h.2.2 hzero)).symm.trans hnil)
    obtain ⟨hread, hplain⟩ := hstops hshort
    refine ⟨hread, ?_⟩
    rw [hread, eq_comm, List.drop_eq_nil_iff] at hnextIn
    rw [hplain, List.take_of_length_le hnextIn]
  · have hused : p.used = bsize - p.pipe.availOut := processToBuffer_used hrc
    change p.used = p.output.length
    omega

theorem ProcessedRight.reads {p : Processed σ}
    (h : ProcessedRight d fed given bsize fromLast s p) (hnoError : s.hasError = false)
    {cs : List Bytes} (hdelivered : fed ++ s.input fromLast ++ cs.flatten = delivered) :
    Reads d delivered (given ++ p.output) ⟨p.pipe, cs⟩ := by
  obtain ⟨fed', htracks, hfed, hnil⟩ := h.tracks
  exact ⟨⟨fed', htracks, by rw [hfed, hdelivered], hnil⟩, h.noError.trans hnoError⟩

theorem Reads.growInput (h : Reads d delivered given conn) : Reads d delivered given conn.growInput := by
  unfold Conn.growInput
  split
  · exact ⟨h.tracks, h.noError⟩
  · exact h

theorem growInput_inputBuffer (conn : Conn σ) :
    conn.growInput.pipe.inputBuffer = conn.pipe.inputBuffer := by
  unfold Conn.growInput
  split <;> rfl

theorem Reads.csRead_nil (h : Reads d delivered given conn) (hdata : conn.csRead.1 = []) :
    Reads d delivered given conn.csRead.2 := by
  have hflatten := conn.csRead_flatten
  rw [hdata, List.nil_append] at hflatten
  refine ⟨?_, conn.csRead_pipe ▸ h.noError⟩
  rw [conn.csRead_pipe, hflatten]
  exact h.tracks

theorem Reads.received (h : Reads d delivered given conn) (hnil : conn.pipe.inputBuffer = []) :
    ∃ fed, d.Tracks (conn.csRead.2.addInput conn.csRead.1).pipe.infState fed given ∧
      fed ++ (conn.csRead.2.addInput conn.csRead.1).pipe.input false ++
        (conn.csRead.2.addInput conn.csRead.1).cs.flatten = delivered ∧
      (conn.csRead.2.addInput conn.csRead.1).pipe.hasError = false ∧
      (conn.csRead.2.addInput conn.csRead.1).pipe.inputBuffer = conn.csRead.1 := by
  obtain ⟨fed, htracks, hfed, hused⟩ := h.tracks
  have hbuffer : (conn.csRead.2.addInput conn.csRead.1).pipe.inputBuffer = conn.csRead.1 := by
    simp only [Conn.addInput, conn.csRead_pipe, hnil, List.nil_append]
  refine ⟨fed, ?_, ?_, ?_, hbuffer⟩
  · simp only [Conn.addInput, conn.csRead_pipe]
    exact htracks
  · rw [CompressedPipe2.input, if_neg Bool.false_ne_true, hbuffer]
    rw [(hused hnil).1, List.append_nil, ← conn.csRead_flatten, ← List.append_assoc] at hfed
    exact hfed
  · simp only [Conn.addInput, conn.csRead_pipe]
    exact h.noError

/-- What a read returns on a connection without errors. After a read that returns nothing the buffer is
not in use. -/
structure ReadRight (d : Decoder codec σ) (delivered given data : Bytes) (r : ReadResult σ) :
    Prop where
  reads : Reads d delivered (given ++ data) r.conn
  nothing : r.rc = 0 → r.conn.pipe.inputBuffer = []

theorem take_putAt (buffer output : Bytes) : (putAt buffer 0 output).take output.length = output := by
  simp [putAt]

/-- In the loop of the read into a buffer. -/
structure Waiting (d : Decoder codec σ) (delivered given : Bytes) (bsize : Nat)
    (r : BufferRead σ) : Prop where
  reads : Reads d delivered given r.conn
  unused : r.conn.pipe.inputBuffer = []
  length : r.buffer.length = bsize

theorem readRight_nil {buffer : Bytes} (hreads : Reads d delivered given conn)
    (hunused : conn.pipe.inputBuffer = []) :
    ReadRight d delivered given (buffer.take 0) ⟨0, buffer, conn⟩ := by
  refine ⟨?_, fun _ => hunused⟩
  rw [List.take_zero, List.append_nil]
  exact hreads

theorem Waiting.process {r : BufferRead σ} (h : Waiting d delivered given bsize r)
    (hvalid : codec.Valid delivered) (hpos : 0 < bsize) (hlt : bsize < 2 ^ 32)
    (hdata : r.conn.csRead.1 ≠ []) :
    let conn := r.conn.csRead.2.addInput r.conn.csRead.1
    let p := processToBuffer d.inflate r.buffer.length false conn.pipe
    Reads d delivered (given ++ p.output) ⟨p.pipe, conn.cs⟩ ∧ p.used = p.output.length ∧
      p.output.length ≤ bsize ∧ (p.output = [] → p.pipe.inputBuffer = []) := by
  intro conn p
  obtain ⟨fed, htracks, hfed, hnoError, hbuffer⟩ := h.reads.received h.unused
  have hprefix : codec.Valid (fed ++ conn.pipe.input false) :=
    codec.valid_prefix ⟨_, hfed⟩ hvalid
  have hright : ProcessedRight d fed given r.buffer.length false conn.pipe p := by
    apply processedRight htracks hprefix
    · exact h.length ▸ hpos
    · exact h.length ▸ hlt
    · rw [hbuffer]
      exact hdata
  refine ⟨hright.reads hnoError hfed, hright.used, h.length ▸ hright.output_le, ?_⟩
  intro hnil
  apply hright.notFull
  rw [hnil, h.length]
  exact hpos

theorem length_putAt_zero {buffer output : Bytes} (h : output.length ≤ buffer.length) :
    (putAt buffer 0 output).length = buffer.length := length_putAt (by omega)

theorem Waiting.receive {r : BufferRead σ} (h : Waiting d delivered given bsize r)
    (hvalid : codec.Valid delivered) (hpos : 0 < bsize) (hlt : bsize < 2 ^ 32)
    (next : Option Timeout) :
    match r.receive d.inflate next with
    | .inl result => ReadRight d delivered given (result.data.take result.rc) result
    | .inr r' => Waiting d delivered given bsize r' ∧
        r'.conn.cs.flatten.length < r.conn.cs.flatten.length := by
  have hunused : r.conn.csRead.2.pipe.inputBuffer = [] := r.conn.csRead_pipe ▸ h.unused
  have herror : r.conn.csRead.2.pipe.hasError = false := r.conn.csRead_pipe ▸ h.reads.noError
  unfold BufferRead.receive
  dsimp only
  by_cases hdata : r.conn.csRead.1 = []
  · rw [if_pos hdata]
    exact readRight_nil (h.reads.csRead_nil hdata) hunused
  · rw [if_neg hdata, if_neg (by rw [herror, Bool.and_false]; exact Bool.false_ne_true)]
    obtain ⟨hreads, hused, hle, hnil⟩ := h.process hvalid hpos hlt hdata
    have hreturns : ReadRight d delivered given
        ((putAt r.buffer 0 (processToBuffer d.inflate r.buffer.length false
          (r.conn.csRead.2.addInput r.conn.csRead.1).pipe).output).take
            (processToBuffer d.inflate r.buffer.length false
              (r.conn.csRead.2.addInput r.conn.csRead.1).pipe).used)
        ⟨(processToBuffer d.inflate r.buffer.length false
            (r.conn.csRead.2.addInput r.conn.csRead.1).pipe).used,
          putAt r.buffer 0 (processToBuffer d.inflate r.buffer.length false
            (r.conn.csRead.2.addInput r.conn.csRead.1).pipe).output,
          ⟨(processToBuffer d.inflate r.buffer.length false
            (r.conn.csRead.2.addInput r.conn.csRead.1).pipe).pipe,
            (r.conn.csRead.2.addInput r.conn.csRead.1).cs⟩⟩ := by
      refine ⟨?_, fun hzero => hnil (List.length_eq_zero_iff.mp (hused.symm.trans hzero))⟩
      rw [hused, take_putAt]
      exact hreads
    cases next with
    | none => exact hreturns
    | some timeout =>
      by_cases hzero : (processToBuffer d.inflate r.buffer.length false
          (r.conn.csRead.2.addInput r.conn.csRead.1).pipe).used = 0
      · simp only [if_pos hzero]
        have houtput := List.length_eq_zero_iff.mp (hused.symm.trans hzero)
        rw [houtput, List.append_nil] at hreads
        refine ⟨⟨hreads, hnil houtput, ?_⟩, Conn.csRead_length hdata⟩
        rw [length_putAt_zero (h.length ▸ hle), h.length]
      · simp only [if_neg hzero]
        exact hreturns

theorem Waiting.turn {r : BufferRead σ} (h : Waiting d delivered given bsize r)
    (hvalid : codec.Valid delivered) (hpos : 0 < bsize) (hlt : bsize < 2 ^ 32) :
    match r.turn d.inflate with
    | .inl result => ReadRight d delivered given (result.data.take result.rc) result
    | .inr r' => Waiting d delivered given bsize r' ∧
        r'.conn.cs.flatten.length < r.conn.cs.flatten.length := by
  unfold BufferRead.turn
  cases htimeout : r.timeout with
  | once => exact h.receive hvalid hpos hlt none
  | wait => exact h.receive hvalid hpos hlt (some .wait)
  | limited turns =>
    cases turns with
    | zero => exact readRight_nil h.reads h.unused
    | succ turns => exact h.receive hvalid hpos hlt (some (.limited turns))

theorem Waiting.ends {r : BufferRead σ} (h : Waiting d delivered given bsize r)
    (hvalid : codec.Valid delivered) (hpos : 0 < bsize) (hlt : bsize < 2 ^ 32) :
    (∃ result, Loop.Ends (BufferRead.turn d.inflate) r result) ∧
      ∀ result, Loop.Ends (BufferRead.turn d.inflate) r result →
        ReadRight d delivered given (result.data.take result.rc) result := by
  apply Loop.Ends.all_of_wellFounded (fun r : BufferRead σ => r.conn.cs.flatten.length) _ h
  intro r hr
  have hturn := hr.turn hvalid hpos hlt
  cases hbody : BufferRead.turn d.inflate r with
  | inl result =>
    rw [hbody] at hturn
    exact hturn
  | inr r' =>
    rw [hbody] at hturn
    exact hturn

theorem readBuffer_right (h : Reads d delivered given conn) (hvalid : codec.Valid delivered)
    {buffer : Bytes} (hpos : 0 < buffer.length) (hlt : buffer.length < 2 ^ 32) (timeout : Timeout) :
    (∃ result turns, readBuffer d.inflate turns timeout buffer conn = some result) ∧
      ∀ result turns, readBuffer d.inflate turns timeout buffer conn = some result →
        ReadRight d delivered given (result.data.take result.rc) result := by
  unfold readBuffer
  by_cases hunused : conn.pipe.inputBuffer = []
  · simp only [hunused, ne_eq, not_true_eq_false, if_false]
    obtain ⟨hends, hright⟩ := (Waiting.mk h hunused rfl : Waiting d delivered given buffer.length
      ⟨conn, buffer, timeout⟩).ends hvalid hpos hlt
    exact ⟨hends, fun result turns hturns => hright result ⟨turns, hturns⟩⟩
  · obtain ⟨fed, htracks, hfed, -⟩ := h.tracks
    have hright : ProcessedRight d fed given buffer.length true conn.pipe
        (processToBuffer d.inflate buffer.length true conn.pipe) :=
      processedRight htracks (codec.valid_prefix ⟨_, hfed⟩ hvalid) hpos hlt hunused
    have hreads := hright.reads h.noError hfed
    simp only [ne_eq, hunused, not_false_eq_true, if_true]
    by_cases hused : (processToBuffer d.inflate buffer.length true conn.pipe).used > 0
    · simp only [if_pos hused]
      refine ⟨⟨_, 0, rfl⟩, ?_⟩
      intro result turns hresult
      obtain rfl := Option.some.inj hresult
      refine ⟨?_, fun hzero => absurd hzero hused.ne'⟩
      dsimp only
      rw [hright.used, take_putAt]
      exact hreads
    · simp only [if_neg hused]
      have houtput : (processToBuffer d.inflate buffer.length true conn.pipe).output = [] := by
        apply List.length_eq_zero_iff.mp
        rw [← hright.used]
        omega
      rw [houtput, List.append_nil] at hreads
      obtain ⟨hends, hall⟩ := (Waiting.mk hreads.growInput
        ((growInput_inputBuffer _).trans (hright.notFull (by rw [houtput]; exact hpos)))
        (length_putAt_zero hright.output_le) : Waiting d delivered given buffer.length
          ⟨_, _, timeout⟩).ends hvalid hpos hlt
      exact ⟨hends, fun result turns hturns => hall result ⟨turns, hturns⟩⟩

/-! ### Reads into a string -/

theorem grown_of_full {l : StringLoop σ} (h : l.ret.length = l.dataPos) :
    l.grown = l.ret ++ List.replicate outputIncrSize 0 ∧ l.avail = outputIncrSize := by
  have hgrown : l.grown = l.ret ++ List.replicate outputIncrSize 0 := by
    apply if_pos
    rw [h]
    exact Nat.lt_add_of_pos_right (by decide)
  refine ⟨hgrown, ?_⟩
  rw [StringLoop.avail, hgrown, List.length_append, List.length_replicate, h]
  exact Nat.add_sub_cancel_left _ _

/-- In the loop of `ProcessToString` the string consists of the bytes that came out. A turn of it puts
the next ones behind them, and ends with a full string or with a buffer that is not in use. -/
theorem stringTurn_right {l : StringLoop σ} (hfull : l.ret.length = l.dataPos)
    {p : Processed σ} (hp : processToBuffer d.inflate l.avail l.fromLast l.pipe = p)
    (hright : ProcessedRight d fed given outputIncrSize l.fromLast l.pipe p) :
    match stringTurn d.inflate l with
    | .inl (pipe, ret) => pipe = p.pipe ∧ ret = l.ret ++ p.output ∧
        (ret = [] → pipe.inputBuffer = [])
    | .inr l' => l' = ⟨p.pipe, l.ret ++ p.output, (l.ret ++ p.output).length, true⟩ ∧
        p.pipe.inputBuffer ≠ [] ∧ p.output.length = outputIncrSize ∧
        (l.ret ++ p.output).length ≤ outputMaxSize := by
  obtain ⟨hgrown, havail⟩ := grown_of_full hfull
  have hle := hright.output_le
  have hput : putAt l.grown l.dataPos p.output = l.ret ++ p.output ++
      List.replicate (outputIncrSize - p.output.length) 0 := by
    rw [putAt, hgrown, ← hfull, List.take_left, ← List.drop_drop, List.drop_left, List.drop_replicate]
  have hnil : l.ret ++ p.output = [] → p.pipe.inputBuffer = [] := by
    intro h
    apply hright.notFull
    rw [(List.append_eq_nil_iff.mp h).2]
    decide
  unfold stringTurn
  simp only [hp, hput]
  by_cases hout : p.pipe.availOut = 0
  · have hlength : p.output.length = outputIncrSize := by
      have := hright.availOut
      omega
    simp only [hout, ne_eq, not_true_eq_false, if_false, hlength, Nat.sub_self,
      List.replicate_zero, List.append_nil]
    by_cases hmax : (l.ret ++ p.output).length > outputMaxSize
    · rw [if_pos hmax]
      exact ⟨rfl, rfl, hnil⟩
    · rw [if_neg hmax]
      by_cases hbuffer : p.pipe.inputBuffer = []
      · rw [if_pos hbuffer]
        exact ⟨rfl, rfl, hnil⟩
      · rw [if_neg hbuffer]
        refine ⟨?_, hbuffer, trivial, not_lt.mp hmax⟩
        rw [List.length_append, hlength, hfull, havail]
  · have hshort : p.output.length < outputIncrSize := by
      have := hright.availOut
      omega
    have hbuffer := hright.notFull hshort
    simp only [ne_eq, hout, not_false_eq_true, if_true, hbuffer]
    refine ⟨trivial, ?_, fun _ => trivial⟩
    rw [hright.availOut]
    apply List.take_left'
    rw [@List.length_append _ (l.ret ++ p.output), List.length_replicate]
    omega

/-- In the read into a string: in the loop of `ProcessToString`, or in front of a read of the
connection. -/
inductive Filling (d : Decoder codec σ) (delivered given : Bytes) (r : StringRead σ) : Prop where
  | process (dataPos : Nat) (fromLast first : Bool) (fed : Bytes)
      (hphase : r.phase = .process dataPos fromLast first)
      (hfull : r.ret.length = dataPos) (hmax : r.ret.length ≤ outputMaxSize)
      (hbuffer : r.conn.pipe.inputBuffer ≠ []) (hnoError : r.conn.pipe.hasError = false)
      (htracks : d.Tracks r.conn.pipe.infState fed (given ++ r.ret))
      (hfed : fed ++ r.conn.pipe.input fromLast ++ r.conn.cs.flatten = delivered)
  | receive (hphase : r.phase = .receive) (hreads : Reads d delivered given r.conn)
      (hunused : r.conn.pipe.inputBuffer = []) (hret : r.ret = [])

def fillMeasure (r : StringRead σ) : Nat ×ₗ Nat ×ₗ Nat :=
  toLex (r.conn.cs.flatten.length, toLex (match r.phase with | .receive => 0 | .process .. => 1,
    outputMaxSize - r.ret.length))

theorem afterProcess_right {r r₀ : StringRead σ} {first : Bool} {dataPos : Nat} {fromLast : Bool}
    (hphase : r₀.phase = .process dataPos fromLast first) (hcs : r.conn.cs = r₀.conn.cs)
    (hreads : Reads d delivered (given ++ r.ret) r.conn)
    (hnil : r.ret = [] → r.conn.pipe.inputBuffer = []) :
    match r.afterProcess first with
    | .inl result => ReadRight d delivered given result.data result
    | .inr r' => Filling d delivered given r' ∧ fillMeasure r' < fillMeasure r₀ := by
  have hless : ∀ r' : StringRead σ, r'.phase = .receive → r'.conn.cs = r.conn.cs →
      fillMeasure r' < fillMeasure r₀ := by
    intro r' hphase' hcs'
    rw [fillMeasure, fillMeasure, hcs', hcs, hphase', hphase, Prod.Lex.toLex_lt_toLex]
    refine .inr ⟨rfl, ?_⟩
    rw [Prod.Lex.toLex_lt_toLex]
    exact .inl Nat.zero_lt_one
  unfold StringRead.afterProcess
  by_cases hret : r.ret = []
  · have hunused := hnil hret
    rw [hret, List.append_nil] at hreads
    simp only [hret, ne_eq, not_true_eq_false, if_false]
    cases first with
    | true =>
      rw [if_pos rfl]
      exact ⟨.receive rfl hreads.growInput ((growInput_inputBuffer _).trans hunused) rfl,
        hless _ rfl (Conn.growInput_cs r.conn)⟩
    | false =>
      rw [if_neg Bool.false_ne_true]
      cases htimeout : r.timeout with
      | once =>
        refine ⟨?_, fun _ => hunused⟩
        simp only [StringRead.returns, hret, List.append_nil]
        exact hreads
      | wait => exact ⟨.receive rfl hreads hunused rfl, hless _ rfl rfl⟩
      | limited turns =>
        cases turns with
        | zero =>
          refine ⟨?_, fun _ => hunused⟩
          simp only [StringRead.returns, hret, List.append_nil]
          exact hreads
        | succ turns => exact ⟨.receive rfl hreads hunused rfl, hless _ rfl rfl⟩
  · rw [if_pos hret]
    exact ⟨hreads, fun hzero => absurd (List.length_eq_zero_iff.mp hzero) hret⟩

theorem Filling.turn {r : StringRead σ} (h : Filling d delivered given r)
    (hvalid : codec.Valid delivered) :
    match r.turn d.inflate with
    | .inl result => ReadRight d delivered given result.data result
    | .inr r' => Filling d delivered given r' ∧ fillMeasure r' < fillMeasure r := by
  cases h with
  | process dataPos fromLast first fed hphase hfull hmax hbuffer hnoError htracks hfed =>
    have hright := @processedRight _ _ d _ r.conn.pipe outputIncrSize fromLast fed htracks
      (codec.valid_prefix ⟨_, hfed⟩ hvalid) (by decide) (by decide) hbuffer
    let l : StringLoop σ := ⟨r.conn.pipe, r.ret, dataPos, fromLast⟩
    have havail : l.avail = outputIncrSize := (@grown_of_full _ l hfull).2
    have hspec := @stringTurn_right _ _ d _ _ l hfull _ (by rw [havail]) hright
    have hreads := hright.reads hnoError hfed
    unfold StringRead.turn
    rw [hphase]
    dsimp only
    cases hturn : stringTurn d.inflate l with
    | inl done =>
      obtain ⟨pipe, ret⟩ := done
      rw [hturn] at hspec
      obtain ⟨rfl, rfl, hnil⟩ := hspec
      rw [List.append_assoc] at hreads
      exact @afterProcess_right _ _ d delivered given ⟨⟨_, r.conn.cs⟩, r.ret ++ _, r.timeout, _⟩ r
        first dataPos fromLast hphase rfl hreads hnil
    | inr l' =>
      rw [hturn] at hspec
      obtain ⟨rfl, hleft, hlength, hlong⟩ := hspec
      obtain ⟨fed', htracks', hfed', -⟩ := hright.tracks
      rw [List.append_assoc] at htracks'
      refine ⟨.process _ true first fed' rfl rfl hlong hleft (hright.noError.trans hnoError)
        htracks' ?_, ?_⟩
      · rw [CompressedPipe2.input, if_pos rfl, ← hfed, ← hfed']
      · rw [fillMeasure, fillMeasure, hphase, Prod.Lex.toLex_lt_toLex]
        refine .inr ⟨rfl, ?_⟩
        rw [Prod.Lex.toLex_lt_toLex]
        refine .inr ⟨rfl, ?_⟩
        have hroom : r.ret.length + outputIncrSize ≤ outputMaxSize := by
          rw [List.length_append, hlength] at hlong
          exact hlong
        have hincr : 0 < outputIncrSize := by decide
        dsimp only
        rw [List.length_append, hlength]
        exact Nat.sub_lt_sub_left (by omega) (Nat.lt_add_of_pos_right hincr)
  | receive hphase hreads hunused hret =>
    have hpipe := r.conn.csRead_pipe
    unfold StringRead.turn
    rw [hphase]
    dsimp only
    by_cases hdata : r.conn.csRead.1 = []
    · rw [if_pos hdata]
      refine ⟨?_, fun _ => hpipe ▸ hunused⟩
      dsimp only
      rw [hret, List.append_nil]
      exact hreads.csRead_nil hdata
    · rw [if_neg hdata, if_neg (by rw [hpipe, hreads.noError]; exact Bool.false_ne_true)]
      obtain ⟨fed, htracks, hfed, hnoError, hbuffer⟩ := hreads.received hunused
      refine ⟨.process 0 false false fed rfl (by rw [hret]; rfl) (by rw [hret]; decide)
        (by dsimp only; rw [hbuffer]; exact hdata) hnoError ?_ hfed, ?_⟩
      · dsimp only
        rw [hret, List.append_nil]
        exact htracks
      · rw [fillMeasure, fillMeasure, Prod.Lex.toLex_lt_toLex]
        exact .inl (Conn.csRead_length hdata)

theorem readString_right (h : Reads d delivered given conn) (hvalid : codec.Valid delivered)
    (timeout : Timeout) :
    (∃ result turns, readString d.inflate turns timeout [] conn = some result) ∧
      ∀ result turns, readString d.inflate turns timeout [] conn = some result →
        ReadRight d delivered given result.data result := by
  have hstart : Filling d delivered given (.start conn [] timeout) := by
    by_cases hunused : conn.pipe.inputBuffer = []
    · refine .receive ?_ h hunused rfl
      rw [StringRead.start, if_neg (not_not.mpr hunused)]
    · obtain ⟨fed, htracks, hfed, -⟩ := h.tracks
      refine .process 0 true true fed ?_ rfl (Nat.zero_le _) hunused h.noError ?_ hfed
      · rw [StringRead.start, if_pos hunused]
      · rw [StringRead.start, List.append_nil]
        exact htracks
  have hrule : (∃ result, Loop.Ends (StringRead.turn d.inflate) (.start conn [] timeout) result) ∧
      ∀ result, Loop.Ends (StringRead.turn d.inflate) (.start conn [] timeout) result →
        ReadRight d delivered given result.data result := by
    apply Loop.Ends.all_of_wellFounded fillMeasure _ hstart
    intro r hr
    have hturn := hr.turn hvalid
    cases hbody : StringRead.turn d.inflate r with
    | inl result =>
      rw [hbody] at hturn
      exact hturn
    | inr r' =>
      rw [hbody] at hturn
      exact hturn
  exact ⟨hrule.1, fun result turns hturns => hrule.2 result ⟨turns, hturns⟩⟩

end Reads

/-! ### Runs of both sides -/

section Runs

variable {codec : Codec} {δ σ : Type} (enc : Deflater codec δ) (dec : Decoder codec σ)

/-- A read into a buffer has room for something, and its size is a number of 32 bits. -/
def ReadCall.Fits : ReadCall → Prop
  | .buffer target _ => 0 < target.length ∧ target.length < 2 ^ 32
  | .string _ => True

def Event.Fits : Event → Prop
  | .read call _ => call.Fits
  | _ => True

instance : DecidablePred ReadCall.Fits
  | .buffer _ _ => instDecidableAnd
  | .string _ => .isTrue trivial

instance : DecidablePred Event.Fits
  | .read call _ => inferInstanceAs (Decidable call.Fits)
  | .write .. => .isTrue trivial
  | .deliver _ => .isTrue trivial

/-- Each byte is on one of its ways, and nothing is left in a reading side that has returned
nothing. -/
structure Link.Right (s : Link δ σ) : Prop where
  tracks : enc.Tracks s.defState s.written s.sent
  flushed : s.flushed <+: codec.plain s.sent
  reads : ∃ delivered, delivered ++ s.transit = s.sent ∧ Reads dec delivered s.returned s.conn
  idle : s.idle = true → s.conn.pipe.inputBuffer = []

variable {enc dec} {s s' : Link δ σ}

theorem Link.right_start : Link.Right enc dec (.start enc.init dec.init) := by
  refine ⟨enc.tracks_init, List.nil_prefix, ⟨[], rfl, ⟨[], dec.tracks_init, rfl, ?_⟩, rfl⟩, ?_⟩
  · exact fun _ => ⟨rfl, codec.plain_nil.symm⟩
  · exact fun h => absurd h Bool.false_ne_true

theorem readCall_right {delivered given : Bytes} {conn : Conn σ} (h : Reads dec delivered given conn)
    (hvalid : codec.Valid delivered) {call : ReadCall} (hfits : call.Fits) :
    (∃ r turns, readCall dec.inflate turns conn call = some r) ∧
      ∀ r turns, readCall dec.inflate turns conn call = some r →
        ReadRight dec delivered given r.1 r.2 := by
  cases call with
  | buffer buffer timeout =>
    obtain ⟨⟨result, turns, hends⟩, hright⟩ := readBuffer_right h hvalid hfits.1 hfits.2 timeout
    refine ⟨⟨_, turns, by rw [readCall, hends]; rfl⟩, ?_⟩
    intro r turns' hr
    obtain ⟨result', hresult', rfl⟩ := Option.map_eq_some_iff.mp hr
    exact hright result' turns' hresult'
  | string timeout =>
    obtain ⟨⟨result, turns, hends⟩, hright⟩ := readString_right h hvalid timeout
    refine ⟨⟨_, turns, by rw [readCall, hends]; rfl⟩, ?_⟩
    intro r turns' hr
    obtain ⟨result', hresult', rfl⟩ := Option.map_eq_some_iff.mp hr
    exact hright result' turns' hresult'

theorem Link.Right.step {e : Event} (h : Link.Right enc dec s) (hfits : e.Fits)
    (hstep : s.step enc.deflate dec.inflate e = some s') : Link.Right enc dec s' := by
  obtain ⟨delivered, hsent, hreads⟩ := h.reads
  have hvalid : codec.Valid delivered := codec.valid_prefix ⟨_, hsent⟩ (enc.sound h.tracks).1
  cases e with
  | write data flush late turns =>
    simp only [Link.step] at hstep
    split at hstep
    · rename_i state out hwrite
      obtain rfl := Option.some.inj hstep
      obtain ⟨htracks, hplain⟩ := written_of_write h.tracks hwrite
      refine ⟨htracks, ?_, ⟨delivered, by rw [← List.append_assoc, hsent], hreads⟩, ?_⟩
      · dsimp only
        cases flush with
        | true =>
          have hall := hplain rfl
          simp [hall]
        | false =>
          rw [if_neg Bool.false_ne_true]
          exact h.flushed.trans
            (codec.plain_prefix (List.prefix_append _ _) (enc.sound htracks).1)
      · exact fun hidle => absurd hidle Bool.false_ne_true
    · cases hstep
  | deliver n =>
    obtain rfl := Option.some.inj hstep
    obtain ⟨fed, htracks, hfed, hnil⟩ := hreads.tracks
    refine ⟨h.tracks, h.flushed, ⟨delivered ++ s.transit.take n, ?_, ⟨fed, htracks, ?_, hnil⟩,
      hreads.noError⟩, fun hidle => absurd hidle Bool.false_ne_true⟩
    · dsimp only
      rw [List.append_assoc, List.take_append_drop, hsent]
    · dsimp only
      rw [List.flatten_append, List.flatten_singleton, ← List.append_assoc, hfed]
  | read call turns =>
    obtain ⟨⟨data, r⟩, hread, rfl⟩ := Option.map_eq_some_iff.mp hstep
    have hright := (readCall_right hreads hvalid hfits).2 _ _ hread
    exact ⟨h.tracks, h.flushed, ⟨delivered, hsent, hright.reads⟩, fun hidle =>
      hright.nothing (of_decide_eq_true hidle)⟩

/-- In every run in which the buffers are not too large, what was returned is a prefix of what was
written, and all up to the last flush once everything has come and a read returns nothing. Each read
returns. -/
theorem returned_of_run (enc : Deflater codec δ) (dec : Decoder codec σ) (events : List Event)
    (s : Link δ σ) (hfits : ∀ e ∈ events, e.Fits)
    (hrun : TransitionSystem.run (Link.step enc.deflate dec.inflate)
      (.start enc.init dec.init) events = some s) :
    s.returned <+: s.written ∧
      (s.transit = [] → s.conn.cs.flatten = [] → s.idle = true → s.flushed <+: s.returned) ∧
      ∀ call : ReadCall, call.Fits →
        ∃ turns s', s.step enc.deflate dec.inflate (.read call turns) = some s' := by
  have hright : Link.Right enc dec s := by
    have hall : ∀ (events : List Event) (t : Link δ σ), (∀ e ∈ events, e.Fits) →
        Link.Right enc dec t → TransitionSystem.run (Link.step enc.deflate dec.inflate) t events =
          some s → Link.Right enc dec s := by
      intro events
      induction events with
      | nil =>
        intro t _ ht hnil
        cases hnil
        exact ht
      | cons e events ih =>
        intro t hfits ht hcons
        obtain ⟨t', hstep, hrest⟩ := TransitionSystem.run_cons hcons
        exact ih t' (fun e' he' => hfits e' (List.mem_cons_of_mem e he'))
          (ht.step (hfits e List.mem_cons_self) hstep) hrest
    exact hall events _ hfits Link.right_start hrun
  obtain ⟨delivered, hsent, hreads⟩ := hright.reads
  obtain ⟨fed, htracks, hfed, hnil⟩ := hreads.tracks
  obtain ⟨hvalid, hplain⟩ := enc.sound hright.tracks
  have hfedSent : fed <+: s.sent :=
    ⟨s.conn.pipe.nextIn ++ (s.conn.cs.flatten ++ s.transit), by
      rw [← hsent, ← hfed]; simp only [List.append_assoc]⟩
  refine ⟨?_, ?_, ?_⟩
  · exact (dec.sound htracks).trans ((codec.plain_prefix hfedSent hvalid).trans hplain)
  · intro htransit hcs hidle
    obtain ⟨hread, hreturned⟩ := hnil (hright.idle hidle)
    have hall : fed = s.sent := by
      rw [← hsent, ← hfed, hread, hcs, htransit]
      simp only [List.append_nil]
    rw [hreturned, hall]
    exact hright.flushed
  · intro call hcall
    obtain ⟨⟨r, turns, hends⟩, -⟩ := readCall_right hreads
      (codec.valid_prefix ⟨_, hsent⟩ hvalid) hcall
    exact ⟨turns, _, by rw [Link.step, hends]; rfl⟩

end Runs

/-! ### A codec that stores the bytes as they are -/

def storedCodec : Codec where
  Valid _ := True
  plain c := c
  plain_nil := rfl
  valid_prefix _ _ := trivial
  plain_prefix h _ := h

def storedDeflate : Deflate Unit := fun _ input _ room =>
  ⟨(), .ok, min input.length room, input.take room⟩

def storedInflate : Inflate Unit := fun _ input room =>
  ⟨(), .ok, min input.length room, input.take room⟩

theorem take_min (input : Bytes) (room : Nat) :
    input.take (min input.length room) = input.take room := by
  rw [List.take_eq_take_iff]
  omega

theorem stored_reads {input : Bytes} {room : Nat} (h : (input.take room).length < room) :
    min input.length room = input.length ∧ input.take room = input := by
  rw [List.length_take] at h
  exact ⟨by omega, List.take_of_length_le (by omega)⟩

def storedDeflater : Deflater storedCodec Unit where
  deflate := storedDeflate
  init := ()
  Tracks _ read given := given = read
  tracks_init := rfl
  sound h := ⟨trivial, h ▸ List.prefix_rfl⟩
  rc _ _ _ _ _ := ZStatus.noConfusion
  output_le _ _ _ _ := List.length_take_le _ _
  tracks input _ room h _ := by
    simp only [storedDeflate, take_min, h]
  reads _ _ _ _ h := (stored_reads h).1
  flushes _ _ h hlt := by
    have hall := (stored_reads hlt).2
    simp only [storedCodec, storedDeflate, hall, h]

def storedDecoder : Decoder storedCodec Unit where
  inflate := storedInflate
  init := ()
  Tracks _ read given := given = read
  tracks_init := rfl
  sound h := h ▸ List.prefix_rfl
  rc _ _ _ _ _ := ZStatus.noConfusion
  output_le _ _ _ := List.length_take_le _ _
  tracks input room h _ _ := by
    simp only [storedInflate, take_min, h]
  stops _ _ h _ hlt := by
    obtain ⟨hread, hall⟩ := stored_reads hlt
    exact ⟨hread, by simp only [storedCodec, storedInflate, hall, h]⟩

def threeBytes : List Event :=
  [.write [1, 2, 3] true [] 2, .deliver 5, .read (.buffer [0, 0] .wait) 2,
    .read (.buffer [0, 0] .once) 2, .read (.buffer [0, 0] .wait) 2]

theorem returned_of_run_threeBytes :
    ∃ s, TransitionSystem.run (Link.step storedDeflate storedInflate) (.start () ()) threeBytes =
        some s ∧
      s.returned = [1, 2, 3] ∧ s.returned <+: s.written ∧ s.flushed <+: s.returned := by
  refine ⟨_, rfl, rfl, ?_, ?_⟩
  · exact (returned_of_run storedDeflater storedDecoder threeBytes _ (by decide) rfl).1
  · exact (returned_of_run storedDeflater storedDecoder threeBytes _ (by decide) rfl).2.1 rfl rfl rfl

def oneByte (buffer : Bytes) : List Event :=
  [.write [1] true [] 2, .deliver 1, .read (.buffer buffer .once) 1]

theorem run_oneByte {buffer : Bytes} (h : buffer.length = 2 ^ 32) :
    ∃ s, TransitionSystem.run (Link.step storedDeflate storedInflate) (.start () ())
        (oneByte buffer) = some s ∧ s.written = [1] ∧ s.returned.length = 2 ^ 32 := by
  have hused : (processToBuffer storedInflate buffer.length false
      ⟨(), [], 0, [1], 16384, false⟩).used = 2 ^ 32 := by
    rw [h, processToBuffer_used ZStatus.noConfusion, processToBuffer_availOut, Nat.mod_self,
      Nat.zero_sub, Nat.sub_zero]
  have houtput : (processToBuffer storedInflate buffer.length false
      ⟨(), [], 0, [1], 16384, false⟩).output = [] := by
    rw [processToBuffer_output, CompressedPipe2.reply, h, Nat.mod_self]
    rfl
  refine ⟨_, rfl, rfl, ?_⟩
  change ((putAt buffer 0 (processToBuffer storedInflate buffer.length false
    ⟨(), [], 0, [1], 16384, false⟩).output).take (processToBuffer storedInflate buffer.length false
      ⟨(), [], 0, [1], 16384, false⟩).used).length = 2 ^ 32
  rw [hused, houtput, List.length_take, length_putAt_zero (Nat.zero_le _), h, Nat.min_self]

/-- The size of the buffer becomes zero as a number of 32 bits, and all of the buffer is returned. -/
theorem large_buffer_returned : ∃ s,
    TransitionSystem.run (Link.step storedDeflate storedInflate) (.start () ())
      (oneByte (List.replicate (2 ^ 32) 0)) = some s ∧ ¬ s.returned <+: s.written := by
  obtain ⟨s, hrun, hwritten, hlength⟩ := run_oneByte (List.length_replicate (n := 2 ^ 32) (a := 0))
  refine ⟨s, hrun, fun hprefix => ?_⟩
  have hle := hprefix.length_le
  rw [hwritten, hlength] at hle
  exact absurd hle (by decide)

end Compressed

end UrBackup
