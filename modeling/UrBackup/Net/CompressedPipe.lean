import UrBackup.Internet.Connector
import UrBackup.Lib.Loop

/-! A compressed connection. The compressor and the decompressor are parameters: a function from a
state, the unread input and the room for output to what a call does. -/
namespace UrBackup

namespace Compressed

def maxSendSize : Nat := 20000

def outputIncrSize : Nat := 8192

def outputMaxSize : Nat := 32 * 1024

def compBufferSize : Nat := 4096

/-- What a call of the library reports. All that the pipe takes for an error is one value here. -/
inductive ZStatus where
  | ok
  | streamEnd
  | bufError
  | error
  deriving DecidableEq

/-- What a call does: the bytes of the input that it read and those that it put out. -/
structure Reply (σ : Type) where
  state : σ
  rc : ZStatus
  consumed : Nat
  output : Bytes

abbrev Inflate (σ : Type) := σ → Bytes → Nat → Reply σ

/-- The last argument but one says that all pending output is to be flushed. -/
abbrev Deflate (δ : Type) := δ → Bytes → Bool → Nat → Reply δ

/-- The receiving side. `nextIn` is the input that the decompressor has not read, `inputBuffer` what
came with the last read of the connection, or nothing if all of it was used. -/
structure CompressedPipe2 (σ : Type) where
  infState : σ
  nextIn : Bytes
  availOut : Nat
  inputBuffer : Bytes
  inputCapacity : Nat
  hasError : Bool

/-- The connection below, with the pieces that it has still to give. -/
structure Conn (σ : Type) where
  pipe : CompressedPipe2 σ
  cs : List Bytes

/-- How long a read waits: for one read of the connection, without an end, or for a time that is
over after some turns of the loop. -/
inductive Timeout where
  | once
  | wait
  | limited (turns : Nat)

/-- What `ProcessToBuffer` leaves. -/
structure Processed (σ : Type) where
  pipe : CompressedPipe2 σ
  output : Bytes
  used : Nat

/-- What a read returns: the number of bytes, the buffer or the string, and the connection. -/
structure ReadResult (σ : Type) where
  rc : Nat
  data : Bytes
  conn : Conn σ

namespace Conn

variable {σ : Type}

/-- A read of the connection gives a piece, or as much of it as there is room for. -/
def csRead (c : Conn σ) : Bytes × Conn σ :=
  let n := c.pipe.inputCapacity - c.pipe.inputBuffer.length
  match c.cs with
  | [] => ([], c)
  | piece :: cs =>
    (piece.take n, { c with cs := if piece.length ≤ n then cs else piece.drop n :: cs })

def addInput (c : Conn σ) (data : Bytes) : Conn σ :=
  { c with pipe := { c.pipe with inputBuffer := c.pipe.inputBuffer ++ data } }

def growInput (c : Conn σ) : Conn σ :=
  if c.pipe.inputBuffer.length = c.pipe.inputCapacity then
    { c with pipe := { c.pipe with inputCapacity := c.pipe.inputCapacity + outputIncrSize } }
  else c

theorem csRead_pipe (c : Conn σ) : c.csRead.2.pipe = c.pipe := by
  unfold csRead
  split <;> rfl

theorem csRead_flatten (c : Conn σ) : c.csRead.1 ++ c.csRead.2.cs.flatten = c.cs.flatten := by
  unfold csRead
  cases hcs : c.cs with
  | nil => simp [hcs]
  | cons piece cs =>
    simp only [List.flatten_cons]
    split
    · rename_i hlength
      rw [List.take_of_length_le hlength]
    · rw [List.flatten_cons, ← List.append_assoc, List.take_append_drop]

theorem csRead_length {c : Conn σ} (h : c.csRead.1 ≠ []) :
    c.csRead.2.cs.flatten.length < c.cs.flatten.length := by
  have hpos := List.length_pos_iff.mpr h
  rw [← csRead_flatten c, List.length_append]
  omega

theorem growInput_cs (c : Conn σ) : c.growInput.cs = c.cs := by
  unfold growInput
  split <;> rfl

end Conn

section Reading

variable {σ : Type} (inflate : Inflate σ)

/-- Without `fromLast` the decompressor gets the whole buffer. -/
def CompressedPipe2.input (fromLast : Bool) (s : CompressedPipe2 σ) : Bytes :=
  if fromLast then s.nextIn else s.inputBuffer

def CompressedPipe2.reply (bsize : Nat) (fromLast : Bool) (s : CompressedPipe2 σ) : Reply σ :=
  inflate s.infState (s.input fromLast) (bsize % 2 ^ 32)

def processToBuffer (bsize : Nat) (fromLast : Bool) (s : CompressedPipe2 σ) : Processed σ :=
  let reply := s.reply inflate bsize fromLast
  let room := bsize % 2 ^ 32
  let nextIn := (s.input fromLast).drop reply.consumed
  let availOut := room - reply.output.length
  let s := { s with infState := reply.state, nextIn, availOut }
  if reply.rc = .error then
    { pipe := { s with hasError := true }, output := reply.output, used := 0 }
  else
    { pipe := { s with inputBuffer := if nextIn = [] ∧ availOut ≠ 0 then [] else s.inputBuffer }
      output := reply.output
      used := bsize - availOut }

section ProcessToBuffer

variable {inflate} {bsize : Nat} {fromLast : Bool} {s : CompressedPipe2 σ}

theorem processToBuffer_output : (processToBuffer inflate bsize fromLast s).output =
    (s.reply inflate bsize fromLast).output := by
  by_cases herror : (s.reply inflate bsize fromLast).rc = .error
  · simp only [processToBuffer, if_pos herror]
  · simp only [processToBuffer, if_neg herror]

theorem processToBuffer_infState : (processToBuffer inflate bsize fromLast s).pipe.infState =
    (s.reply inflate bsize fromLast).state := by
  by_cases herror : (s.reply inflate bsize fromLast).rc = .error
  · simp only [processToBuffer, if_pos herror]
  · simp only [processToBuffer, if_neg herror]

theorem processToBuffer_nextIn : (processToBuffer inflate bsize fromLast s).pipe.nextIn =
    (s.input fromLast).drop (s.reply inflate bsize fromLast).consumed := by
  by_cases herror : (s.reply inflate bsize fromLast).rc = .error
  · simp only [processToBuffer, if_pos herror]
  · simp only [processToBuffer, if_neg herror]

theorem processToBuffer_availOut : (processToBuffer inflate bsize fromLast s).pipe.availOut =
    bsize % 2 ^ 32 - (s.reply inflate bsize fromLast).output.length := by
  by_cases herror : (s.reply inflate bsize fromLast).rc = .error
  · simp only [processToBuffer, if_pos herror]
  · simp only [processToBuffer, if_neg herror]

/-- An error leaves the buffer, and so does input that is not read or output that is full. -/
theorem processToBuffer_inputBuffer :
    (processToBuffer inflate bsize fromLast s).pipe.inputBuffer =
      if (s.reply inflate bsize fromLast).rc ≠ .error ∧
        (processToBuffer inflate bsize fromLast s).pipe.nextIn = [] ∧
        (processToBuffer inflate bsize fromLast s).pipe.availOut ≠ 0 then [] else s.inputBuffer := by
  rw [processToBuffer_nextIn, processToBuffer_availOut]
  unfold processToBuffer
  by_cases herror : (s.reply inflate bsize fromLast).rc = .error
  · simp only [herror, if_true, ne_eq, not_true_eq_false, false_and, if_false]
  · simp only [herror, if_false, ne_eq, not_false_eq_true, true_and]

theorem processToBuffer_used (h : (s.reply inflate bsize fromLast).rc ≠ .error) :
    (processToBuffer inflate bsize fromLast s).used =
      bsize - (processToBuffer inflate bsize fromLast s).pipe.availOut := by
  simp only [processToBuffer, if_neg h]

theorem processToBuffer_hasError (h : (s.reply inflate bsize fromLast).rc ≠ .error) :
    (processToBuffer inflate bsize fromLast s).pipe.hasError = s.hasError := by
  simp only [processToBuffer, if_neg h]

end ProcessToBuffer

def putAt (buffer : Bytes) (pos : Nat) (output : Bytes) : Bytes :=
  buffer.take pos ++ output ++ buffer.drop (pos + output.length)

theorem length_putAt {buffer output : Bytes} {pos : Nat}
    (h : pos + output.length ≤ buffer.length) : (putAt buffer pos output).length = buffer.length := by
  simp only [putAt, List.length_append, List.length_take, List.length_drop]
  omega

/-- The variables of the loop in `ProcessToString`. -/
structure StringLoop (σ : Type) where
  pipe : CompressedPipe2 σ
  ret : Bytes
  dataPos : Nat
  fromLast : Bool

def StringLoop.grown (l : StringLoop σ) : Bytes :=
  if l.dataPos + outputIncrSize > l.ret.length then l.ret ++ List.replicate outputIncrSize 0
  else l.ret

def StringLoop.avail (l : StringLoop σ) : Nat := l.grown.length - l.dataPos

/-- One turn of the loop in `ProcessToString`. -/
def stringTurn (l : StringLoop σ) : CompressedPipe2 σ × Bytes ⊕ StringLoop σ :=
  let p := processToBuffer inflate l.avail l.fromLast l.pipe
  let ret := putAt l.grown l.dataPos p.output
  if p.pipe.availOut ≠ 0 then
    let ret := ret.take (ret.length - p.pipe.availOut)
    if p.pipe.inputBuffer = [] then .inl (p.pipe, ret)
    else .inr ⟨p.pipe, ret, l.dataPos, true⟩
  else if ret.length > outputMaxSize then .inl (p.pipe, ret)
  else if p.pipe.inputBuffer = [] then .inl (p.pipe, ret)
  else .inr ⟨p.pipe, ret, l.dataPos + l.avail, true⟩

/-- Where `Read(std::string*)` is: in the loop of `ProcessToString`, at first for what is left of the
last read, or in front of a read of the connection. -/
inductive StringPhase where
  | process (dataPos : Nat) (fromLast first : Bool)
  | receive

structure StringRead (σ : Type) where
  conn : Conn σ
  ret : Bytes
  timeout : Timeout
  phase : StringPhase

namespace StringRead

def start (conn : Conn σ) (ret : Bytes) (timeout : Timeout) : StringRead σ where
  conn := conn
  ret := ret
  timeout := timeout
  phase := if conn.pipe.inputBuffer ≠ [] then .process 0 true true else .receive

def returns (r : StringRead σ) (rc : Nat) : ReadResult σ := ⟨rc, r.ret, r.conn⟩

/-- Behind `ProcessToString`. -/
def afterProcess (first : Bool) (r : StringRead σ) : ReadResult σ ⊕ StringRead σ :=
  if r.ret ≠ [] then .inl (r.returns r.ret.length)
  else if first then .inr { r with conn := r.conn.growInput, phase := .receive }
  else
    match r.timeout with
    | .once => .inl (r.returns 0)
    | .wait => .inr { r with phase := .receive }
    | .limited 0 => .inl (r.returns 0)
    | .limited (turns + 1) => .inr { r with timeout := .limited turns, phase := .receive }

/-- A turn of the loop of `ProcessToString`, or a read of the connection. -/
def turn (r : StringRead σ) : ReadResult σ ⊕ StringRead σ :=
  match r.phase with
  | .process dataPos fromLast first =>
    match stringTurn inflate ⟨r.conn.pipe, r.ret, dataPos, fromLast⟩ with
    | .inl (pipe, ret) => afterProcess first { r with conn := { r.conn with pipe }, ret }
    | .inr l =>
      .inr { r with
        conn := { r.conn with pipe := l.pipe }
        ret := l.ret
        phase := .process l.dataPos l.fromLast first }
  | .receive =>
    let (data, conn) := r.conn.csRead
    if data = [] then .inl ⟨0, r.ret, conn⟩
    else if conn.pipe.hasError then .inl ⟨0, r.ret, conn⟩
    else .inr { r with conn := conn.addInput data, phase := .process 0 false false }

end StringRead

/-- `Read(std::string*, int)`, if it returns after so many turns of its loops. -/
def readString (turns : Nat) (timeout : Timeout) (ret : Bytes) (conn : Conn σ) :
    Option (ReadResult σ) :=
  Loop.turns (StringRead.turn inflate) turns (.start conn ret timeout)

/-- The loop of `Read(char*, size_t, int)` behind its first part. -/
structure BufferRead (σ : Type) where
  conn : Conn σ
  buffer : Bytes
  timeout : Timeout

namespace BufferRead

/-- Whether an error that was met earlier is looked at: not in a read without waiting. -/
def checksError : Timeout → Bool
  | .once => false
  | _ => true

/-- A read of the connection. The loop goes on behind it only if nothing came out, and if `next` says
how long to wait. -/
def receive (r : BufferRead σ) (next : Option Timeout) : ReadResult σ ⊕ BufferRead σ :=
  let (data, conn) := r.conn.csRead
  if data = [] then .inl ⟨0, r.buffer, conn⟩
  else if checksError r.timeout && conn.pipe.hasError then .inl ⟨0, r.buffer, conn⟩
  else
    let conn := conn.addInput data
    let p := processToBuffer inflate r.buffer.length false conn.pipe
    let conn := { conn with pipe := p.pipe }
    let buffer := putAt r.buffer 0 p.output
    match next with
    | none => .inl ⟨p.used, buffer, conn⟩
    | some timeout =>
      if p.used = 0 then .inr ⟨conn, buffer, timeout⟩ else .inl ⟨p.used, buffer, conn⟩

def turn (r : BufferRead σ) : ReadResult σ ⊕ BufferRead σ :=
  match r.timeout with
  | .once => r.receive inflate none
  | .wait => r.receive inflate (some .wait)
  | .limited 0 => .inl ⟨0, r.buffer, r.conn⟩
  | .limited (turns + 1) => r.receive inflate (some (.limited turns))

end BufferRead

/-- `Read(char*, size_t, int)`, if it returns after so many turns of its loop. -/
def readBuffer (turns : Nat) (timeout : Timeout) (buffer : Bytes) (conn : Conn σ) :
    Option (ReadResult σ) :=
  if conn.pipe.inputBuffer ≠ [] then
    let p := processToBuffer inflate buffer.length true conn.pipe
    let conn := { conn with pipe := p.pipe }
    let buffer := putAt buffer 0 p.output
    if p.used > 0 then some ⟨p.used, buffer, conn⟩
    else Loop.turns (BufferRead.turn inflate) turns ⟨conn.growInput, buffer, timeout⟩
  else Loop.turns (BufferRead.turn inflate) turns ⟨conn, buffer, timeout⟩

end Reading

section Writing

variable {δ : Type} (deflate : Deflate δ)

/-- The loops of `Write`: the input of the current part that was not read, what comes behind that
part, and what was given to the connection below, which takes all of it. `late` says for each part
whether more than a second has gone by since the last one was sent. -/
structure WriteLoop (δ : Type) where
  defState : δ
  input : Bytes
  left : Bytes
  flush : Bool
  currFlush : Bool
  sent : Bytes
  late : List Bool

namespace WriteLoop

/-- A part of at most `max_send_size` bytes. Only the last one is flushed, or one that is late. -/
def nextPart (w : WriteLoop δ) : WriteLoop δ :=
  let left := w.left.drop maxSendSize
  let hasNext := left ≠ []
  { w with
    input := w.left.take maxSendSize
    left := left
    currFlush := (if hasNext then false else w.flush) || w.late.headD false
    late := w.late.tail }

def start (defState : δ) (buffer : Bytes) (flush : Bool) (late : List Bool) : WriteLoop δ :=
  nextPart
    { defState := defState
      input := []
      left := buffer
      flush := flush
      currFlush := false
      sent := []
      late := late }

/-- One call of the compressor: the value that is returned at the end, its state and all that was
sent. -/
def turn (w : WriteLoop δ) : Bool × δ × Bytes ⊕ WriteLoop δ :=
  let reply := deflate w.defState w.input w.currFlush compBufferSize
  if reply.rc = .error then .inl (false, reply.state, w.sent)
  else
    let w := { w with
      defState := reply.state
      input := w.input.drop reply.consumed
      sent := w.sent ++ reply.output }
    if reply.output = [] ∧ w.left = [] ∧ w.flush then .inl (true, w.defState, w.sent)
    else if reply.output.length = compBufferSize then .inr w
    else if w.left ≠ [] then .inr w.nextPart
    else .inl (true, w.defState, w.sent)

end WriteLoop

/-- `Write`, if it returns after so many turns of its loops. -/
def write (turns : Nat) (defState : δ) (buffer : Bytes) (flush : Bool) (late : List Bool) :
    Option (Bool × δ × Bytes) :=
  Loop.turns (WriteLoop.turn deflate) turns (.start defState buffer flush late)

end Writing

/-! ### Two sides and what is between them -/

/-- A call of one of the two reads. The string is empty at first. -/
inductive ReadCall where
  | buffer (buffer : Bytes) (timeout : Timeout)
  | string (timeout : Timeout)

/-- A call with the number of turns that it takes, or the arrival of the next bytes. -/
inductive Event where
  | write (data : Bytes) (flush : Bool) (late : List Bool) (turns : Nat)
  | deliver (n : Nat)
  | read (call : ReadCall) (turns : Nat)

/-- The peer, the bytes on their way, and the reading side with all that it has returned. `idle` says
that the last call was a read that returned nothing. -/
structure Link (δ σ : Type) where
  defState : δ
  written : Bytes
  flushed : Bytes
  sent : Bytes
  transit : Bytes
  conn : Conn σ
  returned : Bytes
  idle : Bool

section Links

variable {δ σ : Type} (deflate : Deflate δ) (inflate : Inflate σ)

def readCall (turns : Nat) (conn : Conn σ) : ReadCall → Option (Bytes × ReadResult σ)
  | .buffer buffer timeout =>
    (readBuffer inflate turns timeout buffer conn).map fun r => (r.data.take r.rc, r)
  | .string timeout => (readString inflate turns timeout [] conn).map fun r => (r.data, r)

def Link.step (s : Link δ σ) : Event → Option (Link δ σ)
  | .write data flush late turns =>
    match write deflate turns s.defState data flush late with
    | some (true, defState, out) =>
      some { s with
        defState
        written := s.written ++ data
        flushed := if flush then s.written ++ data else s.flushed
        sent := s.sent ++ out
        transit := s.transit ++ out
        idle := false }
    | _ => none
  | .deliver n =>
    some { s with
      transit := s.transit.drop n
      conn := { s.conn with cs := s.conn.cs ++ [s.transit.take n] }
      idle := false }
  | .read call turns =>
    (readCall inflate turns s.conn call).map fun (data, r) =>
      { s with conn := r.conn, returned := s.returned ++ data, idle := r.rc = 0 }

def Link.start (defState : δ) (infState : σ) : Link δ σ where
  defState := defState
  written := []
  flushed := []
  sent := []
  transit := []
  conn :=
    { pipe :=
        { infState := infState
          nextIn := []
          availOut := 0
          inputBuffer := []
          inputCapacity := 16384
          hasError := false }
      cs := [] }
  returned := []
  idle := false

end Links

end Compressed

end UrBackup
