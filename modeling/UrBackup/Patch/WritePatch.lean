import UrBackup.Patch.PatchFile

/-! The patch file as the download of a file writes it, with the messages of a connection that
make it write. -/
namespace UrBackup
namespace WritePatch

open ByteOrder

def chunkSize : Nat := 4096
def checkpointDist : Nat := 512 * 1024

/-- The patch file and what is to be written to it. `lastChunkPatches` are the places of the
records of the current block. -/
structure PatchWriter where
  patchfile : ReadFile
  patchfilePos : Nat
  patchBuf : List UInt8
  patchBufStart : Nat
  lastChunkPatches : List Nat

namespace PatchWriter

def fresh : PatchWriter := ⟨⟨[], 0⟩, 0, [], 0, []⟩

def writePatchInt (w : PatchWriter) (pos : Nat) (buf : List UInt8) : PatchWriter :=
  { w with
    patchfile := (w.patchfile.write (littleEndian 8 pos ++ littleEndian 4 buf.length)).write buf
    lastChunkPatches := w.lastChunkPatches ++ [w.patchfilePos]
    patchfilePos := w.patchfilePos + (12 + buf.length) }

def flushBuf (w : PatchWriter) : PatchWriter :=
  { w.writePatchInt w.patchBufStart w.patchBuf with patchBuf := [] }

def writePatch (w : PatchWriter) (pos : Nat) (buf : List UInt8) (last : Bool) : PatchWriter :=
  if buf.length ≤ chunkSize - w.patchBuf.length ∧
      (w.patchBuf.length = 0 ∨ pos = w.patchBufStart + w.patchBuf.length) then
    let w := { w with
      patchBuf := w.patchBuf ++ buf
      patchBufStart := if w.patchBuf.length = 0 then pos else w.patchBufStart }
    if last = true ∨ w.patchBuf.length = chunkSize ∨ buf.length = 0 then w.flushBuf else w
  else
    let w := if 0 < w.patchBuf.length then w.flushBuf else w
    if last = false ∧ 0 < buf.length ∧ buf.length < chunkSize then
      { w with patchBuf := w.patchBuf ++ buf, patchBufStart := pos }
    else w.writePatchInt pos buf

def writePatchSize (w : PatchWriter) (remoteFs : Nat) : PatchWriter :=
  let patchfile := (w.patchfile.seek 0).write (littleEndian 8 remoteFs)
  if w.patchfilePos = 0 then { w with patchfile, patchfilePos := 8 }
  else { w with patchfile := patchfile.seek w.patchfilePos }

def invalidateAt (f : ReadFile) (pos : Nat) : ReadFile :=
  (f.seek pos).write (littleEndian 8 (2 ^ 64 - 1))

def invalidateLastPatches (w : PatchWriter) : PatchWriter :=
  { w with
    patchfile := (w.lastChunkPatches.foldl invalidateAt w.patchfile).seek w.patchfilePos
    patchBuf := []
    lastChunkPatches := [] }

end PatchWriter

inductive ClientState where
  | first
  | block
  | chunk
  deriving DecidableEq, Repr

/-- A download in patch mode. `remaining` is what is missing of the data of a message. -/
structure PatchClient where
  writer : PatchWriter
  state : ClientState
  filePos : Nat
  remaining : Nat
  chunkStart : Nat
  blockForChunkStart : Option Nat
  hashForWholeBlock : Bool

/-- The place and the size of the data of a message. -/
structure Announced where
  start : Nat
  size : Nat
  size_lt : size < 2 ^ 32
  end_lt : start + size < 2 ^ 63

/-- What a connection brings in patch mode: the size of the file, the header of a block or of a
chunk, data, the hash of a block that fits or does not, or its own end. -/
inductive PatchEvent where
  | filesize (remoteFs : Nat)
  | wholeBlock (m : Announced)
  | updateChunk (m : Announced)
  | received (buf : List UInt8)
  | blockHash
  | wrongHash
  | reconnect

namespace PatchClient

def start (remoteFs : Nat) : PatchClient where
  writer := PatchWriter.fresh.writePatchSize remoteFs
  state := .first
  filePos := 0
  remaining := 0
  chunkStart := 0
  blockForChunkStart := none
  hashForWholeBlock := false

def blockStart (pos : Nat) : Nat := pos / checkpointDist * checkpointDist

def newBlock (c : PatchClient) (pos : Nat) : Prop := c.blockForChunkStart ≠ some (blockStart pos)

instance (c : PatchClient) (pos : Nat) : Decidable (c.newBlock pos) :=
  inferInstanceAs (Decidable (_ ≠ _))

def hashUpto (c : PatchClient) (newChunkStart : Nat) : PatchClient :=
  let c := if c.newBlock newChunkStart then
    { c with
      writer := { c.writer with lastChunkPatches := [], patchBuf := [] }
      blockForChunkStart := some (blockStart newChunkStart)
      hashForWholeBlock := false
      chunkStart := blockStart newChunkStart }
    else c
  { c with chunkStart := newChunkStart }

def writeData (c : PatchClient) (buf : List UInt8) : PatchClient :=
  { c with
    writer := c.writer.writePatch c.filePos buf (c.remaining - buf.length == 0)
    filePos := c.filePos + buf.length
    remaining := c.remaining - buf.length
    chunkStart := c.chunkStart + buf.length }

def stateBlock (c : PatchClient) (buf : List UInt8) : PatchClient :=
  let c := c.writeData (buf.take c.remaining)
  if c.remaining = 0 then { c with hashForWholeBlock := true, state := .first } else c

def stateChunk (c : PatchClient) (buf : List UInt8) : PatchClient :=
  let c := if 0 < (buf.take c.remaining).length then c.writeData (buf.take c.remaining) else c
  if c.remaining = 0 then { c with state := .first } else c

/-- A message comes only behind the data of the last one. The chunks of a block come in
ascending order. -/
def step (c : PatchClient) : PatchEvent → Option PatchClient
  | .filesize remoteFs =>
    if c.state = .first then some { c with writer := c.writer.writePatchSize remoteFs } else none
  | .wholeBlock m =>
    if c.state = .first then
      some { c with
        state := .block
        filePos := m.start
        remaining := m.size
        chunkStart := m.start
        blockForChunkStart := some m.start
        hashForWholeBlock := false }
    else none
  | .updateChunk m =>
    if c.state = .first ∧ (c.newBlock m.start ∨ c.chunkStart ≤ m.start) then
      let c := c.hashUpto m.start
      some { c with
        state := if 0 < m.size then .chunk else .first
        filePos := m.start
        remaining := m.size }
    else none
  | .received buf =>
    match c.state with
    | .first => none
    | .block => some (c.stateBlock buf)
    | .chunk => some (c.stateChunk buf)
  | .blockHash =>
    if c.state = .first then
      some { c with
        writer := { c.writer with lastChunkPatches := [] }
        blockForChunkStart := if c.hashForWholeBlock then c.blockForChunkStart else none }
    else none
  | .wrongHash =>
    if c.state = .first ∧ c.hashForWholeBlock = false then
      some { c with writer := c.writer.invalidateLastPatches, blockForChunkStart := none }
    else none
  | .reconnect =>
    some { c with
      writer := c.writer.invalidateLastPatches
      blockForChunkStart := none
      state := .first }

end PatchClient

end WritePatch
end UrBackup
