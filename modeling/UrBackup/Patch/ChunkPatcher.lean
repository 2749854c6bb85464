import UrBackup.Lib.ByteOrder
import UrBackup.Lib.Loop
import UrBackup.Lib.ReadFile

/-! The application of a patch file to an old file. The new content goes to a callback,
piece by piece. -/
namespace UrBackup

open ByteOrder

def sparseBlocksize : Nat := 512 * 1024

def bufferSize : Nat := 512 * 1024

def uintMax : Nat := 4294967295

def roundDown (n multiple : Nat) : Nat := n / multiple * multiple

def roundUp (n multiple : Nat) : Nat := (n + multiple - 1) / multiple * multiple

def bufIsZero (buf : List UInt8) : Bool := buf.all (· = 0)

def int64 (bytes : List UInt8) : Int :=
  if ofLittleEndian bytes < 2 ^ 63 then ofLittleEndian bytes else ofLittleEndian bytes - 2 ^ 64

/-- A number converted to `unsigned int`. -/
def toUnsigned (x : Int) : Nat := (x % 2 ^ 32).toNat

def memcpy (dst : List UInt8) (off : Nat) (src : List UInt8) : List UInt8 :=
  dst.take off ++ src ++ dst.drop (off + src.length)

structure SparseExtent where
  offset : Nat
  size : Nat
  deriving DecidableEq, Repr

def SparseExtent.bytes (e : SparseExtent) : List UInt8 :=
  littleEndian 8 e.offset ++ littleEndian 8 e.size

structure PatchHeader where
  patchOff : Int
  patchSize : Nat
  deriving DecidableEq, Repr

/-- A failed assertion, or a loop whose turns change nothing. -/
inductive Fault where
  | assertion
  | endless
  deriving DecidableEq, Repr

/-- The state `σ` of the object behind the callback changes with every call. A buffer that
is not there is a run of `bsize` bytes without data, and the last argument is the flag that
the call may set. -/
structure ChunkPatcherCallback (σ : Type) where
  nextChunkPatcherBytes : σ → (buf : Option (List UInt8)) → (bsize : Nat) → (changed : Bool) →
    (isSparse : Option Bool) → Except Fault (σ × Option Bool)
  nextSparseExtentBytes : σ → (buf : List UInt8) → σ
  chunkPatcherPos : σ → Int

structure PatcherConfig (σ : Type) where
  cb : ChunkPatcherCallback σ
  requireUnchanged : Bool
  withSparse : Bool
  unchangedAlign : Nat
  /-- The build may leave assertions out. -/
  assertions : Bool

/-- The members of the patcher. -/
structure ChunkPatcher (σ : Type) where
  client : σ
  lastSparseStart : Option Nat
  currOnlyZeros : Bool
  currChanged : Bool
  sparseBuf : List UInt8
  unchangedAlignStart : Int
  unchangedAlignEnd : Int
  unchangedAlignEndNext : Int
  lastUnchanged : Bool

namespace ChunkPatcher

variable {σ : Type} (cfg : PatcherConfig σ)

def assertThat (p : Prop) [Decidable p] : Except Fault Unit :=
  if cfg.assertions = false ∨ p then .ok () else .error .assertion

def assertPos (client : σ) (pos : Nat) : Except Fault Unit :=
  assertThat cfg (cfg.cb.chunkPatcherPos client < 0 ∨ cfg.cb.chunkPatcherPos client = pos)

/-- A run of zeros in front of `pos` ends there. -/
def finishSparse (pos : Nat) (st : ChunkPatcher σ) : ChunkPatcher σ :=
  match st.lastSparseStart with
  | none => st
  | some start =>
    if start < roundDown pos sparseBlocksize then
      { st with
        client := cfg.cb.nextSparseExtentBytes st.client
          (SparseExtent.bytes ⟨start, roundDown pos sparseBlocksize - start⟩)
        lastSparseStart := none }
    else st

/-- The loop of `nextChunkPatcherBytes`: whole blocks go on as they are, parts of blocks are
collected until the block is full. -/
def nextBytesLoop (pos : Nat) (buf : List UInt8) (changed : Bool) (st : ChunkPatcher σ) :
    Except Fault (ChunkPatcher σ) :=
  if _h : buf = [] then .ok st
  else if pos % sparseBlocksize = 0 ∧ buf.length = sparseBlocksize then
    if bufIsZero buf then do
      assertPos cfg st.client pos
      let (client, _) ←
        cfg.cb.nextChunkPatcherBytes st.client none buf.length changed (some true)
      return { st with
        client
        currOnlyZeros := true
        lastSparseStart := some (st.lastSparseStart.getD pos) }
    else do
      let st := finishSparse cfg pos st
      assertPos cfg st.client pos
      let (client, _) ← cfg.cb.nextChunkPatcherBytes st.client (some buf) buf.length changed none
      return { st with client, currOnlyZeros := true, currChanged := false }
  else do
    let nextCheckpoint := roundDown pos sparseBlocksize + sparseBlocksize
    let toCheckpoint := min buf.length (nextCheckpoint - pos)
    let st := { st with
      currOnlyZeros := st.currOnlyZeros && bufIsZero (buf.take toCheckpoint)
      currChanged := st.currChanged || changed
      sparseBuf := memcpy st.sparseBuf (pos % sparseBlocksize) (buf.take toCheckpoint) }
    if pos + toCheckpoint = nextCheckpoint then
      let st ← endOfBlock pos nextCheckpoint st
      nextBytesLoop (pos + toCheckpoint) (buf.drop toCheckpoint) changed st
    else nextBytesLoop (pos + toCheckpoint) (buf.drop toCheckpoint) changed st
termination_by buf.length
decreasing_by
  all_goals
    have hpos : 0 < buf.length := List.length_pos_iff.mpr _h
    have hcheck : pos < roundDown pos sparseBlocksize + sparseBlocksize := by
      unfold roundDown sparseBlocksize
      omega
    rw [List.length_drop]
    omega
where
  /-- The collected block goes on when it is full. -/
  endOfBlock (pos nextCheckpoint : Nat) (st : ChunkPatcher σ) : Except Fault (ChunkPatcher σ) := do
    if st.currOnlyZeros then
      let (client, _) ←
        cfg.cb.nextChunkPatcherBytes st.client none sparseBlocksize st.currChanged (some true)
      assertPos cfg client nextCheckpoint
      return { st with
        client
        lastSparseStart := some (st.lastSparseStart.getD (nextCheckpoint - sparseBlocksize))
        currOnlyZeros := true
        currChanged := false }
    else
      let st := finishSparse cfg pos st
      let (client, _) ←
        cfg.cb.nextChunkPatcherBytes st.client (some st.sparseBuf) sparseBlocksize st.currChanged none
      assertPos cfg client nextCheckpoint
      return { st with client, currOnlyZeros := true, currChanged := false }

def nextChunkPatcherBytes (pos : Nat) (buf : List UInt8) (changed : Bool) (st : ChunkPatcher σ) :
    Except Fault (ChunkPatcher σ) :=
  nextBytesLoop cfg pos buf changed { st with lastUnchanged := false }

/-- `nextChunkPatcherBytes` for a sparse run, which has no data. -/
def nextSparseBytes (pos bsize : Nat) (changed : Bool) (st : ChunkPatcher σ) :
    Except Fault (ChunkPatcher σ) := do
  assertThat cfg (pos % sparseBlocksize = 0)
  assertThat cfg (cfg.unchangedAlign = 0 ∨ pos % cfg.unchangedAlign = 0)
  assertPos cfg st.client pos
  let (client, _) ← cfg.cb.nextChunkPatcherBytes st.client none bsize changed (some true)
  return { st with
    client
    lastUnchanged := false
    lastSparseStart := some (st.lastSparseStart.getD (roundUp pos sparseBlocksize)) }

def finishChunkPatcher (pos : Nat) (st : ChunkPatcher σ) : Except Fault (ChunkPatcher σ) := do
  let st := finishSparse cfg pos st
  let sparseBufUsed := pos % sparseBlocksize
  if 0 < sparseBufUsed ∧ st.lastUnchanged = false then
    let (client, _) ← cfg.cb.nextChunkPatcherBytes st.client
      (some (st.sparseBuf.take sparseBufUsed)) sparseBufUsed st.currChanged none
    assertPos cfg client pos
    return { st with client }
  else return st

def deliver (pos : Nat) (buf : List UInt8) (changed : Bool) (st : ChunkPatcher σ) :
    Except Fault (ChunkPatcher σ) :=
  if cfg.withSparse then nextChunkPatcherBytes cfg pos buf changed st
  else do
    assertPos cfg st.client pos
    let (client, _) ← cfg.cb.nextChunkPatcherBytes st.client (some buf) buf.length changed none
    return { st with client }

end ChunkPatcher

end UrBackup
