import UrBackup.Patch.ChunkPatcher

/-! The loop of `ApplyPatch`: headers, records of the patch, and what lies between them. -/
namespace UrBackup.ChunkPatcher

open ByteOrder

/-- The variables of `ApplyPatch` that the new content depends on: the old file, the sparse
extents and how far the new file has come. -/
structure Progress (σ : Type) where
  members : ChunkPatcher σ
  file : ReadFile
  currSparseExtent : Option SparseExtent
  extents : List SparseExtent
  filePos : Nat

/-- All variables of `ApplyPatch`. The position that the source keeps for the patch file is
always the one of the handle. -/
structure ApplyState (σ : Type) where
  out : Progress σ
  patch : ReadFile
  nextHeader : PatchHeader
  hasHeader : Bool

variable {σ : Type} (cfg : PatcherConfig σ)

def readNextValidPatch (patch : ReadFile) : Bool × PatchHeader × ReadFile :=
  if _h : (patch.next 12).length = 12 then
    let patchOff := int64 ((patch.next 12).take 8)
    let patchSize := ofLittleEndian ((patch.next 12).drop 8)
    let patch' := patch.advance 12
    if patchOff = -1 then readNextValidPatch (patch'.seek (patch'.pos + patchSize))
    else (true, ⟨patchOff, patchSize⟩, patch')
  else (false, ⟨-1, 0⟩, patch.advance 12)
termination_by patch.content.length - patch.pos
decreasing_by
  rw [ReadFile.next_length] at _h
  simp only [ReadFile.seek_content, ReadFile.advance_content, ReadFile.seek_pos,
    ReadFile.advance_pos, ReadFile.next_length]
  omega

def maxRead : Nat :=
  if cfg.unchangedAlign ≠ 0 then uintMax - uintMax % cfg.unchangedAlign else uintMax

def noteHeader (h : PatchHeader) (p : Progress σ) : Progress σ :=
  let align : Int := cfg.unchangedAlign
  if h.patchOff ≠ -1 ∧ cfg.unchangedAlign ≠ 0 then
    { p with members := { p.members with
        unchangedAlignStart := h.patchOff.tdiv align * align
        unchangedAlignEndNext := (h.patchOff + h.patchSize + align - 1).tdiv align * align } }
  else p

def readHeader (st : ApplyState σ) : ApplyState σ :=
  let next := readNextValidPatch st.patch
  { out := noteHeader cfg next.2.1 st.out
    hasHeader := next.1
    nextHeader := next.2.1
    patch := next.2.2 }

def copyRecord (size : Nat) (patch : ReadFile) (p : Progress σ) :
    Except Fault (ReadFile × Progress σ) :=
  if 0 < size then
    -- a read that gives nothing is repeated for ever
    if _h : (patch.next (min bufferSize size)).length = 0 then .error .endless
    else do
      let buf := patch.next (min bufferSize size)
      let members ← deliver cfg p.filePos buf true p.members
      copyRecord (size - buf.length) (patch.advance (min bufferSize size))
        { p with members, filePos := p.filePos + buf.length }
  else .ok (patch, p)
termination_by size
decreasing_by omega

def inUnchangedAlign (p : Progress σ) : Bool :=
  cfg.unchangedAlign ≠ 0 ∧
    ((p.members.unchangedAlignStart ≠ -1 ∧ p.members.unchangedAlignEndNext ≠ -1 ∧
      p.members.unchangedAlignStart ≤ p.filePos ∧
      p.filePos < p.members.unchangedAlignEndNext) ∨
    (p.members.unchangedAlignEnd ≠ -1 ∧ p.filePos < p.members.unchangedAlignEnd))

def currRequireUnchanged (p : Progress σ) : Bool := cfg.requireUnchanged || inUnchangedAlign cfg p

/-- The next run of old data: no longer than the buffer, and not across the border of the
blocks that records touch. -/
def runLength (tr : Nat) (p : Progress σ) : Nat :=
  let tr := min tr bufferSize
  let pos : Int := p.filePos
  if cfg.unchangedAlign = 0 then tr
  else if currRequireUnchanged cfg p = false ∧ p.members.unchangedAlignStart ≠ -1 ∧
      pos < p.members.unchangedAlignStart ∧ p.members.unchangedAlignStart < pos + tr then
    toUnsigned (p.members.unchangedAlignStart - pos)
  else if p.members.unchangedAlignEnd ≠ -1 ∧ pos < p.members.unchangedAlignEnd ∧
      p.members.unchangedAlignEnd < pos + tr then
    toUnsigned (p.members.unchangedAlignEnd - pos)
  else tr

theorem runLength_le (tr : Nat) (p : Progress σ) : runLength cfg tr p ≤ min tr bufferSize := by
  simp only [runLength, toUnsigned]
  split
  · omega
  · split
    · omega
    · split <;> omega

def skipUnchanged (tr : Nat) (p : Progress σ) : Except Fault (Progress σ) := do
  let isSparseArg :=
    if cfg.unchangedAlign ≠ 0 ∧ tr < cfg.unchangedAlign ∧ p.members.lastSparseStart = none then
      none
    else some false
  assertPos cfg p.members.client p.filePos
  let (client, isSparse) ←
    cfg.cb.nextChunkPatcherBytes p.members.client none tr false isSparseArg
  let members := { p.members with client, lastUnchanged := true }
  let members :=
    if isSparse = some true then
      { members with lastSparseStart := some (members.lastSparseStart.getD p.filePos) }
    else finishSparse cfg p.filePos members
  return { p with members, filePos := p.filePos + tr }

def clearAlignEnd (p : Progress σ) : Progress σ :=
  if cfg.unchangedAlign ≠ 0 ∧ p.members.unchangedAlignEnd = p.filePos then
    { p with members := { p.members with unchangedAlignEnd := -1 } }
  else p

def sourceFile (p : Progress σ) : ReadFile :=
  if inUnchangedAlign cfg p then p.file.seek p.filePos else p.file

def copyUnchanged (size : Nat) (filesize : Int) (tr : Nat) (p : Progress σ) :
    Except Fault (Progress σ) :=
  if 0 < tr ∧ p.filePos < size ∧ p.filePos < filesize then
    if currRequireUnchanged cfg p then
      -- a read that gives nothing is repeated for ever
      if _h : ((sourceFile cfg p).next (runLength cfg tr p)).length = 0 then .error .endless
      else do
        let buf := (sourceFile cfg p).next (runLength cfg tr p)
        let members ← deliver cfg p.filePos buf false p.members
        let file := (sourceFile cfg p).advance (runLength cfg tr p)
        copyUnchanged size filesize (runLength cfg tr p - buf.length)
          (clearAlignEnd cfg { p with members, file, filePos := p.filePos + buf.length })
    else do
      let tr := runLength cfg tr p
      let tr := if size < p.filePos + tr then size - p.filePos else tr
      let p ← skipUnchanged cfg tr p
      return clearAlignEnd cfg p
  else .ok p
termination_by tr
decreasing_by
  have hle := runLength_le cfg tr p
  omega

def nextExtent (pos : Nat) : Option SparseExtent → List SparseExtent →
    Option SparseExtent × List SparseExtent
  | none, rest => (none, rest)
  | some e, [] => if e.offset + e.size ≤ pos then (none, []) else (some e, [])
  | some e, e' :: rest =>
    if e.offset + e.size ≤ pos then nextExtent pos (some e') rest else (some e, e' :: rest)

def covers (extent : Option SparseExtent) (pos tr : Nat) : Bool :=
  extent.any fun e => e.offset ≤ pos ∧ pos + tr ≤ e.offset + e.size

def skipSparse (tr : Nat) (p : Progress σ) : Except Fault (Progress σ) := do
  let tr := tr - tr % sparseBlocksize
  let tr := if cfg.unchangedAlign ≠ 0 then tr - tr % cfg.unchangedAlign else tr
  if cfg.withSparse then
    let members ← nextSparseBytes cfg p.filePos tr false p.members
    return { p with members, filePos := p.filePos + tr }
  else
    assertPos cfg p.members.client p.filePos
    let (client, _) ← cfg.cb.nextChunkPatcherBytes p.members.client none tr false (some true)
    return { p with members := { p.members with client }, filePos := p.filePos + tr }

/-- What lies between two records: a sparse run where an extent covers all of it, else old
data. -/
def copyGap (size : Nat) (filesize : Int) (tr : Nat) (p : Progress σ) :
    Except Fault (Progress σ) :=
  let next := nextExtent p.filePos p.currSparseExtent p.extents
  let p := { p with currSparseExtent := next.1, extents := next.2 }
  let tr := if filesize < p.filePos + tr then toUnsigned (filesize - p.filePos) else tr
  let align := cfg.unchangedAlign
  if sparseBlocksize ≤ tr ∧ align ≤ tr ∧ covers p.currSparseExtent p.filePos tr = true then
    if p.filePos % sparseBlocksize = 0 ∧ (align = 0 ∨ p.filePos % align = 0) then
      skipSparse cfg tr p
    else
      let tr := if align ≠ 0 ∧ p.filePos % align ≠ 0 then min tr (align - p.filePos % align) else tr
      let tr :=
        if p.filePos % sparseBlocksize ≠ 0 then
          min tr (sparseBlocksize - p.filePos % sparseBlocksize)
        else tr
      copyUnchanged cfg size filesize tr p
  else copyUnchanged cfg size filesize tr p

abbrev TurnResult (σ : Type) := Bool × ChunkPatcher σ ⊕ ApplyState σ

def finish (p : Progress σ) : Except Fault (TurnResult σ) := do
  let members ← if cfg.withSparse then finishChunkPatcher cfg p.filePos p.members
    else .ok p.members
  return .inl (true, members)

def applyRecord (st : ApplyState σ) : Except Fault (ApplyState σ) := do
  assertThat cfg (st.out.filePos = st.nextHeader.patchOff)
  let members := { st.out.members with
    unchangedAlignEnd := st.out.members.unchangedAlignEndNext }
  let (patch, out) ← copyRecord cfg st.nextHeader.patchSize st.patch { st.out with members }
  let file := if cfg.requireUnchanged then out.file.seek out.filePos else out.file
  return { st with patch, out := { out with file }, nextHeader := ⟨-1, 0⟩ }

def distance (nextHeader : PatchHeader) (pos : Nat) : Nat :=
  let hoff := nextHeader.patchOff - pos
  if nextHeader.patchOff ≠ -1 ∧ 0 ≤ hoff ∧ hoff < maxRead cfg then hoff.toNat else maxRead cfg

def turn (size : Nat) (filesize : Int) (st : ApplyState σ) : Except Fault (TurnResult σ) :=
  let pos := st.out.filePos
  if st.hasHeader = false ∧ (filesize ≤ pos ∨ size ≤ pos) then finish cfg st.out
  else do
    assertThat cfg (st.nextHeader.patchOff = -1 ∨ pos ≤ st.nextHeader.patchOff)
    let tr := distance cfg st.nextHeader pos
    if tr = 0 ∧ filesize < pos + st.nextHeader.patchSize then
      let nextHeader := { st.nextHeader with patchSize := toUnsigned (filesize - pos) }
      let st ← applyRecord cfg { st with nextHeader }
      finish cfg st.out
    else if filesize ≤ pos then
      assertThat cfg (pos < filesize)
      return .inl (false, st.out.members)
    else if tr = 0 then
      let st ← applyRecord cfg st
      return .inr st
    else if pos < size then
      let out ← copyGap cfg size filesize tr st.out
      return .inr { st with out }
    else
      assertThat cfg False
      return .inl (false, st.out.members)

def applyTurn (size : Nat) (filesize : Int) (st : ApplyState σ) : Except Fault (TurnResult σ) :=
  if (st.out.filePos < size ∧ st.out.filePos < filesize) ∨ st.hasHeader = true then
    turn cfg size filesize
      (if st.hasHeader = true ∧ st.nextHeader.patchOff = -1 then readHeader cfg st else st)
  else finish cfg st.out

def applyLoop (size : Nat) (filesize : Int) (st : ApplyState σ) :
    Except Fault (Bool × ChunkPatcher σ) ⊕ ApplyState σ :=
  match applyTurn cfg size filesize st with
  | .error e => .inl (.error e)
  | .ok (.inl r) => .inl (.ok r)
  | .ok (.inr st) => .inr st

def resetAlign (members : ChunkPatcher σ) : ChunkPatcher σ :=
  { members with
    unchangedAlignStart := -1
    unchangedAlignEnd := -1
    unchangedAlignEndNext := -1
    lastUnchanged := false }

def init (extents : Option (List SparseExtent)) (members : ChunkPatcher σ) : ChunkPatcher σ :=
  let members := resetAlign members
  if cfg.withSparse = true ∨ extents ≠ none then
    { members with
      lastSparseStart := none
      currOnlyZeros := true
      currChanged := false
      sparseBuf := List.replicate sparseBlocksize 0 }
  else members

def start (members : ChunkPatcher σ) (file patch : List UInt8)
    (extents : Option (List SparseExtent)) : ApplyState σ where
  out :=
    { members := init cfg extents members
      file := ⟨file, 0⟩
      currSparseExtent := (extents.getD []).head?
      extents := (extents.getD []).tail
      filePos := 0 }
  patch := ⟨patch, 8⟩
  nextHeader := ⟨-1, 0⟩
  hasHeader := true

/-- The outcome of `ApplyPatch`, if it has one: what it returns and the members then. -/
def ApplyPatch (members : ChunkPatcher σ) (file patch : List UInt8)
    (extents : Option (List SparseExtent)) (result : Except Fault (Bool × ChunkPatcher σ)) : Prop :=
  if patch.length < 8 then result = .ok (false, resetAlign members)
  else Loop.Ends (applyLoop cfg file.length (int64 (patch.take 8)))
    (start cfg members file patch extents) result

theorem ApplyPatch.unique {members : ChunkPatcher σ} {file patch : List UInt8}
    {extents : Option (List SparseExtent)} {r r' : Except Fault (Bool × ChunkPatcher σ)}
    (h : ApplyPatch cfg members file patch extents r)
    (h' : ApplyPatch cfg members file patch extents r') : r = r' := by
  unfold ApplyPatch at h h'
  split at h
  · rename_i hshort
    rw [if_pos hshort] at h'
    exact h.trans h'.symm
  · rename_i hlong
    rw [if_neg hlong] at h'
    exact h.unique h'

end UrBackup.ChunkPatcher
