import UrBackup.Images.NextBlock
import UrBackup.Lib.Loop

/-! The loop over the data of a read, turn by turn: what a turn takes of them, and what becomes of a
message about an empty block. -/
namespace UrBackup

open ByteOrder

namespace ImageTransfer

section Definitions

variable (req : ImageRequest) (files : ImageFiles)

def skipBlockFrom (emptyVhdblockStart : Int) (t : ImageTransfer) : ImageTransfer :=
  if t.nextblock = emptyVhdblockStart then
    { t.writeHash files.zeroHash with nextblock := t.nextblock + t.vhdBlocksize }
  else t.skipBlock req files

def skipBlocksFrom (emptyVhdblockStart : Int) : Nat → ImageTransfer → ImageTransfer
  | 0, t => t
  | n + 1, t => skipBlocksFrom emptyVhdblockStart n (t.skipBlockFrom req files emptyVhdblockStart)

def skipGapFrom (t : ImageTransfer) (emptyVhdblockStart : Int) (currblock : Nat) : ImageTransfer :=
  if t.vhdBlocksize ≤ currblock - t.nextblock then
    let t := t.fillUp req
    skipBlocksFrom req files emptyVhdblockStart ((currblock - t.nextblock) / t.vhdBlocksize) t
  else t

/-- `updateNextblock` with all its arguments. -/
def updateNextblockFrom (t : ImageTransfer) (emptyVhdblockStart : Int) (currblock trimAdd : Nat) :
    ImageTransfer :=
  if t.nextblock = currblock then
    { (if 0 < trimAdd then t.trim req t.nextblock trimAdd else t) with nextblock := currblock + 1 }
  else if currblock < t.nextblock then t
  else
    { (t.skipGapFrom req files emptyVhdblockStart currblock).fillGap req currblock trimAdd with
      nextblock := currblock + 1 }

def takeEmptyBlock (t : ImageTransfer) (vhdblock : Int) : ImageTransfer :=
  let currblock := vhdblock + t.vhdBlocksize
  if currblock < t.nextblock then t
  else t.updateNextblockFrom req files vhdblock currblock.toNat 0

end Definitions

section EmptyBlocks

variable {req : ImageRequest} {files : ImageFiles} {t : ImageTransfer}

end EmptyBlocks

end ImageTransfer

/-- The variables of the loop over the data of a read. The number of a block is known as long as a
part of it is missing. -/
structure ReceiveLoop where
  buffer : List UInt8
  off : Nat
  currblock : Option Nat
  blockleft : Nat
  blockdata : List UInt8
  totalblocks : Int
  transfer : ImageTransfer
  off_le : off ≤ buffer.length
  begun : blockleft ≠ 0 → currblock ≠ none

/-- How the loop is left. -/
inductive LoopEnd where
  | more (s : ReceiveLoop)
  | retry (t : ImageTransfer)
  | finished (t : ImageTransfer)
  | clientError
  | failed

namespace ReceiveLoop

section Definitions

variable (req : ImageRequest) (files : ImageFiles)

def written (s : ReceiveLoop) : Reaction ImageTransfer :=
  match s.currblock with
  | none => .goOn s.transfer
  | some currblock => s.transfer.takeBlock req files currblock s.blockdata

def pass (s : ReceiveLoop) (t : ImageTransfer) (n : Nat) (h : s.off + n ≤ s.buffer.length) :
    ReceiveLoop :=
  { s with
    off := s.off + n, currblock := none, blockleft := 0, transfer := t
    off_le := h, begun := fun h => absurd rfl h }

def begin (s : ReceiveLoop) (t : ImageTransfer) (currblock : Nat)
    (h : s.off + 8 ≤ s.buffer.length) : ReceiveLoop :=
  { s with
    off := s.off + 8, currblock := some currblock, blockleft := t.blocksize, blockdata := []
    transfer := t, off_le := h, begun := fun _ => nofun }

def accum (s : ReceiveLoop) (t : ImageTransfer) : LoopEnd :=
  .more { s with
    buffer := s.buffer.drop s.off, off := 0, currblock := none, blockleft := 0, transfer := t
    off_le := Nat.zero_le _, begun := fun h => absurd rfl h }

def finish (t : ImageTransfer) : LoopEnd :=
  match t.finish req files with
  | .goOn t => .finished t
  | .retry t => .retry t
  | .giveUp => .failed

def unknownBlock (t : ImageTransfer) : LoopEnd :=
  match t.again with
  | some t => .retry t
  | none => .failed

def message (s : ReceiveLoop) (t : ImageTransfer) : LoopEnd ⊕ ReceiveLoop :=
  if h : s.off + 8 ≤ s.buffer.length then
    let currblock := int64 (bytesAt s.buffer s.off 8)
    if currblock = -123 then .inl (finish req files t)
    else if currblock = -124 ∨ currblock = -1 then .inl .clientError
    else if currblock = -125 then .inr (s.pass t 8 h)
    else if currblock = -126 then
      if h : s.off + (16 + shaSize) ≤ s.buffer.length then
        match t.takeChecksum req files (int64 (bytesAt s.buffer (s.off + 8) 8))
            (bytesAt s.buffer (s.off + 16) shaSize) with
        | .goOn t => .inr (s.pass t (16 + shaSize) h)
        | .retry t => .inl (.retry t)
        | .giveUp => .inl .failed
      else .inl (s.accum t)
    else if currblock = -127 then
      if s.off + 16 ≤ s.buffer.length then
        .inr (s.pass (t.takeEmptyBlock req files (int64 (bytesAt s.buffer (s.off + 8) 8))) 0
          s.off_le)
      else .inl (s.accum t)
    else if currblock < 0 ∨ s.totalblocks < currblock then .inl (unknownBlock t)
    else .inr (s.begin t currblock.toNat h)
  else .inl (s.accum t)

def collect (s : ReceiveLoop) : LoopEnd ⊕ ReceiveLoop :=
  let available := min s.blockleft (s.buffer.length - s.off)
  let blockdata := s.blockdata ++ bytesAt s.buffer s.off available
  if s.buffer.length ≤ s.off + available ∧ 0 < s.blockleft - available ∧ s.currblock ≠ none then
    .inl (.more { s with
      buffer := [], off := 0, blockleft := s.blockleft - available, blockdata := blockdata
      off_le := Nat.zero_le _
      begun := fun h => s.begun fun h0 => h (by rw [h0, Nat.zero_sub]) })
  else
    .inr { s with
      off := s.off + available, blockleft := s.blockleft - available, blockdata := blockdata
      off_le := Nat.add_le_of_le_sub' s.off_le (Nat.min_le_right _ _)
      begun := fun h => s.begun fun h0 => h (by rw [h0, Nat.zero_sub]) }

def iterate (s : ReceiveLoop) : LoopEnd ⊕ ReceiveLoop :=
  if s.blockleft = 0 then
    match s.written req files with
    | .goOn t => s.message req files t
    | .retry t => .inl (.retry t)
    | .giveUp => .inl .failed
  else s.collect

end Definitions

/-- A whole message about an empty block is next. -/
def HasEmptyBlock (s : ReceiveLoop) : Prop :=
  s.off + 16 ≤ s.buffer.length ∧ int64 (bytesAt s.buffer s.off 8) = -127

def AtEmptyBlock (s : ReceiveLoop) : Prop :=
  s.blockleft = 0 ∧ s.currblock = none ∧ s.HasEmptyBlock

section Properties

variable (req : ImageRequest) (files : ImageFiles)

/-- A turn consumes bytes, completes a block, or is the last one. -/
def Progresses (s : ReceiveLoop) : Prop :=
  ∀ u, s.iterate req files = .inr u → s.off < u.off ∨ (s.blockleft = 0 ∧ s.currblock ≠ none)

/-- What a message about the empty 512 KB from an aligned block on is to do: those are skipped, with
the hash of zeros, and every block behind them is still stored. -/
def EmptyBlockTaken (s : ReceiveLoop) : Prop :=
  ∀ t k u, s.blockleft = 0 → s.written req files = .goOn t → s.HasEmptyBlock →
    int64 (bytesAt s.buffer (s.off + 8) 8) = (k * t.vhdBlocksize : Nat) →
      t.nextblock / t.vhdBlocksize ≤ k → s.iterate req files = .inr u →
        u.transfer.nextblock = (k + 1) * t.vhdBlocksize ∧
          u.transfer.hashfile.read (k * shaSize) shaSize = files.zeroHash ∧
            ∀ n data t', (k + 1) * t.vhdBlocksize ≤ n → data.length = t.blocksize →
              u.transfer.takeBlock req files n data = .goOn t' →
                t'.image.read (req.mbrOffset + n * t.blocksize) t.blocksize = data

/-- The loop ends, and deals with every message on the way. -/
def Consumes (s : ReceiveLoop) : Prop :=
  (∃ b, Loop.Ends (iterate req files) s b) ∧ ∀ u, Loop.Reaches (iterate req files) s u →
    u.Progresses req files ∧ u.EmptyBlockTaken req files

end Properties

section Turns

variable {req : ImageRequest} {files : ImageFiles} {s u : ReceiveLoop} {t : ImageTransfer}

theorem message_cases (h : s.message req files t = .inr u) :
    (u.buffer = s.buffer ∧ s.off < u.off) ∨ (s.HasEmptyBlock ∧ u.AtEmptyBlock) := by
  unfold message at h
  split at h
  · dsimp only at h
    split at h
    · cases h
    · split at h
      · cases h
      · split at h
        · cases h
          exact .inl ⟨rfl, Nat.lt_add_of_pos_right (by decide)⟩
        · split at h
          · split at h
            · split at h
              · cases h
                exact .inl ⟨rfl, Nat.lt_add_of_pos_right (by decide)⟩
              · cases h
              · cases h
            · cases h
          · split at h
            · next hempty =>
                split at h
                · next hlong =>
                    cases h
                    exact .inr ⟨⟨hlong, hempty⟩, rfl, rfl, hlong, hempty⟩
                · cases h
            · split at h
              · cases h
              · cases h
                exact .inl ⟨rfl, Nat.lt_add_of_pos_right (by decide)⟩
  · cases h

theorem collect_cases (hleft : s.blockleft ≠ 0) (h : s.collect = .inr u) :
    u.buffer = s.buffer ∧ s.off < u.off := by
  unfold collect at h
  dsimp only at h
  split at h
  · cases h
  · next hgo =>
      cases h
      refine ⟨rfl, Nat.lt_add_of_pos_right ?_⟩
      by_contra hnone
      apply hgo
      have hoff := s.off_le
      refine ⟨?_, ?_, s.begun hleft⟩
      · omega
      · omega

theorem iterate_cases (h : s.iterate req files = .inr u) :
    (u.buffer = s.buffer ∧ s.off < u.off) ∨
      (s.blockleft = 0 ∧ s.HasEmptyBlock ∧ u.AtEmptyBlock) := by
  unfold iterate at h
  split at h
  · next hleft =>
      split at h
      · exact (message_cases h).imp_right fun hempty => ⟨hleft, hempty⟩
      · cases h
      · cases h
  · next hleft => exact .inl (collect_cases hleft h)

theorem iterate_emptyBlock (hleft : s.blockleft = 0) (hwritten : s.written req files = .goOn t)
    (h : s.HasEmptyBlock) : s.iterate req files = .inr (s.pass
      (t.takeEmptyBlock req files (int64 (bytesAt s.buffer (s.off + 8) 8))) 0 s.off_le) := by
  obtain ⟨hlong, hempty⟩ := h
  unfold iterate
  rw [if_pos hleft, hwritten]
  dsimp only
  unfold message
  rw [dif_pos (by omega), hempty]
  dsimp only
  rw [if_neg (by decide), if_neg (by decide), if_neg (by decide), if_neg (by decide), if_pos rfl,
    if_pos hlong]

theorem iterate_atEmptyBlock (h : s.AtEmptyBlock) :
    ∃ u, s.iterate req files = .inr u ∧ u.AtEmptyBlock := by
  obtain ⟨hleft, hcurr, hempty⟩ := h
  have hwritten : s.written req files = .goOn s.transfer := by
    unfold written
    rw [hcurr]
  exact ⟨_, iterate_emptyBlock hleft hwritten hempty, rfl, rfl, hempty⟩

/-- So it never ends. -/
theorem not_ends_atEmptyBlock (h : s.AtEmptyBlock) (b : LoopEnd) :
    ¬ Loop.Ends (iterate req files) s b :=
  @Loop.not_ends_of_invariant _ _ (iterate req files) AtEmptyBlock
    (fun _ => iterate_atEmptyBlock) s h b

end Turns

section Ends

variable {req : ImageRequest} {files : ImageFiles}

/-- The loop deals with all of its data if and only if no turn of it finds a whole message about an
empty block. -/
theorem consumes_iff (s : ReceiveLoop) : s.Consumes req files ↔
    ∀ u, Loop.Reaches (iterate req files) s u → ¬ u.AtEmptyBlock := by
  constructor
  · rintro ⟨⟨b, hends⟩, -⟩ u hu hat
    exact not_ends_atEmptyBlock hat b (hu.ends hends)
  · intro hnever
    have hturn {u u' : ReceiveLoop} (hu : Loop.Reaches (iterate req files) s u)
        (h : u.iterate req files = .inr u') : u'.buffer = u.buffer ∧ u.off < u'.off :=
      (iterate_cases h).resolve_right fun hempty => hnever u' (hu.next h) hempty.2.2
    have hends : ∃ b, Loop.Ends (iterate req files) s b ∧ True := by
      refine @Loop.Ends.of_invariant _ _ _ (Loop.Reaches (iterate req files) s) (fun _ => True)
        (fun u => u.buffer.length - u.off) (fun u hu => ?_) s (.here s)
      cases hbody : u.iterate req files with
      | inl b => trivial
      | inr u' =>
        obtain ⟨hbuffer, hoff⟩ := hturn hu hbody
        have hle := u'.off_le
        refine ⟨hu.next hbody, ?_⟩
        rw [hbuffer] at hle ⊢
        omega
    refine ⟨?_, fun u hu => ⟨fun u' h => .inl (hturn hu h).2, ?_⟩⟩
    · obtain ⟨b, hends, -⟩ := hends
      exact ⟨b, hends⟩
    · intro t k u' hleft hwritten hempty _ _ h
      exact absurd ⟨rfl, rfl, hempty⟩
        (hnever _ (hu.next (iterate_emptyBlock hleft hwritten hempty)))

end Ends

section Samples

def sampleTransfer : ImageTransfer where
  blocksize := 4096
  vhdBlocksize := 128
  blocks := 256
  totalblocks := 256
  imageSize := 1024 * 1024 + mbrSize
  nextblock := 0
  lastVerifiedBlock := 0
  numHashErrors := 0
  shactx := []
  verifyChecksum := []
  hashfile := .empty
  hashpos := 0
  image := fun _ => 0
  hasError := false

def emptyBlockRead : ReceiveLoop where
  buffer := littleEndian 8 (2 ^ 64 - 127) ++ littleEndian 8 0
  off := 0
  currblock := none
  blockleft := 0
  blockdata := []
  totalblocks := 256
  transfer := sampleTransfer
  off_le := Nat.zero_le _
  begun := fun h => absurd rfl h

theorem emptyBlockRead_atEmptyBlock : emptyBlockRead.AtEmptyBlock := by
  refine ⟨rfl, rfl, ?_, ?_⟩
  · decide
  · decide

/-- A loop without end. -/
theorem empty_block_is_never_consumed : ¬ ∀ (req : ImageRequest) (files : ImageFiles)
    (s : ReceiveLoop), s.Consumes req files := by
  intro hclaim
  let req : ImageRequest := ⟨false, false, false, false, false,
    fun _ => List.replicate shaSize 0, fun _ => List.length_replicate⟩
  let files : ImageFiles := ⟨fun _ => 0, fun _ => 0, .empty, List.replicate shaSize 0, []⟩
  obtain ⟨⟨b, hends⟩, -⟩ := hclaim req files emptyBlockRead
  exact not_ends_atEmptyBlock emptyBlockRead_atEmptyBlock b hends

end Samples

end ReceiveLoop

end UrBackup
