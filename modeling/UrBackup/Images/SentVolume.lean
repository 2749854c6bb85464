import UrBackup.Images.NextBlock

/-! A volume of which a client sends some blocks, what an image of it should be, and what the server
has of it when it has come to a block. -/
namespace UrBackup

structure SentVolume where
  blocksize : Nat
  drivesize : Nat
  sent : Nat → Option (List UInt8)
  blocksize_dvd : blocksize ∣ hashedSize
  sent_length : ∀ {n data}, sent n = some data → data.length = blocksize
  sent_lt : ∀ {n data}, sent n = some data → n * blocksize < drivesize

namespace SentVolume

section Definitions

variable (v : SentVolume) (req : ImageRequest) (files : ImageFiles)

def perHash : Nat := hashedSize / v.blocksize

def totalblocks : Nat :=
  v.drivesize / v.blocksize + if v.drivesize % v.blocksize ≠ 0 then 1 else 0

def touched (k : Nat) : Bool :=
  (List.range' (k * v.perHash) v.perHash).any fun n => (v.sent n).isSome

/-- What is not sent becomes zero: where something of the 512 KB is sent, and in the last ones if
they are shorter. -/
def filled (k : Nat) : Bool := v.touched k || decide (v.totalblocks < (k + 1) * v.perHash)

/-- The volume, if the unsent blocks of some 512 KB are zero and all others those of the parent. -/
def bytes (zero : Nat → Bool) : ByteStore := fun i =>
  match v.sent (i / v.blocksize) with
  | some data => data.getD (i % v.blocksize) 0
  | none => if zero (i / v.blocksize / v.perHash) then 0 else files.volume req i

def content : ByteStore := v.bytes req files v.touched

def stored : ByteStore := v.bytes req files v.filled

def entry (k : Nat) : List UInt8 :=
  if v.filled k then
    req.sha256 ((v.stored req files).read (k * hashedSize)
      (min v.perHash (v.totalblocks - k * v.perHash) * v.blocksize))
  else files.skippedHash req k

def hashes : Nat → StoredFile
  | 0 => .empty
  | k + 1 => (hashes k).write (k * shaSize) (v.entry req files k)

/-- The server has written the first `k` hashes and hashed `m` blocks since, and the image is right
up to a block. -/
structure Carried (next k m q : Nat) (t : ImageTransfer) : Prop where
  blocksize : t.blocksize = v.blocksize
  vhdBlocksize : t.vhdBlocksize = v.perHash
  blocks : t.blocks = v.drivesize / v.blocksize
  totalblocks : t.totalblocks = v.totalblocks
  imageSize : t.imageSize = v.drivesize + mbrSize
  numHashErrors : t.numHashErrors = 0
  hasError : t.hasError = false
  nextblock : t.nextblock = next
  shactx : t.shactx = (v.stored req files).read (k * hashedSize) (m * v.blocksize)
  hashfile : t.hashfile = v.hashes req files k
  hashpos : t.hashpos = k * shaSize
  image : ∀ i < v.drivesize, t.image (req.mbrOffset + i) =
    if i < q * v.blocksize then v.stored req files i else files.volume req i

/-- The server has come to a block. -/
structure Sync (p : Nat) (t : ImageTransfer) : Prop where
  carried : v.Carried req files p (p / v.perHash) (p % v.perHash) p t
  le : p ≤ v.totalblocks
  filled : p % v.perHash ≠ 0 → v.filled (p / v.perHash) = true
  verify : p % v.perHash = 0 → p ≠ 0 →
    t.verifyChecksum = v.entry req files (p / v.perHash - 1)

end Definitions

section Blocks

variable (v : SentVolume)

theorem blocksize_pos : 0 < v.blocksize := by
  apply Nat.pos_of_dvd_of_pos v.blocksize_dvd
  decide

theorem perHash_mul : v.perHash * v.blocksize = hashedSize := Nat.div_mul_cancel v.blocksize_dvd

theorem perHash_pos : 0 < v.perHash := by
  apply Nat.pos_of_mul_pos_right
  rw [v.perHash_mul]
  decide

theorem lt_totalblocks {n : Nat} : n < v.totalblocks ↔ n * v.blocksize < v.drivesize := by
  have hpos := v.blocksize_pos
  have hdiv := Nat.div_add_mod v.drivesize v.blocksize
  have hmod := Nat.mod_lt v.drivesize hpos
  unfold totalblocks
  constructor
  · intro h
    split at h
    · have hle := Nat.mul_le_mul_right v.blocksize (Nat.le_of_lt_succ h)
      rw [Nat.mul_comm] at hdiv
      omega
    · rw [Nat.add_zero] at h
      have hle := Nat.mul_le_mul_right v.blocksize (Nat.succ_le_of_lt h)
      rw [Nat.mul_comm] at hdiv
      rw [Nat.succ_mul] at hle
      omega
  · intro h
    have hle : n ≤ v.drivesize / v.blocksize := (Nat.le_div_iff_mul_le hpos).mpr (Nat.le_of_lt h)
    split
    · omega
    · next hdvd =>
        rw [not_not] at hdvd
        rw [Nat.mul_comm, hdvd, Nat.add_zero] at hdiv
        rw [← hdiv] at h
        exact Nat.lt_of_mul_lt_mul_right h

variable {v} {n : Nat}

theorem lt_of_sent {data : List UInt8} (h : v.sent n = some data) : n < v.totalblocks :=
  v.lt_totalblocks.mpr (v.sent_lt h)

theorem touched_of_sent {data : List UInt8} (h : v.sent n = some data) :
    v.touched (n / v.perHash) = true := by
  apply List.any_eq_true.mpr
  refine ⟨n, ?_, by rw [h]; rfl⟩
  rw [List.mem_range'_1]
  have hmod := Nat.mod_lt n v.perHash_pos
  have hdiv := Nat.div_add_mod' n v.perHash
  omega

theorem unsent_of_not_touched (h : v.touched (n / v.perHash) = false) : v.sent n = none := by
  cases hsent : v.sent n with
  | none => rfl
  | some data =>
    rw [touched_of_sent hsent] at h
    cases h

end Blocks

section Bytes

variable {v : SentVolume} {req : ImageRequest} {files : ImageFiles} {zero : Nat → Bool} {n : Nat}

theorem block_of_byte {i : Nat} (h : n * v.blocksize ≤ i) (h' : i < (n + 1) * v.blocksize) :
    i / v.blocksize = n := Nat.div_eq_of_lt_le h h'

theorem read_sent {data : List UInt8} (h : v.sent n = some data) :
    (v.bytes req files zero).read (n * v.blocksize) v.blocksize = data := by
  have hlength := v.sent_length h
  apply List.ext_getElem
  · rw [ByteStore.read_length, hlength]
  · intro i hi hi'
    have hblock : (n * v.blocksize + i) / v.blocksize = n := by
      apply block_of_byte
      · omega
      · rw [Nat.succ_mul]
        omega
    have hrest : (n * v.blocksize + i) % v.blocksize = i := Nat.mul_add_mod_of_lt (by omega)
    rw [ByteStore.getElem_read, bytes, hblock, h, hrest]
    dsimp only
    rw [List.getD_eq_getElem?_getD, List.getElem?_eq_getElem hi', Option.getD_some]

theorem volume_of_not_filled {k i : Nat} (h : v.filled k = false)
    (hi : k * v.perHash * v.blocksize ≤ i) (hi' : i < (k + 1) * v.perHash * v.blocksize) :
    v.stored req files i = files.volume req i := by
  have hgroup : i / v.blocksize / v.perHash = k := by
    apply Nat.div_eq_of_lt_le
    · exact (Nat.le_div_iff_mul_le v.blocksize_pos).mpr hi
    · exact Nat.div_lt_of_lt_mul (by rw [Nat.mul_comm]; exact hi')
  have htouched : v.touched (i / v.blocksize / v.perHash) = false := by
    rw [hgroup]
    exact (Bool.or_eq_false_iff.mp h).1
  unfold stored bytes
  rw [unsent_of_not_touched htouched, hgroup, h]
  rfl

/-- The blocks from one on to another are zero. -/
def Empty (v : SentVolume) (n n' : Nat) : Prop :=
  ∀ m, n ≤ m → m < n' → v.sent m = none ∧ v.filled (m / v.perHash) = true

theorem stored_empty {n' : Nat} (h : v.Empty n n') {i : Nat} (hi : n * v.blocksize ≤ i)
    (hi' : i < n' * v.blocksize) : v.stored req files i = 0 := by
  have hfrom : n ≤ i / v.blocksize := (Nat.le_div_iff_mul_le v.blocksize_pos).mpr hi
  have hto : i / v.blocksize < n' := Nat.div_lt_of_lt_mul (by rw [Nat.mul_comm]; exact hi')
  obtain ⟨hsent, hfilled⟩ := h _ hfrom hto
  unfold stored bytes
  rw [hsent, hfilled]
  rfl

theorem read_empty {m : Nat} (h : v.Empty n (n + m)) :
    (v.stored req files).read (n * v.blocksize) (m * v.blocksize) =
      List.replicate (m * v.blocksize) 0 := by
  apply ByteStore.read_zeros
  intro i hi hi'
  apply stored_empty h hi
  rw [Nat.add_mul]
  exact hi'

end Bytes

section Steps

variable {v : SentVolume} {req : ImageRequest} {files : ImageFiles} {p k m q : Nat}
  {t : ImageTransfer}

theorem Carried.hash (h : v.Carried req files p k m q t) {data : List UInt8}
    (hdata : (v.stored req files).read ((k * v.perHash + m) * v.blocksize) v.blocksize = data) :
    v.Carried req files p k (m + 1) q { t with shactx := t.shactx ++ data } :=
  { h with
    shactx := by
      rw [Nat.add_mul, Nat.mul_assoc, v.perHash_mul] at hdata
      rw [Nat.succ_mul, ByteStore.read_add, hdata, ← h.shactx] }

theorem Carried.next (h : v.Carried req files p k m q t) (p' : Nat) :
    v.Carried req files p' k m q { t with nextblock := p' } :=
  { h with nextblock := rfl }

theorem Carried.writeHash (h : v.Carried req files p k 0 q t) {dig : List UInt8}
    (hdig : v.entry req files k = dig) (hlength : dig.length = shaSize) :
    v.Carried req files p (k + 1) 0 q (t.writeHash dig) :=
  { h with
    shactx := by
      have hempty := h.shactx
      rw [Nat.zero_mul, ByteStore.read_zero] at hempty ⊢
      exact hempty
    hashfile := by rw [hashes, hdig, ← h.hashfile, ← h.hashpos]; rfl
    hashpos := by
      rw [Nat.succ_mul, ← h.hashpos, ← hlength]
      rfl }

theorem Carried.close (h : v.Carried req files p k m q t) {dig : List UInt8}
    (hdig : v.entry req files k = dig) (hlength : dig.length = shaSize) :
    v.Carried req files p (k + 1) 0 q { t.writeHash dig with shactx := [] } := by
  have hreset : v.Carried req files p k 0 q { t with shactx := [] } :=
    { h with shactx := by rw [Nat.zero_mul, ByteStore.read_zero] }
  exact hreset.writeHash hdig hlength

theorem Carried.keep (h : v.Carried req files p k m q t) {q' : Nat} (hq : q ≤ q')
    (hsame : ∀ i, q * v.blocksize ≤ i → i < q' * v.blocksize → i < v.drivesize →
      v.stored req files i = files.volume req i) : v.Carried req files p k m q' t :=
  { h with
    image := by
      intro i hi
      have hle := Nat.mul_le_mul_right v.blocksize hq
      rw [h.image i hi]
      by_cases hbefore : i < q * v.blocksize
      · rw [if_pos hbefore, if_pos (by omega)]
      · rw [if_neg hbefore]
        split
        · next hin => exact (hsame i (Nat.not_lt.mp hbefore) hin hi).symm
        · rfl }

theorem Carried.trim (h : v.Carried req files p k m q t) {count : Nat}
    (hempty : v.Empty q (q + count)) (hlt : q < v.totalblocks) :
    v.Carried req files p k m (q + count) (t.trim req q count) := by
  unfold ImageTransfer.trim
  split
  · next hparent =>
      have hstart := v.lt_totalblocks.mp hlt
      have hoffset := req.mbrOffset_le
      have hsize := h.imageSize
      have hend : (q + count) * v.blocksize = q * v.blocksize + count * v.blocksize :=
        Nat.add_mul _ _ _
      rw [ImageTransfer.writeVHD_none h.hasError (by rw [hsize, h.blocksize]; omega)]
      refine { h with image := ?_ }
      intro i hi
      dsimp only [ByteStore.clear]
      rw [h.image i hi, h.blocksize, hsize]
      by_cases hbefore : i < q * v.blocksize
      · rw [if_pos hbefore, if_neg (by omega), if_pos (by omega)]
      · rw [if_neg hbefore]
        by_cases hin : i < (q + count) * v.blocksize
        · have hstop : req.mbrOffset + i < req.mbrOffset + q * v.blocksize + count * v.blocksize := by
            rw [hend] at hin
            omega
          rw [if_pos hin, stored_empty hempty (Nat.not_lt.mp hbefore) hin, if_pos]
          exact ⟨by omega, Nat.lt_min.mpr ⟨by omega, hstop⟩⟩
        · rw [if_neg hin, if_neg]
          intro hmem
          have hstop := (Nat.lt_min.mp hmem.2).2
          rw [hend] at hin
          omega
  · next hparent =>
      apply h.keep (Nat.le_add_right _ _)
      intro i hi hi' _
      rw [stored_empty hempty hi hi', ImageFiles.volume, if_neg hparent]

theorem Carried.write (h : v.Carried req files p k m q t) {data : List UInt8}
    (hsent : v.sent q = some data)
    (hfits : req.cowraw = true ∨ req.mbrOffset + (q + 1) * v.blocksize ≤ v.drivesize + mbrSize) :
    v.Carried req files p k m (q + 1)
      (t.writeVHD req (req.mbrOffset + q * t.blocksize) (some data) t.blocksize) := by
  have hlength := v.sent_length hsent
  have hend : (q + 1) * v.blocksize = q * v.blocksize + v.blocksize := Nat.succ_mul _ _
  have hfits' : req.cowraw = true ∨
      req.mbrOffset + q * t.blocksize + t.blocksize ≤ t.imageSize := by
    rw [h.imageSize, h.blocksize, Nat.add_assoc, ← hend]
    exact hfits
  rw [ImageTransfer.writeVHD_some h.hasError hfits']
  refine { h with image := ?_ }
  intro i hi
  dsimp only
  rw [h.blocksize]
  by_cases hbefore : i < q * v.blocksize
  · rw [ByteStore.write_of_lt (by omega), h.image i hi, if_pos hbefore, if_pos (by omega)]
  · by_cases hin : i < (q + 1) * v.blocksize
    · rw [ByteStore.write_of_mem (by omega) (by omega), if_pos hin]
      have hblock : i / v.blocksize = q := block_of_byte (Nat.not_lt.mp hbefore) hin
      have hdiv := Nat.div_add_mod' i v.blocksize
      have hplace : req.mbrOffset + i - (req.mbrOffset + q * v.blocksize) = i % v.blocksize := by
        rw [hblock] at hdiv
        omega
      unfold stored bytes
      rw [hblock, hsent]
      dsimp only
      rw [List.getD_eq_getElem?_getD, List.getElem?_eq_getElem (by rw [hlength]; omega),
        Option.getD_some]
      congr 1
    · rw [ByteStore.write_of_le (by omega), h.image i hi, if_neg hbefore, if_neg hin]

end Steps

end SentVolume

end UrBackup
