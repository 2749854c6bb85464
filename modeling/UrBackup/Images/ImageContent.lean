import UrBackup.Images.ImageRuns

/-! The image of a volume and its hash file, as a client's stream makes them: when they are what they
should be. -/
namespace UrBackup

open ByteOrder Feeding

namespace ImageSession

section Opening

variable {κ : Type*} {req : ImageRequest} {core : ImageCore κ} {s s' : ImageSession κ}
  {buffer : List UInt8} {csize off : Nat}

/-- What the parts of the first packet behind the drive size do not change. -/
def Alike (s s' : ImageSession κ) : Prop :=
  s'.core = s.core ∧ s'.blocksize = s.blocksize ∧ s'.totalblocks = s.totalblocks ∧
    s'.bitmap = s.bitmap ∧ s'.blockleft = s.blockleft

theorem firstChecksum_alike (h : firstChecksum req s buffer csize = .complete s' off) :
    Alike s s' := by
  unfold firstChecksum at h
  split at h
  · split at h
    · cases h
    · split at h
      · cases h
      · cases h
        exact ⟨rfl, rfl, rfl, rfl, rfl⟩
  · cases h
    exact ⟨rfl, rfl, rfl, rfl, rfl⟩

theorem firstShadow_alike (h : firstShadow req s buffer = .complete s' off) : Alike s s' := by
  unfold firstShadow at h
  split at h
  · cases h
  · dsimp only at h
    split at h
    · cases h
    · split at h
      · cases h
      · have hsame := firstChecksum_alike h
        split at hsame
        · exact hsame
        · exact hsame

theorem firstFlags_alike (h : firstFlags req s buffer = .complete s' off) : Alike s s' := by
  unfold firstFlags at h
  split at h
  · cases h
  · dsimp only at h
    split at h
    · cases h
    · split at h
      · cases h
      · have hsame := firstShadow_alike h
        exact hsame

theorem firstPacket_complete (h : firstPacket req core buffer = .complete s off) :
    0 < s.blocksize ∧ s.blockleft = 0 ∧ s.bitmap = [] ∧
      s.core = some (core.start s.blocksize (int64 (bytesAt buffer 4 8))) ∧
      s.totalblocks = (int64 (bytesAt buffer 4 8)).tdiv s.blocksize +
        if (int64 (bytesAt buffer 4 8)).tmod s.blocksize ≠ 0 then 1 else 0 := by
  unfold firstPacket at h
  split at h
  · cases h
  · dsimp only at h
    split at h
    · cases h
    · split at h
      · cases h
      · next hzero =>
          split at h
          · cases h
          · obtain ⟨hcore, hsize, htotal, hbitmap, hleft⟩ := firstFlags_alike h
            rw [hcore, hsize, htotal, hbitmap, hleft]
            exact ⟨Nat.pos_of_ne_zero hzero, rfl, rfl, rfl, rfl⟩

/-- A bitmap in front of the blocks, if the first packet says that there is one. -/
structure BitmapOf (req : ImageRequest) (s : ImageSession κ) (bitmap : List UInt8) : Prop where
  absent : s.transferState = .image → bitmap = []
  length : s.transferState = .bitmap → bitmap.length = s.bitmapSize + shaSize
  small : s.transferState = .bitmap → s.bitmapSize ≤ 1024 * 1024 * 1024
  checksum : s.transferState = .bitmap → req.transferBitmap = true →
    req.sha256 (bitmap.take s.bitmapSize) = bytesAt bitmap s.bitmapSize shaSize

variable {blocksize : Nat} {totalblocks : Int} {k : κ} {bitmap pre post : List UInt8}

theorem drain_bitmap (hbitmap : BitmapOf req s bitmap) (hempty : s.bitmap = [])
    (hsize : s.blocksize = blocksize) (htotal : s.totalblocks = totalblocks)
    (hcore : s.core = some k) (hleft : s.blockleft = 0) :
    ∃ s', Open blocksize totalblocks k s' ∧ s'.blockleft = 0 ∧
      ∀ rest, drain (next req core) s (bitmap ++ rest) = drain (next req core) s' rest := by
  cases hstate : s.transferState with
  | image =>
    refine ⟨s, ⟨hstate, hsize, htotal, hcore⟩, hleft, fun rest => ?_⟩
    rw [hbitmap.absent hstate, List.nil_append]
  | bitmap =>
    have hlength := hbitmap.length hstate
    refine ⟨{ s with bitmap := bitmap, transferState := .image },
      ⟨rfl, hsize, htotal, hcore⟩, hleft, fun rest => ?_⟩
    have hneed : s.bitmapSize + shaSize - s.bitmap.length = bitmap.length := by
      rw [hempty, hlength]
      rfl
    have hpos : 0 < bitmap.length := by
      rw [hlength]
      exact Nat.add_pos_right _ (by decide)
    have hchecked : checkBitmap req { s with bitmap := bitmap } =
        ({ s with bitmap := bitmap, transferState := .image }, false) := by
      unfold checkBitmap
      rw [if_neg]
      rintro ⟨htransfer, hwrong⟩
      exact hwrong (hbitmap.checksum hstate htransfer)
    have hnext : next req core s (bitmap ++ rest) =
        .take bitmap.length { s with bitmap := bitmap, transferState := .image } := by
      rw [next_bitmap hstate (Nat.not_lt.mpr (hbitmap.small hstate)), hneed,
        collect_of_le hpos, List.take_left, hempty, List.nil_append, hchecked]
      · rfl
      · rw [List.length_append]
        exact Nat.le_add_right _ _
    rw [drain_take hnext, List.drop_left]
    rw [List.length_append]
    omega

theorem drain_bitmap_cut (hbitmap : BitmapOf req s bitmap) (hempty : s.bitmap = [])
    (hcore : s.core = some k) (hcut : pre ++ post = bitmap) (hpost : post ≠ []) :
    (drain (next req core) s pre).stopped = false ∧
      (drain (next req core) s pre).state.core = some k := by
  cases hstate : s.transferState with
  | image =>
    rw [hbitmap.absent hstate, List.append_eq_nil_iff] at hcut
    exact absurd hcut.2 hpost
  | bitmap =>
    have hsmall := Nat.not_lt.mpr (hbitmap.small hstate)
    have hlength := hbitmap.length hstate
    rw [← hcut, List.length_append] at hlength
    have hrest := List.length_pos_of_ne_nil hpost
    by_cases hnil : pre = []
    · have hwait : next req core s pre = .wait := by
        rw [next_bitmap hstate hsmall, collect, if_pos (.inl hnil)]
      rw [drain_wait hwait]
      exact ⟨rfl, hcore⟩
    · have htake : next req core s pre =
          .take pre.length { s with bitmap := s.bitmap ++ pre } := by
        rw [next_bitmap hstate hsmall, collect_of_lt hnil]
        rw [hempty, List.length_nil]
        omega
      have hwait : next req core { s with bitmap := s.bitmap ++ pre } [] = .wait := by
        rw [next_bitmap_part hstate hsmall, collect, if_pos (.inl rfl)]
      rw [drain_take htake ⟨List.length_pos_of_ne_nil hnil, le_rfl⟩, List.drop_length,
        drain_wait hwait]
      exact ⟨rfl, hcore⟩

end Opening

end ImageSession

namespace SentVolume

section Definitions

variable (v : SentVolume) (req : ImageRequest) (files : ImageFiles)

/-- The length of what the hash of 512 KB was made of: a copied hash can be of a volume that ended
before. -/
def entryLength (parentSize k : Nat) : Nat :=
  if v.filled k then min v.perHash (v.totalblocks - k * v.perHash) * v.blocksize
  else if req.hasParent ∧ (k + 1) * shaSize ≤ files.parenthashfile.size then
    min hashedSize (parentSize - k * hashedSize)
  else hashedSize

/-- All hashes are made of as much as there is of the volume. -/
def EntriesWhole (parentSize : Nat) : Prop :=
  ∀ k, k * hashedSize < v.drivesize →
    v.entryLength req files parentSize k = min hashedSize (v.drivesize - k * hashedSize)

/-- The end of the volume that is not as long as 512 KB is sent, or need not be. -/
def EndKept : Prop :=
  req.hasParent = false ∨ v.totalblocks % v.perHash = 0 ∨
    v.touched (v.totalblocks / v.perHash) = true ∨
      ∀ i < v.drivesize, v.totalblocks / v.perHash * hashedSize ≤ i → files.parentVolume i = 0

/-- The image and the hash file are those of the volume. -/
def Described (s : ImageSession ImageTransfer) : Prop :=
  s.outcome = some .finished ∧ ∃ t, s.core = some t ∧
    (∀ i < v.drivesize, t.image (req.mbrOffset + i) = v.content req files i) ∧
      ∀ k, k * hashedSize < v.drivesize →
        t.hashfile.read (k * shaSize) shaSize = req.sha256 (v.hashedContent req files k)

end Definitions

end SentVolume

/-- A parent with the right hash file. -/
structure ImageFiles.ParentOf (files : ImageFiles) (req : ImageRequest) (parentSize : Nat) :
    Prop where
  ends : ∀ i, parentSize ≤ i → files.parentVolume i = 0
  hashes : ∀ k, k * hashedSize < parentSize → files.parenthashfile.read (k * shaSize) shaSize =
    req.sha256 (files.parentVolume.read (k * hashedSize)
      (min hashedSize (parentSize - k * hashedSize)))

namespace SentVolume

section Entries

variable {v : SentVolume} {req : ImageRequest} {files : ImageFiles} {parentSize k : Nat}

theorem skippedHash_length (hzero : files.zeroHash = req.sha256 (List.replicate hashedSize 0))
    (k : Nat) : (files.skippedHash req k).length = shaSize := by
  unfold ImageFiles.skippedHash
  dsimp only
  split
  · next hparent => exact hparent.2
  · rw [hzero]
    exact req.sha256_length _

theorem entry_length (hzero : files.zeroHash = req.sha256 (List.replicate hashedSize 0))
    (k : Nat) : (v.entry req files k).length = shaSize := by
  unfold entry
  split
  · exact req.sha256_length _
  · exact skippedHash_length hzero k

/-- The hashes are read back. Induction on how many there are. -/
theorem read_hashes (hzero : files.zeroHash = req.sha256 (List.replicate hashedSize 0)) (n : Nat) :
    n * shaSize ≤ (v.hashes req files n).size ∧
      ∀ k < n, (v.hashes req files n).read (k * shaSize) shaSize = v.entry req files k := by
  induction n with
  | zero => exact ⟨Nat.zero_mul shaSize ▸ Nat.zero_le _, fun k hk => absurd hk (Nat.not_lt_zero k)⟩
  | succ n ih =>
    have hlength := @entry_length v req files hzero n
    have hne : v.entry req files n ≠ [] := by
      intro hnil
      rw [hnil] at hlength
      cases hlength
    refine ⟨?_, fun k hk => ?_⟩
    · have hsize := StoredFile.le_size_write (v.hashes req files n) (n * shaSize) hne
      rw [hlength, ← Nat.succ_mul] at hsize
      exact hsize
    · rcases Nat.lt_or_eq_of_le (Nat.le_of_lt_succ hk) with hlt | rfl
      · have hend : k * shaSize + shaSize ≤ n * shaSize := by
          rw [← Nat.succ_mul]
          exact Nat.mul_le_mul_right _ hlt
        rw [hashes, StoredFile.read_write_of_disjoint (hend.trans ih.1) (.inl hend)]
        exact ih.2 k hlt
      · have hread := StoredFile.read_write (v.hashes req files k) (k * shaSize)
          (v.entry req files k)
        rw [hlength] at hread
        exact hread

theorem read_hashfile (hzero : files.zeroHash = req.sha256 (List.replicate hashedSize 0))
    (checked : Nat → Bool) (hk : k < v.groups) :
    (v.hashfile req files checked).read (k * shaSize) shaSize = v.entry req files k := by
  obtain ⟨hsize, hread⟩ := @read_hashes v req files hzero v.groups
  unfold hashfile
  split
  · exact hread k hk
  · have hend : k * shaSize + shaSize ≤ v.groups * shaSize := by
      rw [← Nat.succ_mul]
      exact Nat.mul_le_mul_right _ hk
    rw [StoredFile.read_write_of_disjoint (hend.trans hsize) (.inl hend)]
    exact hread k hk

theorem group_of_byte {i : Nat} (hi : k * hashedSize ≤ i) (hi' : i < (k + 1) * hashedSize) :
    i / v.blocksize / v.perHash = k := by
  rw [Nat.div_div_eq_div_mul, Nat.mul_comm, v.perHash_mul]
  exact Nat.div_eq_of_lt_le hi hi'

theorem last_iff {n : Nat} (hn : n < v.totalblocks) :
    v.totalblocks < (n / v.perHash + 1) * v.perHash ↔
      n / v.perHash = v.totalblocks / v.perHash := by
  have hpos := v.perHash_pos
  have hle : n / v.perHash ≤ v.totalblocks / v.perHash := Nat.div_le_div_right (Nat.le_of_lt hn)
  constructor
  · intro h
    have hlt := Nat.div_lt_of_lt_mul (by rw [Nat.mul_comm]; exact h)
    omega
  · intro h
    have hdiv := Nat.div_add_mod' v.totalblocks v.perHash
    have hmod := Nat.mod_lt v.totalblocks hpos
    rw [h, Nat.succ_mul]
    omega

theorem stored_eq_iff : (∀ i < v.drivesize, v.stored req files i = v.content req files i) ↔
    v.EndKept req files := by
  have hpos := v.blocksize_pos
  have hdiv := Nat.div_add_mod' v.totalblocks v.perHash
  constructor
  · intro hsame
    by_contra hlost
    unfold EndKept at hlost
    rw [not_or, not_or, not_or] at hlost
    obtain ⟨hparent, hopen, huntouched, hdata⟩ := hlost
    apply hdata
    intro i hi hlast
    have hmod := Nat.mod_lt v.totalblocks v.perHash_pos
    have hshort : v.totalblocks < (v.totalblocks / v.perHash + 1) * v.perHash := by
      rw [Nat.succ_mul]
      omega
    have hend : i < (v.totalblocks / v.perHash + 1) * hashedSize := by
      have hmul := Nat.mul_lt_mul_of_pos_right hshort hpos
      rw [Nat.mul_assoc, v.perHash_mul] at hmul
      exact (hi.trans_le le_totalblocks_mul).trans hmul
    have hgroup := @group_of_byte v (v.totalblocks / v.perHash) i hlast hend
    rw [Bool.not_eq_true] at huntouched
    have hunsent : v.sent (i / v.blocksize) = none := by
      apply unsent_of_not_touched
      rw [hgroup]
      exact huntouched
    have hzero := hsame i hi
    unfold stored content bytes at hzero
    rw [hunsent, hgroup, filled, huntouched, decide_eq_true hshort] at hzero
    rw [ImageFiles.volume, if_pos (Bool.not_eq_false _ |>.mp hparent)] at hzero
    exact hzero.symm
  · intro hkept i hi
    have hn : i / v.blocksize < v.totalblocks := by
      apply v.lt_totalblocks.mpr
      exact (Nat.div_mul_le_self i v.blocksize).trans_lt hi
    unfold stored content bytes
    cases v.sent (i / v.blocksize) with
    | some data => rfl
    | none =>
      dsimp only
      by_cases htouched : v.touched (i / v.blocksize / v.perHash) = true
      · rw [filled, htouched]
        rfl
      · rw [filled, Bool.not_eq_true _ |>.mp htouched, Bool.false_or, if_neg Bool.false_ne_true]
        split
        · next hlast =>
            rw [decide_eq_true_iff, last_iff hn] at hlast
            rw [hlast] at htouched
            rcases hkept with hparent | hwhole | hsent | hzero
            · rw [ImageFiles.volume, hparent]
              rfl
            · have hle := Nat.div_mul_le_self (i / v.blocksize) v.perHash
              rw [hlast] at hle
              omega
            · exact absurd hsent htouched
            · unfold ImageFiles.volume
              split
              · symm
                apply hzero i hi
                have hle := Nat.div_mul_le_self (i / v.blocksize) v.perHash
                have hmul := Nat.mul_le_mul_right v.blocksize hle
                rw [hlast, Nat.mul_assoc, v.perHash_mul] at hmul
                exact hmul.trans (Nat.div_mul_le_self i v.blocksize)
              · rfl
        · rfl

theorem hashed_iff : k * hashedSize < v.drivesize ↔ k * v.perHash < v.totalblocks := by
  rw [v.lt_totalblocks, Nat.mul_assoc, v.perHash_mul]

theorem entry_eq (hzero : files.zeroHash = req.sha256 (List.replicate hashedSize 0))
    (hparent : req.hasParent = true → files.ParentOf req parentSize)
    (hwhole : v.EntriesWhole req files parentSize)
    (hsame : ∀ i < v.drivesize, v.stored req files i = v.content req files i)
    (hk : k * hashedSize < v.drivesize) :
    v.entry req files k = req.sha256 (v.hashedContent req files k) := by
  have hlength := hwhole k hk
  have hin (i : Nat) (hi : i < k * hashedSize + min hashedSize (v.drivesize - k * hashedSize)) :
      i < v.drivesize ∧ i < (k + 1) * hashedSize := by
    rw [Nat.succ_mul]
    omega
  unfold entry hashedContent
  unfold entryLength at hlength
  split
  · next hfilled =>
      rw [if_pos hfilled] at hlength
      rw [hlength]
      congr 1
      exact ByteStore.read_congr fun i _ hi => hsame i (hin i hi).1
  · next hunfilled =>
      have hvolume (i : Nat) (hi : k * hashedSize ≤ i)
          (hi' : i < k * hashedSize + min hashedSize (v.drivesize - k * hashedSize)) :
          v.content req files i = files.volume req i := by
        rw [← hsame i (hin i hi').1]
        apply volume_of_not_filled (Bool.not_eq_true _ |>.mp hunfilled)
        · rw [Nat.mul_assoc, v.perHash_mul]
          exact hi
        · rw [Nat.mul_assoc, v.perHash_mul]
          exact (hin i hi').2
      have hread : (files.parenthashfile.read (k * shaSize) shaSize).length = shaSize ↔
          (k + 1) * shaSize ≤ files.parenthashfile.size := by
        rw [StoredFile.read_length, Nat.succ_mul, shaSize]
        omega
      rw [if_neg hunfilled] at hlength
      rw [ByteStore.read_congr hvolume]
      unfold ImageFiles.skippedHash
      dsimp only
      split at hlength
      · next hcopied =>
          have hinside : k * hashedSize < parentSize := by
            have hpos : 0 < hashedSize := by decide
            omega
          rw [if_pos ⟨hcopied.1, hread.mpr hcopied.2⟩, (hparent hcopied.1).hashes k hinside, hlength, ImageFiles.volume,
            if_pos hcopied.1]
      · next hmissing =>
          rw [if_neg (fun hread' => hmissing ⟨hread'.1, hread.mp hread'.2⟩), hzero, ← hlength]
          congr 1
          symm
          apply ByteStore.read_zeros
          intro i hi _
          unfold ImageFiles.volume
          split
          · next hhas =>
              apply (hparent hhas).ends
              by_contra hinside
              have hhash := (hparent hhas).hashes k (by omega)
              apply hmissing
              refine ⟨hhas, hread.mp ?_⟩
              rw [hhash]
              exact req.sha256_length _
          · rfl

theorem EntriesWhole.usable (hwhole : v.EntriesWhole req files parentSize)
    (checked : Nat → Bool) : v.Usable req checked := by
  have hlength (k : Nat) (htouched : v.touched k = true) :
      min v.perHash (v.totalblocks - k * v.perHash) * v.blocksize =
        min hashedSize (v.drivesize - k * hashedSize) := by
    obtain ⟨m, data, hm, hm', hsent⟩ := exists_sent htouched
    have hfilled : v.filled k = true := by rw [filled, htouched, Bool.true_or]
    have hlt := hwhole k (hashed_iff.mpr (hm.trans_lt (lt_of_sent hsent)))
    rw [entryLength, if_pos hfilled] at hlt
    exact hlt
  constructor
  · intro n data hsent
    right
    have hgroup := hlength (n / v.perHash) (touched_of_sent hsent)
    have hdiv := Nat.div_add_mod' n v.perHash
    have hmod := Nat.mod_lt n v.perHash_pos
    have hn := lt_of_sent hsent
    have hpart : n % v.perHash + 1 ≤
        min v.perHash (v.totalblocks - n / v.perHash * v.perHash) := by omega
    have hmul := Nat.mul_le_mul_right v.blocksize hpart
    have hall : (n + 1) * v.blocksize =
        n / v.perHash * hashedSize + (n % v.perHash + 1) * v.blocksize := by
      rw [← v.perHash_mul, ← Nat.mul_assoc, ← Nat.add_mul, ← Nat.add_assoc, hdiv]
    have hoffset := req.mbrOffset_le
    have hinside : n / v.perHash * hashedSize < v.drivesize :=
      hashed_iff.mpr ((Nat.div_mul_le_self n v.perHash).trans_lt hn)
    rw [hgroup] at hmul
    omega
  · intro k htouched _ hshort
    have hgroup := hlength k htouched
    rw [Nat.succ_mul] at hshort
    rw [Nat.min_eq_right (show v.drivesize - k * hashedSize ≤ hashedSize by omega)] at hgroup
    obtain ⟨m, data, hm, -, hsent⟩ := exists_sent htouched
    have hlt := hashed_iff.mpr (hm.trans_lt (lt_of_sent hsent))
    have hsum : v.drivesize = (k * v.perHash +
        min v.perHash (v.totalblocks - k * v.perHash)) * v.blocksize := by
      rw [Nat.add_mul, hgroup, Nat.mul_assoc, v.perHash_mul]
      omega
    rw [hsum]
    exact Nat.mul_mod_left _ _

end Entries

section Streams

variable {v : SentVolume} {req : ImageRequest} {files : ImageFiles} {checked : Nat → Bool}
  {s : ImageSession ImageTransfer} {t : ImageTransfer} {bytes : List UInt8}

open ImageSession

theorem sendable (hsize : v.drivesize < 2 ^ 63) {k : Nat} :
    ∀ a ∈ v.messages req files checked k, Sendable v.blocksize v.totalblocks a := by
  have htotal : v.totalblocks ≤ v.drivesize := by
    by_contra hlt
    have hmul := v.lt_totalblocks.mp (Nat.not_le.mp hlt)
    have hle := Nat.mul_le_mul_left v.drivesize v.blocksize_pos
    omega
  intro a ha
  obtain ⟨j, -, hmem⟩ := List.mem_flatMap.mp ha
  rcases List.mem_append.mp hmem with hblock | hsum
  · obtain ⟨n, -, hn⟩ := List.mem_filterMap.mp hblock
    obtain ⟨data, hsent, rfl⟩ := Option.map_eq_some_iff.mp hn
    have hlt := lt_of_sent hsent
    exact ⟨v.sent_length hsent, by omega, by omega⟩
  · split at hsum
    · obtain rfl := List.mem_singleton.mp hsum
      exact ⟨by omega, by omega, req.sha256_length _⟩
    · cases hsum

/-- A client sends the volume: the first read has the whole first packet, and behind it come the
bitmap, if there is one, the messages and the end marker. -/
def Delivers (v : SentVolume) (req : ImageRequest) (files : ImageFiles) (checked : Nat → Bool)
    (first rest : List UInt8) : Prop :=
  ∃ s off bitmap bytes, firstPacket req (imageCore req files) first = .complete s off ∧
    s.blocksize = v.blocksize ∧ int64 (bytesAt first 4 8) = v.drivesize ∧
      first.drop off ++ rest = bitmap ++ bytes ∧ BitmapOf req s bitmap ∧
        Encoded (v.messages req files checked 0 ++ [.finish]) bytes

theorem int64_lt {bytes : List UInt8} (h : bytes.length ≤ 8) : int64 bytes < 2 ^ 63 := by
  have hlt := ofLittleEndian_lt bytes
  have hpow : 256 ^ bytes.length ≤ 256 ^ 8 := Nat.pow_le_pow_right (by decide) h
  unfold int64
  split <;> omega

/-- A connection on which the client sends what the server is to get: up to a loss the server goes
on, and with the whole stream the image is written. -/
def Follows (v : SentVolume) (req : ImageRequest) (files : ImageFiles) (checked : Nat → Bool)
    (s : ImageSession ImageTransfer) (bytes : List UInt8) : Prop :=
  ∀ pre post, pre ++ post = bytes →
    (post ≠ [] ∧ (drain (next req (imageCore req files)) s pre).stopped = false ∧
        ∃ t, (drain (next req (imageCore req files)) s pre).state.core = some t ∧
          (t.nextblock ≠ 0 → v.Going req files t ∧ Open v.blocksize v.totalblocks t
            (drain (next req (imageCore req files)) s pre).state)) ∨
      ((drain (next req (imageCore req files)) s pre).stopped = true ∧
        (drain (next req (imageCore req files)) s pre).state.outcome = some .finished ∧
          ∃ t, (drain (next req (imageCore req files)) s pre).state.core = some t ∧
            v.Written req files checked t)

theorem follows_open (husable : v.Usable req checked)
    (hlength : ∀ j, (files.skippedHash req j).length = shaSize) (hsize : v.drivesize < 2 ^ 63)
    (hopen : Open v.blocksize v.totalblocks t s) (hleft : s.blockleft = 0) {k : Nat}
    (hgroup : v.AtGroup req files checked k t) (hk : k ≤ v.groups)
    (hencoded : Encoded (v.messages req files checked k ++ [.finish]) bytes) :
    v.Follows req files checked s bytes := by
  intro pre post hcut
  obtain ⟨t', hrun, hend⟩ := hgroup.run husable hlength hk
  obtain ⟨t'', hfinish, hwritten⟩ := hend.finish hlength
  have hdone := @drain_stream _ req (imageCore req files) _ _ _ _ _ pre post _ _ _ _ _ hencoded rfl
    hrun hfinish (sendable hsize) v.blocksize_pos hopen hleft hcut
  obtain ⟨hne, hgoing, u, hu, hopen'⟩ | ⟨hstopped, houtcome, hcore⟩ := hdone
  · exact .inl ⟨hne, hgoing, u, hopen'.core, fun _ => ⟨hu, hopen'⟩⟩
  · exact .inr ⟨hstopped, houtcome, t'', hcore, hwritten⟩

theorem Delivers.follows {first rest : List UInt8}
    (hdelivers : v.Delivers req files checked first rest) (husable : v.Usable req checked)
    (hlength : ∀ j, (files.skippedHash req j).length = shaSize) :
    v.drivesize < 2 ^ 63 ∧ ∃ s pre bytes, pre ++ rest = bytes ∧
      firstReadFeed req (imageCore req files) first =
        drain (next req (imageCore req files)) s pre ∧ v.Follows req files checked s bytes := by
  obtain ⟨s, off, bitmap, bytes, hfirst, hblocksize, hdrivesize, hbytes, hbitmap, hencoded⟩ :=
    hdelivers
  obtain ⟨hpos, hleft, hempty, hcore, htotal⟩ := firstPacket_complete hfirst
  rw [hblocksize, hdrivesize] at hcore htotal
  have hsize : v.drivesize < 2 ^ 63 := by
    have hlt := int64_lt (show (bytesAt first 4 8).length ≤ 8 by
      rw [bytesAt, List.length_take]
      exact Nat.min_le_left _ _)
    rw [hdrivesize] at hlt
    omega
  refine ⟨hsize, s, first.drop off, bitmap ++ bytes, hbytes, ?_, fun pre post hcut => ?_⟩
  · unfold firstReadFeed
    rw [hfirst]
  · rcases split_message hcut with ⟨part, hpart, hbitmap', rfl⟩ | ⟨part, rfl, hrest⟩
    · obtain ⟨hstopped, hcore'⟩ := @drain_bitmap_cut _ req (imageCore req files) _ _ _ _ _ hbitmap
        hempty hcore hbitmap' hpart
      exact .inl ⟨List.append_ne_nil_of_left_ne_nil hpart _, hstopped, _, hcore',
        fun hne => absurd rfl hne⟩
    · obtain ⟨s', hopen, hleft', hdrain⟩ := @drain_bitmap _ req (imageCore req files) _ _ _ _ _
        hbitmap hempty hblocksize (htotal.trans v.totalblocks_eq) hcore hleft
      rw [hdrain]
      exact follows_open husable hlength hsize hopen hleft' (v.atGroup_start req files checked)
        (Nat.zero_le _) hencoded part post hrest

theorem Delivers.written {first : List UInt8} {reads : List (List UInt8)}
    (hzero : files.zeroHash = req.sha256 (List.replicate hashedSize 0))
    (hdelivers : v.Delivers req files checked first reads.flatten)
    (husable : v.Usable req checked) :
    ∃ t, (receive req (imageCore req files) first reads).state.outcome = some .finished ∧
      (receive req (imageCore req files) first reads).state.core = some t ∧
        v.Written req files checked t := by
  obtain ⟨-, s, pre, bytes, hbytes, hfirst, hfollows⟩ :=
    hdelivers.follows husable (skippedHash_length hzero)
  have hreceive : receive req (imageCore req files) first reads =
      drain (next req (imageCore req files)) s bytes := by
    unfold receive
    rw [hfirst]
    change reads.foldl _ (feed _ ⟨s, [], false⟩ pre) = _
    rw [foldl_feed coherent_next, hbytes]
    rfl
  obtain ⟨hne, -⟩ | ⟨-, houtcome, t, hcore, hwritten⟩ := hfollows bytes [] (List.append_nil bytes)
  · exact absurd rfl hne
  · rw [hreceive]
    exact ⟨t, houtcome, hcore, hwritten⟩

end Streams

section Samples

open ImageSession

def sampleSha256 (data : List UInt8) : List UInt8 :=
  if data.length = hashedSize then
    [7, 133, 77, 47, 239, 41, 122, 6, 186, 129, 104, 94, 102, 12, 51, 45,
    227, 109, 93, 24, 213, 70, 146, 125, 48, 218, 173, 109, 127, 218, 21, 65]
  else if data.length = 4096 ∧ data.head? = some 1 then
    [52, 49, 56, 55, 33, 81, 12, 241, 194, 17, 222, 2, 124, 249, 88, 193,
    131, 225, 109, 181, 250, 187, 107, 35, 14, 178, 132, 200, 94, 25, 106, 169]
  else if data.length = 4096 then
    [173, 127, 172, 178, 88, 111, 198, 233, 102, 192, 4, 215, 209, 209, 107, 2,
    79, 88, 5, 255, 124, 180, 124, 122, 133, 218, 189, 139, 72, 137, 44, 167]
  else
    [227, 176, 196, 66, 152, 252, 28, 20, 154, 251, 244, 200, 153, 111, 185, 36,
    39, 174, 65, 228, 100, 155, 147, 76, 164, 149, 153, 27, 120, 82, 184, 85]

theorem sampleSha256_length (data : List UInt8) : (sampleSha256 data).length = shaSize := by
  unfold sampleSha256
  split
  · rfl
  · split
    · rfl
    · split
      · rfl
      · rfl

def sampleRequest (hasParent : Bool) : ImageRequest :=
  ⟨false, false, hasParent, false, false, sampleSha256, sampleSha256_length⟩

def sampleFiles : ImageFiles where
  mbr := fun _ => 0
  parentVolume := fun i => if i < 4096 then 1 else 0
  parenthashfile := StoredFile.empty.write 0 (sampleSha256 (List.replicate 4096 1))
  zeroHash := sampleSha256 (List.replicate hashedSize 0)
  uninitialized := []

def unsentVolume : SentVolume :=
  ⟨4096, 4096, fun _ => none, by decide, nofun, nofun⟩

def unsentStream : List UInt8 :=
  littleEndian 4 4096 ++ littleEndian 8 4096 ++ littleEndian 8 1 ++ [0] ++ littleEndian 4 0 ++
    littleEndian 4 7 ++ littleEndian 8 (2 ^ 64 - 123)

theorem sampleFiles_parent : sampleFiles.ParentOf (sampleRequest true) 4096 := by
  refine ⟨fun i hi => if_neg (Nat.not_lt.mpr hi), fun k hk => ?_⟩
  have hfirst : k = 0 := by
    change k * 524288 < 4096 at hk
    omega
  subst hfirst
  have hones : sampleFiles.parentVolume.read 0 4096 = List.replicate 4096 1 := by
    apply List.eq_replicate_iff.mpr
    refine ⟨ByteStore.read_length _ _ _, fun x hx => ?_⟩
    obtain ⟨i, hi, rfl⟩ := List.mem_map.mp hx
    rw [List.mem_range'_1] at hi
    exact if_pos (by omega)
  have hfile : sampleFiles.parenthashfile =
      StoredFile.empty.write 0 (sampleSha256 (List.replicate 4096 1)) := rfl
  have hsha : (sampleRequest true).sha256 = sampleSha256 := rfl
  have hread := StoredFile.read_write StoredFile.empty 0 (sampleSha256 (List.replicate 4096 1))
  rw [sampleSha256_length, ← hfile] at hread
  rw [hsha, Nat.zero_mul, Nat.zero_mul, Nat.sub_zero, Nat.min_eq_right (by decide), hones]
  exact hread

theorem unsentVolume_delivered (hasParent : Bool) :
    unsentVolume.Delivers (sampleRequest hasParent) sampleFiles (fun _ => true) unsentStream [] := by
  have hmessages : unsentVolume.messages (sampleRequest hasParent) sampleFiles (fun _ => true) 0 =
      [] := rfl
  have hencoded : Encoded [.finish] (littleEndian 8 (2 ^ 64 - 123)) := .cons .finish .nil
  have hstate {s : ImageSession ImageTransfer} (h : s.transferState = .image) :
      BitmapOf (sampleRequest hasParent) s [] :=
    ⟨fun _ => rfl, fun h' => absurd (h.symm.trans h') nofun,
      fun h' => absurd (h.symm.trans h') nofun, fun h' => absurd (h.symm.trans h') nofun⟩
  rw [Delivers, hmessages]
  cases hasParent with
  | true => exact ⟨_, 29, [], _, rfl, rfl, by decide, rfl, hstate rfl, hencoded⟩
  | false => exact ⟨_, 29, [], _, rfl, rfl, by decide, rfl, hstate rfl, hencoded⟩

end Samples

end SentVolume

end UrBackup
