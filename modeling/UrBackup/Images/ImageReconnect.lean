import Mathlib
import UrBackup.Images.ImageContent

/-! An image over several connections: after a loss the client repeats its messages from the start
of some 512 KB on. -/
namespace UrBackup

open ByteOrder Feeding

namespace ImageSession

/-- The server has connected again and asked for the image from a block on. -/
def reconnect (s : ImageSession ImageTransfer) : Feed (ImageSession ImageTransfer) UInt8 :=
  ⟨{ s with blockleft := 0 }, [], false⟩

end ImageSession

/-- The hash of the last 512 KB, if they are shorter, was not written yet. -/
def ImageTransfer.LastHashOpen (t : ImageTransfer) : Prop :=
  t.hashpos = t.nextblock / t.vhdBlocksize * shaSize

namespace SentVolume

open ImageSession

/-- A persistent transfer over any connections: the server, and what the client has still to send
on the current one. A connection can be lost anywhere once a block was taken. -/
inductive Transfers (v : SentVolume) (req : ImageRequest) (files : ImageFiles)
    (checked : Nat → Bool) (okay : ImageTransfer → Prop) :
    Feed (ImageSession ImageTransfer) UInt8 → List UInt8 → Prop where
  | connect {first rest} (h : v.Delivers req files checked first rest) :
      Transfers v req files checked okay (firstReadFeed req (imageCore req files) first) rest
  | read {f part rest} (h : Transfers v req files checked okay f (part ++ rest)) :
      Transfers v req files checked okay (feed (next req (imageCore req files)) f part) rest
  | lose {f rest t bytes} (h : Transfers v req files checked okay f rest)
      (hrunning : f.stopped = false) (hcore : f.state.core = some t) (hbegun : t.nextblock ≠ 0)
      (hokay : okay t)
      (hrepeated : Encoded
        (v.messages req files checked (t.continueBlock req / t.vhdBlocksize) ++ [.finish]) bytes) :
      Transfers v req files checked okay f.state.reconnect bytes

section Restart

variable {v : SentVolume} {req : ImageRequest} {files : ImageFiles} {checked : Nat → Bool}
  {p : Nat} {t : ImageTransfer}

theorem Sync.continueBlock (h : v.Sync req files p t) (hp : p ≠ 0) :
    ∃ k, t.continueBlock req = k * v.perHash ∧ k * v.perHash ≤ p ∧ p ≤ (k + 1) * v.perHash := by
  have hpos := v.perHash_pos
  have hdiv := Nat.div_add_mod' p v.perHash
  have hmod := Nat.mod_lt p hpos
  unfold ImageTransfer.continueBlock
  rw [h.carried.nextblock, h.carried.vhdBlocksize]
  split
  · refine ⟨p / v.perHash, rfl, Nat.div_mul_le_self _ _, ?_⟩
    rw [Nat.succ_mul]
    omega
  · next hclosed =>
      rw [not_not] at hclosed
      have heq : p / v.perHash * v.perHash = p := by omega
      split
      · have hone : 0 < p / v.perHash := by
          apply Nat.pos_of_ne_zero
          intro h0
          rw [h0, Nat.zero_mul] at heq
          exact hp heq.symm
        have hsucc : p / v.perHash - 1 + 1 = p / v.perHash := by omega
        refine ⟨p / v.perHash - 1, rfl, ?_, ?_⟩
        · exact (Nat.mul_le_mul_right _ (Nat.sub_le _ 1)).trans heq.le
        · rw [hsucc]
          exact heq.ge
      · refine ⟨p / v.perHash, heq.symm, heq.le, ?_⟩
        rw [Nat.succ_mul]
        omega

theorem Sync.restart (h : v.Sync req files p t) (hp : p ≠ 0) :
    t.continueBlock req / t.vhdBlocksize ≤ v.groups ∧
      v.AtGroup req files checked (t.continueBlock req / t.vhdBlocksize) t := by
  obtain ⟨k, hk, hle, hge⟩ := h.continueBlock hp
  have hpos := v.perHash_pos
  obtain ⟨htotal, -⟩ := v.groups_spec
  have hgroups : k ≤ v.groups := by
    apply Nat.le_of_mul_le_mul_right _ hpos
    exact (hle.trans h.le).trans htotal
  rw [hk, h.carried.vhdBlocksize, Nat.mul_div_cancel _ hpos]
  refine ⟨hgroups, ?_⟩
  unfold AtGroup
  rw [if_neg]
  · exact ⟨p, h, fun m hm hm' => absurd hm' (by omega), hge⟩
  · rintro ⟨rfl, hlast⟩
    apply (lastChecked_iff.mp hlast).1
    have heq : v.totalblocks = v.groups * v.perHash := by
      have hle' := h.le
      omega
    rw [heq, Nat.mul_mod_left]

end Restart

section Connections

variable {v : SentVolume} {req : ImageRequest} {files : ImageFiles} {checked : Nat → Bool}

theorem Transfers.follows {okay : ImageTransfer → Prop} {f : Feed (ImageSession ImageTransfer) UInt8}
    {rest : List UInt8} (hokay : ∀ t, okay t → ¬ v.Closed req files t)
    (husable : v.Usable req checked)
    (hlength : ∀ j, (files.skippedHash req j).length = shaSize)
    (h : v.Transfers req files checked okay f rest) :
    v.drivesize < 2 ^ 63 ∧ ∃ s pre bytes, pre ++ rest = bytes ∧
      f = drain (next req (imageCore req files)) s pre ∧ v.Follows req files checked s bytes := by
  induction h with
  | connect h => exact h.follows husable hlength
  | @read f part rest _ ih =>
    obtain ⟨hsize, s, pre, bytes, hbytes, rfl, hfollows⟩ := ih
    refine ⟨hsize, s, pre ++ part, bytes, ?_, ?_, hfollows⟩
    · rw [List.append_assoc, hbytes]
    · exact feed_drain coherent_next s pre part
  | @lose f rest t bytes' _ hrunning hcore hbegun ht hrepeated ih =>
    obtain ⟨hsize, s, pre, bytes, hbytes, rfl, hfollows⟩ := ih
    obtain ⟨-, -, u, hcore', hgo⟩ | ⟨hstopped, -⟩ := hfollows pre rest hbytes
    · have hsame : u = t := Option.some.inj (hcore'.symm.trans hcore)
      subst hsame
      obtain ⟨hgoing, hopen⟩ := hgo hbegun
      obtain ⟨p, hsync⟩ := hgoing.resolve_right (hokay u ht)
      obtain ⟨hk, hgroup⟩ := @Sync.restart v req files checked p u hsync
        (hsync.carried.nextblock ▸ hbegun)
      refine ⟨hsize,
        { (drain (next req (imageCore req files)) s pre).state with blockleft := 0 }, [], bytes',
        List.nil_append _, ?_, ?_⟩
      · symm
        exact drain_short hopen.transferState rfl (Nat.succ_pos 7)
      · exact follows_open husable hlength hsize
          ⟨hopen.transferState, hopen.blocksize, hopen.totalblocks, hopen.core⟩ rfl hgroup hk
          hrepeated
    · rw [hstopped] at hrunning
      cases hrunning

theorem closed_of_not_open (h : v.Closed req files t) : ¬ t.LastHashOpen := by
  intro hopen
  unfold ImageTransfer.LastHashOpen at hopen
  rw [Carried.hashpos h, Carried.nextblock h, Carried.vhdBlocksize h, Nat.succ_mul, shaSize] at hopen
  omega

/-- Losses before the last hash is written do not change an image, and the transfer ends well. -/
theorem losses_do_not_change_image {f : Feed (ImageSession ImageTransfer) UInt8}
    (hzero : files.zeroHash = req.sha256 (List.replicate hashedSize 0))
    (husable : v.Usable req checked)
    (h : v.Transfers req files checked ImageTransfer.LastHashOpen f []) :
    f.state.outcome = some .finished ∧ ∃ t, f.state.core = some t ∧ t.numHashErrors = 0 ∧
      ∀ first reads, v.Delivers req files checked first reads.flatten →
        ∃ t', (receive req (imageCore req files) first reads).state.core = some t' ∧
          (∀ i < v.drivesize, t.image (req.mbrOffset + i) = t'.image (req.mbrOffset + i)) ∧
            t.hashfile = t'.hashfile := by
  obtain ⟨-, s, pre, bytes, hbytes, rfl, hfollows⟩ :=
    h.follows (fun _ hopen hclosed => closed_of_not_open hclosed hopen) husable
      (skippedHash_length hzero)
  obtain ⟨hne, -⟩ | ⟨-, houtcome, t, hcore, hwritten⟩ := hfollows pre [] hbytes
  · exact absurd rfl hne
  · refine ⟨houtcome, t, hcore, hwritten.numHashErrors, fun first reads hdelivers => ?_⟩
    obtain ⟨t', -, hcore', hwritten'⟩ := hdelivers.written hzero husable
    refine ⟨t', hcore', fun i hi => ?_, ?_⟩
    · rw [hwritten.image i hi, hwritten'.image i hi]
    · rw [hwritten.hashfile, hwritten'.hashfile]

end Connections

section Steps

variable {v : SentVolume} {req : ImageRequest} {files : ImageFiles} {checked : Nat → Bool}
  {okay : ImageTransfer → Prop} {s : ImageSession ImageTransfer} {t t' : ImageTransfer}
  {rest : List UInt8}

theorem Transfers.message (h : v.Transfers req files checked okay ⟨s, [], false⟩ (a.encode ++ rest))
    (hopen : Open v.blocksize v.totalblocks t s) (hleft : s.blockleft = 0)
    (hsendable : Sendable v.blocksize v.totalblocks a)
    (hact : (imageCore req files).act t a = .goOn t') :
    ∃ s', Open v.blocksize v.totalblocks t' s' ∧ s'.blockleft = 0 ∧
      v.Transfers req files checked okay ⟨s', [], false⟩ rest := by
  obtain ⟨s', hopen', hleft', hdrain⟩ := @drain_message _ req _ _ _ _ _ _ hopen hleft
    v.blocksize_pos _ hsendable hact
  have hread := Transfers.read h
  change v.Transfers req files checked okay (drain _ s a.encode) rest at hread
  have hempty := hdrain []
  rw [List.append_nil, drain_short hopen'.transferState hleft' (by decide)] at hempty
  rw [hempty] at hread
  exact ⟨s', hopen', hleft', hread⟩

theorem Transfers.lost (h : v.Transfers req files checked okay ⟨s, [], false⟩ rest)
    (hopen : Open v.blocksize v.totalblocks t s) (hbegun : t.nextblock ≠ 0) (hokay : okay t)
    {bytes : List UInt8} (hrepeated : Encoded
      (v.messages req files checked (t.continueBlock req / t.vhdBlocksize) ++ [.finish]) bytes) :
    ∃ s', Open v.blocksize v.totalblocks t s' ∧ s'.blockleft = 0 ∧
      v.Transfers req files checked okay ⟨s', [], false⟩ bytes :=
  ⟨{ s with blockleft := 0 },
    ⟨hopen.transferState, hopen.blocksize, hopen.totalblocks, hopen.core⟩, rfl,
    .lose h rfl hopen.core hbegun hokay hrepeated⟩

end Steps

section Repeated

variable {v : SentVolume} {req : ImageRequest} {files : ImageFiles} {t : ImageTransfer}

theorem Closed.repeatBlock (h : v.Closed req files t) {n : Nat} (hn : n < v.totalblocks)
    (hnear : v.totalblocks ≤ n + v.perHash) (data : List UInt8) :
    t.takeBlock req files n data = .goOn t := by
  unfold ImageTransfer.takeBlock
  rw [Carried.nextblock h, Carried.vhdBlocksize h, if_neg (Nat.not_le.mpr hn), if_neg]
  omega

theorem Closed.repeatChecksum (h : v.Closed req files t)
    (hopen : v.totalblocks % v.perHash ≠ 0) (hwhole : v.drivesize / v.blocksize = v.totalblocks)
    {dig : List UInt8} (hdig : req.sha256 [] ≠ dig) :
    ∃ t', t.takeChecksum req files v.totalblocks dig = .retry t' ∧ t'.numHashErrors = 1 := by
  have hpos : 0 < v.totalblocks := by
    apply Nat.pos_of_ne_zero
    intro h0
    rw [h0, Nat.zero_mod] at hopen
    exact hopen rfl
  have hempty : t.shactx = [] := by
    rw [Carried.shactx h, Nat.zero_mul, ByteStore.read_zero]
  have hclose : t.closeBlocks req files v.totalblocks = t.verifyHash req := by
    unfold ImageTransfer.closeBlocks ImageTransfer.fillTo ImageTransfer.hashTo
    rw [Carried.nextblock h, Carried.blocks h, Carried.vhdBlocksize h, hwhole,
      if_pos ⟨.inr ⟨rfl, hopen⟩, by omega⟩, if_neg (Int.lt_irrefl _), Carried.nextblock h,
      Carried.blocks h, hwhole, if_pos ⟨.inr rfl, Nat.pos_iff_ne_zero.mp hpos⟩]
  have herrors : (t.verifyHash req).numHashErrors = 0 := by
    change t.numHashErrors = 0
    exact Carried.numHashErrors h
  have hverify : (t.verifyHash req).verifyChecksum ≠ dig := by
    change req.sha256 t.shactx ≠ dig
    rw [hempty]
    exact hdig
  unfold ImageTransfer.takeChecksum
  dsimp only
  rw [hclose, if_pos hverify]
  unfold ImageTransfer.retry ImageTransfer.again
  rw [herrors, if_pos (by decide)]
  exact ⟨_, rfl, rfl⟩

end Repeated

section Samples

/-- SHA-256 of the first packet below, of 4 KB of ones, of nothing and of 512 KB of zeros. -/
def blockSha256 (data : List UInt8) : List UInt8 :=
  if data.length = 29 then
    [207, 173, 174, 202, 210, 119, 101, 165, 226, 100, 106, 161, 255, 4, 144, 163,
    157, 127, 100, 104, 7, 126, 89, 167, 227, 19, 238, 54, 64, 254, 185, 164]
  else sampleSha256 data

theorem blockSha256_length (data : List UInt8) : (blockSha256 data).length = shaSize := by
  unfold blockSha256
  split
  · rfl
  · exact sampleSha256_length data

def blockRequest : ImageRequest :=
  ⟨true, false, false, false, false, blockSha256, blockSha256_length⟩

theorem blocksize_dvd_hashedSize : 4096 ∣ hashedSize := by decide

def blockVolume : SentVolume where
  blocksize := 4096
  drivesize := 4096
  sent n := if n = 0 then some (List.replicate 4096 1) else none
  blocksize_dvd := blocksize_dvd_hashedSize
  sent_length h := by
    split at h
    · cases h
      exact List.length_replicate
    · cases h
  sent_lt h := by
    split at h
    · next hn =>
        subst hn
        decide
    · cases h

def blockHeader : List UInt8 :=
  littleEndian 4 4096 ++ littleEndian 8 4096 ++ littleEndian 8 1 ++ [0] ++ littleEndian 4 0 ++
    littleEndian 4 7 ++
    [207, 173, 174, 202, 210, 119, 101, 165, 226, 100, 106, 161, 255, 4, 144, 163,
    157, 127, 100, 104, 7, 126, 89, 167, 227, 19, 238, 54, 64, 254, 185, 164]

def blockBytes : List UInt8 := List.replicate 4096 1

def blockSum : List UInt8 :=
  blockRequest.sha256 (blockVolume.hashedContent blockRequest sampleFiles 0)

theorem blockVolume_messages :
    blockVolume.messages blockRequest sampleFiles (fun _ => true) 0 =
      [.block 0 blockBytes, .checksum 1 blockSum] := rfl

theorem blockSha256_of_ne {data : List UInt8} (h : data.length ≠ 29) :
    blockSha256 data = sampleSha256 data := if_neg h

theorem blockFiles_zero :
    sampleFiles.zeroHash = blockRequest.sha256 (List.replicate hashedSize 0) := by
  have hlength : (List.replicate hashedSize (0 : UInt8)).length ≠ 29 := by
    rw [List.length_replicate]
    decide
  simp only [blockRequest, sampleFiles]
  exact (blockSha256_of_ne hlength).symm

/-- What is hashed of the block does not have the hash of nothing. -/
theorem blockSum_ne : blockRequest.sha256 [] ≠ blockSum := by
  have hlength : (blockVolume.hashedContent blockRequest sampleFiles 0).length = 4096 := by
    rw [hashedContent, ByteStore.read_length]
    decide
  have hsum {data : List UInt8} (h : data.length = 4096) :
      (blockSha256 data).head? = some 52 ∨ (blockSha256 data).head? = some 173 := by
    unfold blockSha256 sampleSha256
    rw [h, if_neg (by decide), if_neg (by decide)]
    by_cases hones : data.head? = some 1
    · rw [if_pos ⟨rfl, hones⟩]
      exact .inl rfl
    · rw [if_neg (fun h' => hones h'.2), if_pos rfl]
      exact .inr rfl
  unfold blockSum
  generalize blockVolume.hashedContent blockRequest sampleFiles 0 = data at hlength
  have hempty : (blockSha256 []).head? = some 227 := rfl
  intro heq
  have hhead : (blockSha256 []).head? = (blockSha256 data).head? := congrArg List.head? heq
  rw [hempty] at hhead
  rcases hsum hlength with h | h
  · exact absurd (hhead.trans h) (by decide)
  · exact absurd (hhead.trans h) (by decide)

theorem blockVolume_usable : blockVolume.Usable blockRequest (fun _ => true) := by
  refine ⟨fun {n data} hsent => .inr ?_, fun _ _ _ => rfl⟩
  have hn := blockVolume.sent_lt hsent
  change n * 4096 < 4096 at hn
  have hfirst : n = 0 := by omega
  subst hfirst
  decide

theorem blockVolume_taken : ∃ t t', (imageCore blockRequest sampleFiles).act
      (ImageTransfer.start blockRequest sampleFiles 4096 4096) (.block 0 blockBytes) = .goOn t ∧
    (imageCore blockRequest sampleFiles).act t (.checksum 1 blockSum) = .goOn t' ∧
      blockVolume.Sync blockRequest sampleFiles 1 t ∧
        blockVolume.Closed blockRequest sampleFiles t' := by
  have hlength := @skippedHash_length blockRequest sampleFiles blockFiles_zero
  have htouched : blockVolume.touched 0 = true := by decide
  obtain ⟨t, hact, hsync⟩ := (blockVolume.sync_start blockRequest sampleFiles).takeBlock le_rfl
    (show blockVolume.sent 0 = some blockBytes from rfl)
    (fun m hm hm' => absurd hm' (Nat.not_lt.mpr hm)) (blockVolume_usable.fits rfl) hlength
  have hend : blockVolume.GroupEnd 0 1 1 :=
    ⟨htouched, by decide, by decide, le_rfl, fun m hm hm' => absurd hm' (Nat.not_lt.mpr hm),
      fun _ => rfl⟩
  obtain ⟨t', hact', -, hclosed⟩ := hsync.takeChecksum hend hlength
  rw [entry_touched htouched (blockVolume_usable.whole htouched rfl)] at hact'
  exact ⟨t, t', hact, hact', hsync, hclosed (by decide)⟩

def blockStream : List UInt8 :=
  (ImageAction.block 0 blockBytes).encode ++
    ((ImageAction.checksum 1 blockSum).encode ++ (ImageAction.finish.encode ++ []))

theorem blockStream_encoded : Encoded
    (blockVolume.messages blockRequest sampleFiles (fun _ => true) 0 ++ [.finish]) blockStream := by
  rw [blockVolume_messages]
  exact .cons _ (.cons _ (.cons _ .nil))

theorem blockVolume_connected (okay : ImageTransfer → Prop) :
    ∃ s, Open 4096 1 (ImageTransfer.start blockRequest sampleFiles 4096 4096) s ∧
      s.blockleft = 0 ∧
        blockVolume.Transfers blockRequest sampleFiles (fun _ => true) okay ⟨s, [], false⟩
          blockStream := by
  obtain ⟨s, hfirst, hstate, hcore⟩ : ∃ s, firstPacket blockRequest
      (imageCore blockRequest sampleFiles) blockHeader = .complete s 61 ∧
      Open 4096 1 (ImageTransfer.start blockRequest sampleFiles 4096 4096) s ∧
        s.blockleft = 0 := ⟨_, rfl, ⟨rfl, rfl, rfl, rfl⟩, rfl⟩
  have hfeed : firstReadFeed blockRequest (imageCore blockRequest sampleFiles) blockHeader =
      ⟨s, [], false⟩ := by
    unfold firstReadFeed
    rw [hfirst]
    exact drain_short hstate.transferState hcore (by decide)
  have hbitmap : BitmapOf blockRequest s [] :=
    ⟨fun _ => rfl, fun h' => absurd (hstate.transferState.symm.trans h') nofun,
      fun h' => absurd (hstate.transferState.symm.trans h') nofun,
      fun h' => absurd (hstate.transferState.symm.trans h') nofun⟩
  refine ⟨s, hstate, hcore, ?_⟩
  rw [← hfeed]
  exact .connect ⟨s, 61, [], blockStream, hfirst, hstate.blocksize, by decide, rfl, hbitmap,
    blockStream_encoded⟩

theorem block_sendable : Sendable 4096 1 (.block 0 blockBytes) := by
  refine ⟨?_, ?_, ?_⟩
  · exact List.length_replicate
  · decide
  · decide

theorem checksum_sendable : Sendable 4096 1 (.checksum 1 blockSum) := by
  refine ⟨by decide, by decide, ?_⟩
  unfold blockSum
  exact blockRequest.sha256_length _

theorem continueBlock_first {t : ImageTransfer} (hnext : t.nextblock = 1)
    (hvhd : t.vhdBlocksize = 128) :
    t.continueBlock blockRequest / t.vhdBlocksize = 0 := by
  unfold ImageTransfer.continueBlock
  rw [hnext, hvhd, if_pos (by decide)]

/-- A loss between the block and its checksum. -/
theorem losses_do_not_change_image_blockVolume : ∃ f : Feed (ImageSession ImageTransfer) UInt8,
    f.state.outcome = some .finished ∧ ∃ t, f.state.core = some t ∧ t.numHashErrors = 0 ∧
      ∀ first reads, blockVolume.Delivers blockRequest sampleFiles (fun _ => true) first
          reads.flatten →
        ∃ t', (receive blockRequest (imageCore blockRequest sampleFiles) first reads).state.core =
            some t' ∧
          (∀ i < 4096, t.image (blockRequest.mbrOffset + i) =
            t'.image (blockRequest.mbrOffset + i)) ∧ t.hashfile = t'.hashfile := by
  obtain ⟨t, t', hact, -, hsync, -⟩ := blockVolume_taken
  obtain ⟨s, hopen, hleft, hconnected⟩ := blockVolume_connected ImageTransfer.LastHashOpen
  obtain ⟨s', hopen', -, hread⟩ := hconnected.message hopen hleft block_sendable hact
  have hnext : t.nextblock = 1 := hsync.carried.nextblock
  have hvhd : t.vhdBlocksize = 128 := hsync.carried.vhdBlocksize
  have hbegin := continueBlock_first hnext hvhd
  have hlast : t.LastHashOpen := by
    unfold ImageTransfer.LastHashOpen
    rw [hsync.carried.hashpos, hnext, hvhd]
    rfl
  have hrepeated := blockStream_encoded
  rw [← hbegin] at hrepeated
  obtain ⟨s'', -, -, hlost⟩ := hread.lost hopen' (hnext ▸ one_ne_zero) hlast hrepeated
  rw [← List.append_nil blockStream] at hlost
  exact ⟨_, losses_do_not_change_image blockFiles_zero blockVolume_usable (.read hlost)⟩

/-- A loss between the checksum and the end marker. -/
theorem loss_after_last_checksum_fails : ¬ ∀ (v : SentVolume) (req : ImageRequest)
    (files : ImageFiles) (checked : Nat → Bool) (f : Feed (ImageSession ImageTransfer) UInt8),
    files.zeroHash = req.sha256 (List.replicate hashedSize 0) → v.Usable req checked →
      v.Transfers req files checked (fun _ => True) f [] → f.state.outcome = some .finished := by
  intro hclaim
  obtain ⟨t, t', hact, hact', -, hclosed⟩ := blockVolume_taken
  obtain ⟨s₀, hopen₀, hleft₀, hconnected⟩ := blockVolume_connected fun _ => True
  obtain ⟨s₁, hopen₁, hleft₁, hread₁⟩ := hconnected.message hopen₀ hleft₀ block_sendable hact
  obtain ⟨s₂, hopen₂, hleft₂, hread₂⟩ := hread₁.message hopen₁ hleft₁ checksum_sendable hact'
  have hnext : t'.nextblock = 1 := Carried.nextblock hclosed
  have hvhd : t'.vhdBlocksize = 128 := Carried.vhdBlocksize hclosed
  have hbegin := continueBlock_first hnext hvhd
  have hrepeated := blockStream_encoded
  rw [← hbegin] at hrepeated
  obtain ⟨s₃, hopen₃, hleft₃, hlost⟩ := hread₂.lost hopen₂ (hnext ▸ one_ne_zero) trivial hrepeated
  obtain ⟨s₄, hopen₄, hleft₄, hread₄⟩ := hlost.message hopen₃ hleft₃ block_sendable
    (hclosed.repeatBlock (by decide) (by decide) blockBytes)
  obtain ⟨u, hretry, -⟩ := hclosed.repeatChecksum (by decide) (by decide) blockSum_ne
  have hact₄ : s₄.act (imageCore blockRequest sampleFiles) (ImageAction.checksum 1 blockSum) =
      (({ s₄ with
        acted := s₄.acted ++ [ImageAction.checksum 1 blockSum], core := some u } :
          ImageSession ImageTransfer).ended .retry, true) := by
    unfold ImageSession.act
    rw [hopen₄.core]
    dsimp only
    rw [show (imageCore blockRequest sampleFiles).act t' (.checksum 1 blockSum) = .retry u from
      hretry]
  have hstop : next blockRequest (imageCore blockRequest sampleFiles) s₄
      ((ImageAction.checksum 1 blockSum).encode ++ (ImageAction.finish.encode ++ [])) = .stop
        (({ s₄ with
          acted := s₄.acted ++ [ImageAction.checksum 1 blockSum], core := some u } :
            ImageSession ImageTransfer).ended .retry) := by
    rw [next_message hopen₄.transferState hleft₄, message_checksum checksum_sendable, hact₄]
    rfl
  rw [← List.append_nil ((ImageAction.checksum 1 blockSum).encode ++ _)] at hread₄
  have hend := hclaim blockVolume blockRequest sampleFiles (fun _ => true) _ blockFiles_zero
    blockVolume_usable (.read hread₄)
  change (drain _ s₄ _).state.outcome = _ at hend
  rw [List.nil_append, drain_stop hstop] at hend
  cases hend

end Samples

end SentVolume

end UrBackup
