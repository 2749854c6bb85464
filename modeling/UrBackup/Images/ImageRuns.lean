import UrBackup.Images.ImageSync
import UrBackup.Images.ImageMessages

/-! The messages of a volume, which take the server from the start of any 512 KB to the end of the
image. -/
namespace UrBackup

namespace SentVolume

section Messages

variable (v : SentVolume) (req : ImageRequest) (files : ImageFiles)

def hashedContent (k : Nat) : List UInt8 :=
  (v.content req files).read (k * hashedSize) (min hashedSize (v.drivesize - k * hashedSize))

/-- What a client sends of 512 KB: blocks, and a checksum if something was sent. -/
def groupMessages (checked : Nat → Bool) (k : Nat) : List ImageAction :=
  ((List.range' (k * v.perHash) v.perHash).filterMap fun n => (v.sent n).map (.block n)) ++
    if v.touched k && checked k then
      [.checksum (min ((k + 1) * v.perHash) v.totalblocks : Nat)
        (req.sha256 (v.hashedContent req files k))]
    else []

def messages (checked : Nat → Bool) (k : Nat) : List ImageAction :=
  (List.range' k (v.groups - k)).flatMap (v.groupMessages req files checked)

/-- The server has come to a block of some 512 KB, or is ahead of it there. -/
def AtBlock (k n : Nat) (t : ImageTransfer) : Prop :=
  ∃ p, v.Sync req files p t ∧ v.Unsent p n ∧ p ≤ (k + 1) * v.perHash

/-- Where the server is before it gets what is sent of some 512 KB. -/
def AtGroup (checked : Nat → Bool) (k : Nat) (t : ImageTransfer) : Prop :=
  if k = v.groups ∧ v.lastChecked checked = true then v.Closed req files t
  else v.AtBlock req files k (k * v.perHash) t

/-- What is sent can be used: it fits into the image, and checksums are of whole blocks. -/
structure Usable (checked : Nat → Bool) : Prop where
  fits : ∀ {n data}, v.sent n = some data →
    req.cowraw = true ∨ req.mbrOffset + (n + 1) * v.blocksize ≤ v.drivesize + mbrSize
  whole : ∀ {k}, v.touched k = true → checked k = true → v.drivesize < (k + 1) * hashedSize →
    v.drivesize % v.blocksize = 0

end Messages

section Runs

variable {v : SentVolume} {req : ImageRequest} {files : ImageFiles} {checked : Nat → Bool}
  {k n : Nat} {t : ImageTransfer}

/-- Where the server can be between two messages. -/
def Going (v : SentVolume) (req : ImageRequest) (files : ImageFiles) (t : ImageTransfer) : Prop :=
  (∃ p, v.Sync req files p t) ∨ v.Closed req files t

theorem AtBlock.going (h : v.AtBlock req files k n t) : v.Going req files t :=
  .inl ⟨h.choose, h.choose_spec.1⟩

theorem AtGroup.going (h : v.AtGroup req files checked k t) : v.Going req files t := by
  unfold AtGroup at h
  split at h
  · exact .inr h
  · exact AtBlock.going h

/-- The blocks that are sent, up to the end of some 512 KB. Induction on their number. -/
theorem AtBlock.blocks (husable : v.Usable req checked)
    (hlength : ∀ j, (files.skippedHash req j).length = shaSize) {count : Nat}
    (h : v.AtBlock req files k n t) (hfrom : k * v.perHash ≤ n)
    (hto : n + count ≤ (k + 1) * v.perHash) :
    ∃ t', (imageCore req files).Runs (v.Going req files) t
        ((List.range' n count).filterMap fun m => (v.sent m).map (.block m)) t' ∧
      v.AtBlock req files k (n + count) t' := by
  induction count generalizing n t with
  | zero => exact ⟨t, .nil h.going, h⟩
  | succ count ih =>
    have hgoing := h.going
    obtain ⟨p, hsync, hunsent, hp⟩ := h
    have hgroup : (k + 1) * v.perHash = k * v.perHash + v.perHash := Nat.succ_mul _ _
    have hshift : n + (count + 1) = n + 1 + count := by omega
    rw [List.range'_succ, hshift]
    cases hsent : v.sent n with
    | none =>
      have hnext : v.AtBlock req files k (n + 1) t := by
        refine ⟨p, hsync, fun m hm hm' => ?_, hp⟩
        rcases Nat.lt_or_eq_of_le (Nat.le_of_lt_succ hm') with hlt | rfl
        · exact hunsent m hm hlt
        · exact hsent
      rw [List.filterMap_cons_none (by rw [hsent]; rfl)]
      exact ih hnext (by omega) (by omega)
    | some data =>
      rw [List.filterMap_cons_some (by rw [hsent]; rfl)]
      by_cases hpn : p ≤ n
      · obtain ⟨t', hact, hsync'⟩ := hsync.takeBlock hpn hsent hunsent (husable.fits hsent)
          hlength
        have hnext : v.AtBlock req files k (n + 1) t' :=
          ⟨n + 1, hsync', fun m hm hm' => absurd hm' (Nat.not_lt.mpr hm), by omega⟩
        obtain ⟨t'', hrun, hend⟩ := ih hnext (by omega) (by omega)
        exact ⟨t'', .cons hgoing hact hrun, hend⟩
      · have hnext : v.AtBlock req files k (n + 1) t :=
          ⟨p, hsync, fun m hm hm' => absurd hm' (by omega), hp⟩
        obtain ⟨t'', hrun, hend⟩ := ih hnext (by omega) (by omega)
        exact ⟨t'', .cons hgoing (hsync.repeatBlock (by omega) (by omega) data) hrun, hend⟩

theorem groups_spec (v : SentVolume) : v.totalblocks ≤ v.groups * v.perHash ∧
    ∀ j, j < v.groups → j * v.perHash < v.totalblocks := by
  have hmod := Nat.mod_lt v.totalblocks v.perHash_pos
  have hdiv := Nat.div_add_mod' v.totalblocks v.perHash
  have hle (j : Nat) (hj : j < v.groups) : j ≤ v.totalblocks / v.perHash := by
    unfold groups at hj
    split at hj <;> omega
  constructor
  · unfold groups
    split
    · rw [Nat.succ_mul]
      omega
    · rw [Nat.add_zero]
      omega
  · intro j hj
    have hmul := Nat.mul_le_mul_right v.perHash (hle j hj)
    by_cases hopen : v.totalblocks % v.perHash = 0
    · unfold groups at hj
      rw [if_neg (not_not.mpr hopen), Nat.add_zero] at hj
      have hsucc := Nat.mul_le_mul_right v.perHash (Nat.succ_le_of_lt hj)
      rw [Nat.succ_mul] at hsucc
      have hpos := v.perHash_pos
      omega
    · omega

theorem exists_sent (h : v.touched k = true) :
    ∃ m data, k * v.perHash ≤ m ∧ m < (k + 1) * v.perHash ∧ v.sent m = some data := by
  obtain ⟨m, hm, hsent⟩ := List.any_eq_true.mp h
  rw [List.mem_range'_1, ← Nat.succ_mul] at hm
  obtain ⟨data, hdata⟩ := Option.isSome_iff_exists.mp hsent
  exact ⟨m, data, hm.1, hm.2, hdata⟩

theorem totalblocks_mul (h : v.drivesize % v.blocksize = 0) :
    v.totalblocks * v.blocksize = v.drivesize := by
  rw [totalblocks, if_neg (not_not.mpr h), Nat.add_zero,
    Nat.div_mul_cancel (Nat.dvd_of_mod_eq_zero h)]

theorem hashed_length (h : v.drivesize < (k + 1) * hashedSize → v.drivesize % v.blocksize = 0) :
    min v.perHash (v.totalblocks - k * v.perHash) * v.blocksize =
      min hashedSize (v.drivesize - k * hashedSize) := by
  rw [← Nat.mul_min_mul_right, Nat.sub_mul, Nat.mul_assoc, v.perHash_mul]
  by_cases hshort : v.drivesize < (k + 1) * hashedSize
  · rw [totalblocks_mul (h hshort)]
  · have hle := @le_totalblocks_mul v
    rw [Nat.succ_mul] at hshort
    rw [Nat.min_eq_left (by omega), Nat.min_eq_left (by omega)]

theorem entry_touched (htouched : v.touched k = true)
    (h : v.drivesize < (k + 1) * hashedSize → v.drivesize % v.blocksize = 0) :
    v.entry req files k = req.sha256 (v.hashedContent req files k) := by
  have hfilled : v.filled k = true := by rw [filled, htouched, Bool.true_or]
  rw [entry, if_pos hfilled, hashed_length h, hashedContent]
  congr 1
  apply ByteStore.read_congr
  intro i hi hi'
  have hgroup : i / v.blocksize / v.perHash = k := by
    rw [Nat.div_div_eq_div_mul, Nat.mul_comm, v.perHash_mul]
    apply Nat.div_eq_of_lt_le hi
    rw [Nat.succ_mul]
    omega
  unfold stored content bytes
  rw [hgroup, hfilled, htouched]

theorem lastChecked_iff : v.lastChecked checked = true ↔
    v.totalblocks % v.perHash ≠ 0 ∧ v.touched (v.totalblocks / v.perHash) = true ∧
      checked (v.totalblocks / v.perHash) = true := by
  rw [lastChecked, Bool.and_eq_true, Bool.and_eq_true, decide_eq_true_iff, and_assoc]

theorem AtGroup.messages (husable : v.Usable req checked)
    (hlength : ∀ j, (files.skippedHash req j).length = shaSize)
    (h : v.AtGroup req files checked k t) (hk : k < v.groups) :
    ∃ t', (imageCore req files).Runs (v.Going req files) t
        (v.groupMessages req files checked k) t' ∧ v.AtGroup req files checked (k + 1) t' := by
  obtain ⟨htotal, hbefore⟩ := v.groups_spec
  unfold AtGroup at h
  rw [if_neg (fun hlast => Nat.ne_of_lt hk hlast.1)] at h
  obtain ⟨t', hrun, hend⟩ := AtBlock.blocks husable hlength h le_rfl (Nat.succ_mul _ _).ge
  rw [← Nat.succ_mul] at hend
  obtain ⟨p, hsync, hunsent, hp⟩ := hend
  unfold groupMessages
  by_cases hsum : (v.touched k && checked k) = true
  · obtain ⟨htouched, hchecked⟩ := Bool.and_eq_true_iff.mp hsum
    have hwhole := husable.whole htouched hchecked
    have hend : v.GroupEnd k p (min ((k + 1) * v.perHash) v.totalblocks) := by
      refine ⟨htouched, rfl, ?_, ?_, ?_, ?_⟩
      · obtain ⟨m, data, hm, hm', hsent⟩ := exists_sent htouched
        by_contra hle
        rw [hunsent m (by omega) hm'] at hsent
        cases hsent
      · exact Nat.le_min.mpr ⟨hp, hsync.le⟩
      · exact fun m hm hm' => hunsent m hm (hm'.trans_le (Nat.min_le_left _ _))
      · intro hopen
        have hlt : v.totalblocks < (k + 1) * v.perHash := by
          by_contra hall
          rw [Nat.min_eq_left (Nat.not_lt.mp hall), Nat.mul_mod_left] at hopen
          exact hopen rfl
        have hmul := Nat.mul_lt_mul_of_pos_right hlt v.blocksize_pos
        rw [Nat.mul_assoc, v.perHash_mul] at hmul
        rw [totalblocks, if_neg (not_not.mpr (hwhole (le_totalblocks_mul.trans_lt hmul))),
          Nat.add_zero]
    obtain ⟨t'', hact, hclosed, hopen⟩ := hsync.takeChecksum hend hlength
    rw [entry_touched htouched hwhole] at hact
    rw [if_pos hsum]
    refine ⟨t'', hrun.append (.cons (.inl ⟨p, hsync⟩) hact (.nil ?_)), ?_⟩
    · by_cases h0 : min ((k + 1) * v.perHash) v.totalblocks % v.perHash = 0
      · exact .inl ⟨_, hclosed h0⟩
      · exact .inr (hopen h0)
    · unfold AtGroup
      by_cases h0 : min ((k + 1) * v.perHash) v.totalblocks % v.perHash = 0
      · have hsync' := hclosed h0
        rw [(hend.of_closed h0).1] at hsync'
        rw [if_neg]
        · refine ⟨_, hsync', fun m hm hm' => absurd hm' (Nat.not_lt.mpr hm), ?_⟩
          exact Nat.mul_le_mul_right _ (Nat.le_succ _)
        · rintro ⟨hlast, hchecked'⟩
          obtain ⟨hshort, -⟩ := lastChecked_iff.mp hchecked'
          apply hshort
          have hle := hend.le_total
          rw [(hend.of_closed h0).1] at hle
          have heq : v.totalblocks = (k + 1) * v.perHash := by
            rw [hlast] at hle ⊢
            omega
          rw [heq, Nat.mul_mod_left]
      · have hlast : v.totalblocks / v.perHash = k := hend.of_open h0
        have hshort : v.totalblocks % v.perHash ≠ 0 := by
          rw [← hend.last h0]
          exact h0
        rw [if_pos]
        · exact hopen h0
        · refine ⟨?_, ?_⟩
          · rw [groups, if_pos hshort, hlast]
          · rw [lastChecked_iff, hlast]
            exact ⟨hshort, htouched, hchecked⟩
  · rw [if_neg hsum, List.append_nil]
    refine ⟨t', hrun, ?_⟩
    unfold AtGroup
    rw [if_neg]
    · refine ⟨p, hsync, hunsent, ?_⟩
      rw [Nat.succ_mul]
      omega
    · rintro ⟨hlast, hclosed⟩
      obtain ⟨hopen, htouched, hchecked⟩ := lastChecked_iff.mp hclosed
      rw [groups, if_pos hopen] at hlast
      have hkeq : v.totalblocks / v.perHash = k := by omega
      rw [hkeq] at htouched hchecked
      exact hsum (Bool.and_eq_true_iff.mpr ⟨htouched, hchecked⟩)

/-- The messages from some 512 KB on. Induction on how many 512 KB are left. -/
theorem AtGroup.run (husable : v.Usable req checked)
    (hlength : ∀ j, (files.skippedHash req j).length = shaSize)
    (h : v.AtGroup req files checked k t) (hk : k ≤ v.groups) :
    ∃ t', (imageCore req files).Runs (v.Going req files) t
        (v.messages req files checked k) t' ∧ v.AtGroup req files checked v.groups t' := by
  obtain ⟨count, hcount⟩ : ∃ count, v.groups = k + count := ⟨v.groups - k, by omega⟩
  unfold SentVolume.messages
  rw [show v.groups - k = count by omega]
  induction count generalizing k t with
  | zero =>
    rw [Nat.add_zero] at hcount
    subst hcount
    exact ⟨t, .nil h.going, h⟩
  | succ count ih =>
    obtain ⟨t', hrun, hnext⟩ := h.messages husable hlength (by omega)
    obtain ⟨t'', hrun', hend⟩ := ih hnext (by omega) (by omega)
    rw [List.range'_succ, List.flatMap_cons]
    exact ⟨t'', hrun.append hrun', hend⟩

theorem AtGroup.finish (hlength : ∀ j, (files.skippedHash req j).length = shaSize)
    (h : v.AtGroup req files checked v.groups t) :
    ∃ t', t.finish req files = .goOn t' ∧ v.Written req files checked t' := by
  unfold AtGroup at h
  split at h
  · next hlast => exact Closed.finish h hlast.2
  · next hlast =>
      obtain ⟨p, hsync, hunsent, -⟩ := h
      apply hsync.finish _ _ hlength
      · exact fun m hm hm' => hunsent m hm (Nat.lt_of_lt_of_le hm' v.groups_spec.1)
      · rw [← Bool.not_eq_true]
        exact fun hchecked => hlast ⟨rfl, hchecked⟩

theorem totalblocks_eq (v : SentVolume) : (v.drivesize : Int).tdiv v.blocksize +
    (if (v.drivesize : Int).tmod v.blocksize ≠ 0 then 1 else 0) = v.totalblocks := by
  rw [← Int.ofNat_tdiv, ← Int.ofNat_tmod, totalblocks]
  by_cases hrest : v.drivesize % v.blocksize = 0
  · rw [hrest, if_neg (not_not.mpr Nat.cast_zero), if_neg (not_not.mpr rfl), Int.add_zero,
      Nat.add_zero]
  · rw [if_pos hrest, if_pos (Nat.cast_ne_zero.mpr hrest), ← Nat.cast_succ]

theorem sync_start (v : SentVolume) (req : ImageRequest) (files : ImageFiles) :
    v.Sync req files 0 (ImageTransfer.start req files v.blocksize v.drivesize) := by
  have htotal := congrArg Int.toNat v.totalblocks_eq
  rw [Int.toNat_natCast] at htotal
  refine ⟨⟨rfl, rfl, rfl, htotal, ?_, rfl, rfl, rfl, ?_, ?_, ?_, ?_⟩, Nat.zero_le _, ?_, ?_⟩
  · rw [ImageTransfer.start, ← Int.natCast_add, Int.toNat_natCast]
  · rw [Nat.zero_mod, Nat.zero_mul]
    rfl
  · rw [Nat.zero_div]
    rfl
  · rw [Nat.zero_div, Nat.zero_mul]
    rfl
  · intro i _
    dsimp only [ImageTransfer.start]
    rw [if_neg (by omega), Nat.add_sub_cancel_left, Nat.zero_mul, if_neg (Nat.not_lt_zero i)]
  · intro hopen
    exact absurd (Nat.zero_mod _) hopen
  · intro _ hne
    exact absurd rfl hne

theorem atGroup_start (v : SentVolume) (req : ImageRequest) (files : ImageFiles)
    (checked : Nat → Bool) : v.AtGroup req files checked 0
      (ImageTransfer.start req files v.blocksize v.drivesize) := by
  unfold AtGroup
  rw [if_neg]
  · refine ⟨0, v.sync_start req files, fun m _ hm => absurd hm ?_, Nat.zero_le _⟩
    rw [Nat.zero_mul]
    exact Nat.not_lt_zero m
  · rintro ⟨hnone, hlast⟩
    have hopen := (lastChecked_iff.mp hlast).1
    rw [groups, if_pos hopen] at hnone
    cases hnone

end Runs

end SentVolume

end UrBackup
