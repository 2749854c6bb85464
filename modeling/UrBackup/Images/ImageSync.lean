import UrBackup.Images.Gaps

/-! What the server does with the blocks and checksums of a volume: it goes on, and comes to the end
with the image and the hash file that it should have. -/
namespace UrBackup

namespace SentVolume

section Ends

variable (v : SentVolume) (req : ImageRequest) (files : ImageFiles)

def groups : Nat := v.totalblocks / v.perHash + if v.totalblocks % v.perHash ≠ 0 then 1 else 0

def lastChecked (checked : Nat → Bool) : Bool :=
  v.totalblocks % v.perHash ≠ 0 && v.touched (v.totalblocks / v.perHash) &&
    checked (v.totalblocks / v.perHash)

/-- The hash file of a whole volume. The end marker writes a hash in any case. -/
def hashfile (checked : Nat → Bool) : StoredFile :=
  if v.totalblocks % v.perHash ≠ 0 ∧ v.lastChecked checked = false then v.hashes req files v.groups
  else (v.hashes req files v.groups).write (v.groups * shaSize) (req.sha256 [])

/-- The last hash was written before the end marker. -/
def Closed (t : ImageTransfer) : Prop :=
  v.Carried req files v.totalblocks (v.totalblocks / v.perHash + 1) 0 v.totalblocks t

/-- The image is written. -/
structure Written (checked : Nat → Bool) (t : ImageTransfer) : Prop where
  numHashErrors : t.numHashErrors = 0
  image : ∀ i < v.drivesize, t.image (req.mbrOffset + i) = v.stored req files i
  hashfile : t.hashfile = v.hashfile req files checked

end Ends

section Steps

variable {v : SentVolume} {req : ImageRequest} {files : ImageFiles} {p n : Nat}
  {t : ImageTransfer}

theorem Sync.takeBlock (h : v.Sync req files p t) (hp : p ≤ n) {data : List UInt8}
    (hsent : v.sent n = some data) (hunsent : v.Unsent p n)
    (hfits : req.cowraw = true ∨ req.mbrOffset + (n + 1) * v.blocksize ≤ v.drivesize + mbrSize)
    (hlength : ∀ j, (files.skippedHash req j).length = shaSize) :
    ∃ t', t.takeBlock req files n data = .goOn t' ∧ v.Sync req files (n + 1) t' := by
  have hlt := lt_of_sent hsent
  have hfilled : v.filled (n / v.perHash) = true := by
    rw [SentVolume.filled, touched_of_sent hsent, Bool.true_or]
  have hup : v.Carried req files (n + 1) (n / v.perHash) (n % v.perHash) n
      (t.updateNextblock req files n 0) :=
    @Carried.updateNextblock v req files p n t 0 h.carried hp h.filled (fun _ => hfilled) hunsent
      (fun m hm hm' => absurd hm' (Nat.not_lt.mpr hm)) (Nat.le_of_lt hlt) hlength
  have hdata : (v.stored req files).read
      ((n / v.perHash * v.perHash + n % v.perHash) * v.blocksize) v.blocksize = data := by
    rw [Nat.div_add_mod']
    exact read_sent hsent
  have hwritten := (hup.hash hdata).write hsent hfits
  have hgo : t.nextblock ≤ n := h.carried.nextblock ▸ hp
  unfold ImageTransfer.takeBlock
  rw [if_pos hgo]
  dsimp only
  generalize ImageTransfer.writeVHD req _ _ (some data) _ = u at hwritten ⊢
  rw [hwritten.nextblock, hwritten.vhdBlocksize]
  split
  · next hclose =>
      obtain ⟨hverify, hfinal⟩ := hwritten.final hclose.1 hlt hfilled
      have herror : (u.verifyHash req).hasError = false := hfinal.hasError
      rw [herror, if_neg Bool.false_ne_true]
      refine ⟨_, rfl, { hfinal with }, hlt, ?_, fun _ _ => hverify⟩
      exact fun hopen => absurd hclose.1 hopen
  · next hopen =>
      have hend : (n + 1) % v.perHash ≠ 0 := fun h0 => hopen ⟨h0, Nat.succ_ne_zero n⟩
      obtain ⟨hdiv, hmod⟩ := succ_open hend
      rw [hwritten.hasError, if_neg Bool.false_ne_true]
      refine ⟨_, rfl, ?_, hlt, ?_, fun h0 => absurd h0 hend⟩
      · rw [hdiv, hmod]
        exact hwritten
      · rw [hdiv]
        exact fun _ => hfilled

theorem Sync.repeatBlock (h : v.Sync req files p t) (hp : n < p) (hnear : p ≤ n + v.perHash)
    (data : List UInt8) : t.takeBlock req files n data = .goOn t := by
  unfold ImageTransfer.takeBlock
  rw [h.carried.nextblock, h.carried.vhdBlocksize, if_neg (Nat.not_le.mpr hp), if_neg]
  omega

theorem Carried.finalLast {q : Nat}
    (h : v.Carried req files p (v.totalblocks / v.perHash) (v.totalblocks % v.perHash) q t) :
    req.sha256 t.shactx = v.entry req files (v.totalblocks / v.perHash) ∧
      v.Carried req files p (v.totalblocks / v.perHash + 1) 0 q (t.finalHash req) := by
  have hmod := Nat.mod_lt v.totalblocks v.perHash_pos
  have hdiv := Nat.div_add_mod' v.totalblocks v.perHash
  have hfilled : v.filled (v.totalblocks / v.perHash) = true := by
    rw [filled, Nat.succ_mul, decide_eq_true (by omega), Bool.or_true]
  have hrest : min v.perHash (v.totalblocks - v.totalblocks / v.perHash * v.perHash) =
      v.totalblocks % v.perHash := by omega
  have hentry : v.entry req files (v.totalblocks / v.perHash) = req.sha256 t.shactx := by
    rw [entry, if_pos hfilled, hrest, h.shactx]
  exact ⟨hentry.symm, h.close hentry (req.sha256_length _)⟩

/-- The end of some 512 KB of which something was sent. -/
structure GroupEnd (v : SentVolume) (k p e : Nat) : Prop where
  touched : v.touched k = true
  eq : e = min ((k + 1) * v.perHash) v.totalblocks
  lt : k * v.perHash < p
  le : p ≤ e
  unsent : v.Unsent p e
  whole : e % v.perHash ≠ 0 → v.drivesize / v.blocksize = v.totalblocks

variable {k e : Nat}

theorem GroupEnd.filled (h : v.GroupEnd k p e) : v.filled k = true := by
  rw [SentVolume.filled, h.touched, Bool.true_or]

theorem GroupEnd.le_group (h : v.GroupEnd k p e) : e ≤ (k + 1) * v.perHash :=
  h.eq ▸ Nat.min_le_left _ _

theorem GroupEnd.le_total (h : v.GroupEnd k p e) : e ≤ v.totalblocks :=
  h.eq ▸ Nat.min_le_right _ _

theorem GroupEnd.last (h : v.GroupEnd k p e) (hopen : e % v.perHash ≠ 0) : e = v.totalblocks := by
  have heq := h.eq
  rcases Nat.le_total ((k + 1) * v.perHash) v.totalblocks with hall | hshort
  · rw [Nat.min_eq_left hall] at heq
    rw [heq, Nat.mul_mod_left] at hopen
    exact absurd rfl hopen
  · rw [Nat.min_eq_right hshort] at heq
    exact heq

theorem GroupEnd.of_closed (h : v.GroupEnd k p e) (hclosed : e % v.perHash = 0) :
    e = (k + 1) * v.perHash ∧ e / v.perHash = k + 1 := by
  have hlt := h.lt
  have hle := h.le
  have hmax := h.le_group
  have hdvd := Nat.div_mul_cancel (Nat.dvd_of_mod_eq_zero hclosed)
  have hfrom : k < e / v.perHash := by
    apply Nat.lt_of_mul_lt_mul_right (a := v.perHash)
    omega
  have hto : e / v.perHash ≤ k + 1 := by
    apply Nat.le_of_mul_le_mul_right _ v.perHash_pos
    omega
  have hdiv : e / v.perHash = k + 1 := by omega
  rw [hdiv] at hdvd
  exact ⟨hdvd.symm, hdiv⟩

theorem GroupEnd.of_open (h : v.GroupEnd k p e) (hopen : e % v.perHash ≠ 0) :
    v.totalblocks / v.perHash = k := by
  have hlt := h.lt
  have hle := h.le
  have hmax := h.le_group
  have hbound : e ≠ (k + 1) * v.perHash := by
    intro heq
    rw [heq, Nat.mul_mod_left] at hopen
    exact hopen rfl
  rw [← h.last hopen]
  exact Nat.div_eq_of_lt_le (by omega) (by omega)

theorem Sync.fillTo (h : v.Sync req files p t) (hend : v.GroupEnd k p e)
    (hmore : p < e ∨ e % v.perHash ≠ 0)
    (hlength : ∀ j, (files.skippedHash req j).length = shaSize) :
    v.Carried req files e k (e - k * v.perHash) e (t.fillTo req files e) := by
  have hlt := hend.lt
  have hmax := hend.le_group
  have htotal := hend.le_total
  unfold ImageTransfer.fillTo
  rw [h.carried.nextblock]
  rcases Nat.lt_or_eq_of_le hend.le with hbefore | rfl
  · obtain ⟨n, rfl⟩ : ∃ n, e = n + 1 := ⟨e - 1, by omega⟩
    have hgroup : n / v.perHash = k := Nat.div_eq_of_lt_le (by omega) (by omega)
    have hdiv := Nat.div_add_mod' n v.perHash
    rw [hgroup] at hdiv
    have hempty : v.Empty n (n + 1) := by
      intro m hm hm'
      refine ⟨hend.unsent m (by omega) hm', ?_⟩
      rw [Nat.div_eq_of_lt_le (show k * v.perHash ≤ m by omega) (by omega)]
      exact hend.filled
    have hup := h.carried.updateNextblock (by omega) h.filled (fun _ => hgroup ▸ hend.filled)
      (fun m hm hm' => hend.unsent m hm (by omega)) hempty htotal hlength
    have hdata : (v.stored req files).read
        ((n / v.perHash * v.perHash + n % v.perHash) * v.blocksize) v.blocksize =
        List.replicate (t.updateNextblock req files n 1).blocksize 0 := by
      have hread := @read_empty v req files n 1 hempty
      rw [Nat.one_mul] at hread
      rw [Nat.div_add_mod', hread, hup.blocksize]
    have hhash := hup.hash hdata
    have hcount : n % v.perHash + 1 = n + 1 - k * v.perHash := by omega
    have hprev : (((n + 1 : Nat) : Int) - 1).toNat = n := by omega
    rw [hgroup, hcount] at hhash
    rw [if_pos (by omega), hprev]
    exact hhash
  · have hopen := hmore.resolve_left (Nat.lt_irrefl _)
    have hdiv := Nat.div_add_mod' p v.perHash
    have hbound : p ≠ (k + 1) * v.perHash := by
      intro heq
      rw [heq, Nat.mul_mod_left] at hopen
      exact hopen rfl
    have hgroup : p / v.perHash = k := Nat.div_eq_of_lt_le (Nat.le_of_lt hlt) (by omega)
    have hhere := h.carried
    have hcount : p % v.perHash = p - k * v.perHash := by
      rw [hgroup] at hdiv
      omega
    rw [hgroup, hcount] at hhere
    rw [if_neg (Int.lt_irrefl _)]
    exact hhere

theorem Sync.closeBlocks (h : v.Sync req files p t) (hend : v.GroupEnd k p e)
    (hlength : ∀ j, (files.skippedHash req j).length = shaSize) :
    (t.closeBlocks req files e).verifyChecksum = v.entry req files k ∧
      (e % v.perHash = 0 → v.Sync req files e (t.closeBlocks req files e)) ∧
      (e % v.perHash ≠ 0 → v.Closed req files (t.closeBlocks req files e)) := by
  have hlt := hend.lt
  have hle := hend.le
  unfold ImageTransfer.closeBlocks
  rw [h.carried.nextblock, h.carried.blocks, h.carried.vhdBlocksize]
  by_cases hmore : p < e ∨ e % v.perHash ≠ 0
  · have hcond : ((p : Int) < e ∨ (e : Int) = (v.drivesize / v.blocksize : Nat) ∧
        p % v.perHash ≠ 0) ∧ 0 < (e : Int) := by
      refine ⟨?_, by omega⟩
      rcases Nat.lt_or_eq_of_le hle with hbefore | rfl
      · exact .inl (by omega)
      · have hopen := hmore.resolve_left (Nat.lt_irrefl _)
        rw [hend.whole hopen, ← hend.last hopen]
        exact .inr ⟨rfl, hopen⟩
    have hfill := h.fillTo hend hmore hlength
    rw [if_pos hcond]
    generalize t.fillTo req files e = u at hfill ⊢
    have hall : (u.nextblock % u.vhdBlocksize = 0 ∨ (e : Int) = u.blocks) ∧ u.nextblock ≠ 0 := by
      rw [hfill.nextblock, hfill.vhdBlocksize, hfill.blocks]
      refine ⟨?_, by omega⟩
      by_cases hclosed : e % v.perHash = 0
      · exact .inl hclosed
      · rw [hend.whole hclosed, ← hend.last hclosed]
        exact .inr rfl
    have hcount : min v.perHash (v.totalblocks - k * v.perHash) = e - k * v.perHash := by
      have heq := hend.eq
      rw [Nat.succ_mul] at heq
      omega
    have hentry : v.entry req files k = req.sha256 u.shactx := by
      rw [entry, if_pos hend.filled, hcount, hfill.shactx]
    have hclose := hfill.close hentry (req.sha256_length _)
    unfold ImageTransfer.hashTo
    rw [if_pos hall]
    refine ⟨hentry.symm, fun hclosed => ?_, fun hopen => ?_⟩
    · obtain ⟨-, hdiv⟩ := hend.of_closed hclosed
      refine ⟨?_, hend.le_total, fun hopen => absurd hclosed hopen, fun _ _ => ?_⟩
      · rw [hdiv, hclosed]
        exact { hclose with }
      · rw [hdiv, Nat.add_sub_cancel]
        exact hentry.symm
    · unfold Closed
      rw [hend.of_open hopen, ← hend.last hopen]
      exact { hclose with }
  · have hclosed : e % v.perHash = 0 := by omega
    have hpe : p = e := by omega
    subst hpe
    rw [if_neg]
    · refine ⟨?_, fun _ => h, fun hopen => absurd hclosed hopen⟩
      rw [h.verify hclosed (by omega), (hend.of_closed hclosed).2, Nat.add_sub_cancel]
    · rintro ⟨hlt | ⟨-, hopen⟩, -⟩
      · exact absurd hlt (Int.lt_irrefl _)
      · exact hopen hclosed

theorem Sync.takeChecksum (h : v.Sync req files p t) (hend : v.GroupEnd k p e)
    (hlength : ∀ j, (files.skippedHash req j).length = shaSize) :
    ∃ t', t.takeChecksum req files e (v.entry req files k) = .goOn t' ∧
      (e % v.perHash = 0 → v.Sync req files e t') ∧
      (e % v.perHash ≠ 0 → v.Closed req files t') := by
  obtain ⟨hverify, hclosed, hopen⟩ := h.closeBlocks hend hlength
  unfold ImageTransfer.takeChecksum
  dsimp only
  rw [hverify, if_neg (not_not.mpr rfl)]
  refine ⟨_, rfl, fun h0 => ?_, fun h0 => ?_⟩
  · have hsync := hclosed h0
    exact { hsync with
      carried := { hsync.carried with }
      verify := fun hend hne => hverify.symm.trans (hsync.verify hend hne) }
  · exact { hopen h0 with }

theorem le_totalblocks_mul : v.drivesize ≤ v.totalblocks * v.blocksize :=
  Nat.not_lt.mp fun h => Nat.lt_irrefl _ (v.lt_totalblocks.mpr h)

theorem Carried.image_written {k m : Nat} (h : v.Carried req files p k m v.totalblocks t) :
    ∀ i < v.drivesize, t.image (req.mbrOffset + i) = v.stored req files i := by
  intro i hi
  rw [h.image i hi, if_pos (Nat.lt_of_lt_of_le hi le_totalblocks_mul)]

variable {checked : Nat → Bool}

theorem Carried.finish (h : v.Carried req files p v.groups 0 v.totalblocks t)
    (hlast : v.totalblocks % v.perHash ≠ 0 → v.lastChecked checked = true) :
    v.Written req files checked (t.finalHash req) where
  numHashErrors := h.numHashErrors
  image := h.image_written
  hashfile := by
    have hempty := h.shactx
    rw [Nat.zero_mul, ByteStore.read_zero] at hempty
    rw [SentVolume.hashfile, if_neg, ← h.hashfile, ← h.hashpos, ← hempty]
    · rfl
    · rintro ⟨hopen, hfalse⟩
      rw [hlast hopen] at hfalse
      cases hfalse

theorem Closed.finish (h : v.Closed req files t) (hlast : v.lastChecked checked = true) :
    ∃ t', t.finish req files = .goOn t' ∧ v.Written req files checked t' := by
  have hopen : v.totalblocks % v.perHash ≠ 0 := by
    rw [lastChecked, Bool.and_eq_true, Bool.and_eq_true, decide_eq_true_iff] at hlast
    exact hlast.1.1
  have hgroups : v.groups = v.totalblocks / v.perHash + 1 := by
    rw [groups, if_pos hopen]
  have hup : v.Carried req files (v.totalblocks + 1) v.groups 0 v.totalblocks
      (t.updateNextblock req files v.totalblocks 0) := by
    unfold ImageTransfer.updateNextblock
    rw [Carried.nextblock h, if_pos rfl, if_neg (Nat.lt_irrefl 0), hgroups]
    exact Carried.next h _
  unfold ImageTransfer.finish
  rw [Carried.nextblock h, Carried.totalblocks h, if_pos le_rfl]
  dsimp only
  rw [hup.nextblock, if_pos (Nat.succ_ne_zero _)]
  have herror : ((t.updateNextblock req files v.totalblocks 0).finalHash req).hasError = false :=
    hup.hasError
  rw [herror, if_neg Bool.false_ne_true]
  exact ⟨_, rfl, hup.finish fun _ => hlast⟩

theorem Sync.finish (h : v.Sync req files p t) (hunsent : v.Unsent p v.totalblocks)
    (hlast : v.lastChecked checked = false)
    (hlength : ∀ j, (files.skippedHash req j).length = shaSize) :
    ∃ t', t.finish req files = .goOn t' ∧ v.Written req files checked t' := by
  have hmod := Nat.mod_lt v.totalblocks v.perHash_pos
  have hdiv := Nat.div_add_mod' v.totalblocks v.perHash
  have hfilled : v.filled (v.totalblocks / v.perHash) = true := by
    rw [SentVolume.filled, Nat.succ_mul, decide_eq_true (by omega), Bool.or_true]
  have hup : v.Carried req files (v.totalblocks + 1) (v.totalblocks / v.perHash)
      (v.totalblocks % v.perHash) v.totalblocks (t.updateNextblock req files v.totalblocks 0) :=
    @Carried.updateNextblock v req files p v.totalblocks t 0 h.carried h.le h.filled
      (fun _ => hfilled) hunsent (fun m hm hm' => absurd hm' (Nat.not_lt.mpr hm)) le_rfl hlength
  unfold ImageTransfer.finish
  rw [h.carried.nextblock, h.carried.totalblocks, if_pos h.le]
  dsimp only
  rw [hup.nextblock, if_pos (Nat.succ_ne_zero _)]
  have herror : ((t.updateNextblock req files v.totalblocks 0).finalHash req).hasError = false :=
    hup.hasError
  rw [herror, if_neg Bool.false_ne_true]
  refine ⟨_, rfl, ?_⟩
  by_cases hclosed : v.totalblocks % v.perHash = 0
  · rw [hclosed] at hup
    have hgroups : v.groups = v.totalblocks / v.perHash := by
      rw [groups, if_neg (not_not.mpr hclosed), Nat.add_zero]
    rw [← hgroups] at hup
    exact hup.finish fun hopen => absurd hclosed hopen
  · obtain ⟨-, hfinal⟩ := hup.finalLast
    refine ⟨hfinal.numHashErrors, hfinal.image_written, ?_⟩
    rw [SentVolume.hashfile, if_pos ⟨hclosed, hlast⟩, groups, if_pos hclosed]
    exact hfinal.hashfile

end Steps

end SentVolume

end UrBackup
