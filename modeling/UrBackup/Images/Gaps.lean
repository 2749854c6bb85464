import UrBackup.Images.SentVolume
import Mathlib.Tactic.Ring

/-! The blocks that a client leaves out are filled as the image should be, and hashed. -/
namespace UrBackup

namespace SentVolume

section Positions

variable {v : SentVolume} {p : Nat}

theorem succ_open (h : (p + 1) % v.perHash ≠ 0) :
    (p + 1) / v.perHash = p / v.perHash ∧ (p + 1) % v.perHash = p % v.perHash + 1 := by
  have hdiv : (p + 1) / v.perHash = p / v.perHash :=
    Nat.succ_div_of_not_dvd (fun hdvd => h (Nat.mod_eq_zero_of_dvd hdvd))
  refine ⟨hdiv, ?_⟩
  have hp := Nat.div_add_mod' p v.perHash
  have hnext := Nat.div_add_mod' (p + 1) v.perHash
  rw [hdiv] at hnext
  omega

theorem succ_close (h : (p + 1) % v.perHash = 0) :
    (p + 1) / v.perHash = p / v.perHash + 1 ∧ p % v.perHash + 1 = v.perHash := by
  have hdiv : (p + 1) / v.perHash = p / v.perHash + 1 :=
    Nat.succ_div_of_dvd (Nat.dvd_of_mod_eq_zero h)
  refine ⟨hdiv, ?_⟩
  have hp := Nat.div_add_mod' p v.perHash
  have hnext := Nat.div_add_mod' (p + 1) v.perHash
  rw [hdiv, h, Nat.succ_mul] at hnext
  omega

end Positions

section Blocks

variable {v : SentVolume} {req : ImageRequest} {files : ImageFiles} {p q : Nat}
  {t : ImageTransfer}

theorem entry_filled {k : Nat} (hfilled : v.filled k = true)
    (hwhole : (k + 1) * v.perHash ≤ v.totalblocks) : v.entry req files k =
      req.sha256 ((v.stored req files).read (k * hashedSize) (v.perHash * v.blocksize)) := by
  rw [Nat.succ_mul] at hwhole
  rw [entry, if_pos hfilled, Nat.min_eq_left (by omega)]

theorem Carried.final (h : v.Carried req files (p + 1) (p / v.perHash) (p % v.perHash + 1) q t)
    (hend : (p + 1) % v.perHash = 0) (hlt : p < v.totalblocks)
    (hfilled : v.filled (p / v.perHash) = true) :
    req.sha256 t.shactx = v.entry req files ((p + 1) / v.perHash - 1) ∧
      v.Carried req files (p + 1) ((p + 1) / v.perHash) ((p + 1) % v.perHash) q
        (t.finalHash req) := by
  obtain ⟨hdiv, hmod⟩ := succ_close hend
  have hwhole : (p / v.perHash + 1) * v.perHash ≤ v.totalblocks := by
    rw [← hdiv, Nat.div_mul_cancel (Nat.dvd_of_mod_eq_zero hend)]
    exact hlt
  have hentry : v.entry req files (p / v.perHash) = req.sha256 t.shactx := by
    rw [entry_filled hfilled hwhole, h.shactx, hmod]
  rw [hdiv, hend, Nat.add_sub_cancel]
  exact ⟨hentry.symm, h.close hentry (req.sha256_length _)⟩

theorem Carried.zeroBlock (h : v.Carried req files p (p / v.perHash) (p % v.perHash) q t)
    (hempty : v.Empty p (p + 1)) (hlt : p < v.totalblocks) :
    v.Carried req files (p + 1) ((p + 1) / v.perHash) ((p + 1) % v.perHash) q
      (t.zeroBlock req) := by
  have hdata : (v.stored req files).read ((p / v.perHash * v.perHash + p % v.perHash) * v.blocksize)
      v.blocksize = List.replicate t.blocksize 0 := by
    have hread := @read_empty v req files p 1 hempty
    rw [Nat.one_mul] at hread
    rw [Nat.div_add_mod', hread, h.blocksize]
  have hadd := (h.hash hdata).next (p + 1)
  unfold ImageTransfer.zeroBlock
  dsimp only
  rw [h.nextblock]
  split
  · next hclose =>
      rw [h.vhdBlocksize] at hclose
      exact (hadd.final hclose.1 hlt (hempty p le_rfl (Nat.lt_succ_self p)).2).2
  · next hopen =>
      rw [h.vhdBlocksize] at hopen
      obtain ⟨hdiv, hmod⟩ := @succ_open v p (fun h0 => hopen ⟨h0, Nat.succ_ne_zero p⟩)
      rw [hdiv, hmod]
      exact hadd

theorem Carried.zeroBlocks {count : Nat}
    (h : v.Carried req files p (p / v.perHash) (p % v.perHash) q t)
    (hempty : v.Empty p (p + count)) (hle : p + count ≤ v.totalblocks) :
    v.Carried req files (p + count) ((p + count) / v.perHash) ((p + count) % v.perHash) q
      (ImageTransfer.zeroBlocks req count t) := by
  induction count generalizing p t with
  | zero => exact h
  | succ count ih =>
    have hfirst : v.Empty p (p + 1) := fun m hm hm' => hempty m hm (by omega)
    have hrest : v.Empty (p + 1) (p + 1 + count) := fun m hm hm' => hempty m (by omega) (by omega)
    have hnext := ih (h.zeroBlock hfirst (by omega)) hrest (by omega)
    rw [Nat.add_assoc, Nat.add_comm 1 count] at hnext
    exact hnext

theorem Carried.skipBlock {k : Nat} (h : v.Carried req files (k * v.perHash) k 0 (k * v.perHash) t)
    (hunfilled : v.filled k = false) (hlength : (files.skippedHash req k).length = shaSize) :
    v.Carried req files ((k + 1) * v.perHash) (k + 1) 0 ((k + 1) * v.perHash)
      (t.skipBlock req files) := by
  have hentry : v.entry req files k = files.skippedHash req k := by
    rw [entry, hunfilled, if_neg Bool.false_ne_true]
  have hkept : v.Carried req files (k * v.perHash) k 0 ((k + 1) * v.perHash) t := by
    refine h.keep (Nat.mul_le_mul_right _ (Nat.le_succ k)) ?_
    exact fun i hi hi' _ => volume_of_not_filled hunfilled hi hi'
  have hk : t.nextblock / t.vhdBlocksize = k := by
    rw [h.nextblock, h.vhdBlocksize, Nat.mul_div_cancel _ v.perHash_pos]
  have hnext : t.nextblock + t.vhdBlocksize = (k + 1) * v.perHash := by
    rw [h.nextblock, h.vhdBlocksize, Nat.succ_mul]
  unfold ImageTransfer.skipBlock
  rw [hk, hnext]
  exact (hkept.writeHash hentry hlength).next _

theorem Carried.skipBlocks {k count : Nat}
    (h : v.Carried req files (k * v.perHash) k 0 (k * v.perHash) t)
    (hunfilled : ∀ j, k ≤ j → j < k + count → v.filled j = false)
    (hlength : ∀ j, (files.skippedHash req j).length = shaSize) :
    v.Carried req files ((k + count) * v.perHash) (k + count) 0 ((k + count) * v.perHash)
      (ImageTransfer.skipBlocks req files count t) := by
  induction count generalizing k t with
  | zero => exact h
  | succ count ih =>
    have hfirst := h.skipBlock (hunfilled k le_rfl (by omega)) (hlength k)
    have hnext := ih hfirst (fun j hj hj' => hunfilled j (by omega) (by omega))
    rw [Nat.add_assoc, Nat.add_comm 1 count] at hnext
    exact hnext

end Blocks

section Gaps

variable {v : SentVolume} {req : ImageRequest} {files : ImageFiles} {p n : Nat}
  {t : ImageTransfer}

/-- No block is sent from one on to another. -/
def Unsent (v : SentVolume) (n n' : Nat) : Prop := ∀ m, n ≤ m → m < n' → v.sent m = none

theorem Unsent.untouched {k : Nat} (h : v.Unsent (k * v.perHash) ((k + 1) * v.perHash)) :
    v.touched k = false := by
  rw [← Bool.not_eq_true]
  intro htouched
  obtain ⟨m, hm, hsent⟩ := List.any_eq_true.mp htouched
  rw [List.mem_range'_1] at hm
  rw [h m hm.1 (by rw [Nat.succ_mul]; exact hm.2)] at hsent
  cases hsent

theorem Carried.fillUp (h : v.Carried req files p (p / v.perHash) (p % v.perHash) p t)
    (hopen : p % v.perHash ≠ 0) (hfilled : v.filled (p / v.perHash) = true)
    (hunsent : v.Unsent p ((p / v.perHash + 1) * v.perHash))
    (hle : (p / v.perHash + 1) * v.perHash ≤ v.totalblocks) :
    v.Carried req files ((p / v.perHash + 1) * v.perHash) (p / v.perHash + 1) 0
      ((p / v.perHash + 1) * v.perHash) (t.fillUp req) := by
  have hmod := Nat.mod_lt p v.perHash_pos
  have hdiv := Nat.div_add_mod' p v.perHash
  have hend : p + (v.perHash - p % v.perHash) = (p / v.perHash + 1) * v.perHash := by
    rw [Nat.succ_mul]
    omega
  have hempty : v.Empty p (p + (v.perHash - p % v.perHash)) := by
    intro m hm hm'
    rw [hend] at hm'
    refine ⟨hunsent m hm hm', ?_⟩
    rw [Nat.div_eq_of_lt_le (by omega) hm']
    exact hfilled
  have hzero := h.zeroBlocks hempty (by rw [hend]; exact hle)
  have htrim := hzero.trim hempty (by rw [← hend] at hle; omega)
  rw [hend, Nat.mul_div_cancel _ v.perHash_pos, Nat.mul_mod_left] at htrim
  unfold ImageTransfer.fillUp
  rw [h.nextblock, h.vhdBlocksize, if_pos hopen]
  exact htrim

theorem Carried.skipTo {k : Nat} (h : v.Carried req files (k * v.perHash) k 0 (k * v.perHash) t)
    (hk : k ≤ n / v.perHash) (hunsent : v.Unsent (k * v.perHash) n) (hn : n ≤ v.totalblocks)
    (hlength : ∀ j, (files.skippedHash req j).length = shaSize) :
    v.Carried req files (n / v.perHash * v.perHash) (n / v.perHash) 0
      (n / v.perHash * v.perHash)
      (ImageTransfer.skipBlocks req files ((n - t.nextblock) / t.vhdBlocksize) t) := by
  have hcount : (n - t.nextblock) / t.vhdBlocksize = n / v.perHash - k := by
    rw [h.nextblock, h.vhdBlocksize, Nat.mul_comm k, Nat.sub_mul_div]
  have hsum : k + (n / v.perHash - k) = n / v.perHash := by omega
  have hskip := @skipBlocks v req files t k (n / v.perHash - k) h ?_ hlength
  · rw [hsum] at hskip
    rw [hcount]
    exact hskip
  · intro j hj hj'
    have hto : (j + 1) * v.perHash ≤ n :=
      (Nat.mul_le_mul_right _ (by omega)).trans (Nat.div_mul_le_self n v.perHash)
    have hfrom : k * v.perHash ≤ j * v.perHash := Nat.mul_le_mul_right _ hj
    have huntouched : v.touched j = false :=
      Unsent.untouched fun m hm hm' => hunsent m (by omega) (by omega)
    rw [filled, huntouched, Bool.false_or, decide_eq_false_iff_not]
    omega

theorem Carried.skipGap (h : v.Carried req files p (p / v.perHash) (p % v.perHash) p t)
    (hfilled : p % v.perHash ≠ 0 → v.filled (p / v.perHash) = true) (hunsent : v.Unsent p n)
    (hn : n ≤ v.totalblocks) (hgap : v.perHash ≤ n - p)
    (hlength : ∀ j, (files.skippedHash req j).length = shaSize) :
    v.Carried req files (n / v.perHash * v.perHash) (n / v.perHash) 0
      (n / v.perHash * v.perHash) (t.skipGap req files n) := by
  have hmod := Nat.mod_lt p v.perHash_pos
  have hdiv := Nat.div_add_mod' p v.perHash
  have hpos := v.perHash_pos
  unfold ImageTransfer.skipGap
  rw [h.nextblock, h.vhdBlocksize, if_pos hgap]
  by_cases hopen : p % v.perHash = 0
  · have hp : p = p / v.perHash * v.perHash := by omega
    have hsame : t.fillUp req = t := by
      unfold ImageTransfer.fillUp
      rw [h.nextblock, h.vhdBlocksize, if_neg (not_not.mpr hopen)]
    have hstart : v.Carried req files (p / v.perHash * v.perHash) (p / v.perHash) 0
        (p / v.perHash * v.perHash) t := by
      rw [hopen] at h
      rw [← hp]
      exact h
    rw [hsame]
    exact hstart.skipTo (Nat.div_le_div_right (by omega)) (by rw [← hp]; exact hunsent) hn hlength
  · have hend : (p / v.perHash + 1) * v.perHash ≤ n := by
      rw [Nat.succ_mul]
      omega
    have hup := h.fillUp hopen (hfilled hopen)
      (fun m hm hm' => hunsent m hm (by omega)) (hend.trans hn)
    have hskip := hup.skipTo ((Nat.le_div_iff_mul_le hpos).mpr hend)
      (fun m hm hm' => hunsent m (by rw [Nat.succ_mul] at hm; omega) hm') hn hlength
    exact hskip

theorem Carried.fillGap {add : Nat}
    (h : v.Carried req files p (p / v.perHash) (p % v.perHash) p t) (hp : p ≤ n)
    (hempty : v.Empty p (n + add)) (hn : n + add ≤ v.totalblocks) :
    v.Carried req files n (n / v.perHash) (n % v.perHash) (n + add) (t.fillGap req n add) := by
  have hto : p + (n - p) = n := by omega
  have hzero := @zeroBlocks v req files p p t (n - p) h
    (fun m hm hm' => hempty m hm (by omega)) (by omega)
  rw [hto] at hzero
  unfold ImageTransfer.fillGap
  rw [h.nextblock]
  dsimp only
  split
  · have hall : p + (n - p + add) = n + add := by omega
    have htrim := @trim v req files n _ _ p _ hzero (n - p + add) (by rw [hall]; exact hempty)
      (by omega)
    rw [hall] at htrim
    exact htrim
  · have hsame : n = p := by omega
    have hadd : add = 0 := by omega
    subst hsame hadd
    exact h

/-- A gap that does not reach over 512 KB, or what is left of one that does. -/
theorem Unsent.empty {add : Nat} (hunsent : v.Unsent p n) (hshort : n < p + v.perHash)
    (hfilled : p % v.perHash ≠ 0 → v.filled (p / v.perHash) = true)
    (hfilled' : n % v.perHash ≠ 0 → v.filled (n / v.perHash) = true)
    (hempty : v.Empty n (n + add)) : v.Empty p (n + add) := by
  intro m hm hm'
  by_cases hin : m < n
  · refine ⟨hunsent m hm hin, ?_⟩
    have hdivp := Nat.div_add_mod' p v.perHash
    have hdivn := Nat.div_add_mod' n v.perHash
    have hmodp := Nat.mod_lt p v.perHash_pos
    have hmp : p / v.perHash ≤ m / v.perHash := Nat.div_le_div_right hm
    have hmn : m / v.perHash ≤ n / v.perHash := Nat.div_le_div_right (Nat.le_of_lt hin)
    rcases Nat.lt_or_eq_of_le hmn with hbefore | hlast
    · have hstep : n / v.perHash < p / v.perHash + 2 := by
        apply Nat.div_lt_of_lt_mul
        rw [Nat.mul_comm, Nat.add_mul]
        omega
      have hfirst : m / v.perHash = p / v.perHash := by omega
      have hend := Nat.mul_le_mul_right v.perHash (show p / v.perHash + 1 ≤ n / v.perHash by omega)
      rw [Nat.succ_mul] at hend
      rw [hfirst]
      exact hfilled (by omega)
    · have hstart := Nat.div_mul_le_self m v.perHash
      rw [hlast] at hstart ⊢
      exact hfilled' (by omega)
  · exact hempty m (Nat.not_lt.mp hin) hm'

theorem Carried.updateNextblock {add : Nat}
    (h : v.Carried req files p (p / v.perHash) (p % v.perHash) p t) (hp : p ≤ n)
    (hfilled : p % v.perHash ≠ 0 → v.filled (p / v.perHash) = true)
    (hfilled' : n % v.perHash ≠ 0 → v.filled (n / v.perHash) = true)
    (hunsent : v.Unsent p n) (hempty : v.Empty n (n + add)) (hn : n + add ≤ v.totalblocks)
    (hlength : ∀ j, (files.skippedHash req j).length = shaSize) :
    v.Carried req files (n + 1) (n / v.perHash) (n % v.perHash) (n + add)
      (t.updateNextblock req files n add) := by
  unfold ImageTransfer.updateNextblock
  rw [h.nextblock]
  rcases Nat.lt_or_eq_of_le hp with hlt | rfl
  · rw [if_neg (Nat.ne_of_lt hlt), if_neg (by omega)]
    have hgapless : v.Carried req files n (n / v.perHash) (n % v.perHash) (n + add)
        ((t.skipGap req files n).fillGap req n add) := by
      by_cases hgap : v.perHash ≤ n - p
      · have hskip := h.skipGap hfilled hunsent (by omega) hgap hlength
        have hle := Nat.div_mul_le_self n v.perHash
        have hdiv := Nat.div_add_mod' n v.perHash
        have hmod := Nat.mod_lt n v.perHash_pos
        have hrest : v.Empty (n / v.perHash * v.perHash) (n + add) := by
          apply Unsent.empty _ (by omega) _ hfilled' hempty
          · exact fun m hm hm' => hunsent m (by omega) hm'
          · intro hopen
            exact absurd (Nat.mul_mod_left _ _) hopen
        refine @fillGap v req files (n / v.perHash * v.perHash) n _ add ?_ hle hrest hn
        rw [Nat.mul_div_cancel _ v.perHash_pos, Nat.mul_mod_left]
        exact hskip
      · have hsame : t.skipGap req files n = t := by
          unfold ImageTransfer.skipGap
          rw [h.nextblock, h.vhdBlocksize, if_neg hgap]
        rw [hsame]
        exact h.fillGap hp (hunsent.empty (by omega) hfilled hfilled' hempty) hn
    exact hgapless.next (n + 1)
  · rw [if_pos rfl]
    apply Carried.next
    split
    · exact h.trim hempty (by omega)
    · have hadd : add = 0 := by omega
      subst hadd
      exact h

end Gaps

end SentVolume

end UrBackup
