import UrBackup.FSImage.CowFile

/-! The range that is left to be trimmed: where its two loops stop, and when it still has every used
block. -/
namespace UrBackup

namespace CowFile

variable {f : CowFile} {start stop offset p : Nat}

theorem roundUp_eq (stop : Nat) : roundUp stop % blocksize = 0 ∧ stop ≤ roundUp stop ∧
    roundUp stop < stop + blocksize := by
  unfold roundUp blocksize
  split
  · omega
  · omega

theorem isBitmapSet_congr (h : offset / blocksize = p / blocksize) :
    f.isBitmapSet offset = f.isBitmapSet p := by
  unfold isBitmapSet
  rw [h]

/-- Where the first loop stops. -/
structure StartFound (f : CowFile) (start stop : Nat) (res : Bool × Nat × List Nat) : Prop where
  aligned : res.2.1 % blocksize = 0
  le : start ≤ res.2.1
  none : ∀ p, start ≤ p → p < res.2.1 → p < stop → f.isBitmapSet p = false
  found : res.1 = true → res.2.1 < stop ∧ f.isBitmapSet res.2.1 = true
  beyond : res.1 = false → stop ≤ res.2.1
  reads : ∀ r ∈ res.2.2, r % blocksize = 0 ∧ r < stop

theorem narrowStart_spec {fuel : Nat} (hstart : start % blocksize = 0)
    (hfuel : stop ≤ start + fuel * blocksize) :
    StartFound f start stop (f.narrowStart stop fuel start) := by
  induction fuel generalizing start with
  | zero =>
    rw [Nat.zero_mul] at hfuel
    exact ⟨hstart, Nat.le_refl _, fun p hp hp' _ => absurd hp' (Nat.not_lt.mpr hp), nofun,
      fun _ => hfuel, nofun⟩
  | succ fuel ih =>
    rw [narrowStart]
    by_cases hlt : start < stop
    · rw [if_pos hlt]
      by_cases hset : f.isBitmapSet start = true
      · rw [if_pos hset]
        refine ⟨hstart, Nat.le_refl _, fun p hp hp' _ => absurd hp' (Nat.not_lt.mpr hp),
          fun _ => ⟨hlt, hset⟩, nofun, ?_⟩
        intro r hr
        obtain rfl := List.mem_singleton.mp hr
        exact ⟨hstart, hlt⟩
      · rw [if_neg hset]
        have hnext := @ih (start + blocksize) (by simp [hstart]) (by
          rw [Nat.succ_mul] at hfuel
          omega)
        refine ⟨hnext.aligned, (Nat.le_add_right _ _).trans hnext.le, ?_, hnext.found, hnext.beyond, ?_⟩
        · intro p hp hp' hstop'
          by_cases hblock : p < start + blocksize
          · rw [← Bool.not_eq_true, isBitmapSet_congr (p := start)]
            · exact hset
            · unfold blocksize at hstart hblock ⊢
              omega
          · exact hnext.none p (Nat.not_lt.mp hblock) hp' hstop'
        · intro r hr
          cases List.mem_cons.mp hr with
          | inl hr => exact hr ▸ ⟨hstart, hlt⟩
          | inr hr => exact hnext.reads r hr
    · rw [if_neg hlt]
      exact ⟨hstart, Nat.le_refl _, fun p hp hp' _ => absurd hp' (Nat.not_lt.mpr hp), nofun,
        fun _ => Nat.not_lt.mp hlt, nofun⟩

/-- Where the second loop stops, if it starts behind a block that is set. -/
structure EndFound (f : CowFile) (start stop : Nat) (res : Nat × List Nat) : Prop where
  aligned : res.1 % blocksize = 0
  le : start ≤ res.1 ∧ res.1 ≤ stop
  set : f.isBitmapSet res.1 = true
  none : ∀ p, res.1 + blocksize ≤ p → p < stop + blocksize → f.isBitmapSet p = false
  reads : ∀ r ∈ res.2, r % blocksize = 0 ∧ r ≤ stop

theorem EndFound.here {reads : List Nat} (hstop : stop % blocksize = 0) (hle : start ≤ stop)
    (hset : f.isBitmapSet stop = true) (hreads : ∀ r ∈ reads, r % blocksize = 0 ∧ r ≤ stop) :
    EndFound f start stop (stop, reads) :=
  ⟨hstop, ⟨hle, Nat.le_refl _⟩, hset, fun _ hp hp' => absurd hp' (Nat.not_lt.mpr hp), hreads⟩

theorem narrowEnd_spec {fuel : Nat} (hstart : start % blocksize = 0)
    (hset : f.isBitmapSet start = true) (hstop : stop % blocksize = 0) (hle : start ≤ stop)
    (hfuel : stop ≤ start + fuel * blocksize) :
    EndFound f start stop (f.narrowEnd start fuel stop) := by
  induction fuel generalizing stop with
  | zero =>
    obtain rfl : start = stop := by omega
    exact .here hstop hle hset nofun
  | succ fuel ih =>
    rw [narrowEnd]
    by_cases hlt : start < stop
    · rw [if_pos hlt]
      have hread : ∀ r ∈ [stop], r % blocksize = 0 ∧ r ≤ stop := by
        intro r hr
        obtain rfl := List.mem_singleton.mp hr
        exact ⟨hstop, Nat.le_refl _⟩
      by_cases hlast : f.isBitmapSet stop = true
      · rw [if_pos hlast]
        exact .here hstop hle hlast hread
      · rw [if_neg hlast]
        have hblock : start + blocksize ≤ stop ∧ (stop - blocksize) % blocksize = 0 := by
          unfold blocksize at hstart hstop ⊢
          omega
        have hnext := @ih (stop - blocksize) hblock.2 (by omega) (by
          rw [Nat.succ_mul] at hfuel
          omega)
        refine ⟨hnext.aligned, ⟨hnext.le.1, hnext.le.2.trans (Nat.sub_le _ _)⟩, hnext.set, ?_, ?_⟩
        · intro p hp hp'
          by_cases hin : p < stop
          · exact hnext.none p hp (by omega)
          · rw [← Bool.not_eq_true, isBitmapSet_congr (p := stop)]
            · exact hlast
            · unfold blocksize at hstop hp' ⊢
              omega
        · intro r hr
          cases List.mem_cons.mp hr with
          | inl hr => exact hread r (List.mem_singleton.mpr hr)
          | inr hr =>
            obtain ⟨hr, hle'⟩ := hnext.reads r hr
            exact ⟨hr, by omega⟩
    · rw [if_neg hlt]
      obtain rfl : start = stop := by omega
      exact .here hstop hle hset nofun

theorem mem_reads_narrowEnd {fuel : Nat} (hfuel : 0 < fuel) (hlt : start < stop) :
    stop ∈ (f.narrowEnd start fuel stop).2 := by
  cases fuel with
  | zero => omega
  | succ fuel =>
    rw [narrowEnd, if_pos hlt]
    split
    · exact List.mem_singleton_self _
    · exact List.mem_cons_self

/-- What the narrowing of a range promises. -/
structure KeepsUsed (f : CowFile) (offsetStart offsetEnd : Nat) (r : Narrowed) : Prop where
  ret : r.ret = true ↔ ∃ p, offsetStart ≤ p ∧ p < offsetEnd ∧ f.isBitmapSet p = true
  reads : ∀ offset ∈ r.reads, offset / blocksize < nBlocks f.filesize
  inside : r.ret = true → offsetStart ≤ r.offsetStart ∧ r.offsetEnd ≤ offsetEnd
  used : r.ret = true → ∀ p, offsetStart ≤ p → p < offsetEnd → f.isBitmapSet p = true →
    r.offsetStart ≤ p ∧ p < r.offsetEnd

/-- No block of the range is used; or there is a block behind the range. If that is used, its end is
rounded up, or needs no rounding. If not, the last used block of the range does not start at a
multiple of the trim block size. -/
def NarrowsWell (f : CowFile) (offsetStart offsetEnd trimBlocksize : Nat) : Prop :=
  (∀ p, offsetStart ≤ p → p < offsetEnd → f.isBitmapSet p = false) ∨
    roundUp offsetEnd / blocksize < nBlocks f.filesize ∧
      if f.isBitmapSet (roundUp offsetEnd) then
        offsetEnd % blocksize = 0 ∨ roundUp offsetEnd % trimBlocksize ≠ 0
      else ∀ p, offsetStart ≤ p → p < offsetEnd → f.isBitmapSet p = true →
        (∀ q, p < q → q < offsetEnd → f.isBitmapSet q = true → q / blocksize = p / blocksize) →
          p / blocksize * blocksize % trimBlocksize ≠ 0

theorem lt_nBlocks {filesize : Nat} : offset / blocksize < nBlocks filesize ↔
    offset / blocksize * blocksize < filesize := by
  unfold nBlocks blocksize
  split
  · omega
  · omega

def trimEnd (offsetEnd trimBlocksize stop : Nat) : Nat :=
  if stop % trimBlocksize ≠ 0 then min offsetEnd ((stop / trimBlocksize + 1) * trimBlocksize) else stop

theorem hasBitmapRangeNarrow_eq (f : CowFile) (offsetStart offsetEnd trimBlocksize : Nat) :
    ∃ ret start reads, StartFound f (offsetStart / blocksize * blocksize) (roundUp offsetEnd)
        (ret, start, reads) ∧
      f.hasBitmapRangeNarrow offsetStart offsetEnd trimBlocksize =
        let res := if ret then f.narrowEnd start (roundUp offsetEnd) (roundUp offsetEnd)
          else (roundUp offsetEnd, [])
        ⟨ret, max offsetStart (start / trimBlocksize * trimBlocksize),
          trimEnd offsetEnd trimBlocksize res.1, reads ++ res.2⟩ := by
  have hstart := @narrowStart_spec f (offsetStart / blocksize * blocksize) (roundUp offsetEnd)
    (roundUp offsetEnd) (Nat.mul_mod_left _ _) (by
      unfold blocksize
      omega)
  unfold hasBitmapRangeNarrow
  generalize f.narrowStart (roundUp offsetEnd) (roundUp offsetEnd)
    (offsetStart / blocksize * blocksize) = res at hstart ⊢
  obtain ⟨ret, start, reads⟩ := res
  refine ⟨ret, start, reads, hstart, ?_⟩
  dsimp only
  generalize (if ret = true then f.narrowEnd start (roundUp offsetEnd) (roundUp offsetEnd)
    else (roundUp offsetEnd, [])) = last
  congr 1
  · rw [max_def]
    split <;> split <;> omega
  · unfold trimEnd
    rw [min_def]
    split
    · split <;> split <;> omega
    · rfl

theorem le_trimEnd {offsetEnd trimBlocksize : Nat} (hstop : stop % trimBlocksize ≠ 0) :
    trimEnd offsetEnd trimBlocksize stop ≤ offsetEnd := by
  rw [trimEnd, if_pos hstop]
  exact Nat.min_le_left _ _

theorem lt_trimEnd {offsetEnd trimBlocksize : Nat} (htrim : 0 < trimBlocksize)
    (hdvd : blocksize ∣ trimBlocksize) (hstop : stop % blocksize = 0)
    (hround : stop % trimBlocksize ≠ 0) (hlt : p < offsetEnd) (hblock : p < stop + blocksize) :
    p < trimEnd offsetEnd trimBlocksize stop := by
  rw [trimEnd, if_pos hround]
  apply Nat.lt_min.mpr ⟨hlt, Nat.lt_of_lt_of_le hblock ?_⟩
  obtain ⟨n, rfl⟩ := hdvd
  obtain ⟨m, rfl⟩ : ∃ m, stop = blocksize * m := ⟨stop / blocksize, by
    have := Nat.div_add_mod stop blocksize
    omega⟩
  have hn : 0 < n := Nat.pos_of_mul_pos_left htrim
  have hdiv : blocksize * m / (blocksize * n) = m / n :=
    Nat.mul_div_mul_left m n (by unfold blocksize; omega)
  have hless : m + 1 ≤ (m / n + 1) * n := by
    have hmod := Nat.div_add_mod m n
    have hlt := Nat.mod_lt m hn
    rw [Nat.succ_mul, Nat.mul_comm]
    omega
  rw [hdiv]
  calc blocksize * m + blocksize = blocksize * (m + 1) := by rw [Nat.mul_succ]
    _ ≤ blocksize * ((m / n + 1) * n) := Nat.mul_le_mul_left _ hless
    _ = (m / n + 1) * (blocksize * n) := by rw [Nat.mul_left_comm]

section Theorem

variable {offsetStart offsetEnd trimBlocksize : Nat}

theorem max_used {block : Nat} (hrange : offsetStart < offsetEnd) (haligned : block % blocksize = 0)
    (hge : offsetStart / blocksize * blocksize ≤ block) (hlt : block < roundUp offsetEnd)
    (hset : f.isBitmapSet block = true) :
    offsetStart ≤ max offsetStart block ∧ max offsetStart block < offsetEnd ∧
      max offsetStart block / blocksize = block / blocksize ∧
        f.isBitmapSet (max offsetStart block) = true := by
  obtain ⟨hround, -, hless⟩ := roundUp_eq offsetEnd
  have hblock : max offsetStart block / blocksize = block / blocksize := by
    rw [max_def]
    unfold blocksize at haligned hge ⊢
    split
    · rfl
    · omega
  refine ⟨Nat.le_max_left _ _, Nat.max_lt.mpr ⟨hrange, ?_⟩, hblock, ?_⟩
  · unfold blocksize at haligned hround hless
    omega
  · rw [isBitmapSet_congr hblock]
    exact hset

theorem EndFound.eq_of_set {res : Nat × List Nat} (h : EndFound f start stop res)
    (hstop : stop % blocksize = 0) (hset : f.isBitmapSet stop = true) : res.1 = stop := by
  by_contra hne
  have haligned := h.aligned
  have hle := h.le.2
  have hnone := h.none stop (by unfold blocksize at *; omega) (by unfold blocksize; omega)
  rw [hset] at hnone
  cases hnone

theorem keeps_iff_of_found {reads : List Nat} (hrange : offsetStart < offsetEnd)
    (htrim : 0 < trimBlocksize) (hdvd : blocksize ∣ trimBlocksize)
    (hstart : StartFound f (offsetStart / blocksize * blocksize) (roundUp offsetEnd)
      (true, start, reads))
    {res : Nat × List Nat} (hend : EndFound f start (roundUp offsetEnd) res) :
    ((max offsetStart (start / trimBlocksize * trimBlocksize) ≥ offsetStart ∧
        trimEnd offsetEnd trimBlocksize res.1 ≤ offsetEnd) ∧
      ∀ p, offsetStart ≤ p → p < offsetEnd → f.isBitmapSet p = true →
        max offsetStart (start / trimBlocksize * trimBlocksize) ≤ p ∧
          p < trimEnd offsetEnd trimBlocksize res.1) ↔
      if f.isBitmapSet (roundUp offsetEnd) then
        offsetEnd % blocksize = 0 ∨ roundUp offsetEnd % trimBlocksize ≠ 0
      else ∀ p, offsetStart ≤ p → p < offsetEnd → f.isBitmapSet p = true →
        (∀ q, p < q → q < offsetEnd → f.isBitmapSet q = true → q / blocksize = p / blocksize) →
          p / blocksize * blocksize % trimBlocksize ≠ 0 := by
  obtain ⟨haligned, hge, hlt⟩ := roundUp_eq offsetEnd
  have hfirst : ∀ p, offsetStart ≤ p → p < offsetEnd → f.isBitmapSet p = true →
      max offsetStart (start / trimBlocksize * trimBlocksize) ≤ p := by
    intro p hp hp' hset
    refine Nat.max_le.mpr ⟨hp, (Nat.div_mul_le_self _ _).trans ?_⟩
    by_contra hless
    have hnone := hstart.none p ((Nat.div_mul_le_self _ _).trans hp) (Nat.not_le.mp hless)
      (hp'.trans_le hge)
    rw [hset] at hnone
    cases hnone
  split
  · rename_i hset
    rw [hend.eq_of_set haligned hset]
    constructor
    · rintro ⟨⟨-, hle⟩, -⟩
      by_contra hnot
      rw [not_or, not_not] at hnot
      rw [trimEnd, if_neg (not_not.mpr hnot.2)] at hle
      exact hnot.1 (by rw [Nat.le_antisymm hge hle, haligned])
    · intro hor
      by_cases hround : roundUp offsetEnd % trimBlocksize = 0
      · have hsame : roundUp offsetEnd = offsetEnd := by
          have hzero := hor.resolve_right (not_not.mpr hround)
          unfold roundUp
          rw [if_neg (not_not.mpr hzero)]
        rw [trimEnd, if_neg (not_not.mpr hround), hsame]
        exact ⟨⟨Nat.le_max_left _ _, Nat.le_refl _⟩, fun p hp hp' hp'' => ⟨hfirst p hp hp' hp'', hp'⟩⟩
      · refine ⟨⟨Nat.le_max_left _ _, le_trimEnd hround⟩, fun p hp hp' hp'' =>
          ⟨hfirst p hp hp' hp'', ?_⟩⟩
        exact lt_trimEnd htrim hdvd haligned hround hp' (by omega)
  · rename_i hclear
    have hless : res.1 < roundUp offsetEnd := by
      refine Nat.lt_of_le_of_ne hend.le.2 fun heq => hclear ?_
      rw [← heq]
      exact hend.set
    have hbefore : ∀ p, p < offsetEnd → f.isBitmapSet p = true → p < res.1 + blocksize := by
      intro p hp hset
      by_contra hafter
      have hnone := hend.none p (Nat.not_lt.mp hafter) (by omega)
      rw [hset] at hnone
      cases hnone
    obtain ⟨hp, hp', hsame, hused⟩ := max_used hrange hend.aligned (hstart.le.trans hend.le.1) hless
      hend.set
    have halignedEnd := hend.aligned
    constructor
    · rintro ⟨-, hall⟩ p hpStart hpEnd hset hlast hzero
      have hblock : p / blocksize * blocksize = res.1 := by
        have hp'' := hbefore p hpEnd hset
        by_cases hpos : max offsetStart res.1 ≤ p
        · have := Nat.le_trans (Nat.le_max_right _ _) hpos
          unfold blocksize at *
          omega
        · have hq := hlast _ (Nat.not_le.mp hpos) hp' hused
          unfold blocksize at *
          omega
      rw [hblock] at hzero
      have hin := (hall _ hp hp' hused).2
      rw [trimEnd, if_neg (not_not.mpr hzero)] at hin
      exact absurd (Nat.le_max_right offsetStart res.1) (Nat.not_le.mpr hin)
    · intro hall
      have hround : res.1 % trimBlocksize ≠ 0 := by
        have hthis := hall _ hp hp' hused (by
          intro q hq hq' hset
          have hq'' := hbefore q hq' hset
          have := (Nat.le_max_right offsetStart res.1).trans hq.le
          rw [hsame]
          unfold blocksize at *
          omega)
        rw [hsame, Nat.div_mul_cancel (Nat.dvd_of_mod_eq_zero halignedEnd)] at hthis
        exact hthis
      refine ⟨⟨Nat.le_max_left _ _, le_trimEnd hround⟩, fun p hp hp' hp'' =>
        ⟨hfirst p hp hp' hp'', ?_⟩⟩
      exact lt_trimEnd htrim hdvd halignedEnd hround hp' (hbefore p hp' hp'')

/-- The range that is left has every used block exactly under the condition. -/
theorem hasBitmapRangeNarrow_keeps_iff (f : CowFile) (hrange : offsetStart < offsetEnd)
    (hsize : offsetEnd ≤ f.filesize) (htrim : 0 < trimBlocksize) (hdvd : blocksize ∣ trimBlocksize) :
    KeepsUsed f offsetStart offsetEnd
        (f.hasBitmapRangeNarrow offsetStart offsetEnd trimBlocksize) ↔
      NarrowsWell f offsetStart offsetEnd trimBlocksize := by
  obtain ⟨ret, start, reads, hstart, heq⟩ :=
    hasBitmapRangeNarrow_eq f offsetStart offsetEnd trimBlocksize
  obtain ⟨haligned, hge, hlt⟩ := roundUp_eq offsetEnd
  rw [heq]
  have hreads : ∀ offset ∈ reads, offset / blocksize < nBlocks f.filesize := by
    intro offset hoffset
    obtain ⟨hblock, hless⟩ := hstart.reads offset hoffset
    rw [lt_nBlocks]
    unfold blocksize at *
    omega
  have hfloor : offsetStart / blocksize * blocksize ≤ offsetStart := Nat.div_mul_le_self _ _
  cases ret with
  | false =>
    have hnone : ∀ p, offsetStart ≤ p → p < offsetEnd → f.isBitmapSet p = false :=
      fun p hp hp' => hstart.none p (hfloor.trans hp)
        ((hp'.trans_le hge).trans_le (hstart.beyond rfl)) (hp'.trans_le hge)
    refine ⟨fun _ => .inl hnone, fun _ => ⟨⟨nofun, ?_⟩, ?_, nofun, nofun⟩⟩
    · rintro ⟨p, hp, hp', hset⟩
      rw [hnone p hp hp'] at hset
      cases hset
    · simpa using hreads
  | true =>
    obtain ⟨hless, hset⟩ := hstart.found rfl
    dsimp only at hless hset
    have hend := @narrowEnd_spec f start (roundUp offsetEnd) (roundUp offsetEnd) hstart.aligned hset
      haligned hless.le (by unfold blocksize; omega)
    have hfirst := @mem_reads_narrowEnd f start (roundUp offsetEnd) (roundUp offsetEnd)
      (by omega) hless
    obtain ⟨hp, hp', -, hused⟩ := max_used hrange hstart.aligned hstart.le hless hset
    have hiff := keeps_iff_of_found hrange htrim hdvd hstart hend
    have hsome : ¬ ∀ p, offsetStart ≤ p → p < offsetEnd → f.isBitmapSet p = false := by
      intro hnone
      rw [hnone _ hp hp'] at hused
      cases hused
    rw [NarrowsWell, or_iff_right hsome, ← hiff]
    simp only [if_true]
    constructor
    · rintro ⟨-, hblocks, hinside, hkeeps⟩
      exact ⟨hblocks _ (List.mem_append_right _ hfirst), hinside rfl, hkeeps rfl⟩
    · rintro ⟨hblock, hinside, hkeeps⟩
      refine ⟨⟨fun _ => ⟨_, hp, hp', hused⟩, fun _ => rfl⟩, ?_, fun _ => hinside, fun _ => hkeeps⟩
      intro offset hoffset
      cases List.mem_append.mp hoffset with
      | inl hin => exact hreads offset hin
      | inr hin =>
        have hle := (hend.reads offset hin).2
        exact (Nat.div_le_div_right hle).trans_lt hblock

end Theorem

section Example

def twoBlocks (used : UInt8) : CowFile := ⟨8192, 0, [used]⟩

/-- The block behind the range is used as well. -/
theorem hasBitmapRangeNarrow_keeps_bothUsed :
    KeepsUsed (twoBlocks 0xC0) 0 4096 ((twoBlocks 0xC0).hasBitmapRangeNarrow 0 4096 4096) := by
  apply (@hasBitmapRangeNarrow_keeps_iff 0 4096 4096 (twoBlocks 0xC0) (by decide) (by decide)
    (by decide) (by decide)).mpr
  refine .inr ⟨by decide, ?_⟩
  rw [if_pos (by decide)]
  exact .inl (by decide)

/-- Nothing is left of a range with a used block. -/
theorem hasBitmapRangeNarrow_loses_the_last_block :
    ¬ KeepsUsed (twoBlocks 0x80) 0 4096 ((twoBlocks 0x80).hasBitmapRangeNarrow 0 4096 4096) := by
  intro h
  have hres : (twoBlocks 0x80).hasBitmapRangeNarrow 0 4096 4096 = ⟨true, 0, 0, [0, 4096]⟩ := by
    decide +kernel
  have hused := (h.used (by rw [hres]) 0 (Nat.le_refl _) (by decide) (by decide)).2
  rw [hres] at hused
  exact absurd hused (Nat.lt_irrefl _)

end Example

end CowFile

end UrBackup
