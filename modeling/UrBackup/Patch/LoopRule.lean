import UrBackup.Patch.PatchFile

/-! The rule for the loop of `ApplyPatch`. It takes care of the patch file, of the end of the
loop and of the last record; what is left to show is that data reaches its consumer and what
happens between two records. -/
namespace UrBackup.ChunkPatcher

variable {σ : Type} {cfg : PatcherConfig σ} {size : Nat} {content : List UInt8}

/-- The record data that is part of the new file is what the new file has there. -/
def RecordsIn (content : List UInt8) (records : List (Nat × List UInt8)) : Prop :=
  ∀ r ∈ records, r.2.take (content.length - r.1) <+: content.drop r.1

/-- A relation between a place of the new file and the members after all data in front of it,
kept by the delivery of the data that comes next. -/
structure Consumes (cfg : PatcherConfig σ) (content : List UInt8)
    (R : Nat → ChunkPatcher σ → Prop) (Post : ChunkPatcher σ → Prop) : Prop where
  deliver : ∀ pos chunk changed m, R pos m → chunk ≠ [] → chunk.length ≤ bufferSize →
    chunk <+: content.drop pos →
    ∃ m', deliver cfg pos chunk changed m = .ok m' ∧ R (pos + chunk.length) m'
  align : ∀ pos m a b c, R pos m →
    R pos { m with unchangedAlignStart := a, unchangedAlignEnd := b, unchangedAlignEndNext := c }
  finish : ∀ p : Progress σ, p.filePos = content.length → R p.filePos p.members →
    ∃ m', finish cfg p = .ok (.inl (true, m')) ∧ Post m'

/-- The records that are to come fit the place and the new file. -/
structure Fit (size : Nat) (content : List UInt8) (pos : Nat)
    (valid : List (Nat × List UInt8)) : Prop where
  le : pos ≤ content.length
  ascending : Ascending pos valid
  lengths : ∀ r ∈ valid, r.2.length < 2 ^ 32
  records : RecordsIn content valid
  growth : ∀ i < content.length, size ≤ i → pos ≤ i → ∃ r ∈ valid, r.1 ≤ i ∧ i < r.1 + r.2.length

def gapLimit (cfg : PatcherConfig σ) (records : List (Nat × List UInt8)) (pos : Nat) : Nat :=
  match records with
  | [] => maxRead cfg
  | (off, _) :: _ => min (off - pos) (maxRead cfg)

/-- What the part of the loop between the records keeps. `K` says where the old file and the
extents stand, for the records that are to come and whether the header of the first one is
known. -/
structure GapRule (cfg : PatcherConfig σ) (size : Nat) (content : List UInt8)
    (R : Nat → ChunkPatcher σ → Prop) (K : List (Nat × List UInt8) → Bool → Progress σ → Prop) : Prop where
  maxRead_pos : 0 < maxRead cfg
  header : ∀ off data rest p, K ((off, data) :: rest) false p → p.filePos ≤ off →
    K ((off, data) :: rest) true (noteHeader cfg ⟨off, data.length⟩ p)
  gap : ∀ records loaded p, K records loaded p → R p.filePos p.members →
    (loaded = true ∨ records = []) → Fit size content p.filePos records →
    0 < gapLimit cfg records p.filePos → p.filePos < size → p.filePos < content.length →
    ∃ p', copyGap cfg size content.length (gapLimit cfg records p.filePos) p = .ok p' ∧
      K records loaded p' ∧ R p'.filePos p'.members ∧ p.filePos < p'.filePos ∧
      p'.filePos ≤ p.filePos + gapLimit cfg records p.filePos ∧ p'.filePos ≤ content.length
  record : ∀ off data rest p m, K ((off, data) :: rest) true p → p.filePos = off →
    m.unchangedAlignStart = p.members.unchangedAlignStart →
    m.unchangedAlignEnd = p.members.unchangedAlignEndNext →
    m.unchangedAlignEndNext = p.members.unchangedAlignEndNext →
    K rest false { p with
      members := m
      file := if cfg.requireUnchanged then p.file.seek (off + data.length) else p.file
      filePos := off + data.length }

section Frame

/-- Data does not touch the members that say which blocks are needed. -/
structure SameAlign (m m' : ChunkPatcher σ) : Prop where
  alignStart : m'.unchangedAlignStart = m.unchangedAlignStart
  alignEnd : m'.unchangedAlignEnd = m.unchangedAlignEnd
  alignEndNext : m'.unchangedAlignEndNext = m.unchangedAlignEndNext

theorem SameAlign.refl (m : ChunkPatcher σ) : SameAlign m m := ⟨rfl, rfl, rfl⟩

theorem SameAlign.trans {m m' m'' : ChunkPatcher σ} (h : SameAlign m m') (h' : SameAlign m' m'') :
    SameAlign m m'' :=
  ⟨h'.1.trans h.1, h'.2.trans h.2, h'.3.trans h.3⟩

theorem sameAlign_finishSparse (pos : Nat) (m : ChunkPatcher σ) :
    SameAlign m (finishSparse cfg pos m) := by
  unfold finishSparse
  split
  · exact .refl _
  · split
    · exact ⟨rfl, rfl, rfl⟩
    · exact .refl _

@[simp] theorem ok_bind {α β : Type} (a : α) (f : α → Except Fault β) :
    (Except.ok a >>= f) = f a := rfl

theorem bind_ok {α β : Type} {x : Except Fault α} {f : α → Except Fault β} {b : β}
    (h : (x >>= f) = .ok b) : ∃ a, x = .ok a ∧ f a = .ok b := by
  cases x with
  | error e => cases h
  | ok a => exact ⟨a, rfl, h⟩

theorem sameAlign_endOfBlock {pos next : Nat} {m m' : ChunkPatcher σ}
    (h : nextBytesLoop.endOfBlock cfg pos next m = .ok m') : SameAlign m m' := by
  unfold nextBytesLoop.endOfBlock at h
  split at h
  · obtain ⟨⟨client, flag⟩, -, h⟩ := bind_ok h
    obtain ⟨-, -, h⟩ := bind_ok h
    cases h
    exact ⟨rfl, rfl, rfl⟩
  · obtain ⟨⟨client, flag⟩, -, h⟩ := bind_ok h
    obtain ⟨-, -, h⟩ := bind_ok h
    cases h
    exact (sameAlign_finishSparse pos m).trans ⟨rfl, rfl, rfl⟩

theorem sameAlign_nextBytesLoop {pos : Nat} {buf : List UInt8} {changed : Bool}
    {m m' : ChunkPatcher σ} (h : nextBytesLoop cfg pos buf changed m = .ok m') :
    SameAlign m m' := by
  induction hn : buf.length using Nat.strongRecOn generalizing pos buf m with
  | ind n ih =>
    rw [nextBytesLoop] at h
    split at h
    · cases h
      exact .refl _
    · rename_i hne
      have hpos : 0 < buf.length := List.length_pos_iff.mpr hne
      split at h
      · split at h
        · obtain ⟨-, -, h⟩ := bind_ok h
          obtain ⟨⟨client, flag⟩, -, h⟩ := bind_ok h
          cases h
          exact ⟨rfl, rfl, rfl⟩
        · obtain ⟨-, -, h⟩ := bind_ok h
          obtain ⟨⟨client, flag⟩, -, h⟩ := bind_ok h
          cases h
          exact (sameAlign_finishSparse pos m).trans ⟨rfl, rfl, rfl⟩
      · have hless : (buf.drop (min buf.length
            (roundDown pos sparseBlocksize + sparseBlocksize - pos))).length < n := by
          have hcheck : pos < roundDown pos sparseBlocksize + sparseBlocksize := by
            unfold roundDown sparseBlocksize
            omega
          rw [List.length_drop]
          omega
        simp only at h
        split at h
        · obtain ⟨m1, h1, h⟩ := bind_ok h
          have hblock := sameAlign_endOfBlock h1
          exact SameAlign.trans ⟨hblock.1, hblock.2, hblock.3⟩ (ih _ hless h rfl)
        · have hrest := ih _ hless h rfl
          exact ⟨hrest.1, hrest.2, hrest.3⟩

theorem sameAlign_deliver {pos : Nat} {buf : List UInt8} {changed : Bool} {m m' : ChunkPatcher σ}
    (h : deliver cfg pos buf changed m = .ok m') : SameAlign m m' := by
  unfold deliver at h
  split at h
  · have hloop := sameAlign_nextBytesLoop h
    exact ⟨hloop.1, hloop.2, hloop.3⟩
  · obtain ⟨-, -, h⟩ := bind_ok h
    obtain ⟨⟨client, flag⟩, -, h⟩ := bind_ok h
    cases h
    exact ⟨rfl, rfl, rfl⟩

end Frame

theorem prefix_drop {as bs : List UInt8} (h : as <+: bs) (n : Nat) : as.drop n <+: bs.drop n := by
  obtain ⟨t, rfl⟩ := h
  rw [List.drop_append]
  exact List.prefix_append _ _

section Records

variable {R : Nat → ChunkPatcher σ → Prop} {Post : ChunkPatcher σ → Prop}
  {K : List (Nat × List UInt8) → Bool → Progress σ → Prop}
  {data : List UInt8} {valid rest : List (Nat × List UInt8)}

/-- Induction on what is left of the record: a buffer of it, then the rest. -/
theorem copyRecord_spec (hC : Consumes cfg content R Post) {n : Nat} {patch : ReadFile}
    {p : Progress σ} (hpatch : StandsAt patch data valid) (hn : n ≤ data.length)
    (hcontent : data.take n <+: content.drop p.filePos) (hR : R p.filePos p.members) :
    ∃ patch' m', copyRecord cfg n patch p =
        .ok (patch', { p with members := m', filePos := p.filePos + n }) ∧
      StandsAt patch' (data.drop n) valid ∧ R (p.filePos + n) m' ∧ SameAlign p.members m' := by
  induction n using Nat.strongRecOn generalizing patch p data with
  | ind n ih =>
    rw [copyRecord]
    split
    · rename_i hpos
      have hB : 0 < bufferSize := by decide
      obtain ⟨hnext, hadvance⟩ :=
        hpatch.next (n := min bufferSize n) ((Nat.min_le_right _ _).trans hn)
      have hlen : (data.take (min bufferSize n)).length = min bufferSize n := by
        rw [List.length_take]
        omega
      have hinit : data.take (min bufferSize n) <+: content.drop p.filePos :=
        (List.take_prefix_take_left (Nat.min_le_right _ _)).trans hcontent
      have hnonempty : data.take (min bufferSize n) ≠ [] := by
        apply List.length_pos_iff.mp
        omega
      obtain ⟨m1, hdeliver, hR1⟩ := hC.deliver p.filePos _ true p.members hR hnonempty
        (by omega) hinit
      rw [hlen] at hR1
      rw [hnext, dif_neg (by omega)]
      simp only [hdeliver, ok_bind, hlen]
      have hrest : (data.drop (min bufferSize n)).take (n - min bufferSize n) <+:
          content.drop (p.filePos + min bufferSize n) := by
        have hdrop := prefix_drop hcontent (min bufferSize n)
        rwa [List.drop_take, List.drop_drop] at hdrop
      obtain ⟨patch', m', hcopy, hstands, hR', halign⟩ := @ih (n - min bufferSize n) (by omega)
        (data.drop (min bufferSize n)) (patch.advance (min bufferSize n))
        { p with members := m1, filePos := p.filePos + min bufferSize n } hadvance
        (by rw [List.length_drop]; omega) hrest hR1
      have hsum : p.filePos + min bufferSize n + (n - min bufferSize n) = p.filePos + n := by
        omega
      refine ⟨patch', m', ?_, ?_, ?_, (sameAlign_deliver hdeliver).trans halign⟩
      · rw [← hsum]
        exact hcopy
      · rw [List.drop_drop] at hstands
        rwa [show min bufferSize n + (n - min bufferSize n) = n by omega] at hstands
      · rw [← hsum]
        exact hR'
    · obtain rfl : n = 0 := by omega
      exact ⟨patch, p.members, rfl, hpatch, hR, .refl _⟩

/-- The state in front of a turn: where the patch file stands. -/
def Ready (valid : List (Nat × List UInt8)) (loaded : Bool) (st : ApplyState σ) : Prop :=
  match loaded, valid with
  | false, _ => st.nextHeader.patchOff = -1 ∧
      (st.hasHeader = true ∧ Stands st.patch valid ∨ st.hasHeader = false ∧ valid = [])
  | true, (off, data) :: rest => st.hasHeader = true ∧
      st.nextHeader = ⟨off, data.length⟩ ∧ StandsAt st.patch data rest
  | true, [] => False

theorem applyRecord_spec (hC : Consumes cfg content R Post) {off n : Nat} {st : ApplyState σ}
    (hheader : st.nextHeader = ⟨off, n⟩) (hpatch : StandsAt st.patch data rest)
    (hn : n ≤ data.length) (hpos : st.out.filePos = off)
    (hcontent : data.take n <+: content.drop off) (hR : R off st.out.members) :
    ∃ patch' m', applyRecord cfg st = .ok { st with
        patch := patch'
        nextHeader := ⟨-1, 0⟩
        out := { st.out with
          members := m'
          file := if cfg.requireUnchanged then st.out.file.seek (off + n) else st.out.file
          filePos := off + n } } ∧
      StandsAt patch' (data.drop n) rest ∧ R (off + n) m' ∧
      m'.unchangedAlignStart = st.out.members.unchangedAlignStart ∧
      m'.unchangedAlignEnd = st.out.members.unchangedAlignEndNext ∧
      m'.unchangedAlignEndNext = st.out.members.unchangedAlignEndNext := by
  subst hpos
  have hassert : assertThat cfg ((st.out.filePos : Int) = st.nextHeader.patchOff) = .ok () := by
    rw [assertThat, if_pos]
    rw [hheader]
    exact .inr rfl
  have hR' := hC.align _ st.out.members st.out.members.unchangedAlignStart
    st.out.members.unchangedAlignEndNext st.out.members.unchangedAlignEndNext hR
  obtain ⟨patch', m', hcopy, hstands, hRm, halign⟩ := @copyRecord_spec σ cfg content R Post data rest
    hC n st.patch { st.out with members := { st.out.members with
      unchangedAlignEnd := st.out.members.unchangedAlignEndNext } } hpatch hn hcontent hR'
  refine ⟨patch', m', ?_, hstands, hRm, halign.1, halign.2, halign.3⟩
  rw [applyRecord, hassert]
  simp only [ok_bind, hheader, hcopy]
  rfl

/-- What the loop comes to: all of the new file, unless a record behind the new end makes
the patch corrupt. -/
def Outcome (content : List UInt8) (Post : ChunkPatcher σ → Prop)
    (valid : List (Nat × List UInt8)) (o : Except Fault (Bool × ChunkPatcher σ)) : Prop :=
  if EndsInside content.length valid then ∃ m, o = .ok (true, m) ∧ Post m
  else o = .error .assertion ∨ ∃ m, o = .ok (false, m)

/-- What a turn comes to, at once or in the turns behind it. -/
def Reaches (cfg : PatcherConfig σ) (size : Nat) (content : List UInt8)
    (Post : ChunkPatcher σ → Prop) (valid : List (Nat × List UInt8))
    (r : Except Fault (TurnResult σ)) : Prop :=
  ∃ o, Outcome content Post valid o ∧ (r = o.map .inl ∨
    ∃ st, r = .ok (.inr st) ∧ Loop.Ends (applyLoop cfg size content.length) st o)

theorem Reaches.ends {st : ApplyState σ}
    (h : Reaches cfg size content Post valid (applyTurn cfg size content.length st)) :
    ∃ o, Outcome content Post valid o ∧ Loop.Ends (applyLoop cfg size content.length) st o := by
  obtain ⟨o, hpost, hresult⟩ := h
  refine ⟨o, hpost, ?_⟩
  cases hresult with
  | inl h =>
    apply Loop.Ends.done
    rw [applyLoop, h]
    cases o <;> rfl
  | inr h =>
    obtain ⟨st', hturn, hends⟩ := h
    apply Loop.Ends.turn _ hends
    rw [applyLoop, hturn]

theorem Reaches.of_turn {st : ApplyState σ} {r : Except Fault (TurnResult σ)}
    (hr : r = .ok (.inr st))
    (h : Reaches cfg size content Post valid (applyTurn cfg size content.length st)) :
    Reaches cfg size content Post valid r := by
  obtain ⟨o, hpost, hends⟩ := h.ends
  exact ⟨o, hpost, .inr ⟨st, hr, hends⟩⟩

theorem le_of_ascending {pos : Nat} (h : Ascending pos valid) {r : Nat × List UInt8}
    (hr : r ∈ valid) : pos ≤ r.1 := by
  induction valid generalizing pos with
  | nil => cases hr
  | cons s rest ih =>
    obtain ⟨hle, hrest⟩ := h
    cases List.mem_cons.mp hr with
    | inl heq => exact heq ▸ hle
    | inr hr =>
      have := ih hrest hr
      omega

theorem Fit.lt_size {off pos : Nat} (h : Fit size content pos ((off, data) :: rest))
    (hlt : pos < off) (hend : pos < content.length) : pos < size := by
  by_contra hge
  obtain ⟨r, hr, hle, -⟩ := h.growth pos hend (Nat.le_of_not_lt hge) le_rfl
  cases List.mem_cons.mp hr with
  | inl heq =>
    rw [heq] at hle
    simp only at hle
    omega
  | inr hr =>
    have := le_of_ascending h.ascending.2 hr
    omega

theorem Fit.move {off pos pos' : Nat} (h : Fit size content pos ((off, data) :: rest))
    (hle : pos' ≤ off) (hend : pos' ≤ content.length) (hpos : pos ≤ pos') :
    Fit size content pos' ((off, data) :: rest) :=
  ⟨hend, ⟨hle, h.ascending.2⟩, h.lengths, h.records,
    fun i hi hs hp => h.growth i hi hs (hpos.trans hp)⟩

theorem Fit.tail {off : Nat} (h : Fit size content off ((off, data) :: rest))
    (hin : off + data.length ≤ content.length) : Fit size content (off + data.length) rest := by
  refine ⟨hin, h.ascending.2, fun r hr => h.lengths r (List.mem_cons_of_mem _ hr),
    fun r hr => h.records r (List.mem_cons_of_mem _ hr), ?_⟩
  intro i hi hs hp
  obtain ⟨r, hr, hle, hlt⟩ := h.growth i hi hs (by omega)
  cases List.mem_cons.mp hr with
  | inl heq =>
    rw [heq] at hlt
    simp only at hlt
    omega
  | inr hr => exact ⟨r, hr, hle, hlt⟩

theorem assertThat_of {p : Prop} [Decidable p] (h : p) : assertThat cfg p = .ok () := by
  rw [assertThat, if_pos (.inr h)]

theorem distance_loaded {off n pos : Nat} (hle : pos ≤ off) :
    distance cfg ⟨off, n⟩ pos = min (off - pos) (maxRead cfg) := by
  simp only [distance]
  split <;> omega

theorem distance_tail {pos : Nat} {header : PatchHeader} (h : header.patchOff = -1) :
    distance cfg header pos = maxRead cfg := by
  simp only [distance, h]
  rfl

theorem reaches_finish (hC : Consumes cfg content R Post) {p : Progress σ}
    (hin : EndsInside content.length valid) (hend : p.filePos = content.length)
    (hR : R p.filePos p.members) : Reaches cfg size content Post valid (finish cfg p) := by
  obtain ⟨m, hfinish, hpost⟩ := hC.finish p hend hR
  refine ⟨.ok (true, m), ?_, .inl hfinish⟩
  rw [Outcome, if_pos hin]
  exact ⟨m, rfl, hpost⟩

theorem turn_gap (hG : GapRule cfg size content R K) {loaded : Bool} {st : ApplyState σ}
    (hready : Ready valid loaded st)
    (hheader : loaded = true ∨ valid = [] ∧ st.hasHeader = false)
    (hK : K valid loaded st.out) (hR : R st.out.filePos st.out.members)
    (hfit : Fit size content st.out.filePos valid) (hlimit : 0 < gapLimit cfg valid st.out.filePos)
    (hsize : st.out.filePos < size) (hend : st.out.filePos < content.length) :
    ∃ out, turn cfg size content.length st = .ok (.inr { st with out }) ∧ K valid loaded out ∧
      R out.filePos out.members ∧ st.out.filePos < out.filePos ∧ out.filePos ≤ content.length ∧
      out.filePos ≤ st.out.filePos + gapLimit cfg valid st.out.filePos := by
  obtain ⟨out, hgap, hK', hR', hlt, hle, hle'⟩ :=
    hG.gap valid loaded st.out hK hR (hheader.imp_right And.left) hfit hlimit hsize hend
  refine ⟨out, ?_, hK', hR', hlt, hle', hle⟩
  have hdistance : distance cfg st.nextHeader st.out.filePos =
      gapLimit cfg valid st.out.filePos ∧
      (st.nextHeader.patchOff = -1 ∨ (st.out.filePos : Int) ≤ st.nextHeader.patchOff) := by
    cases loaded with
    | false =>
      obtain ⟨rfl, -⟩ := hheader.resolve_left Bool.false_ne_true
      exact ⟨distance_tail hready.1, .inl hready.1⟩
    | true =>
      cases valid with
      | nil => exact hready.elim
      | cons r rest =>
        have hpos := hfit.ascending.1
        rw [hready.2.1]
        exact ⟨distance_loaded hpos, .inr (by simpa using hpos)⟩
  rw [turn, if_neg (by omega), hdistance.1, assertThat_of hdistance.2]
  simp only [ok_bind]
  rw [if_neg (by omega), if_neg (by omega), if_neg (by omega), if_pos hsize, hgap]
  rfl

section

variable (hC : Consumes cfg content R Post) (hG : GapRule cfg size content R K)

include hC hG

theorem reaches_tail {st : ApplyState σ}
    (hready : Ready [] false st) (hheader : st.hasHeader = false) (hK : K [] false st.out)
    (hR : R st.out.filePos st.out.members) (hfit : Fit size content st.out.filePos []) :
    Reaches cfg size content Post [] (turn cfg size content.length st) := by
  have hnil : EndsInside content.length [] := trivial
  induction hn : content.length - st.out.filePos using Nat.strongRecOn generalizing st with
  | ind n ih =>
    by_cases hend : st.out.filePos < content.length
    · have hsize : st.out.filePos < size := by
        by_contra hge
        obtain ⟨r, hr, -⟩ := hfit.growth _ hend (Nat.le_of_not_lt hge) le_rfl
        cases hr
      obtain ⟨out, hturn, hK', hR', hlt, hle, -⟩ :=
        turn_gap hG hready (.inr ⟨rfl, hheader⟩) hK hR hfit hG.maxRead_pos hsize hend
      have hfit' : Fit size content out.filePos [] :=
        ⟨hle, trivial, hfit.lengths, hfit.records,
          fun i hi hs hp => hfit.growth i hi hs (by omega)⟩
      apply Reaches.of_turn hturn
      rw [applyTurn]
      split
      · rw [if_neg (by simp [hheader])]
        exact ih (content.length - out.filePos) (by omega) hready hheader hK' hR' hfit' rfl
      · rename_i hcond
        apply reaches_finish hC hnil _ hR'
        by_contra hne
        have hlt' : out.filePos < content.length := Nat.lt_of_le_of_ne hle hne
        have hs : out.filePos < size := by
          by_contra hge
          obtain ⟨r, hr, -⟩ := hfit'.growth _ hlt' (Nat.le_of_not_lt hge) le_rfl
          cases hr
        exact hcond (.inl ⟨hs, Int.ofNat_lt.mpr hlt'⟩)
    · have heq : st.out.filePos = content.length := by
        have := hfit.le
        omega
      rw [turn, if_pos ⟨hheader, .inl (by omega)⟩]
      exact reaches_finish hC hnil heq hR

theorem reaches_loaded {off : Nat}
    (hrest : ∀ st, Ready rest false st → K rest false st.out → R st.out.filePos st.out.members →
      Fit size content st.out.filePos rest →
      Reaches cfg size content Post rest (applyTurn cfg size content.length st))
    {st : ApplyState σ} (hready : Ready ((off, data) :: rest) true st)
    (hK : K ((off, data) :: rest) true st.out) (hR : R st.out.filePos st.out.members)
    (hfit : Fit size content st.out.filePos ((off, data) :: rest)) :
    Reaches cfg size content Post ((off, data) :: rest) (turn cfg size content.length st) := by
  induction hn : off - st.out.filePos using Nat.strongRecOn generalizing st with
  | ind n ih =>
    have hready' := hready
    obtain ⟨hheader, hnext, hpatch⟩ := hready'
    have hle : st.out.filePos ≤ off := hfit.ascending.1
    by_cases hlt : st.out.filePos < off ∧ st.out.filePos < content.length
    · have hlimit : 0 < gapLimit cfg ((off, data) :: rest) st.out.filePos := by
        have := hG.maxRead_pos
        rw [gapLimit]
        omega
      obtain ⟨out, hturn, hK', hR', hpos, hend, hreach⟩ := turn_gap hG hready (.inl rfl) hK hR
        hfit hlimit (hfit.lt_size hlt.1 hlt.2) hlt.2
      rw [gapLimit] at hreach
      apply Reaches.of_turn hturn
      have hloaded : ¬ (st.hasHeader = true ∧ st.nextHeader.patchOff = -1) := by
        rw [hnext]
        simp only
        omega
      rw [applyTurn, if_pos (.inr hheader), if_neg hloaded]
      have hfit' : Fit size content out.filePos ((off, data) :: rest) :=
        hfit.move (by omega) hend (by omega)
      exact ih (off - out.filePos) (by omega) ⟨hheader, hnext, hpatch⟩ hK' hR' hfit' rfl
    · have hassert : st.nextHeader.patchOff = -1 ∨
          (st.out.filePos : Int) ≤ st.nextHeader.patchOff := by
        rw [hnext]
        exact .inr (by simpa using hle)
      have hdistance : distance cfg st.nextHeader st.out.filePos =
          min (off - st.out.filePos) (maxRead cfg) := by
        rw [hnext]
        exact distance_loaded hle
      have hmax := hG.maxRead_pos
      have hsize : st.nextHeader.patchSize = data.length := by rw [hnext]
      have hcontent := hfit.records (off, data) List.mem_cons_self
      have hlen := hfit.lengths (off, data) List.mem_cons_self
      simp only at hcontent hlen
      have hcut : st.out.filePos = off → toUnsigned ((content.length : Int) - st.out.filePos) =
          content.length - off ∨ content.length - off ≥ 2 ^ 32 := by
        intro hpos
        unfold toUnsigned
        have := hfit.le
        omega
      rw [turn, if_neg (by simp [hheader]), assertThat_of hassert]
      simp only [ok_bind, hdistance, hsize]
      by_cases hcross : off ≤ content.length ∧ content.length < off + data.length
      · -- the record crosses the new end
        have hpos : st.out.filePos = off := by omega
        rw [hpos] at hR
        obtain ⟨patch', m', hrecord, -, hR', -⟩ := @applyRecord_spec _ cfg content R Post data rest hC
          off (content.length - off)
          { st with nextHeader := ⟨off, content.length - off⟩ } rfl hpatch (by omega) hpos
          hcontent hR
        have hheader' : st.nextHeader.patchOff = off := by rw [hnext]
        have hcut' := (hcut hpos).resolve_right (by omega)
        rw [if_pos (by omega), hcut', hheader', hrecord]
        simp only [ok_bind]
        apply reaches_finish hC
        · rw [EndsInside, if_neg (by omega)]
          exact hcross
        · simp only
          omega
        · exact hR'
      · by_cases hin : off < content.length
        · -- the record lies in front of the new end
          have hpos : st.out.filePos = off := by omega
          have htake : data.take data.length <+: content.drop off := by
            rw [List.take_of_length_le (by omega)] at hcontent
            rw [List.take_length]
            exact hcontent
          rw [hpos] at hR hfit
          obtain ⟨patch', m', hrecord, hstands, hR', hstart, halign, hnextAlign⟩ :=
            applyRecord_spec hC hnext hpatch le_rfl hpos htake hR
          rw [if_neg (by omega), if_neg (by omega), if_pos (by omega), hrecord]
          have hiff : EndsInside content.length ((off, data) :: rest) =
              EndsInside content.length rest := by
            rw [EndsInside, if_pos (by omega)]
          have hsame : Outcome content Post ((off, data) :: rest) = Outcome content Post rest := by
            funext o
            unfold Outcome
            simp only [hiff]
          unfold Reaches
          rw [hsame]
          apply Reaches.of_turn rfl
          rw [List.drop_length] at hstands
          refine hrest _ ⟨rfl, .inl ⟨hheader, hstands.nil⟩⟩ ?_ hR' (hfit.tail (by omega))
          exact hG.record off data rest st.out m' hK hpos hstart halign hnextAlign
        · -- the record lies behind it
          have hend : st.out.filePos = content.length := by
            have := hfit.le
            omega
          have hnot : ¬ EndsInside content.length ((off, data) :: rest) := by
            rw [EndsInside, if_neg (by omega)]
            exact hcross
          rw [if_neg (by omega), if_pos (by omega)]
          unfold Reaches Outcome assertThat
          simp only [if_neg hnot]
          split
          · exact ⟨.ok (false, st.out.members), .inr ⟨_, rfl⟩, .inl rfl⟩
          · exact ⟨.error .assertion, .inl rfl, .inl rfl⟩

/-- Induction on the records that are to come. -/
theorem reaches_applyTurn {st : ApplyState σ}
    (hready : Ready valid false st) (hK : K valid false st.out)
    (hR : R st.out.filePos st.out.members) (hfit : Fit size content st.out.filePos valid) :
    Reaches cfg size content Post valid (applyTurn cfg size content.length st) := by
  induction valid generalizing st with
  | nil =>
    have hnil : EndsInside content.length [] := trivial
    obtain ⟨hnext, hheader⟩ := hready
    cases hheader with
    | inl hheader =>
      obtain ⟨htrue, hstands⟩ := hheader
      obtain ⟨hfalse, hnone⟩ := readNextValidPatch_spec hstands
      rw [applyTurn, if_pos (.inr htrue), if_pos ⟨htrue, hnext⟩]
      have hout : (readHeader cfg st).out = st.out := by
        rw [readHeader, hnone, noteHeader, if_neg (fun h => h.1 rfl)]
      have hnext' : (readHeader cfg st).nextHeader.patchOff = -1 := by
        rw [readHeader, hnone]
      have hfalse' : (readHeader cfg st).hasHeader = false := by rw [readHeader, hfalse]
      apply reaches_tail hC hG ⟨hnext', .inr ⟨hfalse', rfl⟩⟩ hfalse' <;> rw [hout] <;> assumption
    | inr hheader =>
      have htail := reaches_tail hC hG ⟨hnext, .inr hheader⟩ hheader.1 hK hR hfit
      rw [applyTurn]
      split
      · rw [if_neg (by simp [hheader.1])]
        exact htail
      · rename_i hcond
        apply reaches_finish hC hnil _ hR
        by_contra hne
        have hlt : st.out.filePos < content.length := Nat.lt_of_le_of_ne hfit.le hne
        have hs : st.out.filePos < size := by
          by_contra hge
          obtain ⟨r, hr, -⟩ := hfit.growth _ hlt (Nat.le_of_not_lt hge) le_rfl
          cases hr
        exact hcond (.inl ⟨hs, Int.ofNat_lt.mpr hlt⟩)
  | cons r rest ih =>
    obtain ⟨off, data⟩ := r
    obtain ⟨hnext, hheader⟩ := hready
    obtain ⟨htrue, hstands⟩ := hheader.resolve_right fun h => nomatch h.2
    obtain ⟨hfound, hheader', hdata⟩ := readNextValidPatch_spec hstands
    rw [applyTurn, if_pos (.inr htrue), if_pos ⟨htrue, hnext⟩]
    have hout : (readHeader cfg st).out = noteHeader cfg ⟨off, data.length⟩ st.out := by
      rw [readHeader, hheader']
    have hpos : (noteHeader cfg ⟨off, data.length⟩ st.out).filePos = st.out.filePos := by
      unfold noteHeader
      split <;> rfl
    have hR' : R st.out.filePos (noteHeader cfg ⟨off, data.length⟩ st.out).members := by
      unfold noteHeader
      split
      · exact hC.align _ _ _ _ _ hR
      · exact hR
    have hloaded : Ready ((off, data) :: rest) true (readHeader cfg st) := by
      refine ⟨?_, ?_, ?_⟩
      · rw [readHeader, hfound]
      · rw [readHeader, hheader']
      · exact hdata
    refine reaches_loaded hC hG (fun st h1 h2 h3 h4 => ih h1 h2 h3 h4) hloaded ?_ ?_ ?_
    · rw [hout]
      exact hG.header off data rest st.out hK hfit.ascending.1
    · rw [hout, hpos]
      exact hR'
    · rw [hout, hpos]
      exact hfit

theorem applyLoop_ends {st : ApplyState σ}
    (hready : Ready valid false st) (hK : K valid false st.out)
    (hR : R st.out.filePos st.out.members) (hfit : Fit size content st.out.filePos valid) :
    ∃ o, Outcome content Post valid o ∧ Loop.Ends (applyLoop cfg size content.length) st o :=
  (reaches_applyTurn hC hG hready hK hR hfit).ends

end

end Records

end UrBackup.ChunkPatcher
