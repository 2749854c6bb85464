import UrBackup.Net.PipeFileBase

/-! What readers of a pipe file get: bytes of the produced stream, unless a full ring is taken
for an empty one. -/
namespace UrBackup
namespace PipeFileBase

def stored (p : PipeFileBase) : List UInt8 := p.writing.getD []

def base (p : PipeFileBase) : Int := p.produced.length - p.bufWPos

/-- A place in the ring has the byte of the stream at a position. -/
def HasAt (p : PipeFileBase) (i : Nat) (pos : Int) : Prop :=
  0 ≤ pos ∧ p.produced[pos.toNat]? = some (p.buffer i)

/-- The bytes of this round are in front of the writer, those of the last round behind what it
may fill. -/
structure Ring (p : PipeFileBase) : Prop where
  rPos_le : p.bufRPos ≤ bufferSize
  reserved_le : p.bufWReservedPos ≤ bufferSize
  stored_le : p.bufWPos + p.stored.length ≤ p.bufWReservedPos
  idle : p.writing = none → p.bufWReservedPos = p.bufWPos
  behind : p.bufWPos < p.bufRPos → p.bufWReservedPos ≤ p.bufRPos ∧ p.bufCircle = true
  wPos_le : p.bufWPos ≤ p.produced.length
  circle_le : p.bufCircle = true → (bufferSize : Int) ≤ p.base
  round : ∀ i < p.bufWPos, p.HasAt i (p.base + i)
  filling : ∀ j (h : j < p.stored.length), p.buffer (p.bufWPos + j) = p.stored[j]
  lastRound : p.bufCircle = true → ∀ i, p.bufWPos + p.stored.length ≤ i → i < bufferSize →
    p.HasAt i (p.base - bufferSize + i)
  currPos_eq : p.currPos =
    (if p.bufRPos ≤ p.bufWPos then p.base + p.bufRPos else p.base - bufferSize + p.bufRPos)

theorem ring_init : Ring init where
  rPos_le := Nat.zero_le _
  reserved_le := Nat.zero_le _
  stored_le := Nat.le_refl _
  idle _ := rfl
  behind h := absurd h (Nat.lt_irrefl 0)
  wPos_le := Nat.le_refl _
  circle_le h := by cases h
  round _ h := absurd h (Nat.not_lt_zero _)
  filling _ h := absurd h (Nat.not_lt_zero _)
  lastRound h := by cases h
  currPos_eq := rfl

section Seek

variable {p q : PipeFileBase} {spos : Int}

/-- A ring that is full up to the reader is taken for an empty one: the position is moved back to
where the writer is. -/
def SeeksFull (p : PipeFileBase) (spos : Int) : Prop :=
  p.bufWPos < p.bufRPos ∧ spos ≠ p.currPos ∧ p.seekedRPos spos = p.bufWPos

theorem Ring.moved (h : p.Ring) {r : Nat} (hr : r ≤ bufferSize)
    (hbehind : p.bufWPos < r → p.bufWReservedPos ≤ r ∧ p.bufCircle = true)
    (hpos : spos = if r ≤ p.bufWPos then p.base + r else p.base - bufferSize + r) :
    ({ p with currPos := spos, bufRPos := r } : PipeFileBase).Ring :=
  ⟨hr, h.reserved_le, h.stored_le, h.idle, hbehind, h.wPos_le, h.circle_le, h.round, h.filling,
    h.lastRound, hpos⟩

theorem Ring.seekInt (h : p.Ring) (hfull : ¬ p.SeeksFull spos) (hseek : p.seekInt spos = some q) :
    q.Ring ∧ q.currPos = spos ∧ q.produced = p.produced ∧ q.hasEof = p.hasEof := by
  have hpos := h.currPos_eq
  have hreserved := h.reserved_le
  have hstored := h.stored_le
  by_cases hhere : spos - p.currPos = 0
  · rw [PipeFileBase.seekInt, if_pos hhere] at hseek
    cases hseek
    exact ⟨h, by omega, rfl, rfl⟩
  rw [PipeFileBase.seekInt, if_neg hhere] at hseek
  by_cases hbefore : p.bufRPos ≤ p.bufWPos
  · rw [if_pos hbefore] at hseek
    rw [if_pos hbefore] at hpos
    by_cases hround : 0 ≤ p.seekedRPos spos ∧ p.seekedRPos spos ≤ p.bufWPos
    · rw [if_pos hround] at hseek
      cases hseek
      rw [seekedRPos] at hround
      refine ⟨h.moved (by rw [seekedRPos]; omega) (fun hlt => ?_) ?_, rfl, rfl, rfl⟩
      · rw [seekedRPos] at hlt
        omega
      · rw [seekedRPos, if_pos (by omega)]
        omega
    rw [if_neg hround] at hseek
    by_cases hlast : p.seekedRPos spos < 0 ∧
        -p.seekedRPos spos < (bufferSize - p.bufWReservedPos : Nat) ∧ p.bufCircle
    · rw [if_pos hlast] at hseek
      cases hseek
      obtain ⟨hneg, hroom, hcircle⟩ := hlast
      rw [seekedRPos] at hneg hroom
      refine ⟨h.moved (by rw [seekedRPos]; omega) (fun _ => ⟨?_, hcircle⟩) ?_, rfl, rfl, rfl⟩
      · rw [seekedRPos]
        omega
      · rw [seekedRPos, if_neg (by omega)]
        omega
    · rw [if_neg hlast] at hseek
      cases hseek
  · rw [if_neg hbefore] at hseek
    rw [if_neg hbefore] at hpos
    have hcircle := (h.behind (by omega)).2
    by_cases hlast : p.bufWReservedPos ≤ p.seekedRPos spos ∧ p.seekedRPos spos < bufferSize
    · rw [if_pos hlast] at hseek
      cases hseek
      have hne : p.seekedRPos spos ≠ p.bufWPos := fun heq =>
        hfull ⟨by omega, fun hspos => hhere (by omega), heq⟩
      rw [seekedRPos] at hlast hne
      refine ⟨h.moved (by rw [seekedRPos]; omega) (fun _ => ⟨?_, hcircle⟩) ?_, rfl, rfl, rfl⟩
      · rw [seekedRPos]
        omega
      · rw [seekedRPos, if_neg (by omega)]
        omega
    rw [if_neg hlast] at hseek
    by_cases hround : bufferSize ≤ p.seekedRPos spos ∧ p.seekedRPos spos - bufferSize ≤ p.bufWPos
    · rw [if_pos hround] at hseek
      cases hseek
      rw [seekedRPos] at hround
      refine ⟨h.moved (by rw [seekedRPos]; omega) (fun hlt => ?_) ?_, rfl, rfl, rfl⟩
      · rw [seekedRPos] at hlt
        omega
      · rw [seekedRPos, if_pos (by omega)]
        omega
    · rw [if_neg hround] at hseek
      cases hseek

theorem seekInt_currPos (p : PipeFileBase) : p.seekInt p.currPos = some p :=
  if_pos (Int.sub_self _)

end Seek

section Read

variable {p : PipeFileBase} {pos : Int} {n : Nat}

/-- Bytes that the produced stream has from a position on. -/
def Serves (p : PipeFileBase) (pos : Int) (data : List UInt8) : Prop :=
  0 ≤ pos ∧ pos + data.length ≤ p.produced.length ∧
    (p.produced.drop pos.toNat).take data.length = data

theorem Serves.append {data data' : List UInt8} (h : p.Serves pos data)
    (h' : p.Serves (pos + data.length) data') : p.Serves pos (data ++ data') := by
  obtain ⟨hpos, hle, hdata⟩ := h
  obtain ⟨-, hle', hdata'⟩ := h'
  have hsum : (pos + data.length).toNat = pos.toNat + data.length := by omega
  refine ⟨hpos, by rw [List.length_append]; omega, ?_⟩
  rw [List.length_append, List.take_add, hdata, List.drop_drop, ← hsum, hdata']

theorem serves_read {r : Nat} (hpos : 0 ≤ pos) (hle : pos + n ≤ p.produced.length)
    (hbytes : ∀ k < n, p.HasAt (r + k) (pos + k)) : p.Serves pos (p.buffer.read r n) := by
  refine ⟨hpos, by simpa using hle, List.ext_getElem? fun k => ?_⟩
  rw [ByteStore.read_length]
  by_cases hk : k < n
  · obtain ⟨-, hbyte⟩ := hbytes k hk
    have hsum : (pos + k).toNat = pos.toNat + k := by omega
    rw [List.getElem?_take_of_lt hk, List.getElem?_drop, ← hsum, hbyte,
      List.getElem?_eq_getElem (by simpa using hk), ByteStore.getElem_read]
  · rw [List.getElem?_eq_none (by rw [List.length_take]; omega),
      List.getElem?_eq_none (by rw [ByteStore.read_length]; omega)]

theorem Ring.readPart_round (h : p.Ring) (hbefore : p.bufRPos ≤ p.bufWPos)
    (hn : n ≤ p.bufWPos - p.bufRPos) :
    p.Serves p.currPos (p.readPart n).1 ∧ (p.readPart n).2.Ring := by
  have hpos := h.currPos_eq
  have hle := h.wPos_le
  have hr := h.rPos_le
  have hbase : p.base = p.produced.length - p.bufWPos := rfl
  rw [if_pos hbefore] at hpos
  refine ⟨serves_read (by omega) (by omega) fun k hk => ?_, h.moved ?_ (fun hlt => ?_) ?_⟩
  · have hbyte := h.round (p.bufRPos + k) (by omega)
    have hplace : p.currPos + k = p.base + (p.bufRPos + k : Nat) := by omega
    exact hplace ▸ hbyte
  · have hw := h.stored_le
    have hreserved := h.reserved_le
    omega
  · omega
  · rw [if_pos (by omega)]
    omega

theorem Ring.readPart_lastRound (h : p.Ring) (hbehind : p.bufWPos < p.bufRPos)
    (hn : n ≤ bufferSize - p.bufRPos) :
    p.Serves p.currPos (p.readPart n).1 ∧ (p.readPart n).2.Ring ∧
      (p.readPart n).2.currPos = p.base - bufferSize + (p.bufRPos + n : Nat) := by
  have hpos := h.currPos_eq
  have hr := h.rPos_le
  have hle := h.wPos_le
  obtain ⟨hreserved, hcircle⟩ := h.behind hbehind
  have hcircle_le := h.circle_le hcircle
  have hstored := h.stored_le
  have hbase : p.base = p.produced.length - p.bufWPos := rfl
  rw [if_neg (by omega)] at hpos
  refine ⟨serves_read (by omega) (by omega) fun k hk => ?_, h.moved (by omega) (fun _ => ?_) ?_, ?_⟩
  · have hbyte := h.lastRound hcircle (p.bufRPos + k) (by omega) (by omega)
    have hplace : p.currPos + k = p.base - bufferSize + (p.bufRPos + k : Nat) := by omega
    exact hplace ▸ hbyte
  · exact ⟨by omega, hcircle⟩
  · rw [if_neg (by omega)]
    omega
  · change p.currPos + n = _
    omega

theorem Ring.readBuf (h : p.Ring) (hn : n ≤ p.getReadAvail) :
    p.Serves p.currPos (p.readBuf n).1 ∧ (p.readBuf n).2.Ring := by
  by_cases hbefore : p.bufRPos ≤ p.bufWPos
  · rw [getReadAvail, if_pos hbefore] at hn
    rw [PipeFileBase.readBuf, if_pos hbefore]
    exact h.readPart_round hbefore hn
  rw [getReadAvail, if_neg hbefore] at hn
  rw [PipeFileBase.readBuf, if_neg hbefore]
  by_cases hpiece : n ≤ bufferSize - p.bufRPos
  · rw [if_pos hpiece]
    exact ⟨(h.readPart_lastRound (by omega) hpiece).1, (h.readPart_lastRound (by omega) hpiece).2.1⟩
  · rw [if_neg hpiece]
    obtain ⟨hfirst, hring, hend⟩ := h.readPart_lastRound (by omega) (Nat.le_refl _)
    have hr := h.rPos_le
    have hstart : (p.readPart (bufferSize - p.bufRPos)).2.currPos = p.base := by
      rw [hend]
      omega
    have hwrapped : ({ (p.readPart (bufferSize - p.bufRPos)).2 with
        currPos := p.base, bufRPos := 0 } : PipeFileBase).Ring :=
      hring.moved (Nat.zero_le _) (fun hlt => absurd hlt (Nat.not_lt_zero _))
        (by rw [if_pos (Nat.zero_le _)]; exact (Int.add_zero _).symm)
    rw [← hstart] at hwrapped
    have hrest := hwrapped.readPart_round (n := n - (bufferSize - p.bufRPos)) (Nat.zero_le _)
      (show _ ≤ p.bufWPos - 0 by omega)
    refine ⟨hfirst.append ?_, hrest.2⟩
    have hlength : (p.readPart (bufferSize - p.bufRPos)).1.length = bufferSize - p.bufRPos :=
      ByteStore.read_length ..
    rw [hlength]
    exact hrest.1

end Read

section Write

variable {p : PipeFileBase}

theorem Ring.wrapped (h : p.Ring) (hidle : p.writing = none) : p.wrapped.Ring := by
  by_cases hend : p.bufWPos = bufferSize ∧ bufferKeepFree < p.bufRPos
  · obtain ⟨hw, hr⟩ := hend
    have hpos := h.currPos_eq
    have hle := h.wPos_le
    have hbase : p.base = p.produced.length - p.bufWPos := rfl
    have hstored : p.stored = [] := by rw [stored, hidle]; rfl
    have hbase' : ({ p with bufCircle := true, bufWPos := 0, bufWReservedPos := 0 } :
        PipeFileBase).base = p.base + bufferSize := by
      simp only [base]
      omega
    rw [PipeFileBase.wrapped, if_pos ⟨hw, hr⟩]
    refine ⟨h.rPos_le, Nat.zero_le _, ?_, fun _ => rfl, fun _ => ⟨Nat.zero_le _, rfl⟩, Nat.zero_le _,
      fun _ => ?_, fun i hi => absurd hi (Nat.not_lt_zero i), fun j hj => ?_, fun _ i _ hi => ?_, ?_⟩
    · change 0 + p.stored.length ≤ 0
      rw [hstored]
      exact Nat.le_refl _
    · omega
    · change j < p.stored.length at hj
      rw [hstored] at hj
      exact absurd hj (Nat.not_lt_zero j)
    · have hbyte := h.round i (by omega)
      have hplace : p.base + i = p.base + bufferSize - bufferSize + i := by omega
      rw [hbase']
      exact hplace ▸ hbyte
    · have hlt : ¬ p.bufRPos ≤ 0 := by omega
      have hr' := h.rPos_le
      rw [if_pos (by omega)] at hpos
      rw [hbase', if_neg hlt]
      change p.currPos = p.base + bufferSize - bufferSize + p.bufRPos
      omega
  · rw [PipeFileBase.wrapped, if_neg hend]
    exact h

theorem Ring.reserve (h : p.Ring) (hidle : p.writing = none) : p.reserve.Ring := by
  have hw := h.wrapped hidle
  have hidle' : p.wrapped.writing = none := by
    rw [PipeFileBase.wrapped]
    split_ifs <;> exact hidle
  have hstored : p.wrapped.stored = [] := by rw [stored, hidle']; rfl
  rw [PipeFileBase.reserve]
  by_cases hfree : p.wrapped.bsizeFree = 0
  · rw [if_pos hfree]
    exact hw
  rw [if_neg hfree]
  have hsize : p.wrapped.bufWPos + p.wrapped.bsizeFree ≤ bufferSize ∧
      (p.wrapped.bufWPos < p.wrapped.bufRPos →
        p.wrapped.bufWPos + p.wrapped.bsizeFree ≤ p.wrapped.bufRPos) := by
    have hr := hw.rPos_le
    rw [bsizeFree] at hfree ⊢
    split_ifs at hfree ⊢ with hlt
    · omega
    · omega
    · omega
  have hlast := hw.lastRound
  rw [hstored] at hlast
  refine ⟨hw.rPos_le, hsize.1, Nat.le_add_right _ _, fun hnone => (by cases hnone),
    fun hlt => ⟨hsize.2 hlt, (hw.behind hlt).2⟩, hw.wPos_le, hw.circle_le, hw.round,
    fun j hj => absurd hj (Nat.not_lt_zero j), hlast, hw.currPos_eq⟩

theorem Ring.store (h : p.Ring) {data data' : List UInt8} (hwriting : p.writing = some data)
    (hroom : p.bufWPos + (data ++ data').length ≤ p.bufWReservedPos) : (p.store data data').Ring := by
  have hstored : p.stored = data := by rw [stored, hwriting]; rfl
  rw [List.length_append] at hroom
  refine ⟨h.rPos_le, h.reserved_le, ?_, fun hnone => (by cases hnone), h.behind, h.wPos_le,
    h.circle_le, fun i hi => ?_, fun j hj => ?_, fun hcircle i hi hi' => ?_, h.currPos_eq⟩
  · change p.bufWPos + (data ++ data').length ≤ p.bufWReservedPos
    rw [List.length_append]
    omega
  · change i < p.bufWPos at hi
    obtain ⟨hpos, hbyte⟩ := h.round i hi
    refine ⟨hpos, hbyte.trans (congrArg some (ByteStore.write_of_lt ?_).symm)⟩
    omega
  · change (p.buffer.write (p.bufWPos + data.length) data') (p.bufWPos + j) = (data ++ data')[j]
    change j < (data ++ data').length at hj
    rw [List.length_append] at hj
    by_cases hold : j < data.length
    · have hbyte := h.filling j (by rw [hstored]; exact hold)
      rw [ByteStore.write_of_lt (by omega), List.getElem_append_left hold, hbyte]
      simp only [hstored]
    · rw [ByteStore.write_of_mem (by omega) (by omega), List.getElem_append_right (by omega)]
      congr 1
      omega
  · change p.bufWPos + (data ++ data').length ≤ i at hi
    rw [List.length_append] at hi
    obtain ⟨hpos, hbyte⟩ := h.lastRound hcircle i (by rw [hstored]; omega) hi'
    refine ⟨hpos, hbyte.trans (congrArg some (ByteStore.write_of_le ?_).symm)⟩
    omega

/-- The call of the writer ends where the reader is, and the full ring is taken for an empty
one. -/
def FillsUp (p : PipeFileBase) : Prop :=
  p.bufWPos < p.bufRPos ∧ p.bufWPos + p.stored.length = p.bufRPos

theorem HasAt.append {i : Nat} {pos : Int} (h : p.HasAt i pos) {q : PipeFileBase}
    {data : List UInt8} (hproduced : q.produced = p.produced ++ data) (hbuffer : q.buffer = p.buffer) :
    q.HasAt i pos := by
  obtain ⟨hpos, hbyte⟩ := h
  have hlt : pos.toNat < p.produced.length := by
    by_contra hle
    rw [List.getElem?_eq_none (by omega)] at hbyte
    cases hbyte
  refine ⟨hpos, ?_⟩
  rw [hproduced, hbuffer, List.getElem?_append_left hlt, hbyte]

theorem Ring.filled (h : p.Ring) {data : List UInt8} (hwriting : p.writing = some data)
    (hfull : ¬ p.FillsUp) (more : Bool) : (p.filled data more).Ring := by
  have hstored : p.stored = data := by rw [stored, hwriting]; rfl
  have hle := h.wPos_le
  have hstored_le := h.stored_le
  have hreserved := h.reserved_le
  have hbase : p.base = p.produced.length - p.bufWPos := rfl
  have hbase' : (p.filled data more).base = p.base := by
    simp only [base, PipeFileBase.filled, List.length_append]
    omega
  rw [FillsUp] at hfull
  rw [hstored] at hfull hstored_le
  refine ⟨h.rPos_le, ?_, Nat.le_refl _, fun _ => rfl, fun hlt => ?_, ?_, fun hcircle => ?_,
    fun i hi => ?_, fun j hj => absurd hj (Nat.not_lt_zero j), fun hcircle i hi hi' => ?_, ?_⟩
  · change p.bufWPos + data.length ≤ bufferSize
    omega
  · change p.bufWPos + data.length < p.bufRPos at hlt
    exact ⟨hlt.le, (h.behind (by omega)).2⟩
  · change p.bufWPos + data.length ≤ (p.produced ++ data).length
    rw [List.length_append]
    omega
  · rw [hbase']
    exact h.circle_le hcircle
  · change i < p.bufWPos + data.length at hi
    rw [hbase']
    by_cases hold : i < p.bufWPos
    · exact (h.round i hold).append rfl rfl
    · refine ⟨by omega, ?_⟩
      have hbyte := h.filling (i - p.bufWPos) (by rw [hstored]; omega)
      have hplace : (p.base + i).toNat = p.produced.length + (i - p.bufWPos) := by omega
      have hi' : p.bufWPos + (i - p.bufWPos) = i := by omega
      rw [hi'] at hbyte
      change (p.produced ++ data)[(p.base + i).toNat]? = some (p.buffer i)
      rw [hplace, List.getElem?_append_right (by omega), Nat.add_sub_cancel_left,
        List.getElem?_eq_getElem (by omega), hbyte]
      simp only [hstored]
  · rw [hbase']
    refine (h.lastRound hcircle i ?_ hi').append rfl rfl
    rw [hstored]
    exact hi
  · have hpos := h.currPos_eq
    have hr := h.behind
    rw [hbase']
    change p.currPos = if p.bufRPos ≤ p.bufWPos + data.length then _ else _
    by_cases hbefore : p.bufRPos ≤ p.bufWPos
    · rw [if_pos hbefore] at hpos
      rw [if_pos (by omega)]
      exact hpos
    · have hreserved_le := (hr (by omega)).1
      rw [if_neg hbefore] at hpos
      rw [if_neg (by omega)]
      exact hpos

end Write

section Runs

variable {p q : PipeFileBase} {e : Event}

/-- A full ring is not taken for an empty one. -/
def KeepsApart (p : PipeFileBase) : Event → Prop
  | .seek spos => ¬ p.SeeksFull spos
  | .read spos _ _ => ¬ p.SeeksFull spos
  | .filled _ => ¬ p.FillsUp
  | _ => True

theorem Ring.getD_seekInt (h : p.Ring) {spos : Int} (hfull : ¬ p.SeeksFull spos) :
    ((p.seekInt spos).getD p).Ring := by
  cases hseek : p.seekInt spos with
  | none => exact h
  | some q => exact (h.seekInt hfull hseek).1

theorem Ring.step (h : p.Ring) (hapart : p.KeepsApart e) (hstep : Step p e q) : q.Ring := by
  cases hstep with
  | reserve hidle => exact h.reserve hidle
  | store hwriting hroom => exact h.store hwriting hroom
  | filled more hwriting => exact h.filled hwriting hapart more
  | seek => exact h.getD_seekInt hapart
  | readFails => exact h
  | readWaits hseek => exact (h.seekInt hapart hseek).1
  | readReturns hseek => exact ((h.seekInt hapart hseek).1.readBuf (Nat.min_le_left _ _)).2

theorem Reached.ring (h : Reached KeepsApart p) : p.Ring := by
  induction h with
  | init => exact ring_init
  | step _ hapart hstep ih => exact ih.step hapart hstep

/-- Reads return bytes of the produced stream; a position is lost only to a reader that is not at
the current one, and while readers wait the writer does not move it. -/
def Right (p q : PipeFileBase) : Event → Prop
  | .read spos bsize (.returns data) => p.Serves spos data ∧ data.length ≤ bsize
  | .read spos _ .fails => spos ≠ p.currPos
  | .read spos _ .waits => q.currPos = spos
  | .seek _ => True
  | _ => q.currPos = p.currPos

theorem readBuf_length (p : PipeFileBase) (n : Nat) : (p.readBuf n).1.length = n := by
  rw [readBuf]
  split_ifs with hbefore hpiece
  · exact ByteStore.read_length ..
  · exact ByteStore.read_length ..
  · simp only [readPart, List.length_append, ByteStore.read_length]
    omega

theorem reserve_currPos (p : PipeFileBase) : p.reserve.currPos = p.currPos := by
  simp only [reserve, wrapped]
  split_ifs <;> rfl

theorem reads_right (h : Reached KeepsApart p) (hapart : p.KeepsApart e) (hstep : Step p e q) :
    Right p q e := by
  cases hstep with
  | reserve hidle => exact p.reserve_currPos
  | store hwriting hroom => rfl
  | filled more hwriting => rfl
  | seek => trivial
  | readFails hseek =>
    rintro rfl
    cases (p.seekInt_currPos).symm.trans hseek
  | readWaits hseek => exact (h.ring.seekInt hapart hseek).2.1
  | @readReturns p' spos bsize hseek =>
    obtain ⟨hring, hpos, hproduced, -⟩ := h.ring.seekInt hapart hseek
    have hserves := (hring.readBuf (Nat.min_le_left _ bsize)).1
    rw [hpos, Serves, hproduced] at hserves
    refine ⟨hserves, ?_⟩
    rw [readBuf_length]
    exact Nat.min_le_right _ _

def oneByte : PipeFileBase := (init.reserve.store [] [7]).filled [7] true

theorem reads_right_oneByte : ∃ q, Reached KeepsApart oneByte ∧
    Step oneByte (.read 0 1 (.returns [7])) q ∧ Right oneByte q (.read 0 1 (.returns [7])) := by
  have hreserved : Reached KeepsApart init.reserve :=
    Reached.init.step (e := .reserve) trivial (.reserve rfl rfl)
  have hstored : Reached KeepsApart (init.reserve.store [] [7]) :=
    hreserved.step (e := .store [7]) trivial (.store rfl (by decide))
  have hfilled : Reached KeepsApart oneByte :=
    hstored.step (e := .filled true) (fun hfull => absurd hfull.1 (Nat.not_lt_zero _))
      (.filled true rfl)
  have hstep : Step oneByte (.read 0 1 (.returns [7])) _ :=
    .readReturns (seekInt_currPos oneByte)
  have hpos : ¬ oneByte.SeeksFull 0 := fun hfull => hfull.2.1 rfl
  exact ⟨_, hfilled, hstep, reads_right hfilled hpos hstep⟩

end Runs

section FullRing

def readUp (zeros : List UInt8) : PipeFileBase where
  currPos := bufferSize
  bufWPos := bufferSize
  bufWReservedPos := bufferSize
  bufRPos := bufferSize
  bufCircle := false
  buffer := ByteStore.write (fun _ => 0) 0 zeros
  hasEof := false
  writing := none
  produced := zeros

def nextRound (zeros : List UInt8) : PipeFileBase :=
  { readUp zeros with
    bufWPos := 1
    bufWReservedPos := 1
    bufCircle := true
    buffer := ByteStore.write (readUp zeros).buffer 0 [1]
    produced := zeros ++ [1] }

/-- The reader has gone back by a whole buffer, and the writer brings one more byte. -/
def misplaced (zeros : List UInt8) : PipeFileBase :=
  { nextRound zeros with
    currPos := 1
    bufRPos := 1
    bufWPos := 2
    bufWReservedPos := 2
    buffer := ByteStore.write (nextRound zeros).buffer 1 [2]
    produced := zeros ++ [1] ++ [2] }

/-- A state that any run may come to. -/
abbrev Reachable : PipeFileBase → Prop := Reached fun _ _ => True

variable {zeros : List UInt8}

theorem sizes : 0 < bufferKeepFree ∧ bufferKeepFree + 1 < bufferSize := by decide

theorem Reached.written {p : PipeFileBase} (h : Reachable p) {d : List UInt8}
    (hidle : p.writing = none) (heof : p.hasEof = false) (hsome : p.wrapped.bsizeFree ≠ 0)
    (hroom : d.length ≤ p.wrapped.bsizeFree) :
    Reachable { p.wrapped with
      bufWPos := p.wrapped.bufWPos + d.length
      bufWReservedPos := p.wrapped.bufWPos + d.length
      buffer := p.wrapped.buffer.write p.wrapped.bufWPos d
      hasEof := false
      writing := none
      produced := p.wrapped.produced ++ d } := by
  have hreserved := h.step trivial (.reserve hidle heof)
  rw [PipeFileBase.reserve, if_neg hsome] at hreserved
  have hstored := hreserved.step (e := .store d) trivial
    (.store rfl (Nat.add_le_add_left hroom _))
  exact hstored.step (e := .filled true) trivial (.filled true rfl)

theorem reached_readUp (h : zeros.length = bufferSize) : Reachable (readUp zeros) := by
  have hwritten := Reached.written (p := init) .init (d := zeros) rfl rfl (by decide) h.le
  have hread := hwritten.step (e := .read 0 bufferSize _) trivial (.readReturns (seekInt_currPos _))
  simpa [PipeFileBase.readBuf, getReadAvail, readPart, init, PipeFileBase.wrapped, h, readUp] using hread

theorem reached_nextRound (h : zeros.length = bufferSize) : Reachable (nextRound zeros) := by
  obtain ⟨hkeep, hsize⟩ := sizes
  have hwrapped : (readUp zeros).wrapped =
      { readUp zeros with bufCircle := true, bufWPos := 0, bufWReservedPos := 0 } :=
    if_pos ⟨rfl, Nat.lt_of_succ_lt hsize⟩
  have hfree : (readUp zeros).wrapped.bsizeFree = bufferSize - bufferKeepFree := by
    rw [hwrapped]
    exact if_pos (Nat.lt_of_le_of_lt (Nat.zero_le _) hsize)
  have hwritten := (reached_readUp h).written (d := [1]) rfl rfl (by omega)
    (by rw [hfree, List.length_singleton]; omega)
  rw [hwrapped] at hwritten
  exact hwritten

theorem reached_misplaced (h : zeros.length = bufferSize) : Reachable (misplaced zeros) := by
  obtain ⟨hkeep, hsize⟩ := sizes
  have hseek : (nextRound zeros).seekInt 1 =
      some { nextRound zeros with currPos := 1, bufRPos := 1 } := by
    have hplace : (nextRound zeros).seekedRPos 1 = 1 := by
      change (bufferSize : Int) + (1 - bufferSize) = 1
      omega
    have hmoves : ¬ (1 : Int) - bufferSize = 0 := by omega
    have hbehind : ¬ bufferSize ≤ 1 := by omega
    rw [PipeFileBase.seekInt, hplace]
    exact (if_neg hmoves).trans ((if_neg hbehind).trans (if_pos ⟨Int.le_refl 1, by omega⟩))
  have hseeked := (reached_nextRound h).step (e := .seek 1) trivial .seek
  rw [hseek, Option.getD_some] at hseeked
  have hwrapped : ({ nextRound zeros with currPos := 1, bufRPos := 1 } : PipeFileBase).wrapped =
      { nextRound zeros with currPos := 1, bufRPos := 1 } := by
    refine if_neg fun hend => ?_
    have hone : 1 = bufferSize := hend.1
    omega
  have hfree : ({ nextRound zeros with currPos := 1, bufRPos := 1 } :
      PipeFileBase).wrapped.bsizeFree = bufferSize - 1 := by
    have hroom : ¬ bufferSize - 1 + 1 < bufferKeepFree := by omega
    rw [hwrapped]
    exact (if_neg (Nat.lt_irrefl 1)).trans (if_neg hroom)
  have hwritten := hseeked.written (d := [2]) rfl rfl (by omega)
    (by rw [hfree, List.length_singleton]; omega)
  rw [hwrapped] at hwritten
  exact hwritten

/-- The seek to a place that the reader passed has succeeded, and the read there gives a byte from
a whole buffer later. -/
theorem misplaced_read_wrong : ∃ p q : PipeFileBase, Reachable p ∧
    Step p (.read 1 1 (.returns [2])) q ∧ ¬ p.Serves 1 [2] := by
  have hlength : (List.replicate bufferSize (0 : UInt8)).length = bufferSize :=
    List.length_replicate
  have hstep : Step (misplaced (List.replicate bufferSize 0)) (.read 1 1 (.returns [2])) _ :=
    .readReturns (seekInt_currPos _)
  refine ⟨_, _, reached_misplaced hlength, hstep, ?_⟩
  rintro ⟨-, -, hbytes⟩
  obtain ⟨-, hsize⟩ := sizes
  have hread : ((misplaced (List.replicate bufferSize 0)).produced.drop 1)[0]? = some 2 := by
    have hfirst : (((misplaced (List.replicate bufferSize 0)).produced.drop 1).take 1)[0]? = some 2 :=
      congrArg (fun data => data[0]?) hbytes
    rwa [List.getElem?_take_of_lt Nat.one_pos] at hfirst
  have hzero : (misplaced (List.replicate bufferSize 0)).produced[1]? = some 0 := by
    change (List.replicate bufferSize (0 : UInt8) ++ [1] ++ [2])[1]? = some 0
    rw [List.append_assoc, List.getElem?_append_left (by rw [hlength]; omega),
      List.getElem?_replicate, if_pos (by omega)]
  rw [List.getElem?_drop, hzero] at hread
  cases hread

end FullRing

end PipeFileBase
end UrBackup
