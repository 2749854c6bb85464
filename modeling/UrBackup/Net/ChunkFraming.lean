import UrBackup.Net.SendChunk

/-! The framing of the replies to block requests: whether every header is followed by the data it
announces. -/
namespace UrBackup
namespace SendChunk

/-- The data that is owed behind the writes, if no message starts before the data of the one in
front of it is complete and none has more data than announced. -/
def owed : Nat → List Write → Option Nat
  | n, [] => some n
  | n, .data buf :: ws => if buf.length ≤ n then owed (n - buf.length) ws else none
  | 0, .wholeBlock _ size buf :: ws
  | 0, .updateChunk _ size buf :: ws =>
    if buf.length ≤ size then owed (size - buf.length) ws else none
  | 0, _ :: ws => owed 0 ws
  | _ + 1, _ :: _ => none

def Framed (ws : List Write) : Prop := owed 0 ws = some 0

instance (ws : List Write) : Decidable (Framed ws) := inferInstanceAs (Decidable (_ = _))

theorem owed_append (n : Nat) (ws vs : List Write) :
    owed n (ws ++ vs) = (owed n ws).bind fun m => owed m vs := by
  induction n, ws using owed.induct with
  | case1 n => simp [owed]
  | case2 n buf ws h ih => simp [owed, h, ih]
  | case3 n buf ws h => simp [owed, h]
  | case4 startpos size buf ws h ih => simp [owed, h, ih]
  | case5 startpos size buf ws h => simp [owed, h]
  | case6 startpos size buf ws h ih => simp [owed, h, ih]
  | case7 startpos size buf ws h => simp [owed, h]
  | case8 w ws hdata hwhole hupdate ih => cases w <;> simp_all [owed]
  | case9 n w ws hdata => cases w <;> simp_all [owed]

theorem Framed.append {ws vs : List Write} (hws : Framed ws) (hvs : Framed vs) :
    Framed (ws ++ vs) := by
  simpa only [Framed, owed_append, show owed 0 ws = some 0 from hws, Option.bind_some] using hvs

theorem framed_append_message {ws : List Write} {w : Write}
    (h : ∀ n, owed n [w] = some 0 ↔ n = 0) : Framed (ws ++ [w]) ↔ Framed ws := by
  simp only [Framed, owed_append]
  cases owed 0 ws with
  | none => simp
  | some n => simpa using h n

section Whole

variable {t : SendThread} {f : ServedFile} {startpos : Int}

/-- The loop is at a read that meets the end of the file. -/
def WholeBlock.MeetsEnd (f : ServedFile) (b : WholeBlock) : Prop :=
  b.r < b.toread ∧ (b.added f).length = 0 ∧ (b.reading f).sizeKnown

/-- The loop is at a read that brings data to send. -/
def WholeBlock.Delivers (f : ServedFile) (b : WholeBlock) : Prop :=
  b.r < b.toread ∧ 0 < (b.added f).length

/-- What was sent of a whole block while `lost` bytes behind the end of the file were not. -/
structure WholeBlock.Tracks (t : SendThread) (startpos : Int) (b : WholeBlock) (lost : Nat) :
    Prop where
  toread_eq : b.toread = min b.blockleft chunkSize
  r_le : b.r ≤ b.toread
  begun : b.offSent = true → owed 0 b.sent = some (b.blockleft - b.r + lost)
  fresh : b.offSent = false → b.sent = [] ∧ b.blockleft - b.r + lost = t.blockSize startpos

theorem tracks_startBlock : (t.startBlock startpos).Tracks t startpos 0 :=
  ⟨rfl, Nat.zero_le _, fun h => (by cases h), fun _ => ⟨rfl, rfl⟩⟩

theorem WholeBlock.added_length (b : WholeBlock) : (b.added f).length ≤ b.toread - b.r := by
  have hread := f.read_length b.calls b.spos (b.toread - b.r)
  change (b.reading f).data.length ≤ _ at hread
  by_cases herror : (b.reading f).hasError
  · simp only [added, herror, if_true, List.length_append, List.length_replicate]
    omega
  · simpa only [added, herror, Bool.false_eq_true, if_false] using hread

theorem WholeBlock.Tracks.meetsEnd {b : WholeBlock} {lost : Nat} (h : b.Tracks t startpos lost)
    (hend : b.MeetsEnd f) :
    (b.readOnce t f startpos).Tracks t startpos (lost + (b.toread - b.r)) ∧
      (b.readOnce t f startpos).offSent = b.offSent := by
  obtain ⟨hr, hadded, hknown⟩ := hend
  have htoread := h.toread_eq
  have hleft : b.blockleft - b.toread + (lost + (b.toread - b.r)) = b.blockleft - b.r + lost := by
    omega
  rw [readOnce, if_pos ⟨hadded, hknown⟩]
  refine ⟨⟨h.toread_eq, Nat.le_refl _, fun hsent => ?_, fun hsent => ?_⟩, rfl⟩
  · exact (h.begun hsent).trans (congrArg some hleft.symm)
  · exact ⟨(h.fresh hsent).1, hleft.trans (h.fresh hsent).2⟩

theorem WholeBlock.Tracks.delivers {b : WholeBlock} {lost : Nat} (h : b.Tracks t startpos lost)
    (hdelivers : b.Delivers f) :
    (b.readOnce t f startpos).Tracks t startpos lost ∧
      (b.readOnce t f startpos).offSent = true := by
  obtain ⟨hr, hadded⟩ := hdelivers
  have htoread := h.toread_eq
  have hlength := b.added_length (f := f)
  rw [readOnce, if_neg fun hend => hadded.ne' hend.1, if_pos hadded]
  refine ⟨⟨h.toread_eq, ?_, fun _ => ?_, fun hsent => (by cases hsent)⟩, rfl⟩
  · change b.r + (b.added f).length ≤ b.toread
    omega
  change owed 0 (b.sent ++ _) = some (b.blockleft - (b.r + (b.added f).length) + lost)
  cases hsent : b.offSent with
  | true =>
    rw [owed_append, h.begun hsent]
    simp only [Option.bind_some, if_true, owed]
    rw [if_pos (by omega)]
    exact congrArg some (by omega)
  | false =>
    obtain ⟨hnone, hsize⟩ := h.fresh hsent
    simp only [hnone, List.nil_append, owed, Bool.false_eq_true, if_false]
    rw [if_pos (by omega)]
    exact congrArg some (by omega)

theorem WholeBlock.Tracks.waits {b : WholeBlock} {lost : Nat} (h : b.Tracks t startpos lost)
    (hr : b.r < b.toread) (hend : ¬ b.MeetsEnd f) (hdelivers : ¬ b.Delivers f) :
    (b.readOnce t f startpos).Tracks t startpos lost ∧
      (b.readOnce t f startpos).offSent = b.offSent := by
  rw [readOnce, if_neg fun h => hend ⟨hr, h⟩, if_neg fun h => hdelivers ⟨hr, h⟩]
  exact ⟨⟨h.toread_eq, h.r_le, h.begun, h.fresh⟩, rfl⟩

theorem WholeBlock.turn_reading {b : WholeBlock} (h : b.r < b.toread) :
    b.turn t f startpos = .inr (b.readOnce t f startpos) := if_pos h

theorem WholeBlock.Tracks.endsPart {b : WholeBlock} {lost : Nat} (h : b.Tracks t startpos lost)
    (hr : ¬ b.r < b.toread) :
    (∃ b', b.turn t f startpos = .inr b' ∧ b'.Tracks t startpos lost ∧ b'.offSent = b.offSent) ∨
      ∃ c, b.turn t f startpos = .inl c ∧ c.sent = b.sent ∧ b.blockleft = b.r := by
  have htoread := h.toread_eq
  have hle := h.r_le
  have hleft : (if b.r ≤ b.blockleft then b.blockleft - b.r else 0) = b.blockleft - b.r := by
    rw [if_pos (by omega)]
  rw [turn, if_neg hr, hleft]
  by_cases hmore : b.r = chunkSize ∧ 0 < b.blockleft - b.r
  · rw [if_pos hmore]
    exact .inl ⟨_, rfl, ⟨rfl, Nat.zero_le _, h.begun, h.fresh⟩, rfl⟩
  · rw [if_neg hmore]
    refine .inr ⟨_, rfl, rfl, ?_⟩
    by_contra hne
    exact hmore ⟨by omega, by omega⟩

theorem WholeBlock.framed_iff {b c : WholeBlock}
    (hends : Loop.Ends (WholeBlock.turn t f startpos) b c) :
    ∀ lost, b.Tracks t startpos lost → (Framed c.sent ↔
      (lost = 0 ∧ ∀ x, Loop.Reaches (WholeBlock.turn t f startpos) b x → ¬ x.MeetsEnd f) ∨
      (b.offSent = false ∧
        ∀ x, Loop.Reaches (WholeBlock.turn t f startpos) b x → ¬ x.Delivers f)) := by
  refine hends.rule (P := fun b c => ∀ lost, b.Tracks t startpos lost → (Framed c.sent ↔
      (lost = 0 ∧ ∀ x, Loop.Reaches (WholeBlock.turn t f startpos) b x → ¬ x.MeetsEnd f) ∨
      (b.offSent = false ∧
        ∀ x, Loop.Reaches (WholeBlock.turn t f startpos) b x → ¬ x.Delivers f))) ?_ ?_
  · intro b c hbody lost h
    have hr : ¬ b.r < b.toread := fun hr => (by cases (turn_reading hr).symm.trans hbody)
    rw [Loop.forall_reaches_done hbody, Loop.forall_reaches_done hbody]
    obtain ⟨b', hturn, -⟩ | ⟨c', hturn, hsent, hleft⟩ := h.endsPart (f := f) hr
    · cases hturn.symm.trans hbody
    · cases hturn.symm.trans hbody
      rw [Framed, hsent]
      cases hoff : b.offSent with
      | true => simp [h.begun hoff, hleft, MeetsEnd, hr]
      | false => simp [(h.fresh hoff).1, owed, Delivers, hr]
  · intro b b' c hbody ih lost h
    rw [Loop.forall_reaches_turn hbody, Loop.forall_reaches_turn hbody]
    by_cases hr : b.r < b.toread
    · cases (turn_reading hr).symm.trans hbody
      by_cases hend : b.MeetsEnd f
      · obtain ⟨htracks, hoff⟩ := h.meetsEnd (f := f) hend
        have hnone : ¬ b.Delivers f := fun hdelivers => hdelivers.2.ne' hend.2.1
        have hlost : lost + (b.toread - b.r) ≠ 0 := by omega
        simp only [ih _ htracks, hoff, hend, hnone, hlost, not_true_eq_false, not_false_eq_true,
          true_and, false_and, and_false]
      · by_cases hdelivers : b.Delivers f
        · obtain ⟨htracks, hoff⟩ := h.delivers hdelivers
          simp [ih _ htracks, hoff, hend, hdelivers]
        · obtain ⟨htracks, hoff⟩ := h.waits hr hend hdelivers
          simp [ih _ htracks, hoff, hend, hdelivers]
    · have hend : ¬ b.MeetsEnd f := fun hend => hr hend.1
      have hdelivers : ¬ b.Delivers f := fun hdelivers => hr hdelivers.1
      obtain ⟨b'', hturn, htracks, hoff⟩ | ⟨c', hturn, -⟩ := h.endsPart (f := f) hr
      · cases hturn.symm.trans hbody
        simp [ih _ htracks, hoff, hend, hdelivers]
      · cases hturn.symm.trans hbody

theorem WholeBlock.framed_finish {b : WholeBlock} :
    Framed (b.finish t startpos).sent ↔ Framed b.sent := by
  rw [finish]
  cases b.readerr with
  | none => exact framed_append_message fun n => by cases n <;> simp [owed]
  | some code => exact framed_append_message fun n => by cases n <;> simp [owed]

end Whole

section Update

variable {t : SendThread} {f : ServedFile} {c : SChunk}

/-- The chunks so far were sent as they are, and the buffer has all of them. -/
structure UpdateBlock.Tracks (u : UpdateBlock) : Prop where
  framed : Framed u.sent
  readTotal_eq : u.readTotal = u.block.length

theorem tracks_startUpdate : (t.startUpdate c).Tracks := ⟨rfl, rfl⟩

theorem UpdateBlock.Tracks.sendPart {u : UpdateBlock} (h : u.Tracks) :
    (u.sendPart t c).Tracks := by
  have hsent : Framed (u.sent ++ [.updateChunk u.currPos u.part.length u.part]) :=
    h.framed.append (by simp [Framed, owed])
  have hread : u.readTotal + u.part.length = (u.block ++ u.part).length := by
    rw [List.length_append, h.readTotal_eq]
  rw [UpdateBlock.sendPart]
  dsimp only
  split_ifs
  · exact ⟨hsent, hread⟩
  · exact ⟨h.framed, hread⟩
  · exact ⟨h.framed, hread⟩

theorem UpdateBlock.Tracks.endPart {u : UpdateBlock} (h : u.Tracks) :
    (∃ u', u.endPart t c = .inr u' ∧ u'.Tracks) ∨
      ∃ u', u.endPart t c = .inl u' ∧ u'.Tracks := by
  have hsend := h.sendPart (t := t) (c := c)
  rw [UpdateBlock.endPart]
  split_ifs
  · exact .inl ⟨_, rfl, hsend.framed, hsend.readTotal_eq⟩
  · exact .inr ⟨_, rfl, hsend⟩

theorem UpdateBlock.Tracks.turn {u : UpdateBlock} (h : u.Tracks) :
    (∃ u', u.turn t f c = .inr u' ∧ u'.Tracks) ∨
      ∃ u', u.turn t f c = .inl u' ∧ u'.Tracks := by
  rw [UpdateBlock.turn]
  dsimp only
  split_ifs
  · exact .inr ⟨_, rfl, h.framed, h.readTotal_eq⟩
  · exact endPart ⟨h.framed, h.readTotal_eq⟩
  · exact .inl ⟨_, rfl, h.framed, h.readTotal_eq⟩
  · exact .inl ⟨_, rfl, h.framed, h.readTotal_eq⟩
  · exact h.endPart

theorem UpdateBlock.tracks_of_ends {u : UpdateBlock}
    (h : Loop.Ends (UpdateBlock.turn t f c) (t.startUpdate c) u) : u.Tracks := by
  refine h.keeps (I := UpdateBlock.Tracks) ?_ ?_ tracks_startUpdate
  · intro u u' hbody hu
    obtain ⟨v, hturn, hv⟩ | ⟨v, hturn, hv⟩ := hu.turn (t := t) (f := f) (c := c)
    · cases hturn.symm.trans hbody
    · cases hturn.symm.trans hbody
      exact hv
  · intro u u' hbody hu
    obtain ⟨v, hturn, hv⟩ | ⟨v, hturn, hv⟩ := hu.turn (t := t) (f := f) (c := c)
    · cases hturn.symm.trans hbody
      exact hv
    · cases hturn.symm.trans hbody

theorem UpdateBlock.Tracks.finish {u : UpdateBlock} (h : u.Tracks) (cbtUnchanged : Bool) :
    Framed (u.finish t c cbtUnchanged).sent := by
  rw [UpdateBlock.finish]
  cases u.readerr with
  | some code => exact h.framed.append (by simp [Framed, owed])
  | none =>
    dsimp only
    split_ifs
    · exact h.framed.append (by simp [Framed, owed, h.readTotal_eq])
    · exact h.framed.append (by simp [Framed, owed])
    · exact h.framed.append (by simp [Framed, owed])

end Update

/-- In a reply of a whole block no read meets the end of the file, or none brings data. -/
def SendThread.EndsApart (t : SendThread) (chunk : SChunk) : Prop :=
  ∀ f, t.file = some f → f.seeks chunk.startpos = true → chunk.transferAll = true →
    (∀ b, Loop.Reaches (WholeBlock.turn t f chunk.startpos) (t.startBlock chunk.startpos) b →
      ¬ b.MeetsEnd f) ∨
    ∀ b, Loop.Reaches (WholeBlock.turn t f chunk.startpos) (t.startBlock chunk.startpos) b →
      ¬ b.Delivers f

theorem sends_framed_iff {t : SendThread} {cbtUnchanged : Bool} {chunk : SChunk} {reply : Reply}
    (h : Sends t cbtUnchanged chunk reply) : Framed reply.sent ↔ t.EndsApart chunk := by
  cases h with
  | noFile hfile =>
    refine iff_of_true rfl fun f hf => ?_
    cases hfile.symm.trans hf
  | seekingFailed hfile hseek =>
    refine iff_of_true rfl fun f hf hf' => ?_
    cases hfile.symm.trans hf
    cases hseek.symm.trans hf'
  | @whole f b hfile hseek hall hends =>
    rw [WholeBlock.framed_finish, WholeBlock.framed_iff hends 0 tracks_startBlock]
    simp [SendThread.EndsApart, hfile, hseek, hall, SendThread.startBlock]
  | unchanged hfile hseek hall =>
    refine iff_of_true (tracks_startUpdate.finish _) fun f _ _ hwhole => ?_
    cases hall.symm.trans hwhole
  | update hfile hseek hall hcbt hends =>
    refine iff_of_true ((UpdateBlock.tracks_of_ends hends).finish _) fun f _ _ hwhole => ?_
    cases hall.symm.trans hwhole

section Truncated

def oneByteFile : ServedFile where
  seeks _ := true
  seekCode := 0
  read _ spos bsize := { data := if spos = 0 ∧ 0 < bsize then [7] else [] }
  read_length := by
    intro call spos bsize
    dsimp only
    split_ifs with h
    · exact h.2
    · exact Nat.zero_le _

def oneByteThread (currFileSize : Int) : SendThread where
  file := some oneByteFile
  currFileSize := currFileSize
  currHashSize := 0
  md5 := fun _ => List.replicate bigHashSize 0

def firstBlock : SChunk where
  startpos := 0
  transferAll := true
  bigHash := []
  smallHash := []

def oneByteReply (blocksize : Nat) : Reply :=
  ⟨[.wholeBlock 0 blocksize [7], .blockHash 0 (List.replicate bigHashSize 0)], true⟩

def oneByteSent (blocksize : Nat) : WholeBlock where
  calls := blocksize
  spos := 1
  blockleft := 0
  toread := blocksize
  r := blocksize
  offSent := true
  md5Hash := [7]
  sent := [.wholeBlock 0 blocksize [7]]

theorem sends_oneByte :
    Sends (oneByteThread 1) false firstBlock (oneByteReply 1) :=
  .whole (f := oneByteFile) (b := oneByteSent 1) rfl rfl rfl ⟨3, rfl⟩

theorem sends_cutFile :
    Sends (oneByteThread 2) false firstBlock (oneByteReply 2) :=
  .whole (f := oneByteFile) (b := oneByteSent 2) rfl rfl rfl ⟨4, rfl⟩

theorem sends_framed_oneByte :
    Sends (oneByteThread 1) false firstBlock (oneByteReply 1) ∧
      (oneByteThread 1).EndsApart firstBlock :=
  ⟨sends_oneByte, (sends_framed_iff sends_oneByte).mp (by decide)⟩

theorem cutFile_not_framed :
    ∃ reply, Sends (oneByteThread 2) false firstBlock reply ∧ ¬ Framed reply.sent :=
  ⟨oneByteReply 2, sends_cutFile, by decide⟩

end Truncated

end SendChunk
end UrBackup
