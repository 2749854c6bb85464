import UrBackup.Images.ImageStream

/-! The server does the same with an image whatever reads it comes in, if the first of them has
the whole first packet. -/
namespace UrBackup

open ByteOrder Feeding

namespace ImageSession

section Fragmentation

variable {κ : Type*} {req : ImageRequest} {core : ImageCore κ}

theorem bytesAt_append {off n : Nat} {a : List UInt8} (h : off + n ≤ a.length) (b : List UInt8) :
    bytesAt (a ++ b) off n = bytesAt a off n := by
  have hdrop : n ≤ (a.drop off).length := by
    rw [List.length_drop]
    omega
  unfold bytesAt
  rw [List.drop_append_of_le_length (by omega), List.take_append_of_le_length hdrop]

/-- A message does not change with what comes behind it. -/
theorem message_append {s : ImageSession κ} {a : List UInt8}
    (h : s.message core a ≠ .wait) (b : List UInt8) :
    s.message core (a ++ b) = s.message core a := by
  have hlong : 8 ≤ a.length := by
    by_contra hshort
    apply h
    unfold message
    exact if_pos (Nat.not_le.mp hshort)
  have hhead : (a ++ b).take 8 = a.take 8 := List.take_append_of_le_length hlong
  have hlength : a.length ≤ (a ++ b).length := by
    rw [List.length_append]
    omega
  unfold message at h ⊢
  rw [if_neg (Nat.not_lt.mpr hlong)] at h ⊢
  rw [if_neg (Nat.not_lt.mpr (hlong.trans hlength)), hhead]
  dsimp only at h ⊢
  split
  next => rfl
  next hfinish =>
    rw [if_neg hfinish] at h
    split
    next => rfl
    next herror =>
      rw [if_neg herror] at h
      split
      next => rfl
      next hping =>
        rw [if_neg hping] at h
        split
        next hchecksum =>
          rw [if_pos hchecksum] at h
          have henough : 16 + shaSize ≤ a.length := by
            by_contra hshort
            exact h (if_pos (Nat.not_le.mp hshort))
          rw [if_neg (Nat.not_lt.mpr henough),
            if_neg (Nat.not_lt.mpr (henough.trans hlength)),
            bytesAt_append (by omega), bytesAt_append henough]
        next hchecksum =>
          rw [if_neg hchecksum] at h
          split
          next hempty =>
            rw [if_pos hempty] at h
            have henough : 16 ≤ a.length := by
              by_contra hshort
              exact h (if_pos (Nat.not_le.mp hshort))
            rw [if_neg (Nat.not_lt.mpr henough),
              if_neg (Nat.not_lt.mpr (henough.trans hlength))]
          next => rfl

theorem message_bounds {s s' : ImageSession κ} {a : List UInt8} {n : Nat}
    (h : s.message core a = .take n s') : 0 < n ∧ n ≤ a.length := by
  unfold message at h
  split at h
  next => cases h
  next hlong =>
    dsimp only at h
    split at h
    · cases h
    · split at h
      · cases h
      · split at h
        · cases h
          omega
        · split at h
          next =>
            split at h
            next => cases h
            next henough =>
              split at h
              next => cases h
              next =>
                cases h
                exact ⟨Nat.add_pos_left (by decide) _, Nat.not_lt.mp henough⟩
          next =>
            split at h
            · split at h
              · cases h
              · cases h
            · split at h
              · cases h
              · cases h
                omega

theorem next_bitmap {s : ImageSession κ} (hstate : s.transferState = .bitmap)
    (hsize : ¬ 1024 * 1024 * 1024 < s.bitmapSize) (data : List UInt8) :
    next req core s data = collect (s.bitmapSize + shaSize - s.bitmap.length)
      (fun part => { s with bitmap := s.bitmap ++ part })
      (fun part => checkBitmap req { s with bitmap := s.bitmap ++ part }) data := by
  unfold next
  rw [hstate]
  dsimp only
  by_cases hdata : data = []
  · rw [if_pos hdata]
    unfold collect
    rw [if_pos (.inl hdata)]
  · rw [if_neg hdata, if_neg hsize]

theorem next_ne_take {s s' : ImageSession κ} (hstate : s.transferState = .bitmap)
    (hsize : 1024 * 1024 * 1024 < s.bitmapSize) {data : List UInt8} {n : Nat} :
    next req core s data ≠ .take n s' := by
  unfold next
  rw [hstate]
  dsimp only
  rw [if_pos hsize]
  split
  · nofun
  · nofun

theorem next_block {s : ImageSession κ} (hstate : s.transferState = .image)
    (hleft : s.blockleft ≠ 0) (data : List UInt8) :
    next req core s data = collect s.blockleft s.fillBlock (s.writeBlock core) data := by
  unfold next
  rw [hstate]
  exact if_pos hleft

theorem next_message {s : ImageSession κ} (hstate : s.transferState = .image)
    (hleft : s.blockleft = 0) (data : List UInt8) :
    next req core s data = s.message core data := by
  unfold next
  rw [hstate]
  exact if_neg (not_not.mpr hleft)

theorem next_fillBlock {s : ImageSession κ} (hstate : s.transferState = .image) {a : List UInt8}
    (hlt : a.length < s.blockleft) (data : List UInt8) :
    next req core (s.fillBlock a) data = collect (s.blockleft - a.length)
      (fun d => s.fillBlock (a ++ d)) (fun d => s.writeBlock core (a ++ d)) data := by
  have hleft : (s.fillBlock a).blockleft ≠ 0 := Nat.sub_ne_zero_of_lt hlt
  have hfill : (s.fillBlock a).fillBlock = fun d => s.fillBlock (a ++ d) := by
    funext d
    unfold fillBlock
    rw [List.append_assoc, List.length_append, Nat.sub_sub]
  have hwrite : (s.fillBlock a).writeBlock core = fun d => s.writeBlock core (a ++ d) := by
    funext d
    unfold writeBlock fillBlock
    rw [List.append_assoc]
  have hblock := @next_block _ req core (s.fillBlock a) hstate hleft data
  rw [hfill, hwrite] at hblock
  exact hblock

theorem next_bitmap_part {s : ImageSession κ} (hstate : s.transferState = .bitmap)
    (hsize : ¬ 1024 * 1024 * 1024 < s.bitmapSize) (a data : List UInt8) :
    next req core { s with bitmap := s.bitmap ++ a } data =
      collect (s.bitmapSize + shaSize - s.bitmap.length - a.length)
        (fun d => { s with bitmap := s.bitmap ++ (a ++ d) })
        (fun d => checkBitmap req { s with bitmap := s.bitmap ++ (a ++ d) }) data := by
  have hbitmap := @next_bitmap _ req core { s with bitmap := s.bitmap ++ a } hstate hsize data
  simp only [List.append_assoc, List.length_append, Nat.sub_add_eq] at hbitmap
  exact hbitmap

/-- What the server does with its data does not change when there are more. -/
theorem coherent_next : Coherent (next req core) := by
  refine ⟨?_, ?_, ?_, ?_⟩
  · intro s a n s' h
    cases hstate : s.transferState with
    | bitmap =>
      by_cases hsize : 1024 * 1024 * 1024 < s.bitmapSize
      · exact absurd h (next_ne_take hstate hsize)
      · rw [next_bitmap hstate hsize] at h
        exact collect_bounds h
    | image =>
      by_cases hleft : s.blockleft = 0
      · rw [next_message hstate hleft] at h
        exact message_bounds h
      · rw [next_block hstate hleft] at h
        exact collect_bounds h
  · intro s a n s' h hn b
    cases hstate : s.transferState with
    | bitmap =>
      by_cases hsize : 1024 * 1024 * 1024 < s.bitmapSize
      · exact absurd h (next_ne_take hstate hsize)
      · rw [next_bitmap hstate hsize] at h ⊢
        exact collect_take h hn b
    | image =>
      by_cases hleft : s.blockleft = 0
      · rw [next_message hstate hleft] at h ⊢
        rw [message_append (by rw [h]; nofun), h]
      · rw [next_block hstate hleft] at h ⊢
        exact collect_take h hn b
  · intro s a s' h b
    cases hstate : s.transferState with
    | bitmap =>
      by_cases hsize : 1024 * 1024 * 1024 < s.bitmapSize
      · exact absurd h (next_ne_take hstate hsize)
      · exact collect_all (next_bitmap hstate hsize)
          (fun part _ _ data => next_bitmap_part hstate hsize part data) h b
    | image =>
      by_cases hleft : s.blockleft = 0
      · have hmessage := h
        rw [next_message hstate hleft] at hmessage
        obtain ⟨hpos, hle⟩ := message_bounds hmessage
        have hboth : next req core s (a ++ b) = .take a.length s' := by
          rw [next_message hstate hleft, message_append (by rw [hmessage]; nofun), hmessage]
        have hbound : 0 < a.length ∧ a.length ≤ (a ++ b).length := by
          rw [List.length_append]
          omega
        rw [drain_take hboth hbound, List.drop_left]
      · exact collect_all (next_block hstate hleft)
          (fun part _ hlt data => next_fillBlock hstate hlt data) h b
  · intro s a s' h b
    cases hstate : s.transferState with
    | bitmap =>
      by_cases hsize : 1024 * 1024 * 1024 < s.bitmapSize
      · unfold next at h ⊢
        rw [hstate] at h ⊢
        dsimp only at h ⊢
        rw [if_pos hsize] at h ⊢
        split at h
        next => cases h
        next hne => rw [if_neg (List.append_ne_nil_of_left_ne_nil hne b), h]
      · rw [next_bitmap hstate hsize] at h ⊢
        exact collect_stop h b
    | image =>
      by_cases hleft : s.blockleft = 0
      · rw [next_message hstate hleft] at h ⊢
        rw [message_append (by rw [h]; nofun), h]
      · rw [next_block hstate hleft] at h ⊢
        exact collect_stop h b

end Fragmentation

section FirstPacket

variable {κ : Type*} {req : ImageRequest} {core : ImageCore κ}

/-- The first packet was not read to its end, so that parts of it are missing. -/
def Cut (r : FirstRead κ) (s : ImageSession κ) : Prop :=
  match r with
  | .small s' => s'.header.length < s.header.length
  | .stop s' => s'.header.length < s.header.length
  | .complete _ _ => False

/-- A part of data that are read as a first packet. -/
def ReadsAs (part : FirstRead κ) (length : Nat) (s : ImageSession κ) (off : Nat) : Prop :=
  (off ≤ length → part = .complete s off) ∧ (length < off → Cut part s)

theorem readsAs_small {s s' : ImageSession κ} {length off : Nat} (hoff : length < off)
    (hheader : s.header.length < s'.header.length) : ReadsAs (.small s) length s' off :=
  ⟨fun hle => absurd hoff (Nat.not_lt.mpr hle), fun _ => hheader⟩

@[simp] theorem header_addPart (s : ImageSession κ) (part : HeaderPart) :
    (s.addPart part).header.length = s.header.length + 1 := List.length_append

section Checksum

variable {s s' : ImageSession κ} {buffer a b : List UInt8} {csize off : Nat}

theorem firstChecksum_complete (h : firstChecksum req s buffer csize = .complete s' off) :
    s.header.length ≤ s'.header.length ∧ csize ≤ off := by
  unfold firstChecksum at h
  split at h
  · split at h
    · cases h
    · split at h
      · cases h
      · cases h
        exact ⟨header_addPart s _ ▸ Nat.le_succ _, Nat.le_add_right _ _⟩
  · cases h
    exact ⟨le_rfl, le_rfl⟩

theorem firstChecksum_append (hle : csize ≤ a.length)
    (h : firstChecksum req s (a ++ b) csize = .complete s' off) :
    ReadsAs (firstChecksum req s a csize) a.length s' off := by
  unfold firstChecksum at h ⊢
  rw [List.take_append_of_le_length hle] at h
  split at h
  next hchecksum =>
    rw [if_pos hchecksum]
    split at h
    next => cases h
    next =>
      split at h
      next => cases h
      next hsum =>
        cases h
        by_cases hoff : csize + shaSize ≤ a.length
        · rw [bytesAt_append hoff] at hsum
          rw [if_neg (Nat.not_lt.mpr hoff), if_neg hsum]
          exact ⟨fun _ => rfl, fun hlt => absurd hoff (Nat.not_le.mpr hlt)⟩
        · rw [if_pos (Nat.not_le.mp hoff)]
          refine readsAs_small (Nat.not_le.mp hoff) ?_
          rw [header_addPart]
          exact Nat.lt_succ_self _
  next hchecksum =>
    cases h
    rw [if_neg hchecksum]
    exact ⟨fun _ => rfl, fun hlt => absurd hle (Nat.not_le.mpr hlt)⟩

theorem firstShadow_complete (h : firstShadow req s buffer = .complete s' off) :
    s.header.length < s'.header.length ∧ 25 < off := by
  unfold firstShadow at h
  split at h
  · cases h
  · dsimp only at h
    split at h
    · cases h
    · split at h
      · cases h
      · obtain ⟨hheader, hoff⟩ := firstChecksum_complete h
        rw [header_addPart] at hheader
        refine ⟨?_, by omega⟩
        split at hheader
        · rw [header_addPart] at hheader
          omega
        · omega

theorem firstShadow_append (h : firstShadow req s (a ++ b) = .complete s' off) :
    ReadsAs (firstShadow req s a) a.length s' off := by
  obtain ⟨hheader, hoff⟩ := firstShadow_complete h
  unfold firstShadow at h ⊢
  by_cases hsize : a.length < 25
  · rw [if_pos hsize]
    exact readsAs_small (hsize.trans hoff) hheader
  · rw [if_neg hsize]
    split at h
    next => cases h
    next =>
      rw [bytesAt_append (Nat.not_lt.mp hsize)] at h
      dsimp only at h ⊢
      generalize ofLittleEndian (bytesAt a 21 4) = shadowdataSize at h ⊢
      by_cases hdata : a.length < 25 + shadowdataSize
      · rw [if_pos hdata]
        refine readsAs_small ?_ hheader
        split at h
        · cases h
        · split at h
          · cases h
          · exact hdata.trans_le ((Nat.le_add_right _ 4).trans (firstChecksum_complete h).2)
      · rw [if_neg hdata]
        split at h
        next => cases h
        next =>
          rw [bytesAt_append (Nat.not_lt.mp hdata)] at h
          generalize (if 0 < shadowdataSize then
            s.addPart (.shadowdata (bytesAt a 25 shadowdataSize)) else s) = s₁ at h ⊢
          by_cases hid : a.length < 25 + shadowdataSize + 4
          · rw [if_pos hid]
            split at h
            · cases h
            · obtain ⟨hparts, hlong⟩ := firstChecksum_complete h
              rw [header_addPart] at hparts
              exact readsAs_small (hid.trans_le hlong) hparts
          · rw [if_neg hid]
            split at h
            next => cases h
            next =>
              rw [bytesAt_append (Nat.not_lt.mp hid)] at h
              exact firstChecksum_append (Nat.not_lt.mp hid) h

theorem firstFlags_complete (h : firstFlags req s buffer = .complete s' off) :
    s.header.length + 1 < s'.header.length ∧ 25 < off := by
  unfold firstFlags at h
  split at h
  · cases h
  · dsimp only at h
    split at h
    · cases h
    · split at h
      · cases h
      · obtain ⟨hheader, hoff⟩ := firstShadow_complete h
        dsimp only at hheader
        rw [header_addPart, header_addPart] at hheader
        exact ⟨by omega, hoff⟩

theorem firstFlags_append (h : firstFlags req s (a ++ b) = .complete s' off) :
    ReadsAs (firstFlags req s a) a.length s' off := by
  obtain ⟨hheader, hoff⟩ := firstFlags_complete h
  unfold firstFlags at h ⊢
  by_cases hcount : a.length < 20
  · rw [if_pos hcount]
    exact readsAs_small (by omega) (by omega)
  · rw [if_neg hcount]
    split at h
    next => cases h
    next =>
      rw [bytesAt_append (Nat.not_lt.mp hcount)] at h
      dsimp only at h ⊢
      split at h
      next => cases h
      next hlarge =>
        rw [if_neg hlarge]
        by_cases hflags : a.length < 21
        · rw [if_pos hflags]
          refine readsAs_small (by omega) ?_
          rw [header_addPart]
          exact hheader
        · rw [if_neg hflags]
          have hflag : (a ++ b).getD 20 0 = a.getD 20 0 := by
            rw [List.getD_eq_getElem?_getD, List.getD_eq_getElem?_getD,
              List.getElem?_append_left (by omega)]
          rw [hflag] at h
          split at h
          next => cases h
          next => exact firstShadow_append h

theorem firstPacket_append (h : firstPacket req core (a ++ b) = .complete s off) :
    ReadsAs (firstPacket req core a) a.length s off := by
  unfold firstPacket at h ⊢
  split at h
  next => cases h
  next =>
    dsimp only at h
    split at h
    next => cases h
    next hblocksize =>
      split at h
      next => cases h
      next hzero =>
        split at h
        next => cases h
        next =>
          obtain ⟨hheader, hoff⟩ := firstFlags_complete h
          have hparts : 2 < s.header.length := by
            dsimp only at hheader
            rw [header_addPart] at hheader
            omega
          by_cases hsize : a.length < 4
          · rw [if_pos hsize]
            exact ⟨fun hle => absurd hoff (by omega), fun _ => Nat.zero_lt_of_lt hparts⟩
          · rw [if_neg hsize]
            rw [bytesAt_append (Nat.not_lt.mp hsize)] at h hblocksize hzero
            rw [if_neg hblocksize, if_neg hzero]
            by_cases hdrive : a.length < 12
            · rw [if_pos hdrive]
              exact readsAs_small (by omega) (Nat.lt_of_succ_lt hparts)
            · rw [if_neg hdrive]
              rw [bytesAt_append (Nat.not_lt.mp hdrive)] at h
              exact firstFlags_append h

end Checksum

end FirstPacket

section Reads

variable {κ : Type*} {req : ImageRequest} {core : ImageCore κ}

def observed (s : ImageSession κ) :
    List HeaderPart × List UInt8 × List ImageAction × Option ImageEnd :=
  (s.header, s.bitmap, s.acted, s.outcome)

def firstPacketSize (req : ImageRequest) (stream : List UInt8) : Nat :=
  29 + ofLittleEndian (bytesAt stream 21 4) + if req.withChecksum then shaSize else 0

theorem firstChecksum_off {s s' : ImageSession κ} {buffer : List UInt8} {csize off : Nat}
    (h : firstChecksum req s buffer csize = .complete s' off) :
    off = csize + if req.withChecksum then shaSize else 0 := by
  unfold firstChecksum at h
  split at h
  next hchecksum =>
    rw [if_pos hchecksum]
    split at h
    · cases h
    · split at h
      · cases h
      · cases h
        rfl
  next hchecksum =>
    rw [if_neg hchecksum]
    cases h
    rfl

theorem firstFlags_off {s s' : ImageSession κ} {buffer : List UInt8} {off : Nat}
    (h : firstFlags req s buffer = .complete s' off) : off = firstPacketSize req buffer := by
  unfold firstFlags at h
  split at h
  · cases h
  · dsimp only at h
    split at h
    · cases h
    · split at h
      · cases h
      · unfold firstShadow at h
        split at h
        · cases h
        · dsimp only at h
          split at h
          · cases h
          · split at h
            · cases h
            · rw [firstChecksum_off h]
              unfold firstPacketSize
              omega

theorem off_eq {stream : List UInt8} {s : ImageSession κ} {off : Nat}
    (h : firstPacket req core stream = .complete s off) : off = firstPacketSize req stream := by
  unfold firstPacket at h
  split at h
  · cases h
  · dsimp only at h
    split at h
    · cases h
    · split at h
      · cases h
      · split at h
        · cases h
        · exact firstFlags_off h

theorem act_header (s : ImageSession κ) (a : ImageAction) : (s.act core a).1.header = s.header := by
  unfold act
  cases s.core with
  | none => rfl
  | some k =>
    dsimp only
    cases core.act k a <;> rfl

theorem next_header (s : ImageSession κ) (data : List UInt8) :
    (∀ n s', next req core s data = .take n s' → s'.header = s.header) ∧
      ∀ s', next req core s data = .stop s' → s'.header = s.header := by
  cases hstate : s.transferState with
  | bitmap =>
    by_cases hsize : 1024 * 1024 * 1024 < s.bitmapSize
    · refine ⟨fun n s' h => absurd h (next_ne_take hstate hsize), fun s' h => ?_⟩
      unfold next at h
      rw [hstate] at h
      dsimp only at h
      rw [if_pos hsize] at h
      split at h
      · cases h
      · cases h
        rfl
    · rw [next_bitmap hstate hsize]
      refine @collect_invariant _ _ _ _ _ _ (fun s' : ImageSession κ => s'.header = s.header) ?_ ?_
      · exact fun _ => rfl
      · intro part
        unfold checkBitmap
        split <;> rfl
  | image =>
    by_cases hleft : s.blockleft = 0
    · rw [next_message hstate hleft]
      unfold message
      split
      · exact ⟨nofun, nofun⟩
      dsimp only
      split
      · refine ⟨nofun, fun s' h => ?_⟩
        cases h
        unfold finish
        dsimp only
        split
        · exact act_header s _
        · exact act_header s _
      split
      · exact ⟨nofun, fun s' h => by cases h; rfl⟩
      split
      · exact ⟨fun n s' h => by cases h; rfl, nofun⟩
      split
      · split
        · exact ⟨nofun, nofun⟩
        · split
          · exact ⟨nofun, fun s' h => by cases h; exact act_header s _⟩
          · exact ⟨fun n s' h => by cases h; exact act_header s _, nofun⟩
      split
      · split
        · exact ⟨nofun, nofun⟩
        · exact ⟨nofun, fun s' h => by cases h; rfl⟩
      split
      · refine ⟨nofun, fun s' h => ?_⟩
        cases h
        unfold unknownBlock
        split <;> rfl
      · exact ⟨fun n s' h => by cases h; rfl, nofun⟩
    · rw [next_block hstate hleft]
      refine @collect_invariant _ _ _ _ _ _ (fun s' : ImageSession κ => s'.header = s.header) ?_ ?_
      · exact fun _ => rfl
      · exact fun part => act_header _ _

theorem receive_header (first : List UInt8) (reads : List (List UInt8)) :
    (receive req core first reads).state.header =
      (match firstPacket req core first with
        | .small s => s.header
        | .stop s => s.header
        | .complete s _ => s.header) := by
  have hkeep {header : List HeaderPart} {f : Feed (ImageSession κ) UInt8}
      (hf : f.state.header = header) :
      (reads.foldl (feed (next req core)) f).state.header = header :=
    foldl_feed_invariant (fun s data n s' hs h => ((next_header s data).1 n s' h).trans hs)
      (fun s data s' hs h => ((next_header s data).2 s' h).trans hs) hf reads
  unfold receive firstReadFeed
  apply hkeep
  cases firstPacket req core first with
  | small s => rfl
  | stop s => rfl
  | complete s off =>
    exact drain_invariant (fun s data n s' hs h => ((next_header s data).1 n s' h).trans hs)
      (fun s data s' hs h => ((next_header s data).2 s' h).trans hs) rfl _

variable {first first' : List UInt8} {reads reads' : List (List UInt8)} {s : ImageSession κ}
  {off : Nat}

theorem receive_eq (h : firstPacket req core (first ++ reads.flatten) = .complete s off)
    (hoff : off ≤ first.length) :
    receive req core first reads = drain (next req core) s ((first ++ reads.flatten).drop off) := by
  have hfirst : firstReadFeed req core first = feed (next req core) ⟨s, [], false⟩ (first.drop off) := by
    unfold firstReadFeed
    rw [(firstPacket_append h).1 hoff]
    rfl
  unfold receive
  rw [hfirst, foldl_feed coherent_next, List.drop_append_of_le_length hoff]
  rfl

/-- A stream with an accepted first packet, in two deliveries: where the first read of one has the
whole packet, the server acts on the same in the other if that has it too, and only then. -/
theorem acts_alike_iff (hsame : first' ++ reads'.flatten = first ++ reads.flatten)
    (haccepted : ∃ s off, firstPacket req core (first ++ reads.flatten) = .complete s off)
    (hwhole : firstPacketSize req (first ++ reads.flatten) ≤ first'.length) :
    (receive req core first reads).state.observed =
        (receive req core first' reads').state.observed ↔
      firstPacketSize req (first ++ reads.flatten) ≤ first.length := by
  obtain ⟨s, off, h⟩ := haccepted
  have h' : firstPacket req core (first' ++ reads'.flatten) = .complete s off := by
    rw [hsame]
    exact h
  rw [← off_eq h] at hwhole ⊢
  have hother := receive_eq h' hwhole
  constructor
  · intro heq
    by_contra hshort
    have hcut := (firstPacket_append h).2 (Nat.not_le.mp hshort)
    have hheaders : (receive req core first reads).state.header = s.header := by
      have hfull := @receive_header _ req core first' reads'
      rw [(firstPacket_append h').1 hwhole] at hfull
      exact (congrArg Prod.fst heq).trans hfull
    rw [receive_header] at hheaders
    cases hread : firstPacket req core first with
    | small s' =>
      rw [hread] at hcut hheaders
      exact absurd (congrArg List.length hheaders) (Nat.ne_of_lt hcut)
    | stop s' =>
      rw [hread] at hcut hheaders
      exact absurd (congrArg List.length hheaders) (Nat.ne_of_lt hcut)
    | complete s' off' =>
      rw [hread] at hcut
      exact hcut
  · intro hoff
    rw [receive_eq h hoff, hother, hsame]

end Reads

section Streams

def plainRequest : ImageRequest :=
  ⟨false, false, false, true, false, fun _ => List.replicate shaSize 0, fun _ => rfl⟩

def plainCore : ImageCore Unit := ⟨fun _ _ => (), fun _ _ => .goOn (), fun _ => none⟩

def emptyVolume : List UInt8 :=
  littleEndian 4 512 ++ littleEndian 8 1024 ++ littleEndian 8 2 ++ [1] ++ littleEndian 4 0 ++
    littleEndian 4 7 ++ littleEndian 8 (2 ^ 64 - 123)

theorem emptyVolume_accepted :
    ∃ s off, firstPacket plainRequest plainCore emptyVolume = .complete s off := ⟨_, _, rfl⟩

theorem acts_alike_iff_emptyVolume :
    (receive plainRequest plainCore (emptyVolume.take 30) [emptyVolume.drop 30]).state.observed =
      (receive plainRequest plainCore emptyVolume []).state.observed := by
  refine (@acts_alike_iff _ plainRequest plainCore (emptyVolume.take 30) emptyVolume
    [emptyVolume.drop 30] [] ?_ ?_ ?_).mpr ?_
  · decide
  · exact emptyVolume_accepted
  · decide
  · decide

/-- The first packet in two reads. -/
theorem cut_first_packet_is_not_put_together :
    ¬ ∀ (first first' : List UInt8) (reads reads' : List (List UInt8)), first ≠ [] → first' ≠ [] →
      [] ∉ reads → [] ∉ reads' → first' ++ reads'.flatten = first ++ reads.flatten →
      (∃ s off, firstPacket plainRequest plainCore (first ++ reads.flatten) = .complete s off) →
      (receive plainRequest plainCore first reads).state.observed =
        (receive plainRequest plainCore first' reads').state.observed := by
  intro hclaim
  have heq := hclaim (emptyVolume.take 20) emptyVolume [emptyVolume.drop 20] [] (by decide)
    (by decide) (by decide) (by decide) (by decide) emptyVolume_accepted
  have hheaders := congrArg (fun o => o.1.length) heq
  dsimp only [observed] at hheaders
  rw [receive_header, receive_header] at hheaders
  exact absurd hheaders (by decide)

end Streams

end ImageSession

end UrBackup
