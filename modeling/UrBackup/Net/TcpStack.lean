import UrBackup.Lib.ByteOrder

/-! Messages over a byte stream: a length in front of each, and a checksum in front of the
length if it is asked for. -/
namespace UrBackup

open ByteOrder

structure CTCPStack where
  buffer : List UInt8
  addChecksum : Bool
  maxPacketSize : Nat

namespace CTCPStack

def maxPacket : Nat := 4096

def checksumLen : Nat := 16

def headLen (addChecksum : Bool) : Nat := if addChecksum then checksumLen else 0

variable (md5 : List UInt8 → Vector UInt8 16)

def addData (st : CTCPStack) (buf : List UInt8) : CTCPStack :=
  { st with buffer := st.buffer ++ buf }

/-- The buffer that `Send` fills. The length of a message is cut to 32 bits, and so is the
length that the checksum is made of. -/
def packet (addChecksum : Bool) (msg : List UInt8) : List UInt8 :=
  let len := msg.length % 2 ^ 32
  let body := littleEndian 4 len ++ msg
  if addChecksum then (md5 (body.take ((len + 4) % 2 ^ 32))).toList ++ body else body

section Send

variable {π : Type} (write : π → List UInt8 → π × Bool)

/-- The loop of `Send` over what the pipe takes at once. -/
def writeLoop (p : π) (buffer : List UInt8) : π × Bool :=
  if _h : buffer = [] then (p, true)
  else
    let written := write p (buffer.take maxPacket)
    if written.2 then writeLoop written.1 (buffer.drop maxPacket) else (written.1, false)
termination_by buffer.length
decreasing_by
  have hpos : 0 < buffer.length := List.length_pos_iff.mpr _h
  rw [List.length_drop, maxPacket]
  omega

def send (st : CTCPStack) (p : π) (msg : List UInt8) : π × Nat :=
  if st.maxPacketSize < msg.length then (p, 0)
  else
    let written := writeLoop write p (packet md5 st.addChecksum msg)
    (written.1, if written.2 then msg.length else 0)

end Send

/-- The next message in the buffer, if all of it has arrived. There is no result where the
size of the memory for it wraps around. -/
def getPacket (st : CTCPStack) : Option (Option (List UInt8) × CTCPStack) :=
  let head := headLen st.addChecksum
  if head + 4 ≤ st.buffer.length then
    let body := st.buffer.drop head
    let len := ofLittleEndian (body.take 4)
    if len < st.maxPacketSize ∧ head + len + 4 ≤ st.buffer.length then
      let st' := { st with buffer := body.drop (len + 4) }
      if st.addChecksum = false ∨
          (md5 (body.take ((len + 4) % 2 ^ 32))).toList = st.buffer.take head then
        if len + 1 = 2 ^ 32 then none else some (some ((body.drop 4).take len), st')
      else some (none, st')
    else some (none, st)
  else some (none, st)

/-- What the receiving side does. -/
inductive Op where
  | add (buf : List UInt8)
  | get
  deriving DecidableEq, Repr

def arriving : List Op → List UInt8
  | [] => []
  | .add buf :: ops => buf ++ arriving ops
  | .get :: ops => arriving ops

/-- A run of the receiving side: the packets that `getPacket` returned, and the state. -/
def receive : List Op → CTCPStack → Option (List (List UInt8) × CTCPStack)
  | [], st => some ([], st)
  | .add buf :: ops, st => receive ops (st.addData buf)
  | .get :: ops, st => do
      let (msg, st) ← getPacket md5 st
      let (msgs, st) ← receive ops st
      return (msg.toList ++ msgs, st)

def record (p : List UInt8) (buf : List UInt8) : List UInt8 × Bool := (p ++ buf, true)

def sendAll (st : CTCPStack) (msgs : List (List UInt8)) : List UInt8 :=
  msgs.foldl (fun p msg => (send md5 record st p msg).1) []

/-- The packets so far are messages in order, and all of them, with nothing left, once there
is no other packet. -/
def Lossless (msgs : List (List UInt8)) (ops : List Op) (st : CTCPStack) : Prop :=
  ∃ out st', receive md5 ops st = some (out, st') ∧ out <+: msgs ∧
    ((getPacket md5 st').map Prod.fst = some none → out = msgs ∧ st'.buffer = [])

/-- The receiver takes a message of this length. -/
def Fits (maxPacketSize : Nat) (msg : List UInt8) : Prop :=
  msg.length < maxPacketSize ∧ msg.length + 1 < 2 ^ 32

variable {md5} {addChecksum : Bool} {maxPacketSize : Nat} {msg rest : List UInt8}
  {msgs : List (List UInt8)}

theorem packet_eq : ∃ check, packet md5 addChecksum msg =
      check ++ (littleEndian 4 (msg.length % 2 ^ 32) ++ msg) ∧
    check.length = headLen addChecksum ∧ (addChecksum = false ∨
      (md5 ((littleEndian 4 (msg.length % 2 ^ 32) ++ msg).take
        ((msg.length % 2 ^ 32 + 4) % 2 ^ 32))).toList = check) := by
  cases addChecksum with
  | false => exact ⟨[], rfl, rfl, .inl rfl⟩
  | true => exact ⟨_, rfl, Vector.length_toList, .inr rfl⟩

theorem packet_length :
    (packet md5 addChecksum msg).length = headLen addChecksum + 4 + msg.length := by
  obtain ⟨check, heq, hlen, -⟩ := @packet_eq md5 addChecksum msg
  rw [heq, List.length_append, List.length_append, hlen, littleEndian_length, Nat.add_assoc]

theorem ofLittleEndian_length (tail : List UInt8) :
    ofLittleEndian ((littleEndian 4 (msg.length % 2 ^ 32) ++ tail).take 4) =
      msg.length % 2 ^ 32 := by
  rw [List.take_left' (littleEndian_length 4 _)]
  exact ofLittleEndian_littleEndian (Nat.mod_lt _ (by decide))

theorem getPacket_packet :
    getPacket md5 ⟨packet md5 addChecksum msg ++ rest, addChecksum, maxPacketSize⟩ =
      if msg.length % 2 ^ 32 < maxPacketSize then
        if msg.length % 2 ^ 32 + 1 = 2 ^ 32 then none
        else some (some (msg.take (msg.length % 2 ^ 32)),
          ⟨msg.drop (msg.length % 2 ^ 32) ++ rest, addChecksum, maxPacketSize⟩)
      else some (none, ⟨packet md5 addChecksum msg ++ rest, addChecksum, maxPacketSize⟩) := by
  obtain ⟨check, heq, hlen, hcheck⟩ := @packet_eq md5 addChecksum msg
  have hle : msg.length % 2 ^ 32 ≤ msg.length := Nat.mod_le _ _
  have hlength := @packet_length md5 addChecksum msg
  have hbody : (packet md5 addChecksum msg ++ rest).drop (headLen addChecksum) =
      littleEndian 4 (msg.length % 2 ^ 32) ++ (msg ++ rest) := by
    rw [heq, List.append_assoc, List.drop_left' hlen, List.append_assoc]
  have htake : (packet md5 addChecksum msg ++ rest).take (headLen addChecksum) = check := by
    rw [heq, List.append_assoc, List.take_left' hlen]
  have hdigest : (littleEndian 4 (msg.length % 2 ^ 32) ++ (msg ++ rest)).take
      ((msg.length % 2 ^ 32 + 4) % 2 ^ 32) =
      (littleEndian 4 (msg.length % 2 ^ 32) ++ msg).take ((msg.length % 2 ^ 32 + 4) % 2 ^ 32) := by
    have hmod : (msg.length % 2 ^ 32 + 4) % 2 ^ 32 ≤ msg.length % 2 ^ 32 + 4 := Nat.mod_le _ _
    rw [← List.append_assoc, List.take_append_of_le_length]
    rw [List.length_append, littleEndian_length]
    omega
  unfold getPacket
  simp only [hbody, htake, ofLittleEndian_length, hdigest]
  rw [if_pos (by rw [List.length_append]; omega)]
  by_cases hmax : msg.length % 2 ^ 32 < maxPacketSize
  · have hdrop : (littleEndian 4 (msg.length % 2 ^ 32) ++ (msg ++ rest)).drop
        (msg.length % 2 ^ 32 + 4) = msg.drop (msg.length % 2 ^ 32) ++ rest := by
      rw [Nat.add_comm, ← List.drop_drop, List.drop_left' (littleEndian_length 4 _),
        List.drop_append_of_le_length hle]
    have hmsg : ((littleEndian 4 (msg.length % 2 ^ 32) ++ (msg ++ rest)).drop 4).take
        (msg.length % 2 ^ 32) = msg.take (msg.length % 2 ^ 32) := by
      rw [List.drop_left' (littleEndian_length 4 _), List.take_append_of_le_length hle]
    rw [if_pos ⟨hmax, by rw [List.length_append]; omega⟩, if_pos hcheck, if_pos hmax, hdrop, hmsg]
  · rw [if_neg (fun h => hmax h.1), if_neg hmax]

theorem getPacket_fits (h : Fits maxPacketSize msg) :
    getPacket md5 ⟨packet md5 addChecksum msg ++ rest, addChecksum, maxPacketSize⟩ =
      some (some msg, ⟨rest, addChecksum, maxPacketSize⟩) := by
  have hmod : msg.length % 2 ^ 32 = msg.length := by
    have := h.2
    omega
  rw [getPacket_packet, hmod, if_pos h.1, if_neg (Nat.ne_of_lt h.2), List.take_length,
    List.drop_length, List.nil_append]

theorem getPacket_part {buffer : List UInt8} (hlen : msg.length < 2 ^ 32)
    (hinit : buffer <+: packet md5 addChecksum msg)
    (hlt : buffer.length < (packet md5 addChecksum msg).length) :
    getPacket md5 ⟨buffer, addChecksum, maxPacketSize⟩ =
      some (none, ⟨buffer, addChecksum, maxPacketSize⟩) := by
  obtain ⟨check, heq, hcheck, -⟩ := @packet_eq md5 addChecksum msg
  obtain ⟨tail, htail⟩ := hinit
  rw [packet_length] at hlt
  unfold getPacket
  by_cases hhead : headLen addChecksum + 4 ≤ buffer.length
  · have hlength : ofLittleEndian ((buffer.drop (headLen addChecksum)).take 4) = msg.length := by
      have hdrop : (buffer.drop (headLen addChecksum)).take 4 =
          ((packet md5 addChecksum msg).drop (headLen addChecksum)).take 4 := by
        rw [← htail, List.drop_append_of_le_length (by omega),
          List.take_append_of_le_length (by rw [List.length_drop]; omega)]
      rw [hdrop, heq, List.drop_left' hcheck, ofLittleEndian_length, Nat.mod_eq_of_lt hlen]
    simp only [hlength]
    rw [if_pos hhead, if_neg (by omega)]
  · exact if_neg hhead

def stream (md5 : List UInt8 → Vector UInt8 16) (addChecksum : Bool)
    (msgs : List (List UInt8)) : List UInt8 := msgs.flatMap (packet md5 addChecksum)

theorem writeLoop_record (p buffer : List UInt8) : writeLoop record p buffer = (p ++ buffer, true) := by
  induction hn : buffer.length using Nat.strongRecOn generalizing p buffer with
  | ind n ih =>
    rw [writeLoop]
    split
    · rename_i hnil
      rw [hnil, List.append_nil]
    · rename_i hne
      have hpos : 0 < buffer.length := List.length_pos_iff.mpr hne
      have hless : (buffer.drop maxPacket).length < n := by
        rw [List.length_drop, maxPacket]
        omega
      simp only [record, if_true]
      rw [ih _ hless _ _ rfl, List.append_assoc, List.take_append_drop]

theorem sendAll_eq {st : CTCPStack} (h : ∀ msg ∈ msgs, msg.length ≤ st.maxPacketSize) :
    sendAll md5 st msgs = stream md5 st.addChecksum msgs := by
  have hfold : ∀ p, msgs.foldl (fun p msg => (send md5 record st p msg).1) p =
      p ++ stream md5 st.addChecksum msgs := by
    induction msgs with
    | nil => exact fun p => (List.append_nil p).symm
    | cons msg msgs ih =>
      intro p
      have hsend : (send md5 record st p msg).1 = p ++ packet md5 st.addChecksum msg := by
        rw [send, if_neg (Nat.not_lt.mpr (h msg List.mem_cons_self)), writeLoop_record]
      rw [List.foldl_cons, hsend, ih fun m hm => h m (List.mem_cons_of_mem _ hm), stream,
        stream, List.flatMap_cons, List.append_assoc]
  exact hfold []

theorem getPacket_nil : getPacket md5 ⟨[], addChecksum, maxPacketSize⟩ =
    some (none, ⟨[], addChecksum, maxPacketSize⟩) := by
  unfold getPacket
  exact if_neg (by simp)

theorem receive_stream {ops : List Op} {buffer : List UInt8}
    (hfits : ∀ msg ∈ msgs, Fits maxPacketSize msg)
    (h : buffer ++ arriving ops = stream md5 addChecksum msgs) :
    ∃ out todo, msgs = out ++ todo ∧ receive md5 ops ⟨buffer, addChecksum, maxPacketSize⟩ =
      some (out, ⟨stream md5 addChecksum todo, addChecksum, maxPacketSize⟩) := by
  induction ops generalizing buffer msgs with
  | nil =>
    rw [arriving, List.append_nil] at h
    exact ⟨[], msgs, rfl, by rw [h]; rfl⟩
  | cons op ops ih =>
    cases op with
    | add buf =>
      rw [arriving, ← List.append_assoc] at h
      exact ih hfits h
    | get =>
      rw [arriving] at h
      cases msgs with
      | nil =>
        obtain ⟨rfl, -⟩ := List.append_eq_nil_iff.mp h
        obtain ⟨out, todo, hmsgs, hrun⟩ := ih hfits h
        refine ⟨out, todo, hmsgs, ?_⟩
        simp only [receive, getPacket_nil, Option.bind_eq_bind, Option.bind_some, hrun]
        rfl
      | cons msg msgs =>
        have hfit := hfits msg List.mem_cons_self
        have hbuffer : buffer <+: stream md5 addChecksum (msg :: msgs) := ⟨_, h⟩
        have hpacket : packet md5 addChecksum msg <+: stream md5 addChecksum (msg :: msgs) :=
          ⟨_, rfl⟩
        by_cases hle : (packet md5 addChecksum msg).length ≤ buffer.length
        · obtain ⟨tail, rfl⟩ := List.prefix_of_prefix_length_le hpacket hbuffer hle
          rw [List.append_assoc] at h
          have htail := List.append_cancel_left h
          obtain ⟨out, todo, hmsgs, hrun⟩ :=
            ih (fun m hm => hfits m (List.mem_cons_of_mem _ hm)) htail
          refine ⟨msg :: out, todo, by rw [hmsgs]; rfl, ?_⟩
          simp only [receive, getPacket_fits hfit, Option.bind_eq_bind, Option.bind_some, hrun]
          rfl
        · have hlt := Nat.lt_of_not_le hle
          have hpart := List.prefix_of_prefix_length_le hbuffer hpacket hlt.le
          obtain ⟨out, todo, hmsgs, hrun⟩ := ih hfits h
          refine ⟨out, todo, hmsgs, ?_⟩
          have hget := @getPacket_part md5 addChecksum maxPacketSize msg buffer
            (by have := hfit.2; omega) hpart hlt
          simp only [receive, hget, Option.bind_eq_bind, Option.bind_some, hrun]
          rfl

theorem lossless_of_fits {ops : List Op} (hfits : ∀ msg ∈ msgs, Fits maxPacketSize msg)
    (h : arriving ops = stream md5 addChecksum msgs) :
    Lossless md5 msgs ops ⟨[], addChecksum, maxPacketSize⟩ := by
  obtain ⟨out, todo, rfl, hrun⟩ := @receive_stream md5 addChecksum maxPacketSize msgs ops [] hfits h
  refine ⟨out, _, hrun, List.prefix_append _ _, ?_⟩
  intro hnone
  cases todo with
  | nil => exact ⟨(List.append_nil out).symm, rfl⟩
  | cons msg todo =>
    have hfit := hfits msg (List.mem_append_right _ List.mem_cons_self)
    rw [stream, List.flatMap_cons, getPacket_fits hfit] at hnone
    cases hnone

theorem not_lossless_of_not_fits (h : ∃ msg ∈ msgs, ¬ Fits maxPacketSize msg) :
    ∃ ops, arriving ops = [] ∧
      ¬ Lossless md5 msgs ops ⟨stream md5 addChecksum msgs, addChecksum, maxPacketSize⟩ := by
  induction msgs with
  | nil =>
    obtain ⟨msg, hmsg, -⟩ := h
    cases hmsg
  | cons msg msgs ih =>
    have hstream : stream md5 addChecksum (msg :: msgs) =
        packet md5 addChecksum msg ++ stream md5 addChecksum msgs := List.flatMap_cons
    rw [hstream]
    by_cases hfit : Fits maxPacketSize msg
    · have hrest : ∃ m ∈ msgs, ¬ Fits maxPacketSize m := by
        obtain ⟨m, hm, hbad⟩ := h
        cases List.mem_cons.mp hm with
        | inl heq => exact absurd (heq ▸ hfit) hbad
        | inr hm => exact ⟨m, hm, hbad⟩
      obtain ⟨ops, harriving, hnot⟩ := ih hrest
      refine ⟨.get :: ops, harriving, ?_⟩
      rintro ⟨out, st', hrun, hinit, hend⟩
      simp only [receive, getPacket_fits hfit, Option.bind_eq_bind, Option.bind_some] at hrun
      obtain ⟨⟨out', st''⟩, hrun', heq⟩ := Option.bind_eq_some_iff.mp hrun
      obtain ⟨rfl, rfl⟩ := Prod.mk.inj (Option.some.inj heq)
      apply hnot
      refine ⟨out', st'', hrun', (List.cons_prefix_cons.mp hinit).2, ?_⟩
      intro hnone
      obtain ⟨hout, hbuffer⟩ := hend hnone
      exact ⟨(List.cons.inj hout).2, hbuffer⟩
    · by_cases hmax : msg.length % 2 ^ 32 < maxPacketSize
      · refine ⟨[.get], rfl, ?_⟩
        rintro ⟨out, st', hrun, hinit, -⟩
        simp only [receive, getPacket_packet, if_pos hmax] at hrun
        split at hrun
        · cases hrun
        · obtain ⟨rfl, -⟩ := Prod.mk.inj (Option.some.inj hrun)
          have htake := (List.cons_prefix_cons.mp hinit).1
          have hlen := congrArg List.length htake
          have hmod : msg.length % 2 ^ 32 < 2 ^ 32 := Nat.mod_lt _ (by decide)
          rw [List.length_take] at hlen
          apply hfit
          unfold Fits
          omega
      · refine ⟨[], rfl, ?_⟩
        rintro ⟨out, st', hrun, -, hend⟩
        obtain ⟨rfl, rfl⟩ := Prod.mk.inj (Option.some.inj hrun)
        rw [getPacket_packet, if_neg hmax] at hend
        cases (hend rfl).1

/-- Messages come out as they went in, however the stream is cut and whenever the receiver
looks for packets, exactly if each of them is shorter than the bound and the size of the memory
for it does not wrap around. -/
theorem receive_lossless_iff {st : CTCPStack} (hbuffer : st.buffer = [])
    (haccepted : ∀ msg ∈ msgs, msg.length ≤ st.maxPacketSize) :
    (∀ ops, arriving ops = sendAll md5 st msgs → Lossless md5 msgs ops st) ↔
      ∀ msg ∈ msgs, msg.length < st.maxPacketSize ∧ msg.length + 1 < 2 ^ 32 := by
  obtain ⟨buffer, addChecksum, maxPacketSize⟩ := st
  obtain rfl : buffer = [] := hbuffer
  rw [sendAll_eq haccepted]
  constructor
  · intro h msg hmsg
    by_contra hbad
    obtain ⟨ops, harriving, hnot⟩ :=
      @not_lossless_of_not_fits md5 addChecksum maxPacketSize msgs ⟨msg, hmsg, hbad⟩
    apply hnot
    obtain ⟨out, st', hrun, hinit, hend⟩ :=
      h (.add (stream md5 addChecksum msgs) :: ops) (by rw [arriving, harriving, List.append_nil])
    exact ⟨out, st', hrun, hinit, hend⟩
  · intro h ops hops
    exact lossless_of_fits h hops

/-- Two messages below a bound of 3 bytes. -/
theorem receive_lossless_iff_short : (∀ msg ∈ [[1, 2], []], List.length msg < 3) ∧ ∀ ops,
    arriving ops = sendAll (fun _ => Vector.replicate 16 0) ⟨[], true, 3⟩ [[1, 2], []] →
    Lossless (fun _ => Vector.replicate 16 0) [[1, 2], []] ops ⟨[], true, 3⟩ :=
  ⟨by decide, (receive_lossless_iff rfl (by decide)).mpr (by decide)⟩

/-- A message as long as the bound is sent and never received. -/
theorem receive_stalls_at_bound : ¬ ∀ (md5 : List UInt8 → Vector UInt8 16) (st : CTCPStack)
    (msgs : List (List UInt8)), st.buffer = [] →
    (∀ msg ∈ msgs, msg.length ≤ st.maxPacketSize) →
    ∀ ops, arriving ops = sendAll md5 st msgs → Lossless md5 msgs ops st := by
  intro h
  have hlossless := h (fun _ => Vector.replicate 16 0) ⟨[], false, 1⟩ [[7]] rfl (by decide)
    [.add [1, 0, 0, 0, 7], .get] (by rw [sendAll_eq (by decide)]; decide)
  obtain ⟨out, st', hrun, -, hend⟩ := hlossless
  obtain ⟨rfl, rfl⟩ := Prod.mk.inj (Option.some.inj hrun)
  cases (hend rfl).1

end CTCPStack

end UrBackup
