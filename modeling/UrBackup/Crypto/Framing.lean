import UrBackup.Crypto.Unescaping
import UrBackup.Lib.Run
import Mathlib.Logic.Function.Iterate

/-! Messages that are encrypted on one side arrive on the other, whatever the calls on the one
side and the cuts on the other, unless a scan ends early or a cut is a bad one. -/
namespace UrBackup

open ZeroStuffing

inductive EncryptEvent where
  | put (data : List UInt8)
  | flush
  | get

namespace EncryptEvent

/-- A message has at least one byte, and is fetched at least once after its end. -/
def Allowed : Nat → Bool → List EncryptEvent → Prop
  | _, waiting, [] => waiting = false
  | n, waiting, .put data :: es => Allowed (n + data.length) waiting es
  | n, waiting, .flush :: es => 0 < n ∧ waiting = false ∧ Allowed 0 true es
  | n, _, .get :: es => Allowed n false es

/-- The messages that were ended; `cur` is what has been put of the next one. -/
def messages : List UInt8 → List EncryptEvent → List (List UInt8)
  | _, [] => []
  | cur, .put data :: es => messages (cur ++ data) es
  | cur, .flush :: es => cur :: messages [] es
  | cur, .get :: es => messages cur es

end EncryptEvent

namespace AESGCMEncryption

/-- A call, and the bytes that all the calls of `get` have returned. -/
def step (g : GCM) (st : AESGCMEncryption × List UInt8) :
    EncryptEvent → Option (AESGCMEncryption × List UInt8)
  | .put data => some (st.1.put g data, st.2)
  | .flush => some (st.1.flush g, st.2)
  | .get => st.1.get.map fun r => (r.2, st.2 ++ r.1)

/-- The bytes that the scan does not see do not complete a run of zeros, and leave the count
as it is unless the message ends with them. -/
def ScansAll (st : AESGCMEncryption × List UInt8) : EncryptEvent → Prop
  | .get =>
    let e := st.1
    let bytes := e.queue.front.take (e.endMarkers.headD e.queue.maxRetrievable)
    let cut := scanned bytes.length e.endMarkerState bytes
    let zeros := countAll endMarkerZeros e.endMarkerState cut.1
    stuff endMarkerZeros zeros cut.2 = cut.2 ∧
      (e.endMarkers ≠ [] ∨ countAll endMarkerZeros zeros cut.2 = zeros)
  | _ => True

end AESGCMEncryption

namespace AESGCMDecryption

/-- A fragment is put, and `get` is called until it yields nothing. -/
def step (g : GCM) (st : AESGCMDecryption × List (List UInt8)) (fragment : List UInt8) :
    Option (AESGCMDecryption × List (List UInt8)) :=
  (st.1.put g fragment).map fun d => (d.getAll.2, st.2 ++ d.getAll.1)

def CutWell (st : AESGCMDecryption × List (List UInt8)) (fragment : List UInt8) : Prop :=
  ¬ CutBadly st.1.endMarkerState fragment

end AESGCMDecryption

namespace GCM

variable {g : GCM} {iv : List UInt8}

theorem encrypt_append (pos : Nat) (as bs : List UInt8) :
    g.encrypt iv pos (as ++ bs) = g.encrypt iv pos as ++ g.encrypt iv (pos + as.length) bs := by
  induction as generalizing pos with
  | nil => rfl
  | cons a as ih =>
    rw [List.cons_append, encrypt, encrypt, ih, List.length_cons, Nat.add_assoc, Nat.add_comm 1]
    rfl

@[simp] theorem encrypt_length (pos : Nat) (bs : List UInt8) :
    (g.encrypt iv pos bs).length = bs.length := by
  induction bs generalizing pos with
  | nil => rfl
  | cons b bs ih => exact congrArg Nat.succ (ih _)

theorem decrypt_encrypt (pos : Nat) (bs : List UInt8) :
    g.decrypt iv pos (g.encrypt iv pos bs) = bs := by
  induction bs generalizing pos with
  | nil => rfl
  | cons b bs ih => rw [encrypt, decrypt, ih, Equiv.symm_apply_apply]

theorem verify_withTag (msg : List UInt8) : g.verify iv (g.withTag iv msg) = some msg := by
  have hlen : (g.withTag iv msg).length - tagSize = (g.encrypt iv 0 msg).length := by
    rw [withTag, List.length_append, Vector.length_toList, Nat.add_sub_cancel]
  unfold verify
  rw [hlen]
  unfold withTag
  simp only [List.take_left, List.drop_left]
  rw [if_pos, decrypt_encrypt]
  rw [List.length_append, Vector.length_toList]
  exact ⟨Nat.le_add_left _ _, trivial⟩

def sealAll (g : GCM) : List UInt8 → List (List UInt8) → List (List UInt8)
  | _, [] => []
  | iv, msg :: msgs => g.withTag iv msg :: sealAll g (incrementCounterByOne iv) msgs

@[simp] theorem sealAll_length (msgs : List (List UInt8)) :
    (sealAll g iv msgs).length = msgs.length := by
  induction msgs generalizing iv with
  | nil => rfl
  | cons msg msgs ih => exact congrArg Nat.succ ih

theorem sealAll_append (msgs msgs' : List (List UInt8)) :
    sealAll g iv (msgs ++ msgs') =
      sealAll g iv msgs ++ sealAll g (incrementCounterByOne^[msgs.length] iv) msgs' := by
  induction msgs generalizing iv with
  | nil => rfl
  | cons msg msgs ih => exact congrArg (g.withTag iv msg :: ·) ih

theorem sealAll_split {msgs as bs : List (List UInt8)} (h : as ++ bs = sealAll g iv msgs) :
    as = sealAll g iv (msgs.take as.length) ∧
      bs = sealAll g (incrementCounterByOne^[as.length] iv) (msgs.drop as.length) := by
  have hle : as.length ≤ msgs.length := by
    have hlen := congrArg List.length h
    rw [List.length_append, sealAll_length] at hlen
    omega
  have hsplit := @sealAll_append g iv (msgs.take as.length) (msgs.drop as.length)
  rw [List.take_append_drop, ← h, List.length_take, Nat.min_eq_left hle] at hsplit
  exact List.append_inj hsplit (by rw [sealAll_length, List.length_take, Nat.min_eq_left hle])

theorem deliver_sealAll (msgs out : List (List UInt8)) :
    (sealAll g iv msgs).foldlM (AESGCMDecryption.deliver g) (iv, out) =
      some (incrementCounterByOne^[msgs.length] iv, out ++ msgs) := by
  induction msgs generalizing iv out with
  | nil => rw [List.append_nil]; rfl
  | cons msg msgs ih =>
    rw [sealAll, List.foldlM_cons, AESGCMDecryption.deliver, verify_withTag]
    refine (ih (out ++ [msg])).trans ?_
    rw [List.append_assoc]
    rfl

end GCM

def collectMessage (msgs : List (List UInt8)) (msg : List UInt8) : Option (List (List UInt8)) :=
  some (msgs ++ [msg])

abbrev gathered (body : List UInt8) : Option (Receiver (List (List UInt8))) :=
  Receiver.feed endMarkerZeros collectMessage ⟨[], 0, []⟩ body

theorem gathered_append (as bs : List UInt8) : gathered (as ++ bs) =
    (gathered as).bind fun r => Receiver.feed endMarkerZeros collectMessage r bs := feed_append _ as bs

namespace AESGCMEncryption

/-- What has been sent and what has not been fetched together are the messages: `done` are
those that have ended, `cur` is the one that has not. -/
structure Sends (g : GCM) (iv : Vector UInt8 ivSize) (done : List (List UInt8))
    (cur : List UInt8) (waiting : Bool) (st : AESGCMEncryption × List UInt8) : Prop where
  origIV : st.1.mOrigIV = iv.toList
  nextIV : st.1.mIV = incrementCounterByOne^[done.length] iv.toList
  message : st.1.message = g.encrypt st.1.mIV 0 cur
  zeros : st.1.endMarkerState < endMarkerZeros
  sent : ∃ body p msgs, st.2 = (if st.1.ivDone then iv.toList else []) ++ body ∧
    (st.1.ivDone = false → body = []) ∧
    gathered body = some ⟨p, st.1.endMarkerState, msgs⟩ ∧
    if waiting then ∃ rest, st.1.queue = ⟨[rest], st.1.message⟩ ∧
      st.1.endMarkers = [rest.length] ∧ g.sealAll iv.toList done = msgs ++ [p ++ rest]
    else st.1.queue.ended = [] ∧ st.1.endMarkers = [] ∧ g.sealAll iv.toList done = msgs ∧
      p ++ st.1.queue.current = st.1.message

variable {g : GCM} {iv : Vector UInt8 ivSize} {done : List (List UInt8)} {cur : List UInt8}
  {waiting : Bool} {st st' : AESGCMEncryption × List UInt8}

theorem sends_init (g : GCM) (iv : Vector UInt8 ivSize) :
    Sends g iv [] [] false (init iv, []) :=
  ⟨rfl, rfl, rfl, Nat.succ_pos _, [], [], [], rfl, fun _ => rfl, rfl, rfl, rfl, rfl, rfl⟩

theorem sends_put (h : Sends g iv done cur waiting st) (data : List UInt8) :
    Sends g iv done (cur ++ data) waiting (st.1.put g data, st.2) := by
  have hmessage : (st.1.put g data).message = g.encrypt st.1.mIV 0 (cur ++ data) := by
    rw [GCM.encrypt_append, ← h.message, put, h.message, GCM.encrypt_length, Nat.zero_add]
  obtain ⟨body, p, msgs, hout, hiv, hbody, hstate⟩ := h.sent
  refine ⟨h.origIV, h.nextIV, hmessage, h.zeros, body, p, msgs, hout, hiv, hbody, ?_⟩
  cases waiting with
  | true =>
    obtain ⟨rest, hqueue, hmarkers, hsealed⟩ := hstate
    exact ⟨rest, by rw [put, hqueue]; rfl, hmarkers, hsealed⟩
  | false =>
    obtain ⟨hended, hmarkers, hsealed, hcurrent⟩ := hstate
    refine ⟨hended, hmarkers, hsealed, ?_⟩
    simp only [put, MessageQueue.put]
    rw [← List.append_assoc, hcurrent]

theorem sends_flush (h : Sends g iv done cur false st) :
    Sends g iv (done ++ [cur]) [] true (st.1.flush g, st.2) := by
  obtain ⟨body, p, msgs, hout, hiv, hbody, hended, hmarkers, hsealed, hcurrent⟩ := h.sent
  refine ⟨h.origIV, ?_, rfl, h.zeros, body, p, msgs, hout, hiv, hbody,
    st.1.queue.current ++ (g.tag st.1.mIV st.1.message).toList, ?_, ?_, ?_⟩
  · rw [List.length_append, List.length_singleton, Function.iterate_succ_apply', ← h.nextIV]
    rfl
  · simp only [flush, MessageQueue.put, MessageQueue.messageEnd, hended, List.nil_append]
  · simp only [flush, hmarkers, MessageQueue.put, MessageQueue.messageEnd,
      MessageQueue.maxRetrievable, MessageQueue.front, hended, List.nil_append, List.headD_cons]
  · rw [GCM.sealAll_append, hsealed, ← h.nextIV, ← List.append_assoc, hcurrent, h.message]
    rfl

theorem escape_eq {e : AESGCMEncryption} {front bytes tail : List UInt8} {k : Nat}
    (hk : e.endMarkerState < endMarkerZeros)
    (hcount : countAll endMarkerZeros e.endMarkerState
      (scanned bytes.length e.endMarkerState bytes).1 = k)
    (hscan : stuff endMarkerZeros k (scanned bytes.length e.endMarkerState bytes).2 =
      (scanned bytes.length e.endMarkerState bytes).2) :
    (if 0 < bytes.length then
        e.escapeEndMarker (front ++ bytes ++ tail) (front.length + bytes.length) front.length
      else (front ++ bytes ++ tail, e.endMarkerState)) =
      (front ++ (stuff endMarkerZeros e.endMarkerState bytes ++ tail), k) := by
  have hstuff : stuff endMarkerZeros e.endMarkerState bytes =
      stuff endMarkerZeros e.endMarkerState (scanned bytes.length e.endMarkerState bytes).1 ++
        (scanned bytes.length e.endMarkerState bytes).2 := by
    conv_lhs => rw [← scanned_append bytes.length e.endMarkerState bytes]
    rw [stuff_append, hcount, hscan]
  split
  · rw [escapeEndMarker, List.append_assoc, escapeLoop_eq hk (Nat.add_sub_cancel_left _ _) le_rfl,
      hcount, hstuff, List.append_assoc]
  · rename_i hempty
    obtain rfl : bytes = [] := List.eq_nil_of_length_eq_zero (Nat.eq_zero_of_not_pos hempty)
    rw [← hcount, List.append_assoc]
    rfl

theorem set_last (front : List UInt8) :
    (front ++ markerSpace true).set ((front ++ markerSpace true).length - 1) endByte =
      front ++ (List.replicate endMarkerZeros 0 ++ [endByte]) := by
  have hlen : (front ++ markerSpace true).length - 1 = front.length + endMarkerZeros := by
    rw [List.length_append]
    rfl
  rw [hlen, List.set_append_right _ _ (Nat.le_add_right _ _), Nat.add_sub_cancel_left]
  rfl

theorem get_eq {e : AESGCMEncryption} {bytes : List UInt8} {k : Nat}
    (hfront : e.queue.front = bytes)
    (hmax : e.endMarkers.headD e.queue.maxRetrievable = bytes.length)
    (hk : e.endMarkerState < endMarkerZeros)
    (hcount : countAll endMarkerZeros e.endMarkerState
      (scanned bytes.length e.endMarkerState bytes).1 = k)
    (hscan : stuff endMarkerZeros k (scanned bytes.length e.endMarkerState bytes).2 =
      (scanned bytes.length e.endMarkerState bytes).2) :
    e.get = some (if e.endMarkers.isEmpty then
      ((if e.ivDone then [] else e.mOrigIV) ++ stuff endMarkerZeros e.endMarkerState bytes,
        { e with
          ivDone := true
          endMarkerState := k
          queue := e.queue.skip bytes.length
          endMarkers := e.endMarkers.tail.map fun m => m - bytes.length })
      else
      ((if e.ivDone then [] else e.mOrigIV) ++ (stuff endMarkerZeros e.endMarkerState bytes ++
          (List.replicate endMarkerZeros 0 ++ [endByte])),
        { e with
          ivDone := true
          endMarkerState := 0
          queue := (e.queue.skip bytes.length).getNextMessage
          endMarkers := e.endMarkers.tail.map fun m => m - bytes.length })) := by
  unfold get
  simp only [hfront, hmax, List.take_length, if_true, escape_eq hk hcount hscan]
  cases hempty : e.endMarkers.isEmpty with
  | true =>
    simp only [Bool.not_true, Bool.false_eq_true, if_false, if_true, markerSpace, List.append_nil]
  | false =>
    simp only [Bool.not_false, if_true, Bool.false_eq_true, if_false]
    rw [← List.append_assoc, set_last, List.append_assoc]

theorem sends_get_open (h : Sends g iv done cur false st) (hscan : ScansAll st .get) :
    ∃ st', step g st .get = some st' ∧ Sends g iv done cur false st' := by
  obtain ⟨e, out⟩ := st
  obtain ⟨body, p, msgs, hout, hiv, hbody, hended, hmarkers, hsealed, hcurrent⟩ := h.sent
  have hk := h.zeros
  have horig := h.origIV
  simp only at hout hiv hbody hended hmarkers hcurrent hk horig
  have hfront : e.queue.front = e.queue.current := by
    rw [MessageQueue.front, hended]
    rfl
  have hmax : e.endMarkers.headD e.queue.maxRetrievable = e.queue.current.length := by
    rw [hmarkers, List.headD_nil, MessageQueue.maxRetrievable, hfront]
  unfold ScansAll at hscan
  simp only [hfront, hmax, List.take_length] at hscan
  obtain ⟨hstuff, hsame⟩ := hscan
  have hcount : countAll endMarkerZeros e.endMarkerState e.queue.current =
      countAll endMarkerZeros e.endMarkerState
        (scanned e.queue.current.length e.endMarkerState e.queue.current).1 := by
    conv_lhs => rw [← scanned_append e.queue.current.length e.endMarkerState e.queue.current]
    rw [countAll_append]
    exact hsame.resolve_left fun hne => hne hmarkers
  refine ⟨_, congrArg (Option.map _) (get_eq hfront hmax hk hcount.symm
    (by rw [hcount]; exact hstuff)), ?_⟩
  rw [hmarkers]
  simp only [List.isEmpty_nil, if_true]
  refine ⟨h.origIV, h.nextIV, h.message, countAll_lt hk _,
    body ++ stuff endMarkerZeros e.endMarkerState e.queue.current, p ++ e.queue.current, msgs,
    ?_, fun h => absurd h Bool.noConfusion, ?_, ?_, rfl, hsealed, ?_⟩
  · cases hdone : e.ivDone with
    | true =>
      rw [hdone] at hout
      simp only [hout, if_true, List.nil_append, List.append_assoc]
    | false =>
      rw [hdone] at hout
      simp only [hout, hiv hdone, horig, if_true, Bool.false_eq_true, if_false, List.nil_append]
  · rw [gathered_append, hbody, Option.bind_some]
    exact feed_stuff ⟨p, e.endMarkerState, msgs⟩ hk e.queue.current
  · simp only [MessageQueue.skip, hended]
  · simp only [MessageQueue.skip, hended, List.drop_length, List.append_nil]
    exact hcurrent

theorem sends_get_end (h : Sends g iv done cur true st) (hscan : ScansAll st .get) :
    ∃ st', step g st .get = some st' ∧ Sends g iv done cur false st' := by
  obtain ⟨e, out⟩ := st
  obtain ⟨body, p, msgs, hout, hiv, hbody, rest, hqueue, hmarkers, hsealed⟩ := h.sent
  have hk := h.zeros
  have horig := h.origIV
  simp only at hout hiv hbody hqueue hmarkers hk horig
  have hfront : e.queue.front = rest := by
    rw [hqueue]
    rfl
  have hmax : e.endMarkers.headD e.queue.maxRetrievable = rest.length := by
    rw [hmarkers]
    rfl
  unfold ScansAll at hscan
  simp only [hfront, hmax, List.take_length] at hscan
  refine ⟨_, congrArg (Option.map _) (get_eq hfront hmax hk rfl hscan.1), ?_⟩
  rw [hmarkers]
  simp only [List.isEmpty_cons, Bool.false_eq_true, if_false]
  refine ⟨h.origIV, h.nextIV, h.message, Nat.succ_pos _,
    body ++ (stuff endMarkerZeros e.endMarkerState rest ++
      (List.replicate endMarkerZeros 0 ++ [endByte])), [], msgs ++ [p ++ rest],
    ?_, fun h => absurd h Bool.noConfusion, ?_, ?_, rfl, hsealed, ?_⟩
  · cases hdone : e.ivDone with
    | true =>
      rw [hdone] at hout
      simp only [hout, if_true, List.nil_append, List.append_assoc]
    | false =>
      rw [hdone] at hout
      simp only [hout, hiv hdone, horig, if_true, Bool.false_eq_true, if_false, List.nil_append]
  · rw [gathered_append, hbody, Option.bind_some, feed_append,
      feed_stuff ⟨p, e.endMarkerState, msgs⟩ hk rest, Option.bind_some]
    exact feed_marker _ (countAll_lt hk rest)
  · simp only [hqueue, MessageQueue.skip, List.drop_length, MessageQueue.getNextMessage]
  · simp only [hqueue, MessageQueue.skip, List.drop_length, MessageQueue.getNextMessage]
    rfl

theorem sends_run {es : List EncryptEvent} (h : Sends g iv done cur waiting st)
    (hallowed : EncryptEvent.Allowed cur.length waiting es)
    (hscan : TransitionSystem.Guarded (step g) ScansAll st es) :
    ∃ st' cur', TransitionSystem.run (step g) st es = some st' ∧
      Sends g iv (done ++ EncryptEvent.messages cur es) cur' false st' := by
  induction es generalizing done cur waiting st with
  | nil =>
    have hwaiting : waiting = false := hallowed
    rw [hwaiting] at h
    refine ⟨st, cur, rfl, ?_⟩
    rw [EncryptEvent.messages, List.append_nil]
    exact h
  | cons e es ih =>
    cases e with
    | put data =>
      have hallowed' : EncryptEvent.Allowed (cur ++ data).length waiting es := by
        rw [List.length_append]
        exact hallowed
      exact ih (sends_put h data) hallowed' (hscan.2 _ rfl)
    | flush =>
      obtain ⟨-, rfl, hrest⟩ := hallowed
      obtain ⟨st', cur', hrun, hsends⟩ := ih (sends_flush h) hrest (hscan.2 _ rfl)
      refine ⟨st', cur', hrun, ?_⟩
      rw [List.append_assoc] at hsends
      exact hsends
    | get =>
      have hget : ∃ st', step g st .get = some st' ∧ Sends g iv done cur false st' := by
        cases waiting with
        | true => exact sends_get_end h hscan.1
        | false => exact sends_get_open h hscan.1
      obtain ⟨st₁, hstep, hsends⟩ := hget
      obtain ⟨st', cur', hrun, hsends'⟩ := ih hsends hallowed (hscan.2 _ hstep)
      refine ⟨st', cur', ?_, hsends'⟩
      rw [TransitionSystem.run, hstep]
      exact hrun

theorem messages_ne_nil {es : List EncryptEvent} (h : EncryptEvent.Allowed cur.length waiting es) :
    ∀ msg ∈ EncryptEvent.messages cur es, msg ≠ [] := by
  induction es generalizing cur waiting with
  | nil => exact fun _ h => absurd h List.not_mem_nil
  | cons e es ih =>
    cases e with
    | put data =>
      apply @ih (cur ++ data) waiting
      rw [List.length_append]
      exact h
    | flush =>
      obtain ⟨hpos, -, hrest⟩ := h
      intro msg hmsg
      rcases List.mem_cons.mp hmsg with rfl | hmsg
      · exact List.ne_nil_of_length_pos hpos
      · exact @ih [] true hrest msg hmsg
    | get => exact @ih cur false h

end AESGCMEncryption

namespace AESGCMDecryption

variable {g : GCM} {d : AESGCMDecryption} {iv body b c : List UInt8} {msgs got : List (List UInt8)}
  {r : Receiver (List (List UInt8))}

theorem getAll_eq (h : ∀ msg ∈ d.output, msg ≠ []) : d.getAll = (d.output, { d with output := [] }) := by
  obtain ⟨ivBuffer, ivDone, endMarkerState, input, output⟩ := d
  simp only at h
  induction output with
  | nil =>
    rw [getAll]
    rfl
  | cons msg output ih =>
    have hne : msg.isEmpty = false := List.isEmpty_eq_false_iff.mpr (h msg List.mem_cons_self)
    rw [getAll]
    simp only [hne, Bool.false_eq_true, if_false]
    rw [ih fun m hm => h m (List.mem_cons_of_mem _ hm)]

theorem getAll_of_nil (h : d.output = []) : d.getAll = ([], d) := by
  rw [getAll_eq (by rw [h]; exact fun _ hm => absurd hm List.not_mem_nil), ← h]

/-- `b` has been read behind the IV: the messages in it were returned. -/
structure Reads (iv : List UInt8) (msgs : List (List UInt8)) (b : List UInt8)
    (st : AESGCMDecryption × List (List UInt8)) : Prop where
  ivDone : st.1.ivDone = true
  output : st.1.output = []
  gathers : ∃ sealed, gathered b = some ⟨st.1.receiver.pending, st.1.endMarkerState, sealed⟩ ∧
    st.1.ivBuffer = incrementCounterByOne^[sealed.length] iv ∧ st.2 = msgs.take sealed.length

theorem putData_ivDone {d' : AESGCMDecryption} {data : List UInt8}
    (h : d.putData g data = some d') : d'.ivDone = d.ivDone := by
  induction hm : data.length using Nat.strongRecOn generalizing d data with
  | ind m ih =>
    rw [putData] at h
    split at h
    · split at h
      · cases h
      · cases h
        rfl
    · rename_i pos hpos
      have hpos' : 0 < pos := findLoop_pos hpos
      obtain ⟨d₁, hend, hrest⟩ := Option.bind_eq_some_iff.mp h
      obtain ⟨msg, -, rfl⟩ := Option.map_eq_some_iff.mp hend
      split at hrest
      · refine (ih _ ?_ hrest rfl).trans rfl
        rw [List.length_drop]
        omega
      · cases hrest
        rfl

theorem feed_deliver (g : GCM) (o : List UInt8 × List (List UInt8))
    {r r' : Receiver (List (List UInt8))} (h : r.feed endMarkerZeros collectMessage c = some r') :
    ∃ new, r'.out = r.out ++ new ∧
      Receiver.feed endMarkerZeros (deliver g) ⟨r.pending, r.zeros, o⟩ c =
        (new.foldlM (deliver g) o).map fun o => ⟨r'.pending, r'.zeros, o⟩ := feed_collect o h

theorem reads_putData (hmsgs : ∀ msg ∈ msgs, msg ≠ [])
    (hbody : gathered body = some r) (hsealed : r.out = g.sealAll iv msgs)
    (h : Reads iv msgs b (d, got)) (hcut : ¬ CutBadly d.endMarkerState c)
    (hinit : b ++ c <+: body) :
    ∃ d', d.putData g c = some d' ∧ Reads iv msgs (b ++ c) (d'.getAll.2, got ++ d'.getAll.1) := by
  obtain ⟨t, rfl⟩ := hinit
  obtain ⟨old, hb, hiv, hgot⟩ := h.gathers
  simp only at hb hiv hgot
  rw [gathered_append] at hbody
  obtain ⟨r₂, hbc, hrest⟩ := Option.bind_eq_some_iff.mp hbody
  have hc := hbc
  rw [gathered_append, hb, Option.bind_some] at hc
  obtain ⟨new, hnew, hfeed⟩ := feed_deliver g (d.ivBuffer, []) hc
  obtain ⟨more, hmore, -⟩ := feed_deliver g (d.ivBuffer, []) hrest
  -- The messages that become complete are the next ones that were sealed.
  have hall : old ++ (new ++ more) = g.sealAll iv msgs := by
    rw [← hsealed, hmore, hnew, List.append_assoc]
  have hnext := (GCM.sealAll_split (GCM.sealAll_split hall).2).1
  rw [← hiv] at hnext
  generalize hnow : (msgs.drop old.length).take new.length = now at hnext
  have hlen : now.length = new.length := by
    rw [hnext, GCM.sealAll_length]
  have hzeros : d.endMarkerState ≤ endMarkerZeros :=
    feed_zeros_le (Nat.zero_le _) hb
  have hput := @putData_receiver g d c hzeros hcut
  have hreceiver : d.receiver = ⟨d.receiver.pending, d.endMarkerState, (d.ivBuffer, [])⟩ := by
    have houtput := h.output
    simp only at houtput
    rw [receiver, houtput]
  rw [hreceiver, hfeed, hnext, GCM.deliver_sealAll] at hput
  obtain ⟨d', hd', hreceiver'⟩ := Option.map_eq_some_iff.mp hput
  have houtput : d'.output = now := congrArg (fun r => r.out.2) hreceiver'
  have hnonempty : ∀ msg ∈ d'.output, msg ≠ [] := by
    rw [houtput, ← hnow]
    exact fun msg hmsg => hmsgs msg (List.mem_of_mem_drop (List.mem_of_mem_take hmsg))
  refine ⟨d', hd', ?_⟩
  rw [getAll_eq hnonempty]
  refine ⟨(putData_ivDone hd').trans h.ivDone, rfl, old ++ new, ?_, ?_, ?_⟩
  · rw [hbc]
    have hpending : d'.receiver.pending = r₂.pending := congrArg Receiver.pending hreceiver'
    have hstate : d'.endMarkerState = r₂.zeros := congrArg Receiver.zeros hreceiver'
    have hsame : ({ d' with output := [] } : AESGCMDecryption).receiver.pending =
        d'.receiver.pending := rfl
    rw [hsame, hpending, ← hnew]
    simp only [hstate]
  · have hbuffer : d'.ivBuffer = incrementCounterByOne^[now.length] d.ivBuffer :=
      congrArg (fun r => r.out.1) hreceiver'
    simp only [hbuffer, hiv]
    rw [List.length_append, Nat.add_comm, Function.iterate_add_apply, hlen]
  · simp only [hgot, houtput]
    rw [← hnow, List.length_append, List.take_add]

/-- A fragment, with the IV or a part of it in front. -/
structure Started (iv : List UInt8) (msgs : List (List UInt8)) (read : List UInt8)
    (st : AESGCMDecryption × List (List UInt8)) : Prop where
  state : (read.length < ivSize ∧ st = (⟨read, false, 0, [], []⟩, [])) ∨
    ∃ b, read = iv ++ b ∧ Reads iv msgs b st

theorem reads_nil (iv : List UInt8) (msgs : List (List UInt8)) :
    Reads iv msgs [] (⟨iv, true, 0, [], []⟩, []) :=
  ⟨rfl, rfl, [], rfl, rfl, rfl⟩

theorem started_step {read c : List UInt8} {st : AESGCMDecryption × List (List UInt8)}
    (hlen : iv.length = ivSize) (hmsgs : ∀ msg ∈ msgs, msg ≠ [])
    (hbody : gathered body = some r) (hsealed : r.out = g.sealAll iv msgs)
    (hout : read ++ c <+: iv ++ body) (h : Started iv msgs read st) (hcut : CutWell st c) :
    ∃ st', step g st c = some st' ∧ Started iv msgs (read ++ c) st' := by
  obtain ⟨d, got⟩ := st
  rcases h.state with ⟨hshort, hst⟩ | ⟨b, rfl, hreads⟩
  · cases hst
    by_cases hiv : ivSize ≤ read.length + c.length
    · -- The IV becomes complete.
      have htoread : min (ivSize - read.length) c.length = ivSize - read.length := by omega
      have htake : read ++ c.take (ivSize - read.length) = iv := by
        have hfirst := congrArg (List.take ivSize) (List.prefix_iff_eq_take.mp hout)
        rw [List.take_take, List.length_append, Nat.min_eq_left hiv, List.take_append,
          List.take_of_length_le (Nat.le_of_lt hshort), List.take_append, ← hlen, List.take_length,
          Nat.sub_self, List.take_zero, List.append_nil, hlen] at hfirst
        exact hfirst
      have hsplit : read ++ c = iv ++ c.drop (ivSize - read.length) := by
        rw [← htake, List.append_assoc, List.take_append_drop]
      have hinit : [] ++ c.drop (ivSize - read.length) <+: body := by
        rw [hsplit] at hout
        exact (List.prefix_append_right_inj iv).mp hout
      obtain ⟨d', hput, hreads⟩ := reads_putData hmsgs hbody hsealed (reads_nil iv msgs)
        (not_cutBadly_zero _) hinit
      unfold step put
      simp only [Bool.false_eq_true, if_false, htoread, htake, hlen, decide_true, ne_eq,
        not_true_eq_false]
      by_cases hrest : c.drop (ivSize - read.length) = []
      · rw [if_pos hrest]
        refine ⟨_, rfl, ⟨.inr ⟨[], by rw [hsplit, hrest], ?_⟩⟩⟩
        simp only [@getAll_of_nil ⟨iv, true, 0, [], []⟩ rfl]
        exact reads_nil iv msgs
      · rw [if_neg hrest, hput]
        exact ⟨_, rfl, ⟨.inr ⟨_, hsplit, hreads⟩⟩⟩
    · have htoread : min (ivSize - read.length) c.length = c.length := by omega
      have hsmall : (read ++ c).length ≠ ivSize := by
        rw [List.length_append]
        omega
      unfold step put
      simp only [Bool.false_eq_true, if_false, htoread, List.take_length, List.drop_length, if_true,
        hsmall, decide_false]
      refine ⟨_, rfl, ⟨.inl ⟨by rw [List.length_append]; omega, ?_⟩⟩⟩
      simp only [@getAll_of_nil ⟨read ++ c, false, 0, [], []⟩ rfl]
      rfl
  · have hinit : b ++ c <+: body := by
      rw [List.append_assoc] at hout
      exact (List.prefix_append_right_inj iv).mp hout
    obtain ⟨d', hput, hreads'⟩ := reads_putData hmsgs hbody hsealed hreads hcut hinit
    refine ⟨_, ?_, ⟨.inr ⟨b ++ c, List.append_assoc .., hreads'⟩⟩⟩
    have hdone := hreads.ivDone
    simp only at hdone
    rw [step, put, if_pos hdone, hput]
    rfl

theorem started_run {frags : List (List UInt8)} {read : List UInt8}
    {st : AESGCMDecryption × List (List UInt8)} (hlen : iv.length = ivSize)
    (hmsgs : ∀ msg ∈ msgs, msg ≠ []) (hbody : gathered body = some r)
    (hsealed : r.out = g.sealAll iv msgs) (hout : read ++ frags.flatten <+: iv ++ body)
    (h : Started iv msgs read st) (hcut : TransitionSystem.Guarded (step g) CutWell st frags) :
    ∃ st', TransitionSystem.run (step g) st frags = some st' ∧
      Started iv msgs (read ++ frags.flatten) st' := by
  induction frags generalizing read st with
  | nil =>
    refine ⟨st, rfl, ?_⟩
    rw [List.flatten_nil, List.append_nil]
    exact h
  | cons c frags ih =>
    rw [List.flatten_cons, ← List.append_assoc] at hout ⊢
    obtain ⟨st₁, hstep, hstarted⟩ := started_step hlen hmsgs hbody hsealed
      ((List.prefix_append _ _).trans hout) h hcut.1
    obtain ⟨st', hrun, hstarted'⟩ := ih hout hstarted (hcut.2 st₁ hstep)
    refine ⟨st', ?_, hstarted'⟩
    rw [TransitionSystem.run, hstep]
    exact hrun

end AESGCMDecryption

/-- Every message arrives once and in order, for all calls on the sending side whose scans see
all that matters, and all cuts of what was sent that are no bad ones. -/
theorem AESGCMDecryption.messages_arrive (g : GCM) (iv : Vector UInt8 ivSize)
    {es : List EncryptEvent} (hallowed : EncryptEvent.Allowed 0 false es)
    (hscan : TransitionSystem.Guarded (AESGCMEncryption.step g) AESGCMEncryption.ScansAll
      (AESGCMEncryption.init iv, []) es) :
    ∃ e out, TransitionSystem.run (AESGCMEncryption.step g) (AESGCMEncryption.init iv, []) es =
        some (e, out) ∧
      ∀ frags : List (List UInt8), frags.flatten = out →
        TransitionSystem.Guarded (step g) CutWell (init, []) frags →
        ∃ d, TransitionSystem.run (step g) (init, []) frags =
          some (d, EncryptEvent.messages [] es) := by
  obtain ⟨⟨e, out⟩, cur, hrun, hsends⟩ :=
    AESGCMEncryption.sends_run (AESGCMEncryption.sends_init g iv) hallowed hscan
  rw [List.nil_append] at hsends
  obtain ⟨body, p, msgs, hout, hiv, hbody, -, -, hsealed, -⟩ := hsends.sent
  simp only at hout hiv hbody
  have hlen : iv.toList.length = ivSize := Vector.length_toList
  refine ⟨e, out, hrun, ?_⟩
  intro frags hfrags hcut
  have hinit : [] ++ frags.flatten <+: iv.toList ++ body := by
    rw [List.nil_append, hfrags, hout]
    split
    · exact List.prefix_rfl
    · rename_i hdone
      rw [hiv (Bool.eq_false_iff.mpr hdone)]
      exact List.nil_prefix
  have hmsgs := @AESGCMEncryption.messages_ne_nil [] false es hallowed
  have hstart : Started iv.toList (EncryptEvent.messages [] es) [] (init, []) :=
    ⟨.inl ⟨Nat.succ_pos _, rfl⟩⟩
  obtain ⟨⟨d, got⟩, hrun', hstarted⟩ :=
    started_run hlen hmsgs hbody hsealed.symm hinit hstart hcut
  rw [List.nil_append, hfrags, hout] at hstarted
  refine ⟨d, ?_⟩
  rw [hrun']
  congr 2
  cases hdone : e.ivDone with
  | true =>
    rw [hdone, if_pos rfl] at hstarted
    rcases hstarted.state with ⟨hshort, -⟩ | ⟨b, hb, hreads⟩
    · rw [List.length_append] at hshort
      omega
    · obtain rfl := List.append_cancel_left hb
      obtain ⟨sealed, hgathered, -, hgot⟩ := hreads.gathers
      rw [hbody, Option.some.injEq, Receiver.mk.injEq] at hgathered
      rw [← hgathered.2.2, ← hsealed, GCM.sealAll_length, List.take_length] at hgot
      exact hgot
  | false =>
    rw [hdone, hiv hdone] at hstarted
    rw [hiv hdone] at hbody
    have hnone : msgs = [] := (congrArg Receiver.out (Option.some.inj hbody)).symm
    rw [hnone] at hsealed
    have hmessages : EncryptEvent.messages [] es = [] := by
      apply List.eq_nil_of_length_eq_zero
      rw [← @GCM.sealAll_length g iv.toList, hsealed]
      rfl
    rw [hmessages]
    rcases hstarted.state with ⟨-, hst⟩ | ⟨b, hb, -⟩
    · exact congrArg Prod.snd hst
    · have hne : iv.toList ≠ [] := List.ne_nil_of_length_pos (by rw [hlen]; exact Nat.succ_pos _)
      exact absurd (List.append_eq_nil_iff.mp hb.symm).1 hne

def plainGCM : GCM where
  cipher _ _ := Equiv.refl UInt8
  tag _ _ := ⟨#[7, 7, 7, 7, 7, 7, 7, 7, 7, 7, 7, 7, 7, 7, 7, 0], rfl⟩

def plainIV : Vector UInt8 ivSize := Vector.replicate ivSize 3

def zerosMessage : List EncryptEvent := [.put [0, 0], .put [0, 0, 6], .flush, .get]

theorem AESGCMDecryption.messages_arrive_zerosMessage :
    ∃ e out d, TransitionSystem.run (AESGCMEncryption.step plainGCM)
        (AESGCMEncryption.init plainIV, []) zerosMessage = some (e, out) ∧
      TransitionSystem.run (step plainGCM) (init, []) [out] = some (d, [[0, 0, 0, 0, 6]]) := by
  have hscan : TransitionSystem.Guarded (AESGCMEncryption.step plainGCM) AESGCMEncryption.ScansAll
      (AESGCMEncryption.init plainIV, []) zerosMessage := by
    iterate 3 refine TransitionSystem.guarded_cons rfl trivial ?_
    refine ⟨⟨by decide, .inl (by decide)⟩, fun _ _ => trivial⟩
  obtain ⟨e, out, hrun, harrive⟩ := @messages_arrive plainGCM plainIV zerosMessage
    ⟨Nat.succ_pos _, rfl, rfl⟩ hscan
  obtain ⟨d, hd⟩ := harrive [out] (List.append_nil out) ⟨not_cutBadly_zero out, fun _ _ => trivial⟩
  exact ⟨e, out, d, hrun, hd⟩

/-- The zero at the end of the tag is kept back, and the next fragment is the end marker. -/
theorem AESGCMDecryption.put_loses_zero :
    ¬ ∀ (g : GCM) (iv : Vector UInt8 ivSize) (es : List EncryptEvent) (e : AESGCMEncryption)
      (out : List UInt8) (frags : List (List UInt8)), EncryptEvent.Allowed 0 false es →
      TransitionSystem.run (AESGCMEncryption.step g) (AESGCMEncryption.init iv, []) es =
        some (e, out) → frags.flatten = out → (∀ fragment ∈ frags, fragment ≠ []) →
      ∃ d, TransitionSystem.run (step g) (init, []) frags = some (d, EncryptEvent.messages [] es) := by
  intro hclaim
  have hsent : (TransitionSystem.run (AESGCMEncryption.step plainGCM)
      (AESGCMEncryption.init plainIV, []) [.put [5], .flush, .get]).map Prod.snd =
      some (List.replicate ivSize 3 ++ (5 :: List.replicate 15 7) ++ [0] ++ [0, 0, 0, 0, 1]) := by
    decide +kernel
  obtain ⟨⟨e, out⟩, hrun, hout⟩ := Option.map_eq_some_iff.mp hsent
  obtain ⟨d, hd⟩ := hclaim plainGCM plainIV [.put [5], .flush, .get] e out
    [List.replicate ivSize 3 ++ (5 :: List.replicate 15 7) ++ [0], [0, 0, 0, 0, 1]]
    ⟨Nat.one_pos, rfl, rfl⟩ hrun hout.symm (by decide)
  have hfails : (TransitionSystem.run (step plainGCM) (init, [])
      [List.replicate ivSize 3 ++ (5 :: List.replicate 15 7) ++ [0], [0, 0, 0, 0, 1]]).isSome =
      false := by
    decide +kernel
  rw [hd] at hfails
  cases hfails

end UrBackup
