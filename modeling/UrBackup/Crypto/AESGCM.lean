import UrBackup.Lib.ZeroStuffing
import Mathlib.Logic.Equiv.Defs
import Mathlib.Data.List.Basic

/-! Encrypted messages on a byte stream: an IV, and each message with its tag, its runs of
zeros escaped, up to an end marker. -/
namespace UrBackup

def ivSize : Nat := 12

def endMarkerZeros : Nat := 4

def tagSize : Nat := 16

/-- AES-GCM under one key: what it does to a byte of the message of an IV, and the tag. -/
structure GCM where
  cipher : List UInt8 → Nat → Equiv.Perm UInt8
  tag : List UInt8 → List UInt8 → Vector UInt8 tagSize

namespace GCM

variable (g : GCM)

/-- The bytes of a message from `pos` on. -/
def encrypt (iv : List UInt8) : Nat → List UInt8 → List UInt8
  | _, [] => []
  | pos, b :: bs => g.cipher iv pos b :: encrypt iv (pos + 1) bs

def decrypt (iv : List UInt8) : Nat → List UInt8 → List UInt8
  | _, [] => []
  | pos, b :: bs => (g.cipher iv pos).symm b :: decrypt iv (pos + 1) bs

def withTag (iv msg : List UInt8) : List UInt8 :=
  g.encrypt iv 0 msg ++ (g.tag iv (g.encrypt iv 0 msg)).toList

def verify (iv bytes : List UInt8) : Option (List UInt8) :=
  let text := bytes.take (bytes.length - tagSize)
  if tagSize ≤ bytes.length ∧ (g.tag iv text).toList = bytes.drop (bytes.length - tagSize) then
    some (g.decrypt iv 0 text)
  else none

end GCM

def increment : List UInt8 → List UInt8
  | [] => []
  | b :: bs => if b + 1 = 0 then 0 :: increment bs else (b + 1) :: bs

def incrementCounterByOne (iv : List UInt8) : List UInt8 := (increment iv.reverse).reverse

/-- The messages that a filter has put out, the last of which may not have ended. -/
structure MessageQueue where
  ended : List (List UInt8)
  current : List UInt8

namespace MessageQueue

def front (q : MessageQueue) : List UInt8 := q.ended.headD q.current

def maxRetrievable (q : MessageQueue) : Nat := q.front.length

def put (q : MessageQueue) (bs : List UInt8) : MessageQueue := { q with current := q.current ++ bs }

def messageEnd (q : MessageQueue) : MessageQueue := ⟨q.ended ++ [q.current], []⟩

def skip (q : MessageQueue) (n : Nat) : MessageQueue :=
  match q.ended with
  | [] => { q with current := q.current.drop n }
  | m :: ms => { q with ended := m.drop n :: ms }

def getNextMessage (q : MessageQueue) : MessageQueue :=
  match q.ended with
  | [] :: ms => { q with ended := ms }
  | _ => q

end MessageQueue

/-- `message` is what the filter has put out since the last end of a message. -/
structure AESGCMEncryption where
  mIV : List UInt8
  mOrigIV : List UInt8
  ivDone : Bool
  endMarkerState : Nat
  message : List UInt8
  queue : MessageQueue
  endMarkers : List Nat

namespace AESGCMEncryption

def init (iv : Vector UInt8 ivSize) : AESGCMEncryption :=
  ⟨iv.toList, iv.toList, false, 0, [], ⟨[], []⟩, []⟩

def put (g : GCM) (e : AESGCMEncryption) (data : List UInt8) : AESGCMEncryption :=
  let bytes := g.encrypt e.mIV e.message.length data
  { e with message := e.message ++ bytes, queue := e.queue.put bytes }

def flush (g : GCM) (e : AESGCMEncryption) : AESGCMEncryption :=
  let queue := (e.queue.put (g.tag e.mIV e.message).toList).messageEnd
  { e with
    queue
    endMarkers := e.endMarkers ++ [queue.maxRetrievable]
    mIV := incrementCounterByOne e.mIV
    message := [] }

/-- The scan ends at `size`, which was the end before escape bytes were put in. -/
def escapeLoop (size : Nat) (ret : List UInt8) (i state : Nat) : List UInt8 × Nat :=
  if i < size then
    if state = 0 ∧ i + endMarkerZeros ≤ size ∧ ret.getD (i + endMarkerZeros - 1) 0 ≠ 0 then
      escapeLoop size ret (i + endMarkerZeros) state
    else if ret.getD i 0 = 0 then
      if state + 1 = endMarkerZeros then
        escapeLoop size (ret.insertIdx (i + 1) ZeroStuffing.escapeByte) (i + 1 + 1) 0
      else escapeLoop size ret (i + 1) (state + 1)
    else escapeLoop size ret (i + 1) 0
  else (ret, state)
termination_by size - i
decreasing_by
  all_goals simp only [endMarkerZeros] at *; omega

def escapeEndMarker (e : AESGCMEncryption) (ret : List UInt8) (size offset : Nat) :
    List UInt8 × Nat := escapeLoop size ret offset e.endMarkerState

def markerSpace (addEndMarker : Bool) : List UInt8 :=
  if addEndMarker then List.replicate (endMarkerZeros + 1) 0 else []

def get (e : AESGCMEncryption) : Option (List UInt8 × AESGCMEncryption) :=
  let addEndMarker := !e.endMarkers.isEmpty
  let maxRetrievable := e.endMarkers.headD e.queue.maxRetrievable
  let iv := if e.ivDone then [] else e.mOrigIV
  let bytes := e.queue.front.take maxRetrievable
  if bytes.length = maxRetrievable then
    let (ret, state) :=
      if 0 < maxRetrievable then
        e.escapeEndMarker (iv ++ bytes ++ markerSpace addEndMarker) (iv.length + bytes.length)
          iv.length
      else (iv ++ bytes ++ markerSpace addEndMarker, e.endMarkerState)
    let e := { e with
      ivDone := true
      endMarkerState := state
      queue := e.queue.skip maxRetrievable
      endMarkers := e.endMarkers.tail.map fun m => m - bytes.length }
    if addEndMarker then
      some (ret.set (ret.length - 1) ZeroStuffing.endByte,
        { e with endMarkerState := 0, queue := e.queue.getNextMessage })
    else some (ret, e)
  else none

end AESGCMEncryption

/-- `input` is what the filter got since the last end of a message, `output` the messages. -/
structure AESGCMDecryption where
  ivBuffer : List UInt8
  ivDone : Bool
  endMarkerState : Nat
  input : List UInt8
  output : List (List UInt8)

namespace AESGCMDecryption

def init : AESGCMDecryption := ⟨[], false, 0, [], []⟩

/-- What `findAndUnescapeEndMarker` leaves behind. -/
structure Find where
  endMarkerPos : Option Nat
  hasError : Bool
  state : Nat
  dataCopy : List UInt8
  hasCopy : Bool
  escapedZeros : Nat

def findLoop (data : List UInt8) (i state : Nat) (dataCopy : List UInt8) (hasCopy : Bool)
    (escapedZeros : Nat) : Find :=
  if i < data.length then
    let ch := data.getD i 0
    if state = 0 ∧ i + endMarkerZeros ≤ data.length ∧ data.getD (i + endMarkerZeros - 1) 0 ≠ 0 then
      findLoop data (i + endMarkerZeros) state dataCopy hasCopy escapedZeros
    else if state = endMarkerZeros then
      if ch = ZeroStuffing.escapeByte then
        findLoop data (i + 1) 0
          ((if dataCopy.isEmpty then data else dataCopy).eraseIdx (i - escapedZeros)) true
          (escapedZeros + 1)
      else if ch = ZeroStuffing.endByte then
        if escapedZeros < i + 1 then
          ⟨some (i + 1 - escapedZeros), false, 0, dataCopy, hasCopy, escapedZeros⟩
        else ⟨none, true, 0, dataCopy, hasCopy, escapedZeros⟩
      else if ch ≠ 0 then ⟨none, true, state, dataCopy, hasCopy, escapedZeros⟩
      else findLoop data (i + 1) state dataCopy hasCopy escapedZeros
    else if ch = 0 then findLoop data (i + 1) (state + 1) dataCopy hasCopy escapedZeros
    else findLoop data (i + 1) 0 dataCopy hasCopy escapedZeros
  else ⟨none, false, state, dataCopy, hasCopy, escapedZeros⟩
termination_by data.length - i
decreasing_by
  all_goals simp only [endMarkerZeros] at *; omega

def findAndUnescapeEndMarker (d : AESGCMDecryption) (data : List UInt8) : Find :=
  findLoop data 0 d.endMarkerState [] false 0

theorem findLoop_pos {data : List UInt8} {i state : Nat} {dataCopy : List UInt8} {hasCopy : Bool}
    {escapedZeros pos : Nat}
    (h : (findLoop data i state dataCopy hasCopy escapedZeros).endMarkerPos = some pos) :
    0 < pos := by
  rw [findLoop] at h
  simp only at h
  split at h
  · split at h
    · exact findLoop_pos h
    · split at h
      · split at h
        · exact findLoop_pos h
        · split at h
          · split at h
            · cases h
              omega
            · cases h
          · split at h
            · cases h
            · exact findLoop_pos h
      · split at h
        · exact findLoop_pos h
        · exact findLoop_pos h
  · cases h
termination_by data.length - i
decreasing_by
  all_goals simp only [endMarkerZeros] at *; omega

/-- What goes to the filter if the data holds no end marker: the zeros at the end are kept
back, and those kept back before come first. -/
def putOpen (d : AESGCMDecryption) (data : List UInt8) (found : Find) : AESGCMDecryption :=
  let carryZeros := d.endMarkerState
  let (dataSize, carryZeros) :=
    if 0 < found.state then
      if found.state ≤ data.length - found.escapedZeros then
        (data.length - found.state, carryZeros)
      else if found.state - carryZeros ≤ data.length - found.escapedZeros then
        (data.length - (found.state - carryZeros), 0)
      else (data.length, carryZeros)
    else (data.length, carryZeros)
  let bytes :=
    if found.hasCopy = true ∧ 0 < dataSize - found.escapedZeros then
      found.dataCopy.take (dataSize - found.escapedZeros)
    else if 0 < dataSize then data.take dataSize
    else []
  { d with
    endMarkerState := found.state
    input := d.input ++ List.replicate carryZeros 0 ++ bytes }

def putClosed (d : AESGCMDecryption) (data : List UInt8) (found : Find) (endMarkerPos : Nat) :
    AESGCMDecryption :=
  let bytes :=
    if endMarkerZeros + 1 < endMarkerPos then
      List.replicate d.endMarkerState 0 ++
        (if found.hasCopy then found.dataCopy else data).take (endMarkerPos - endMarkerZeros - 1)
    else []
  { d with endMarkerState := found.state, input := d.input ++ bytes }

def messageEnd (g : GCM) (d : AESGCMDecryption) : Option AESGCMDecryption :=
  (g.verify d.ivBuffer d.input).map fun msg =>
    { d with
      input := []
      output := d.output ++ [msg]
      ivBuffer := incrementCounterByOne d.ivBuffer }

/-- `put` once the IV is known; `none` is the return value false. -/
def putData (g : GCM) (d : AESGCMDecryption) (data : List UInt8) : Option AESGCMDecryption :=
  let found := d.findAndUnescapeEndMarker data
  match _h : found.endMarkerPos with
  | none => if found.hasError then none else some (d.putOpen data found)
  | some pos =>
    ((d.putClosed data found pos).messageEnd g).bind fun d =>
      if pos < data.length then putData g d (data.drop (pos + found.escapedZeros)) else some d
termination_by data.length
decreasing_by
  have hpos : 0 < pos := findLoop_pos _h
  rw [List.length_drop]
  omega

def put (g : GCM) (d : AESGCMDecryption) (data : List UInt8) : Option AESGCMDecryption :=
  if d.ivDone then putData g d data
  else
    let toread := min (ivSize - d.ivBuffer.length) data.length
    let ivBuffer := d.ivBuffer ++ data.take toread
    let rest := data.drop toread
    let d := { d with ivBuffer, ivDone := decide (ivBuffer.length = ivSize) }
    if rest = [] then some d
    else if ivBuffer.length ≠ ivSize then none
    else putData g d rest

def get (d : AESGCMDecryption) : List UInt8 × AESGCMDecryption :=
  match d.output with
  | [] => ([], d)
  | msg :: output => (msg, { d with output })

/-- `get` until it yields nothing. -/
def getAll (d : AESGCMDecryption) : List (List UInt8) × AESGCMDecryption :=
  match _h : d.output with
  | [] => ([], d.get.2)
  | msg :: output =>
    if msg.isEmpty then ([], d.get.2)
    else
      let (msgs, d) := getAll { d with output }
      (msg :: msgs, d)
termination_by d.output.length
decreasing_by
  rw [_h]
  exact Nat.lt_succ_self _

end AESGCMDecryption

end UrBackup
