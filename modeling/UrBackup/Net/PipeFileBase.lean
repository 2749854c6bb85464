import UrBackup.Lib.ByteStore

/-! A file over the output of a program: a ring buffer that one thread fills while others read
and seek in it. What is done under the mutex is one step. -/
namespace UrBackup

/-- `produced` are the bytes of the calls of `readStdoutIntoBuffer` that returned, `writing` those
that the current call has stored so far. -/
structure PipeFileBase where
  currPos : Int
  bufWPos : Nat
  bufWReservedPos : Nat
  bufRPos : Nat
  bufCircle : Bool
  buffer : ByteStore
  hasEof : Bool
  writing : Option (List UInt8)
  produced : List UInt8

namespace PipeFileBase

def bufferSize : Nat := 50 * 1024 * 1024
def bufferKeepFree : Nat := 45 * 1024 * 1024

def init : PipeFileBase where
  currPos := 0
  bufWPos := 0
  bufWReservedPos := 0
  bufRPos := 0
  bufCircle := false
  buffer := fun _ => 0
  hasEof := false
  writing := none
  produced := []

section Readers

def seekedRPos (p : PipeFileBase) (spos : Int) : Int := p.bufRPos + (spos - p.currPos)

def seekInt (p : PipeFileBase) (spos : Int) : Option PipeFileBase :=
  if spos - p.currPos = 0 then some p
  else if p.bufRPos ≤ p.bufWPos then
    if 0 ≤ p.seekedRPos spos ∧ p.seekedRPos spos ≤ p.bufWPos then
      some { p with currPos := spos, bufRPos := (p.seekedRPos spos).toNat }
    else if p.seekedRPos spos < 0 ∧ -p.seekedRPos spos < (bufferSize - p.bufWReservedPos : Nat) ∧
        p.bufCircle then
      some { p with currPos := spos, bufRPos := (bufferSize + p.seekedRPos spos).toNat }
    else none
  else
    if p.bufWReservedPos ≤ p.seekedRPos spos ∧ p.seekedRPos spos < bufferSize then
      some { p with currPos := spos, bufRPos := (p.seekedRPos spos).toNat }
    else if bufferSize ≤ p.seekedRPos spos ∧ p.seekedRPos spos - bufferSize ≤ p.bufWPos then
      some { p with currPos := spos, bufRPos := (p.seekedRPos spos - bufferSize).toNat }
    else none

def getReadAvail (p : PipeFileBase) : Nat :=
  if p.bufRPos ≤ p.bufWPos then p.bufWPos - p.bufRPos else bufferSize - p.bufRPos + p.bufWPos

def readPart (p : PipeFileBase) (toread : Nat) : List UInt8 × PipeFileBase :=
  (p.buffer.read p.bufRPos toread,
    { p with bufRPos := p.bufRPos + toread, currPos := p.currPos + toread })

def readBuf (p : PipeFileBase) (toread : Nat) : List UInt8 × PipeFileBase :=
  if p.bufRPos ≤ p.bufWPos then p.readPart toread
  else if toread ≤ bufferSize - p.bufRPos then p.readPart toread
  else
    let cread := bufferSize - p.bufRPos
    let first := p.readPart cread
    let rest := { first.2 with bufRPos := 0 }.readPart (toread - cread)
    (first.1 ++ rest.1, rest.2)

end Readers

section Writer

def bsizeFree (p : PipeFileBase) : Nat :=
  if p.bufWPos < p.bufRPos then p.bufRPos - p.bufWPos - bufferKeepFree
  else if bufferSize - p.bufWPos + p.bufRPos < bufferKeepFree then 0
  else bufferSize - p.bufWPos

def wrapped (p : PipeFileBase) : PipeFileBase :=
  if p.bufWPos = bufferSize ∧ bufferKeepFree < p.bufRPos then
    { p with bufCircle := true, bufWPos := 0, bufWReservedPos := 0 }
  else p

/-- `fillBuffer` up to the place where it lets go of the mutex. -/
def reserve (p : PipeFileBase) : PipeFileBase :=
  let p := p.wrapped
  if p.bsizeFree = 0 then p
  else { p with bufWReservedPos := p.bufWPos + p.bsizeFree, writing := some [] }

def store (p : PipeFileBase) (stored data : List UInt8) : PipeFileBase :=
  { p with
    buffer := p.buffer.write (p.bufWPos + stored.length) data
    writing := some (stored ++ data) }

def filled (p : PipeFileBase) (stored : List UInt8) (more : Bool) : PipeFileBase :=
  { p with
    bufWPos := p.bufWPos + stored.length
    bufWReservedPos := p.bufWPos + stored.length
    hasEof := !more
    writing := none
    produced := p.produced ++ stored }

end Writer

/-- A turn of a call of `Read` under the mutex: its position is lost, it waits for more bytes, or
it returns. -/
inductive ReadTurn where
  | fails
  | waits
  | returns (data : List UInt8)

inductive Event where
  | reserve
  | store (data : List UInt8)
  | filled (more : Bool)
  | seek (spos : Int)
  | read (spos : Int) (bsize : Nat) (turn : ReadTurn)

/-- How long a call waits is open, so it may return with fewer bytes. -/
inductive Step : PipeFileBase → Event → PipeFileBase → Prop where
  | reserve {p} (hidle : p.writing = none) (heof : p.hasEof = false) : Step p .reserve p.reserve
  | store {p stored data} (hwriting : p.writing = some stored)
      (hroom : p.bufWPos + (stored ++ data).length ≤ p.bufWReservedPos) :
      Step p (.store data) (p.store stored data)
  | filled {p stored} (more : Bool) (hwriting : p.writing = some stored) :
      Step p (.filled more) (p.filled stored more)
  | seek {p spos} : Step p (.seek spos) ((p.seekInt spos).getD p)
  | readFails {p spos bsize} (hseek : p.seekInt spos = none) :
      Step p (.read spos bsize .fails) p
  | readWaits {p q spos bsize} (hseek : p.seekInt spos = some q)
      (havail : q.getReadAvail < bsize) (heof : q.hasEof = false) :
      Step p (.read spos bsize .waits) q
  | readReturns {p q spos bsize} (hseek : p.seekInt spos = some q) :
      Step p (.read spos bsize (.returns (q.readBuf (min q.getReadAvail bsize)).1))
        (q.readBuf (min q.getReadAvail bsize)).2

/-- The states of runs whose steps are all allowed. -/
inductive Reached (allowed : PipeFileBase → Event → Prop) : PipeFileBase → Prop where
  | init : Reached allowed init
  | step {p e q} (h : Reached allowed p) (hallowed : allowed p e) (hstep : Step p e q) :
      Reached allowed q

end PipeFileBase

end UrBackup
