import UrBackup.Download.FileClient

/-! A transfer whose connection is lost and that goes on over another one. What comes over the
connections can be anything. -/
namespace UrBackup

open ByteOrder

/-- A part of a file that was compared with its hash and fits to it. -/
structure CheckedSegment where
  start : Nat
  data : List UInt8
  deriving DecidableEq

namespace GetFile

def resumeFrom (hashedTransfer : Bool) (g : GetFile) : Nat :=
  if hashedTransfer then g.lastCheckpoint else g.received

def reconnect (hashedTransfer : Bool) (g : GetFile) : GetFile :=
  { g with
    received := g.resumeFrom hashedTransfer
    file := g.file.seek (g.resumeFrom hashedTransfer)
    firstpacket := true
    hashed := []
    state := .data }

def announced (g : GetFile) : List UInt8 → Option (Nat × Nat)
  | [] => none
  | pid :: rest =>
    match headerSize pid with
    | none => none
    | some reqSize =>
      if g.firstpacket = true ∧ reqSize ≤ rest.length + 1 then
        some (ofLittleEndian (rest.take 8),
          if pid = idFilesizeAndExtents then ofLittleEndian ((rest.drop 8).take 8) else 0)
      else none

def announcedSize (filesize : Nat) : Nat := if 2 ^ 63 ≤ filesize then 2 ^ 63 - 1 else filesize

def segment (g : GetFile) : CheckedSegment := ⟨g.received - g.hashed.length, g.hashed⟩

section Checks

variable (c : SegmentHash)

/-- The comparison in `takeHash`. -/
def hashChecks (g : GetFile) (buf : List UInt8) : List CheckedSegment :=
  if g.state = .hash ∧ buf ≠ [] ∧ g.hashR ≤ buf.length ∧
      (c.md5 g.hashed).toList = g.hashBuf ++ buf.take g.hashR then [g.segment]
  else []

/-- The comparison in `takeCheckpoint`. -/
def checkpointChecks (g : GetFile) (rest : List UInt8) : List CheckedSegment :=
  if 16 ≤ rest.length ∧ (c.md5 g.hashed).toList = rest.take 16 then [g.segment] else []

/-- The comparisons in `takeData`. -/
def dataChecks : Nat → GetFile → List UInt8 → List CheckedSegment
  | 0, _, _ => []
  | turns + 1, g, buf =>
    let tw := g.nextCheckpoint - g.received
    let g := g.writeData (buf.take tw)
    if g.received = g.nextCheckpoint then
      g.checkpointChecks c (buf.drop tw) ++
        match g.takeCheckpoint c (buf.drop tw) with
        | .error _ => []
        | .ok (g, rest) => dataChecks turns g rest
    else []

/-- The segments that a round compares with their hashes and that fit to them. -/
def checks (g : GetFile) (buf : List UInt8) : List CheckedSegment :=
  let taken := do
    let (g, buf) ← g.takeHeader false true buf
    g.takeSparseExtends c buf
  match taken with
  | .error _ => []
  | .ok (g, buf) =>
    g.hashChecks c buf ++
      match g.takeHash c buf with
      | .error _ => []
      | .ok (g, buf) =>
        if g.state = .data && !buf.isEmpty then dataChecks c buf.length g buf else []

end Checks

end GetFile

/-- A hashed transfer of a file, with what came over the connections, the current one first, and the
segments that were checked. -/
structure Transfer where
  g : GetFile
  dlBuf : List UInt8
  got : List UInt8
  earlier : List (List UInt8)
  checked : List CheckedSegment
  rc : Option ErrorCode

inductive TransferEvent where
  /-- A round, with what it reads if it reads. -/
  | receive (isReadable : Bool) (data : List UInt8)
  | reconnect
  | timeout

namespace Transfer

variable (c : SegmentHash)

def start (stored : StoredFile) (dlBuf : List UInt8) : Transfer where
  g := .start c ⟨stored, 0⟩
  dlBuf := dlBuf
  got := dlBuf
  earlier := []
  checked := []
  rc := none

def mustRead (s : Transfer) (isReadable : Bool) : Bool :=
  isReadable || s.dlBuf.isEmpty || (s.g.firstpacket && GetFile.incompleteHeader s.dlBuf)

def round (s : Transfer) (data : List UInt8) : Transfer :=
  let buf := s.dlBuf ++ data
  let s := { s with got := s.got ++ data, checked := s.checked ++ s.g.checks c buf }
  match s.g.receive c false true buf with
  | .more g kept => { s with g, dlBuf := kept }
  | .returned rc g left => { s with g, dlBuf := left, rc := some rc }
  | .reconnected rc g => { s with g, dlBuf := [], rc := some rc }

def receive (s : Transfer) (isReadable : Bool) (data : List UInt8) : Option Transfer :=
  if s.mustRead isReadable then
    if data = [] ∨ Pipeline.bufferSize < s.dlBuf.length + data.length then none
    else some (s.round c data)
  else if data = [] then some (s.round c []) else none

def step (s : Transfer) (e : TransferEvent) : Option Transfer :=
  if s.rc.isSome then none
  else
    match e with
    | .receive isReadable data => s.receive c isReadable data
    | .reconnect => some { s with
        g := s.g.reconnect true, dlBuf := [], got := [], earlier := s.got :: s.earlier }
    | .timeout => some { s with rc := some .timeout }

/-- A byte of the file that was part of a segment whose hash came over the connection over which
the segment came, right behind it. -/
def Verified (s : Transfer) (i : Nat) : Prop :=
  ∃ segment ∈ s.checked, segment.start ≤ i ∧
    segment.data[i - segment.start]? = some (s.g.file.backing.stored.bytes i) ∧
      ∃ got ∈ s.got :: s.earlier, segment.data ++ (c.md5 segment.data).toList <:+: got

/-- A header, if there is one, does not make the file smaller than what was written to it. -/
def HeaderFits (s : Transfer) : Option (Nat × Nat) → Prop
  | none => True
  | some (filesize, holes) =>
    holes = 0 ∧ s.g.file.backing.stored.size ≤ GetFile.announcedSize filesize

instance (s : Transfer) (header : Option (Nat × Nat)) : Decidable (s.HeaderFits header) :=
  match header with
  | none => .isTrue trivial
  | some (filesize, holes) => inferInstanceAs (Decidable (holes = 0 ∧
      s.g.file.backing.stored.size ≤ GetFile.announcedSize filesize))

/-- What has to be so for a step, if what is resumed is to be verified: a connection is not lost when
the data up to a checkpoint is there and its hash is not, except at the end of the file. The file
has no holes. -/
def Resumable (s : Transfer) : TransferEvent → Prop
  | .receive _ data => s.HeaderFits (s.g.announced (s.dlBuf ++ data))
  | .reconnect => ¬ (s.g.state = .hash ∧ s.g.lastCheckpoint = s.g.received)
  | .timeout => True

instance (s : Transfer) (e : TransferEvent) : Decidable (s.Resumable e) :=
  match e with
  | .receive _ data => inferInstanceAs (Decidable (s.HeaderFits (s.g.announced (s.dlBuf ++ data))))
  | .reconnect =>
    inferInstanceAs (Decidable (¬ (s.g.state = .hash ∧ s.g.lastCheckpoint = s.g.received)))
  | .timeout => .isTrue trivial

end Transfer

end UrBackup
