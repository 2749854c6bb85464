import UrBackup.Download.GetFile
import UrBackup.Lib.CheckedStream

/-! The replies of the client, and that `GetFile` takes exactly one of them from the connection,
however it comes apart. -/
namespace UrBackup

open ByteOrder

/-- What the client answers. The size of a file is that without its holes. -/
inductive Reply where
  | code (pid : UInt8)
  | filesize (size : Nat)
  | file (data : List UInt8)
  | sparse (extents : List SSparseExtent) (data : List UInt8)
  deriving DecidableEq

def encodeExtents (extents : List SSparseExtent) : List UInt8 :=
  extents.flatMap fun e => littleEndian 8 e.offset ++ littleEndian 8 e.size

namespace Reply

def content : Reply → List UInt8
  | .code _ | .filesize _ => []
  | .file data | .sparse _ data => data

def opened (f : DownloadFile) : Reply → DownloadFile
  | .sparse extents _ => f.openSparse extents
  | .code _ | .filesize _ | .file _ => f

/-- What `GetFile` makes of a reply. -/
def rc : Reply → ErrorCode
  | .code pid =>
    if pid = idCouldntOpen then .cannotOpenFile
    else if pid = idBaseDirLost then .baseDirLost
    else .readError
  | .filesize _ | .file _ | .sparse _ _ => .success

/-- A reply to a request for a file, or for its metadata only. The number of holes is below the one
at which their size does not fit into 32 bits. -/
def Answers (metadataOnly : Bool) : Reply → Prop
  | .code pid => pid = idCouldntOpen ∨ pid = idBaseDirLost ∨ pid = idReadError
  | .filesize size => metadataOnly = true ∧ size < 2 ^ 63
  | .file data => metadataOnly = false ∧ data.length < 2 ^ 63
  | .sparse extents data => metadataOnly = false ∧ data.length < 2 ^ 63 ∧ extents ≠ [] ∧
      extents.length + 1 < 2 ^ 28 ∧ ∀ e ∈ extents, e.offset < 2 ^ 63 ∧ e.size < 2 ^ 63

instance (metadataOnly : Bool) (r : Reply) : Decidable (r.Answers metadataOnly) :=
  match r with
  | .code pid =>
    inferInstanceAs (Decidable (pid = idCouldntOpen ∨ pid = idBaseDirLost ∨ pid = idReadError))
  | .filesize size => inferInstanceAs (Decidable (metadataOnly = true ∧ size < 2 ^ 63))
  | .file data => inferInstanceAs (Decidable (metadataOnly = false ∧ data.length < 2 ^ 63))
  | .sparse extents data => inferInstanceAs (Decidable (metadataOnly = false ∧
      data.length < 2 ^ 63 ∧ extents ≠ [] ∧ extents.length + 1 < 2 ^ 28 ∧
      ∀ e ∈ extents, e.offset < 2 ^ 63 ∧ e.size < 2 ^ 63))

section Wire

variable (c : SegmentHash) (hashedTransfer : Bool)

def payload (acc data : List UInt8) : List UInt8 :=
  if hashedTransfer then CheckedStream.encode (fun d => (c.md5 d).toList) c.checkpointDist acc data
  else data

def sparsePart (extents : List SSparseExtent) : List UInt8 :=
  encodeExtents extents ++ (c.md5 (encodeExtents extents)).toList

def bytes (start : Nat) : Reply → List UInt8
  | .code pid => [pid]
  | .filesize size => idFilesize :: littleEndian 8 size
  | .file data =>
    (idFilesize :: littleEndian 8 data.length) ++ payload c hashedTransfer [] (data.drop start)
  | .sparse extents data =>
    (idFilesizeAndExtents :: (littleEndian 8 data.length ++ littleEndian 8 extents.length)) ++
      (sparsePart c extents ++ payload c hashedTransfer [] (data.drop start))

end Wire

end Reply

namespace GetFile

section Expecting

variable (c : SegmentHash) (metadataOnly hashedTransfer : Bool)
  (Holds : DownloadFile → Nat → Prop)

/-- The next request asks for the data behind the last checkpoint. -/
structure Ready (g : GetFile) (size : Nat) : Prop where
  received : g.received = g.lastCheckpoint
  inside : g.lastCheckpoint = 0 ∨ g.lastCheckpoint < size
  next : min g.nextCheckpoint size = min (g.lastCheckpoint + c.checkpointDist) size

/-- The data since the last checkpoint is what was given to the hash. -/
structure InSegment (g : GetFile) (size : Nat) : Prop where
  received : g.received = g.lastCheckpoint + g.hashed.length
  short : g.hashed.length < c.checkpointDist
  inside : g.lastCheckpoint = 0 ∨ g.lastCheckpoint < size
  next : g.nextCheckpoint = min (g.lastCheckpoint + c.checkpointDist) size

/-- Without hashes the end of the file is the only checkpoint. -/
def Segment (g : GetFile) (size : Nat) : Prop :=
  if hashedTransfer then InSegment c g size else g.nextCheckpoint = size

/-- The data up to a checkpoint has come, and its hash has not. The end of the file does not count
as a checkpoint to go back to. -/
structure AtCheckpoint (g : GetFile) (size : Nat) : Prop where
  passed : g.lastCheckpoint = g.received ∧ g.received < size ∨
    g.received = size ∧ g.lastCheckpoint < size ∧ size ≤ g.lastCheckpoint + c.checkpointDist
  next : g.nextCheckpoint = min (g.received + c.checkpointDist) size

/-- The rest of a reply, from the state of the transfer. `Holds` says of a file that it has some
amount of the data and that more of it goes behind that. -/
inductive Expects (r : Reply) (g : GetFile) : List UInt8 → Prop
  | header (hfirst : g.firstpacket = true) (hstate : g.state = .data) (hhashed : g.hashed = [])
      (hready : Ready c g r.content.length) (hfile : Holds (r.opened g.file) g.received) :
      Expects r g (r.bytes c hashedTransfer g.received)
  | extents {extents : List SSparseExtent} {data taken rest : List UInt8}
      (hr : r = .sparse extents data) (hfirst : g.firstpacket = false)
      (hstate : g.state = .sparseExtends) (hsize : g.filesize = data.length)
      (hpart : taken ++ rest = Reply.sparsePart c extents) (hrest : rest ≠ [])
      (hstored : g.sparseExtends = littleEndian 8 extents.length ++ taken)
      (hhashed : g.hashed = taken.take (encodeExtents extents).length)
      (hhashR : g.hashR = rest.length) (hinside : g.received = 0 ∨ g.received < data.length)
      (hsegment : Segment c hashedTransfer { g with hashed := [] } data.length)
      (hfile : Holds (r.opened g.file) g.received) :
      Expects r g (rest ++ Reply.payload c hashedTransfer [] (data.drop g.received))
  | data (hfirst : g.firstpacket = false) (hstate : g.state = .data)
      (hsize : g.filesize = r.content.length) (hlt : g.received < r.content.length)
      (hsegment : Segment c hashedTransfer g r.content.length) (hfile : Holds g.file g.received) :
      Expects r g (Reply.payload c hashedTransfer g.hashed (r.content.drop g.received))
  | hash {rest : List UInt8} (htransfer : hashedTransfer = true) (hfirst : g.firstpacket = false)
      (hstate : g.state = .hash) (hsize : g.filesize = r.content.length)
      (hhash : g.hashBuf ++ rest = (c.md5 g.hashed).toList) (hrest : rest ≠ [])
      (hhashR : g.hashR = rest.length) (hat : AtCheckpoint c g r.content.length)
      (hfile : Holds g.file g.received) :
      Expects r g (rest ++ Reply.payload c hashedTransfer [] (r.content.drop g.received))

/-- The bytes in the buffer and those to come are the rest of a reply and what comes after it. -/
def Ongoing (r : Reply) (tail fut : List UInt8) (g : GetFile) (buf : List UInt8) : Prop :=
  ∃ rest, Expects c hashedTransfer Holds r g rest ∧ buf ++ fut = rest ++ tail

/-- A round ends with the reply, or it stops within it. -/
def RoundSpec (r : Reply) (tail fut : List UInt8) : Round → Prop
  | .returned rc g left =>
    rc = r.rc ∧ left ++ fut = tail ∧ Holds g.file r.content.length
  | .reconnected _ _ => False
  | .more g kept =>
    Ongoing c hashedTransfer Holds r tail fut g kept ∧
      (kept = [] ∨ g.firstpacket = true ∧ incompleteHeader kept = true)

/-- A part of a round. -/
def StageSpec (r : Reply) (tail fut : List UInt8) (Q : GetFile → List UInt8 → Prop) :
    Except Round (GetFile × List UInt8) → Prop
  | .error round => RoundSpec c hashedTransfer Holds r tail fut round
  | .ok (g, buf) => Ongoing c hashedTransfer Holds r tail fut g buf ∧ Q g buf

end Expecting

section Header

variable {c : SegmentHash} {metadataOnly hashedTransfer : Bool} {g : GetFile}
  {pid : UInt8} {buf fields more : List UInt8}

theorem headerSize_eq_some {n : Nat} (h : headerSize pid = some n) :
    pid = idFilesize ∧ n = 9 ∨ pid = idFilesizeAndExtents ∧ n = 17 := by
  unfold headerSize at h
  split at h
  next hpid => exact .inl ⟨hpid, (Option.some.inj h).symm⟩
  · split at h
    next hpid => exact .inr ⟨hpid, (Option.some.inj h).symm⟩
    · cases h

theorem not_code_of_headerSize {n : Nat} (h : headerSize pid = some n) :
    pid ≠ idCouldntOpen ∧ pid ≠ idBaseDirLost ∧ pid ≠ idReadError := by
  cases headerSize_eq_some h with
  | inl hsize =>
    rw [hsize.1]
    decide
  | inr hextents =>
    rw [hextents.1]
    decide

theorem incompleteHeader_of_append (hsize : headerSize pid = some (fields.length + 1))
    (hbuf : buf ≠ []) (hmore : more ≠ []) (h : buf ++ more = pid :: fields) :
    incompleteHeader buf = true := by
  cases buf with
  | nil => exact absurd rfl hbuf
  | cons b rest =>
    rw [List.cons_append, List.cons.injEq] at h
    have hlen := congrArg List.length h.2
    have hpos := List.length_pos_iff.mpr hmore
    rw [List.length_append] at hlen
    rw [incompleteHeader, h.1, hsize, Option.any_some, decide_eq_true_iff]
    omega

theorem takeHeader_of_incomplete (hfirst : g.firstpacket = true)
    (h : incompleteHeader buf = true) :
    g.takeHeader metadataOnly hashedTransfer buf = .error (.more g buf) := by
  cases buf with
  | nil => cases h
  | cons pid rest =>
    rw [incompleteHeader, Option.any_eq_true] at h
    obtain ⟨n, hsize, hshort⟩ := h
    obtain ⟨hopen, hlost, hread⟩ := not_code_of_headerSize hsize
    have hlt : (pid :: rest).length < n := of_decide_eq_true hshort
    rw [takeHeader, if_pos hfirst, if_neg hopen, if_neg hlost, if_neg hread, hsize]
    exact if_pos hlt

theorem takeHeader_of_complete (hfirst : g.firstpacket = true)
    (hsize : headerSize pid = some (fields.length + 1)) :
    g.takeHeader metadataOnly hashedTransfer ((pid :: fields) ++ buf) =
      takeFilesize metadataOnly hashedTransfer { g with firstpacket := false }
        (ofLittleEndian ((fields ++ buf).take 8))
        (if pid = idFilesizeAndExtents then ofLittleEndian (((fields ++ buf).drop 8).take 8) else 0)
        buf := by
  obtain ⟨hopen, hlost, hread⟩ := not_code_of_headerSize hsize
  have hlt : ¬ (pid :: (fields ++ buf)).length < fields.length + 1 := by
    rw [List.length_cons, List.length_append]
    omega
  rw [List.cons_append, takeHeader, if_pos hfirst, if_neg hopen, if_neg hlost, if_neg hread, hsize]
  dsimp only
  rw [if_neg hlt, List.drop_succ_cons, List.drop_left]

theorem takeHeader_code (hfirst : g.firstpacket = true)
    (h : pid = idCouldntOpen ∨ pid = idBaseDirLost ∨ pid = idReadError) :
    g.takeHeader metadataOnly hashedTransfer (pid :: buf) =
      .error (.returned (Reply.code pid).rc g buf) := by
  rw [takeHeader, if_pos hfirst]
  rcases h with rfl | rfl | rfl <;> rfl

theorem takeHeader_of_later (hfirst : g.firstpacket = false) :
    g.takeHeader metadataOnly hashedTransfer buf = .ok (g, buf) := by
  unfold takeHeader
  rw [hfirst, if_neg Bool.false_ne_true]

theorem int64_bytes {n : Nat} (h : n < 2 ^ 63) : ofLittleEndian (littleEndian 8 n) = n :=
  ofLittleEndian_littleEndian (by omega)

theorem headerSize_filesize (size : Nat) :
    headerSize idFilesize = some ((littleEndian 8 size).length + 1) := by
  rw [littleEndian_length]
  rfl

theorem headerSize_extents (size numExtents : Nat) :
    headerSize idFilesizeAndExtents =
      some ((littleEndian 8 size ++ littleEndian 8 numExtents).length + 1) := by
  rw [List.length_append, littleEndian_length, littleEndian_length]
  rfl

theorem takeHeader_filesize {size : Nat} (hfirst : g.firstpacket = true) (hsize : size < 2 ^ 63) :
    g.takeHeader metadataOnly hashedTransfer ((idFilesize :: littleEndian 8 size) ++ buf) =
      takeFilesize metadataOnly hashedTransfer { g with firstpacket := false } size 0 buf := by
  have hdecode : (littleEndian 8 size ++ buf).take 8 = littleEndian 8 size :=
    List.take_left' (littleEndian_length 8 size)
  rw [takeHeader_of_complete hfirst (headerSize_filesize size), hdecode, int64_bytes hsize,
    if_neg (by decide)]

theorem takeHeader_extents {size numExtents : Nat} (hfirst : g.firstpacket = true)
    (hsize : size < 2 ^ 63) (hnum : numExtents < 2 ^ 63) :
    g.takeHeader metadataOnly hashedTransfer
        ((idFilesizeAndExtents :: (littleEndian 8 size ++ littleEndian 8 numExtents)) ++ buf) =
      takeFilesize metadataOnly hashedTransfer { g with firstpacket := false } size numExtents
        buf := by
  have hlen := littleEndian_length 8 size
  rw [takeHeader_of_complete hfirst (headerSize_extents size numExtents), if_pos rfl,
    List.append_assoc, List.take_left' hlen, List.drop_left' hlen,
    List.take_left' (littleEndian_length 8 numExtents), int64_bytes hsize, int64_bytes hnum]

theorem part_cases {buf fut part rest : List UInt8} (h : buf ++ fut = part ++ rest) :
    (∃ more, more ≠ [] ∧ part = buf ++ more ∧ fut = more ++ rest) ∨
      ∃ left, buf = part ++ left ∧ left ++ fut = rest := by
  cases List.append_eq_append_iff.mp h with
  | inl hwithin =>
    obtain ⟨more, hmore, hfut⟩ := hwithin
    by_cases hnil : more = []
    · subst hnil
      rw [List.append_nil] at hmore
      exact .inr ⟨[], by rw [List.append_nil, hmore], hfut⟩
    · exact .inl ⟨more, hnil, hmore, hfut⟩
  | inr hbehind =>
    obtain ⟨left, hleft, hrest⟩ := hbehind
    exact .inr ⟨left, hleft, hrest.symm⟩

theorem header_cases {fut rest : List UInt8} (hsize : headerSize pid = some (fields.length + 1))
    (hbuf : buf ≠ []) (h : buf ++ fut = (pid :: fields) ++ rest) :
    incompleteHeader buf = true ∨ ∃ left, buf = (pid :: fields) ++ left ∧ left ++ fut = rest := by
  cases part_cases h with
  | inl hwithin =>
    obtain ⟨more, hmore, hpart, _⟩ := hwithin
    exact .inl (incompleteHeader_of_append hsize hbuf hmore hpart.symm)
  | inr hbehind => exact .inr hbehind

end Header

@[simp] theorem encodeExtents_length (extents : List SSparseExtent) :
    (encodeExtents extents).length = 16 * extents.length := by
  induction extents with
  | nil => rfl
  | cons e extents ih =>
    simp only [encodeExtents] at ih
    simp only [encodeExtents, List.flatMap_cons, List.length_append, littleEndian_length,
      List.length_cons, ih]
    ring

theorem sparsePart_length (c : SegmentHash) (extents : List SSparseExtent) :
    (Reply.sparsePart c extents).length = 16 * extents.length + 16 := by
  rw [Reply.sparsePart, List.length_append, encodeExtents_length, Vector.length_toList]

theorem StageSpec.mono {c : SegmentHash} {hashedTransfer : Bool}
    {Holds : DownloadFile → Nat → Prop} {r : Reply} {tail fut : List UInt8}
    {P Q : GetFile → List UInt8 → Prop} (hPQ : ∀ g buf, P g buf → Q g buf)
    {stage : Except Round (GetFile × List UInt8)}
    (h : StageSpec c hashedTransfer Holds r tail fut P stage) :
    StageSpec c hashedTransfer Holds r tail fut Q stage := by
  cases stage with
  | error round => exact h
  | ok taken => exact ⟨h.1, hPQ _ _ h.2⟩

section Stages

variable {c : SegmentHash} {metadataOnly hashedTransfer : Bool}
  {Holds : DownloadFile → Nat → Prop} {r : Reply} {tail fut buf : List UInt8} {g : GetFile}

theorem Ready.received_inside {size : Nat} (h : Ready c g size) :
    g.received = 0 ∨ g.received < size := by
  rw [h.received]
  exact h.inside

theorem Ready.received_eq_zero {size : Nat} (h : Ready c g size) (hsize : size = 0) :
    g.received = 0 := by
  cases h.received_inside with
  | inl hzero => exact hzero
  | inr hlt => omega

theorem Segment.congr {size : Nat} {g' : GetFile} (h : Segment c hashedTransfer g size)
    (hreceived : g'.received = g.received) (hlast : g'.lastCheckpoint = g.lastCheckpoint)
    (hnext : g'.nextCheckpoint = g.nextCheckpoint) (hhashed : g'.hashed = g.hashed) :
    Segment c hashedTransfer g' size := by
  unfold Segment at h ⊢
  cases hashedTransfer with
  | false => exact hnext.trans h
  | true =>
    refine ⟨?_, ?_, ?_, ?_⟩
    · rw [hreceived, hlast, hhashed]
      exact h.received
    · rw [hhashed]
      exact h.short
    · rw [hlast]
      exact h.inside
    · rw [hnext, hlast]
      exact h.next

theorem Ready.segment {size : Nat} {g' : GetFile} (h : Ready c g size)
    (hreceived : g'.received = g.received) (hlast : g'.lastCheckpoint = g.lastCheckpoint)
    (hnext : g'.nextCheckpoint = if hashedTransfer then min g.nextCheckpoint size else size)
    (hhashed : g'.hashed = []) : Segment c hashedTransfer g' size := by
  unfold Segment
  cases hashedTransfer with
  | false => exact hnext
  | true =>
    refine ⟨?_, ?_, ?_, ?_⟩
    · rw [hreceived, hlast, hhashed, h.received, List.length_nil, Nat.add_zero]
    · rw [hhashed]
      exact c.pos
    · rw [hlast]
      exact h.inside
    · rw [hnext, hlast]
      exact h.next

theorem Ready.received_lt {size : Nat} (h : Ready c g size) (hsize : size ≠ 0) :
    g.received < size := by
  cases h.received_inside with
  | inl hzero => omega
  | inr hlt => exact hlt

theorem takeFilesize_metadata (filesize numSparseExtends : Nat) (rest : List UInt8) :
    ∃ g', g.takeFilesize true hashedTransfer filesize numSparseExtends rest =
      .error (.returned .success g' rest) ∧ g'.file = g.file := by
  unfold takeFilesize
  simp

theorem takeFilesize_empty (rest : List UInt8) :
    ∃ g', g.takeFilesize metadataOnly hashedTransfer 0 0 rest =
      .error (.returned .success g' rest) ∧ g'.file = g.file := by
  unfold takeFilesize
  simp

theorem takeFilesize_file {size : Nat} (hlt : g.received < size) (hsize : size < 2 ^ 63)
    (rest : List UInt8) :
    g.takeFilesize false hashedTransfer size 0 rest = .ok ({ g with
      filesize := size
      numSparseExtends := 0
      nextCheckpoint := if hashedTransfer then min g.nextCheckpoint size else size }, rest) := by
  have hzero : size ≠ 0 := by omega
  have hsmall : ¬ 9223372036854775808 ≤ size := by omega
  unfold takeFilesize
  simp [hzero, hlt.ne', hsmall]

theorem takeFilesize_sparse {size numExtents : Nat} (hsize : size < 2 ^ 63)
    (hnum : numExtents ≠ 0) (hbound : numExtents + 1 < 2 ^ 28) (rest : List UInt8) :
    g.takeFilesize false hashedTransfer size numExtents rest = .ok ({ g with
      filesize := size
      numSparseExtends := numExtents
      nextCheckpoint := if hashedTransfer then min g.nextCheckpoint size else size
      state := .sparseExtends
      hashed := []
      sparseExtends := littleEndian 8 numExtents
      hashR := 16 * numExtents + 16 }, rest) := by
  have hsmall : ¬ 9223372036854775808 ≤ size := by omega
  have hpos : 0 < numExtents := by omega
  have hfew : numExtents < 9223372036854775808 := by omega
  have hhashR : (2 * numExtents * 8 + 16) % 4294967296 = 16 * numExtents + 16 := by omega
  unfold takeFilesize
  simp [hnum, hsmall, hpos, hfew, hhashR]

theorem takeHeader_of_start (hanswers : r.Answers metadataOnly) (hbuf : buf ≠ [])
    (hfirst : g.firstpacket = true) (hstate : g.state = .data) (hhashed : g.hashed = [])
    (hready : Ready c g r.content.length) (hfile : Holds (r.opened g.file) g.received)
    (happ : buf ++ fut = r.bytes c hashedTransfer g.received ++ tail) :
    StageSpec c hashedTransfer Holds r tail fut (fun g _ => g.firstpacket = false)
      (g.takeHeader metadataOnly hashedTransfer buf) := by
  have hwaits : incompleteHeader buf = true →
      StageSpec c hashedTransfer Holds r tail fut (fun g _ => g.firstpacket = false)
        (g.takeHeader metadataOnly hashedTransfer buf) := by
    intro hincomplete
    rw [takeHeader_of_incomplete hfirst hincomplete]
    exact ⟨⟨_, .header hfirst hstate hhashed hready hfile, happ⟩, .inr ⟨hfirst, hincomplete⟩⟩
  cases r with
  | code pid =>
    cases buf with
    | nil => exact absurd rfl hbuf
    | cons b left =>
      rw [Reply.bytes, List.cons_append, List.singleton_append, List.cons.injEq] at happ
      rw [happ.1, takeHeader_code hfirst hanswers]
      rw [hready.received_eq_zero rfl] at hfile
      exact ⟨rfl, happ.2, hfile⟩
  | filesize size =>
    cases header_cases (headerSize_filesize size) hbuf happ with
    | inl hincomplete => exact hwaits hincomplete
    | inr hcomplete =>
      obtain ⟨left, rfl, hleft⟩ := hcomplete
      rw [takeHeader_filesize hfirst hanswers.2, hanswers.1]
      obtain ⟨g', hround, hsame⟩ :=
        takeFilesize_metadata (g := { g with firstpacket := false }) size 0 left
      rw [hround]
      rw [hready.received_eq_zero rfl] at hfile
      refine ⟨rfl, hleft, ?_⟩
      rw [hsame]
      exact hfile
  | file data =>
    obtain ⟨rfl, hsize⟩ := hanswers
    rw [Reply.bytes, List.append_assoc] at happ
    cases header_cases (headerSize_filesize data.length) hbuf happ with
    | inl hincomplete => exact hwaits hincomplete
    | inr hcomplete =>
      obtain ⟨left, rfl, hleft⟩ := hcomplete
      rw [takeHeader_filesize hfirst hsize]
      by_cases hempty : data.length = 0
      · obtain ⟨g', hround, hsame⟩ := takeFilesize_empty (g := { g with firstpacket := false })
          left
        rw [hempty, hround]
        have hnil := List.eq_nil_of_length_eq_zero hempty
        rw [hready.received_eq_zero hempty] at hfile
        refine ⟨rfl, ?_, ?_⟩
        · rw [hleft, hnil, List.drop_nil]
          cases hashedTransfer <;> rfl
        · rw [hsame, Reply.content, hempty]
          exact hfile
      · have hlt : g.received < data.length := hready.received_lt hempty
        rw [takeFilesize_file (g := { g with firstpacket := false }) hlt hsize]
        refine ⟨⟨_, .data rfl hstate rfl hlt
          (hready.segment rfl rfl rfl hhashed) hfile, ?_⟩, rfl⟩
        rw [hleft, hhashed]
        rfl
  | sparse extents data =>
    obtain ⟨rfl, hsize, hne, hfew, hbounds⟩ := hanswers
    rw [Reply.bytes, List.append_assoc] at happ
    cases header_cases (headerSize_extents data.length extents.length) hbuf happ with
    | inl hincomplete => exact hwaits hincomplete
    | inr hcomplete =>
      obtain ⟨left, rfl, hleft⟩ := hcomplete
      have hnum : extents.length ≠ 0 := fun h => hne (List.eq_nil_of_length_eq_zero h)
      have hlen := sparsePart_length c extents
      have hpart : Reply.sparsePart c extents ≠ [] := by
        apply List.ne_nil_of_length_pos
        omega
      rw [takeHeader_extents hfirst hsize (by omega), takeFilesize_sparse hsize hnum hfew]
      exact ⟨⟨_, .extents rfl rfl rfl rfl (List.nil_append _) hpart (List.append_nil _).symm
        List.take_nil.symm hlen.symm hready.received_inside (hready.segment rfl rfl rfl rfl) hfile,
        hleft⟩, rfl⟩

theorem encodeExtents_drop (extents : List SSparseExtent) (i : Nat) :
    (encodeExtents extents).drop (16 * i) = encodeExtents (extents.drop i) := by
  induction extents generalizing i with
  | nil => simp [encodeExtents]
  | cons e extents ih =>
    cases i with
    | zero => rfl
    | succ i =>
      have hlen : (littleEndian 8 e.offset ++ littleEndian 8 e.size).length = 16 := by simp
      have hsplit : 16 * (i + 1) = 16 + 16 * i := by omega
      rw [List.drop_succ_cons, ← ih, encodeExtents, List.flatMap_cons, hsplit, ← List.drop_drop,
        List.drop_left' hlen]
      rfl

theorem readExtents_encode {extents : List SSparseExtent} (hfew : extents.length + 1 < 2 ^ 28)
    (hbounds : ∀ e ∈ extents, e.offset < 2 ^ 63 ∧ e.size < 2 ^ 63) (more : List UInt8) :
    readExtents (littleEndian 8 extents.length ++ (encodeExtents extents ++ more)) = extents := by
  have hcount : ofLittleEndian ((littleEndian 8 extents.length ++
      (encodeExtents extents ++ more)).take 8) = extents.length := by
    rw [List.take_left' (littleEndian_length 8 _)]
    exact int64_bytes (by omega)
  apply List.ext_getElem
  · rw [readExtents, List.length_map, List.length_range, hcount]
  · intro i hi hi'
    have hdrop : (littleEndian 8 extents.length ++ (encodeExtents extents ++ more)).drop
        (8 + 16 * i) = littleEndian 8 extents[i].offset ++ (littleEndian 8 extents[i].size ++
          (encodeExtents (extents.drop (i + 1)) ++ more)) := by
      have hlen : 16 * i ≤ (encodeExtents extents).length := by
        rw [encodeExtents_length]
        omega
      rw [← List.drop_drop, List.drop_left' (littleEndian_length 8 _),
        List.drop_append_of_le_length hlen, encodeExtents_drop, List.drop_eq_getElem_cons hi',
        encodeExtents, List.flatMap_cons, List.append_assoc, List.append_assoc]
      rfl
    obtain ⟨hoffset, hsize⟩ := hbounds _ (List.getElem_mem hi')
    have hnext : (littleEndian 8 extents.length ++ (encodeExtents extents ++ more)).drop
        (16 + 16 * i) = littleEndian 8 extents[i].size ++
          (encodeExtents (extents.drop (i + 1)) ++ more) := by
      have hsplit : 16 + 16 * i = 8 + 16 * i + 8 := by omega
      rw [hsplit, ← List.drop_drop (i := 8), hdrop, List.drop_left' (littleEndian_length 8 _)]
    simp only [readExtents, List.getElem_map, List.getElem_range]
    rw [hnext, hdrop, List.take_left' (littleEndian_length 8 _),
      List.take_left' (littleEndian_length 8 _), int64_bytes hoffset, int64_bytes hsize]

/-- The bytes so far that belong to the holes and not to their hash. -/
theorem take_hashed {taken rest buf enc sum : List UInt8} (hpart : taken ++ rest = enc ++ sum)
    (hsum : sum.length = 16) :
    taken.take enc.length ++ buf.take (rest.length - 16) = (taken ++ buf).take enc.length := by
  have hlen := congrArg List.length hpart
  rw [List.length_append, List.length_append, hsum] at hlen
  have hleft : rest.length - 16 = enc.length - taken.length := by omega
  rw [List.take_append, hleft]

theorem takeSparseExtends_of_state (h : g.state ≠ .sparseExtends) :
    g.takeSparseExtends c buf = .ok (g, buf) := by
  unfold takeSparseExtends
  simp [h]

theorem sparseExtendsDone_spec {extents : List SSparseExtent} {data : List UInt8}
    (hanswers : (Reply.sparse extents data).Answers metadataOnly) (hfirst : g.firstpacket = false)
    (hsize : g.filesize = data.length)
    (hstored : g.sparseExtends = littleEndian 8 extents.length ++ Reply.sparsePart c extents)
    (hhashed : g.hashed = encodeExtents extents)
    (hinside : g.received = 0 ∨ g.received < data.length)
    (hsegment : Segment c hashedTransfer { g with hashed := [] } data.length)
    (hfile : Holds (g.file.openSparse extents) g.received)
    (happ : buf ++ fut =
      Reply.payload c hashedTransfer [] (data.drop g.received) ++ tail) :
    StageSpec c hashedTransfer Holds (.sparse extents data) tail fut
      (fun g _ => g.firstpacket = false ∧ g.state = .data) (g.sparseExtendsDone c buf) := by
  obtain ⟨_, _, _, hfew, hbounds⟩ := hanswers
  have hread : readExtents g.sparseExtends = extents := by
    rw [hstored]
    exact readExtents_encode hfew hbounds _
  have hsum : g.sparseExtends.drop (g.sparseExtends.length - 16) =
      (c.md5 (encodeExtents extents)).toList := by
    rw [hstored, Reply.sparsePart, ← List.append_assoc]
    apply List.drop_left'
    simp only [List.length_append, littleEndian_length, encodeExtents_length, Vector.length_toList]
    omega
  unfold sparseExtendsDone
  rw [hhashed, hsum, if_neg (fun h => h rfl)]
  dsimp only
  rw [hread]
  by_cases hempty : data.length = 0
  · have hreceived : g.received = 0 := by omega
    have hnil := List.eq_nil_of_length_eq_zero hempty
    rw [hsize, hempty]
    rw [hreceived] at hfile happ
    refine ⟨rfl, ?_, ?_⟩
    · rw [happ, hnil]
      cases hashedTransfer <;> rfl
    · rw [Reply.content, hempty]
      exact hfile
  · have hlt : g.received < data.length := by omega
    have hmore : ¬ (decide (g.filesize = 0) || decide (g.filesize = g.received)) = true := by
      rw [hsize]
      simp [hempty, hlt.ne']
    rw [if_neg hmore]
    exact ⟨⟨_, .data hfirst rfl hsize hlt (hsegment.congr rfl rfl rfl rfl) hfile, happ⟩,
      hfirst, rfl⟩

theorem takeSparseExtends_spec (hanswers : r.Answers metadataOnly) (hfirst : g.firstpacket = false)
    (h : Ongoing c hashedTransfer Holds r tail fut g buf) :
    StageSpec c hashedTransfer Holds r tail fut
      (fun g buf => g.firstpacket = false ∧ (buf ≠ [] → g.state ≠ .sparseExtends))
      (g.takeSparseExtends c buf) := by
  obtain ⟨rest, hexpects, happ⟩ := h
  by_cases hstate : g.state = .sparseExtends
  · by_cases hbuf : buf = []
    · subst hbuf
      unfold takeSparseExtends
      rw [List.isEmpty_nil, Bool.not_true, Bool.and_false, if_neg Bool.false_ne_true]
      exact ⟨⟨rest, hexpects, happ⟩, hfirst, fun h => absurd rfl h⟩
    · cases hexpects with
      | header hstart => rw [hstart] at hfirst; cases hfirst
      | data _ hdata => rw [hdata] at hstate; cases hstate
      | hash _ _ hhash => rw [hhash] at hstate; cases hstate
      | @extents extents data taken rest hr _ _ hsize hpart hrest hstored hhashed hhashR hinside
          hsegment hfile =>
          subst hr
          rw [List.append_assoc] at happ
          have hcond : (decide (g.state = .sparseExtends) && !buf.isEmpty) = true := by
            simp [hstate, hbuf]
          have hashed : ∀ taken' : List UInt8, g.hashed ++ taken'.take (g.hashR - 16) =
              (taken ++ taken').take (encodeExtents extents).length := by
            intro taken'
            rw [hhashed, hhashR]
            exact take_hashed hpart Vector.length_toList
          unfold takeSparseExtends
          rw [if_pos hcond]
          cases part_cases happ with
          | inl hwithin =>
            obtain ⟨more, hmore, rfl, hfut⟩ := hwithin
            have hlen : (buf ++ more).length = buf.length + more.length := List.length_append
            have hpos := List.length_pos_iff.mpr hmore
            have htc : min buf.length g.hashR = buf.length := by omega
            have hleft : ¬ g.hashR - buf.length = 0 := by omega
            dsimp only
            rw [htc, if_neg hleft, List.take_length, List.drop_length]
            rw [← List.append_assoc] at hpart
            refine ⟨⟨_, .extents rfl hfirst hstate hsize hpart hmore ?_ (hashed buf) ?_ hinside
              (hsegment.congr rfl rfl rfl rfl) hfile, ?_⟩, hfirst, fun h => absurd rfl h⟩
            · rw [hstored, List.append_assoc]
            · dsimp only
              omega
            · rw [List.nil_append, List.append_assoc]
              exact hfut
          | inr hbehind =>
            obtain ⟨left, rfl, hleft⟩ := hbehind
            have hlen : (rest ++ left).length = rest.length + left.length := List.length_append
            have htc : min (rest ++ left).length g.hashR = rest.length := by omega
            have hwhole : g.hashed ++ (rest ++ left).take (g.hashR - 16) =
                encodeExtents extents := by
              rw [hashed, ← List.append_assoc, hpart, Reply.sparsePart, List.append_assoc,
                List.take_left]
            have hstored' : g.sparseExtends ++ rest =
                littleEndian 8 extents.length ++ Reply.sparsePart c extents := by
              rw [hstored, List.append_assoc, hpart]
            dsimp only
            rw [htc, hhashR, Nat.sub_self, if_pos rfl, List.take_left, List.drop_left]
            rw [hhashR] at hwhole
            refine StageSpec.mono (fun g' _ hg' => ⟨hg'.1, fun _ h => ?_⟩)
              (sparseExtendsDone_spec hanswers hfirst hsize hstored' hwhole hinside
                (hsegment.congr rfl rfl rfl rfl) hfile hleft)
            rw [hg'.2] at h
            cases h
  · rw [takeSparseExtends_of_state hstate]
    exact ⟨⟨rest, hexpects, happ⟩, hfirst, fun _ => hstate⟩

theorem payload_nil : Reply.payload c hashedTransfer [] [] = [] := by
  cases hashedTransfer <;> rfl

theorem payload_end {data : List UInt8} :
    Reply.payload c hashedTransfer [] (data.drop data.length) = [] := by
  rw [List.drop_length]
  exact payload_nil

theorem hashDone_spec (htransfer : hashedTransfer = true) (hfirst : g.firstpacket = false)
    (hsize : g.filesize = r.content.length) (hhash : g.hashBuf = (c.md5 g.hashed).toList)
    (hat : AtCheckpoint c g r.content.length) (hfile : Holds g.file g.received)
    (happ : buf ++ fut =
      Reply.payload c hashedTransfer [] (r.content.drop g.received) ++ tail) :
    StageSpec c hashedTransfer Holds r tail fut
      (fun g _ => g.firstpacket = false ∧ g.state = .data) (g.hashDone c buf) := by
  unfold hashDone
  rw [if_neg (fun h => h hhash.symm)]
  dsimp only
  cases hat.passed with
  | inl hinside =>
    rw [if_neg (hsize ▸ Nat.not_le.mpr hinside.2)]
    refine ⟨⟨_, .data hfirst rfl hsize hinside.2 ?_ hfile, happ⟩, hfirst, rfl⟩
    rw [Segment, if_pos htransfer]
    exact ⟨hinside.1.symm, c.pos, .inr (hinside.1 ▸ hinside.2),
      hinside.1 ▸ hat.next⟩
  | inr hend =>
    rw [if_pos (hsize ▸ hend.1.ge)]
    rw [hend.1] at happ hfile
    rw [payload_end, List.nil_append] at happ
    refine ⟨?_, happ, hfile⟩
    cases r with
    | code pid => exact absurd hend.2.1 (Nat.not_lt_zero _)
    | filesize size => rfl
    | file data => rfl
    | sparse extents data => rfl

theorem takeHash_spec (hfirst : g.firstpacket = false) (hstate : buf ≠ [] → g.state ≠ .sparseExtends)
    (h : Ongoing c hashedTransfer Holds r tail fut g buf) :
    StageSpec c hashedTransfer Holds r tail fut
      (fun g buf => g.firstpacket = false ∧ (buf ≠ [] → g.state = .data)) (g.takeHash c buf) := by
  unfold takeHash
  split
  next hcond =>
    rw [Bool.and_eq_true, decide_eq_true_iff] at hcond
    obtain ⟨rest, hexpects, happ⟩ := h
    cases hexpects with
    | header hstart => rw [hstart] at hfirst; cases hfirst
    | data _ hdata => rw [hdata] at hcond; cases hcond.1
    | extents _ _ hextents => rw [hextents] at hcond; cases hcond.1
    | @hash rest htransfer _ _ hsize hhash hrest hhashR hat hfile =>
      rw [List.append_assoc] at happ
      cases part_cases happ with
      | inl hwithin =>
        obtain ⟨more, hmore, rfl, hfut⟩ := hwithin
        have hlen : (buf ++ more).length = buf.length + more.length := List.length_append
        have hpos := List.length_pos_iff.mpr hmore
        have htc : min buf.length g.hashR = buf.length := by omega
        have hleft : ¬ g.hashR - buf.length = 0 := by omega
        dsimp only
        rw [htc, if_neg hleft, List.take_length, List.drop_length]
        refine ⟨⟨_, .hash htransfer hfirst hcond.1 hsize ?_ hmore ?_ ⟨hat.passed, hat.next⟩ hfile,
          ?_⟩, hfirst, fun h => absurd rfl h⟩
        · rw [List.append_assoc]
          exact hhash
        · dsimp only
          omega
        · rw [List.nil_append, List.append_assoc]
          exact hfut
      | inr hbehind =>
        obtain ⟨left, rfl, hleft⟩ := hbehind
        have hlen : (rest ++ left).length = rest.length + left.length := List.length_append
        have htc : min (rest ++ left).length g.hashR = rest.length := by omega
        dsimp only
        rw [htc, hhashR, Nat.sub_self, if_pos rfl, List.take_left, List.drop_left]
        exact StageSpec.mono (fun _ _ hg' => ⟨hg'.1, fun _ => hg'.2⟩)
          (hashDone_spec htransfer hfirst hsize hhash ⟨hat.passed, hat.next⟩ hfile hleft)
  next hcond =>
    refine ⟨h, hfirst, ?_⟩
    intro hbuf
    have hhash : g.state ≠ .hash := by
      intro hhash
      exact hcond (by simp [hhash, hbuf])
    cases hcase : g.state with
    | data => rfl
    | hash => exact absurd hcase hhash
    | sparseExtends => exact absurd hcase (hstate hbuf)

theorem Segment.due {size : Nat} (h : Segment c hashedTransfer g size) (hlt : g.received < size) :
    0 < g.nextCheckpoint - g.received ∧ g.nextCheckpoint ≤ size := by
  unfold Segment at h
  cases hashedTransfer with
  | false =>
    have hnext : g.nextCheckpoint = size := h
    omega
  | true =>
    have hnext := h.next
    have hreceived := h.received
    have hshort := h.short
    omega

theorem payload_segment {content : List UInt8} (h : Segment c hashedTransfer g content.length)
    (hlt : g.received < content.length) :
    Reply.payload c hashedTransfer g.hashed (content.drop g.received) =
      (content.drop g.received).take (g.nextCheckpoint - g.received) ++
        ((if hashedTransfer then (c.md5 (g.hashed ++
            (content.drop g.received).take (g.nextCheckpoint - g.received))).toList else []) ++
          Reply.payload c hashedTransfer [] (content.drop g.nextCheckpoint)) := by
  obtain ⟨hpos, hle⟩ := h.due hlt
  have hdrop : content.drop g.received =
      (content.drop g.received).take (g.nextCheckpoint - g.received) ++
        content.drop g.nextCheckpoint := by
    have hsum : g.nextCheckpoint = g.received + (g.nextCheckpoint - g.received) := by omega
    conv => rhs; rhs; rw [hsum, ← List.drop_drop]
    exact (List.take_append_drop _ _).symm
  unfold Segment at h
  cases hashedTransfer with
  | false => exact hdrop
  | true =>
    have hlen : ((content.drop g.received).take (g.nextCheckpoint - g.received)).length =
        g.nextCheckpoint - g.received := by
      rw [List.length_take, List.length_drop]
      omega
    have hne : (content.drop g.received).take (g.nextCheckpoint - g.received) ≠ [] := by
      apply List.ne_nil_of_length_pos
      omega
    have hnext := h.next
    have hreceived := h.received
    rw [Reply.payload, if_pos rfl]
    conv => lhs; rw [hdrop]
    apply CheckedStream.encode_append_of_due hne
    · omega
    · by_cases hend : g.nextCheckpoint = content.length
      · rw [hend]
        exact .inr (List.drop_length)
      · exact .inl (by omega)

theorem payload_within {content more : List UInt8} (h : Segment c hashedTransfer g content.length)
    (hpart : (content.drop g.received).take (g.nextCheckpoint - g.received) = buf ++ more)
    (hmore : more ≠ []) :
    g.received + buf.length < g.nextCheckpoint ∧
      Reply.payload c hashedTransfer g.hashed (content.drop g.received) =
        buf ++ Reply.payload c hashedTransfer (g.hashed ++ buf)
          (content.drop (g.received + buf.length)) := by
  have hlen := congrArg List.length hpart
  have hpos := List.length_pos_iff.mpr hmore
  rw [List.length_take, List.length_append] at hlen
  have hprefix : buf <+: content.drop g.received :=
    (List.prefix_append buf more).trans (hpart ▸ List.take_prefix _ _)
  obtain ⟨rest, hrest⟩ := hprefix
  have hdrop : content.drop (g.received + buf.length) = rest := by
    rw [← List.drop_drop, ← hrest, List.drop_left]
  refine ⟨by omega, ?_⟩
  rw [hdrop, ← hrest]
  unfold Segment at h
  cases hashedTransfer with
  | false => rfl
  | true =>
    have hnext := h.next
    have hreceived := h.received
    exact CheckedStream.encode_append_of_lt (by omega)

/-- What is written behind the data that a file has is held by it too. -/
def Keeps (Holds : DownloadFile → Nat → Prop) (content : List UInt8) : Prop :=
  ∀ f n data, Holds f n → data <+: content.drop n → Holds (f.write data) (n + data.length)

theorem takeData_within {more : List UInt8} (hkeeps : Keeps Holds r.content)
    (hfirst : g.firstpacket = false) (hstate : g.state = .data)
    (hsize : g.filesize = r.content.length) (hlt : g.received < r.content.length)
    (hsegment : Segment c hashedTransfer g r.content.length) (hfile : Holds g.file g.received)
    (hpart : (r.content.drop g.received).take (g.nextCheckpoint - g.received) = buf ++ more)
    (hmore : more ≠ [])
    (happ : buf ++ fut = Reply.payload c hashedTransfer g.hashed (r.content.drop g.received) ++ tail)
    (turns : Nat) :
    RoundSpec c hashedTransfer Holds r tail fut (takeData c hashedTransfer (turns + 1) g buf) := by
  obtain ⟨hnext, hpayload⟩ := payload_within (c := c) hsegment hpart hmore
  obtain ⟨hpos, hle⟩ := hsegment.due hlt
  have hall : buf.length ≤ g.nextCheckpoint - g.received := by omega
  have hcheckpoint : (g.writeData buf).received ≠ (g.writeData buf).nextCheckpoint := hnext.ne
  have hend : ¬ (g.writeData buf).filesize ≤ (g.writeData buf).received := by
    rw [writeData_filesize, writeData_received]
    omega
  rw [takeData, List.take_of_length_le hall, List.drop_of_length_le hall,
    if_neg (fun h => hcheckpoint h.1), if_neg hend]
  rw [hpayload, List.append_assoc] at happ
  refine ⟨⟨_, .data hfirst hstate hsize ?_ ?_ ?_, ?_⟩, .inl rfl⟩
  · rw [writeData_received]
    omega
  · unfold Segment at hsegment ⊢
    cases hashedTransfer with
    | false => exact hsegment
    | true =>
      have hreceived := hsegment.received
      have hmax := hsegment.next
      refine ⟨?_, ?_, hsegment.inside, hsegment.next⟩
      · rw [writeData_received, writeData_lastCheckpoint, writeData_hashed, List.length_append]
        omega
      · rw [writeData_hashed, List.length_append]
        omega
  · exact hkeeps _ _ _ hfile ((List.prefix_append buf more).trans (hpart ▸ List.take_prefix _ _))
  · exact List.append_cancel_left happ

/-- What is known when the data up to a checkpoint is there and its hash comes. -/
structure Passing (c : SegmentHash) (r : Reply) (g : GetFile) : Prop where
  first : g.firstpacket = false
  state : g.state = .data
  size : g.filesize = r.content.length
  received : g.received = g.nextCheckpoint
  inside : g.lastCheckpoint < r.content.length
  next : g.nextCheckpoint = min (g.lastCheckpoint + c.checkpointDist) r.content.length

theorem Passing.atCheckpoint (h : Passing c r g) : AtCheckpoint c (g.passCheckpoint c) r.content.length := by
  have hreceived := h.received
  have hnext := h.next
  have hinside := h.inside
  refine ⟨?_, ?_⟩
  · by_cases hlt : g.nextCheckpoint < r.content.length
    · have hlast : (g.passCheckpoint c).lastCheckpoint = g.nextCheckpoint :=
        if_pos (h.size ▸ hlt)
      exact .inl ⟨hlast.trans hreceived.symm, hreceived ▸ hlt⟩
    · have hlast : (g.passCheckpoint c).lastCheckpoint = g.lastCheckpoint :=
        if_neg (h.size ▸ hlt)
      rw [hlast]
      refine .inr ⟨?_, hinside, ?_⟩
      · exact hreceived.trans (by omega)
      · omega
  · change min (g.nextCheckpoint + c.checkpointDist) g.filesize = _
    rw [h.size, ← hreceived]
    rfl

theorem takeCheckpoint_spec (htransfer : hashedTransfer = true) (h : Passing c r g)
    (hfile : Holds g.file g.received)
    (happ : buf ++ fut = (c.md5 g.hashed).toList ++
      (Reply.payload c hashedTransfer [] (r.content.drop g.received) ++ tail)) :
    StageSpec c hashedTransfer Holds r tail fut
      (fun g rest => g.firstpacket = false ∧ g.state = .data ∧ rest ≠ [] ∧ rest.length < buf.length)
      (g.takeCheckpoint c buf) := by
  have hat := h.atCheckpoint
  have hsum : (c.md5 g.hashed).toList.length = 16 := Vector.length_toList
  unfold takeCheckpoint
  cases part_cases happ with
  | inl hwithin =>
    obtain ⟨more, hmore, hpart, hfut⟩ := hwithin
    have hlen := congrArg List.length hpart
    have hpos := List.length_pos_iff.mpr hmore
    rw [List.length_append, hsum] at hlen
    have hshort : buf.length < 16 := by omega
    dsimp only
    rw [if_pos hshort]
    have hrest : 16 - buf.length = more.length := by omega
    refine ⟨⟨_, .hash htransfer h.first rfl h.size hpart.symm hmore hrest ⟨hat.passed, hat.next⟩
      hfile, ?_⟩, .inl rfl⟩
    rw [List.nil_append, List.append_assoc]
    exact hfut
  | inr hbehind =>
    obtain ⟨left, rfl, hleft⟩ := hbehind
    have hlong : ¬ ((c.md5 g.hashed).toList ++ left).length < 16 := by
      rw [List.length_append]
      omega
    have hsame : ¬ (c.md5 (g.passCheckpoint c).hashed).toList ≠
        ((c.md5 g.hashed).toList ++ left).take 16 := by
      rw [List.take_left' hsum]
      exact fun h => h rfl
    have hdrop : ((c.md5 g.hashed).toList ++ left).drop 16 = left := List.drop_left' hsum
    dsimp only
    rw [if_neg hlong, if_neg hsame, hdrop]
    cases hat.passed with
    | inl hinside =>
      have hlt : (g.passCheckpoint c).received < (g.passCheckpoint c).filesize := by
        rw [show (g.passCheckpoint c).filesize = r.content.length from h.size]
        exact hinside.2
      have hsegment : Segment c hashedTransfer { g.passCheckpoint c with hashed := [] }
          r.content.length := by
        rw [Segment, if_pos htransfer]
        exact ⟨hinside.1.symm, c.pos, .inr (hinside.1 ▸ hinside.2),
          hinside.1 ▸ hat.next⟩
      have hongoing : Ongoing c hashedTransfer Holds r tail fut
          { g.passCheckpoint c with hashed := [] } left :=
        ⟨_, .data h.first h.state h.size hinside.2 hsegment hfile, hleft⟩
      rw [if_pos hlt]
      split
      next hmore =>
        rw [List.length_append, hsum] at hmore
        refine ⟨hongoing, h.first, h.state, ?_, ?_⟩
        · apply List.ne_nil_of_length_pos
          omega
        · rw [List.length_append]
          omega
      next hmore =>
        rw [List.length_append, hsum] at hmore
        have hnil : left = [] := List.eq_nil_of_length_eq_zero (by omega)
        subst hnil
        exact ⟨hongoing, .inl rfl⟩
    | inr hend =>
      have hend' : g.received = r.content.length := hend.1
      have hnot : ¬ (g.passCheckpoint c).received < (g.passCheckpoint c).filesize := by
        rw [show (g.passCheckpoint c).filesize = r.content.length from h.size]
        exact Nat.not_lt.mpr hend'.ge
      rw [if_neg hnot]
      rw [hend'] at hleft hfile
      rw [payload_end, List.nil_append] at hleft
      refine ⟨?_, hleft, hfile⟩
      cases r with
      | code pid => exact absurd h.inside (Nat.not_lt_zero _)
      | filesize size => rfl
      | file data => rfl
      | sparse extents data => rfl

/-- The data and the hashes in the buffer. Induction on the turns of the loop. -/
theorem takeData_spec (hkeeps : Keeps Holds r.content) {turns : Nat} (hturns : buf.length ≤ turns)
    (hbuf : buf ≠ []) (hfirst : g.firstpacket = false) (hstate : g.state = .data)
    (h : Ongoing c hashedTransfer Holds r tail fut g buf) :
    RoundSpec c hashedTransfer Holds r tail fut (takeData c hashedTransfer turns g buf) := by
  induction turns generalizing g buf with
  | zero => exact absurd (List.eq_nil_of_length_eq_zero (Nat.le_zero.mp hturns)) hbuf
  | succ turns ih =>
    obtain ⟨rest, hexpects, happ⟩ := h
    cases hexpects with
    | header hstart => rw [hstart] at hfirst; cases hfirst
    | extents _ _ hextents => rw [hextents] at hstate; cases hstate
    | hash _ _ hhash => rw [hhash] at hstate; cases hstate
    | data _ _ hsize hlt hsegment hfile =>
      obtain ⟨hpos, hle⟩ := hsegment.due hlt
      have hsplit := happ
      rw [payload_segment hsegment hlt, List.append_assoc] at hsplit
      cases part_cases hsplit with
      | inl hwithin =>
        obtain ⟨more, hmore, hpart, _⟩ := hwithin
        exact takeData_within hkeeps hfirst hstate hsize hlt hsegment hfile hpart hmore happ
          turns
      | inr hbehind =>
        obtain ⟨left, rfl, hleft⟩ := hbehind
        have hlen : ((r.content.drop g.received).take
            (g.nextCheckpoint - g.received)).length = g.nextCheckpoint - g.received := by
          rw [List.length_take, List.length_drop]
          omega
        have hholds := hkeeps _ _ _ hfile (List.take_prefix (g.nextCheckpoint - g.received) _)
        rw [takeData, List.take_left' hlen, List.drop_left' hlen]
        generalize (r.content.drop g.received).take (g.nextCheckpoint - g.received) = part
          at hleft hholds hlen hturns
        have hreceived : (g.writeData part).received = g.nextCheckpoint := by
          rw [writeData_received, hlen]
          omega
        rw [← writeData_received, hreceived] at hholds
        unfold Segment at hsegment
        cases hashedTransfer with
        | false =>
          have hnext : g.nextCheckpoint = r.content.length := hsegment
          have hend : (g.writeData part).filesize ≤ (g.writeData part).received := by
            rw [hreceived, hnext, writeData_filesize, hsize]
          rw [if_neg (fun h => Bool.false_ne_true h.2), if_pos hend]
          rw [hnext, if_neg Bool.false_ne_true, List.nil_append, payload_end, List.nil_append] at hleft
          refine ⟨?_, hleft, hnext ▸ hholds⟩
          cases r with
          | code pid => exact absurd hlt (Nat.not_lt_zero _)
          | filesize size => rfl
          | file data => rfl
          | sparse extents data => rfl
        | true =>
          have hmax := InSegment.next hsegment
          have hshort := InSegment.received hsegment
          have hpassing : Passing c r (g.writeData part) :=
            ⟨hfirst, hstate, hsize, hreceived, (by omega : g.lastCheckpoint < _), hmax⟩
          rw [if_pos ⟨hreceived, rfl⟩]
          rw [List.append_assoc] at hleft
          rw [← hreceived] at hleft hholds
          have hspec := takeCheckpoint_spec rfl hpassing hholds hleft
          split
          next round hround =>
            rw [hround] at hspec
            exact hspec
          next g' rest hround =>
            rw [hround] at hspec
            rw [List.length_append] at hturns
            have hshorter := hspec.2.2.2.2
            exact ih (by omega) hspec.2.2.2.1 hspec.2.1 hspec.2.2.1 hspec.1

theorem receive_spec (hkeeps : Keeps Holds r.content) (hanswers : r.Answers metadataOnly)
    (hbuf : buf ≠ []) (h : Ongoing c hashedTransfer Holds r tail fut g buf) :
    RoundSpec c hashedTransfer Holds r tail fut (g.receive c metadataOnly hashedTransfer buf) := by
  have hheader : StageSpec c hashedTransfer Holds r tail fut (fun g _ => g.firstpacket = false)
      (g.takeHeader metadataOnly hashedTransfer buf) := by
    obtain ⟨rest, hexpects, happ⟩ := h
    cases hfirst : g.firstpacket with
    | false =>
      rw [takeHeader_of_later hfirst]
      exact ⟨⟨rest, hexpects, happ⟩, hfirst⟩
    | true =>
      cases hexpects with
      | header _ hstate hhashed hready hfile =>
        exact takeHeader_of_start hanswers hbuf hfirst hstate hhashed hready hfile happ
      | extents _ hlater => rw [hlater] at hfirst; cases hfirst
      | data hlater => rw [hlater] at hfirst; cases hfirst
      | hash _ hlater => rw [hlater] at hfirst; cases hfirst
  unfold receive
  cases htaken : g.takeHeader metadataOnly hashedTransfer buf with
  | error round =>
    rw [htaken] at hheader
    exact hheader
  | ok taken =>
    rw [htaken] at hheader
    have hsparse := takeSparseExtends_spec hanswers hheader.2 hheader.1
    change RoundSpec c hashedTransfer Holds r tail fut (match
      (taken.1.takeSparseExtends c taken.2).bind fun p => p.1.takeHash c p.2 with
      | .error round => round
      | .ok (g, buf) =>
        if g.state = .data && !buf.isEmpty then takeData c hashedTransfer buf.length g buf
        else .more g [])
    cases htaken' : taken.1.takeSparseExtends c taken.2 with
    | error round =>
      rw [htaken'] at hsparse
      exact hsparse
    | ok taken' =>
      rw [htaken'] at hsparse
      have hhash := takeHash_spec hsparse.2.1 hsparse.2.2 hsparse.1
      change RoundSpec c hashedTransfer Holds r tail fut (match taken'.1.takeHash c taken'.2 with
        | .error round => round
        | .ok (g, buf) =>
          if g.state = .data && !buf.isEmpty then takeData c hashedTransfer buf.length g buf
          else .more g [])
      cases htaken'' : taken'.1.takeHash c taken'.2 with
      | error round =>
        rw [htaken''] at hhash
        exact hhash
      | ok taken'' =>
        rw [htaken''] at hhash
        obtain ⟨hongoing, hfirst, hstate⟩ := hhash
        dsimp only
        by_cases hnil : taken''.2 = []
        · rw [hnil, List.isEmpty_nil, Bool.not_true, Bool.and_false,
            if_neg Bool.false_ne_true]
          rw [hnil] at hongoing
          exact ⟨hongoing, .inl rfl⟩
        · have hdata : (decide (taken''.1.state = .data) && !taken''.2.isEmpty) = true := by
            simp [hstate hnil, hnil]
          rw [if_pos hdata]
          exact takeData_spec hkeeps (Nat.le_refl _) hnil hfirst (hstate hnil) hongoing

end Stages

end GetFile

end UrBackup
