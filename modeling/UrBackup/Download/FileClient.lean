import UrBackup.Download.Reply
import UrBackup.Lib.Run

/-! The file client at work for the download thread: requests that are sent ahead of time, and the
replies to them that wait in the connection and in the buffer. The client, the connection, other
threads and the clock come with the events. Flush packets have no replies and are left out. -/
namespace UrBackup

open SQueueItem

/-- A request, with what the client sees of it. -/
inductive ClientRequest where
  | getFileResume (fn : List UInt8)
  | getFileResumeHash (fn : List UInt8)
  | getFileMetadataOnly (fn : List UInt8) (folderItems fileId : Nat)
  | getFileWithMetadata (fn : List UInt8) (hashed : Bool) (fileId : Nat)
  | scriptFinish (fn : List UInt8)
  deriving DecidableEq

namespace ClientRequest

def withHashes : ClientRequest → Bool
  | .getFileResumeHash _ => true
  | .getFileWithMetadata _ hashed _ => hashed
  | .getFileResume _ | .getFileMetadataOnly _ _ _ | .scriptFinish _ => false

/-- The replies that the client gives to a request. -/
def Answered (reply : Reply) : ClientRequest → Prop
  | .getFileMetadataOnly _ _ _ => reply.Answers true
  | .getFileResume _ | .getFileResumeHash _ | .getFileWithMetadata _ _ _ => reply.Answers false
  | .scriptFinish _ => reply = .code idPong ∨ reply = .code idBaseDirLost

instance (reply : Reply) (request : ClientRequest) : Decidable (request.Answered reply) :=
  match request with
  | .getFileMetadataOnly _ _ _ => inferInstanceAs (Decidable (reply.Answers true))
  | .getFileResume _ => inferInstanceAs (Decidable (reply.Answers false))
  | .getFileResumeHash _ => inferInstanceAs (Decidable (reply.Answers false))
  | .getFileWithMetadata _ _ _ => inferInstanceAs (Decidable (reply.Answers false))
  | .scriptFinish _ =>
    inferInstanceAs (Decidable (reply = .code idPong ∨ reply = .code idBaseDirLost))

end ClientRequest

/-- A request that is under way, as the file client remembers it. -/
structure RequestedItem where
  fn : List UInt8
  finishScript : Bool
  deriving DecidableEq

/-- What the thread is at. `got` is what the transfer has had of the connection, with what was in the
buffer before. -/
inductive Working where
  | idle
  | filling (it : SQueueItem) (g : GetFile) (got : List UInt8)
  | reading (it : SQueueItem) (g : GetFile) (got : List UInt8)
  | finishScript (it : SQueueItem)

/-- The settings of a backup. -/
structure PipelineConfig where
  dl : DlConfig
  segmentHash : SegmentHash
  hashedTransfer : Bool
  saveIncompleteFile : Bool

/-- The thread, the file client and the connection. Beside that are kept: the requests that were
sent, each with the item it was sent for, the replies, and what each item took from the connection
until it was finished. -/
structure Pipeline where
  thread : ServerDownloadThread
  working : Working
  queued : List RequestedItem
  protocolVersion : Nat
  dlBuf : List UInt8
  stream : List UInt8
  sent : List (SQueueItem × ClientRequest)
  replies : List Reply
  finished : List (SQueueItem × List UInt8)
  assertionFailed : Bool
  reconnected : Bool

namespace Pipeline

def bufferSize : Nat := 32768
def maxQueuedFiles : Nat := 3000
def queuedFilesLow : Nat := 100

def initial (protocolVersion : Nat) : Pipeline where
  thread := .initial
  working := .idle
  queued := []
  protocolVersion := protocolVersion
  dlBuf := []
  stream := []
  sent := []
  replies := []
  finished := []
  assertionFailed := false
  reconnected := false

section Requests

variable (cfg : PipelineConfig)

def path (it : SQueueItem) : List UInt8 := it.getDLPath cfg.dl

/-- The id is a `size_t`, and that of the end of a script is the largest one. -/
def fileId (it : SQueueItem) : Nat := if cfg.dl.withMetadata then (it.id + 1) % 2 ^ 64 else 0

/-- The request that `GetFile` sends itself. -/
def getFileRequest (protocolVersion : Nat) (it : SQueueItem) : ClientRequest :=
  if it.metadataOnly then .getFileMetadataOnly (path cfg it) it.folderItems (fileId cfg it)
  else if fileId cfg it ≠ 0 then
    .getFileWithMetadata (path cfg it) cfg.hashedTransfer (fileId cfg it)
  else if 1 < protocolVersion then .getFileResumeHash (path cfg it)
  else .getFileResume (path cfg it)

/-- The request that `fillQueue` sends ahead of time. -/
def queuedRequest (protocolVersion : Nat) (it : SQueueItem) : ClientRequest :=
  if it.metadataOnly then .getFileMetadataOnly (path cfg it) it.folderItems (fileId cfg it)
  else if fileId cfg it = 0 then
    if 1 < protocolVersion then .getFileResumeHash (path cfg it) else .getFileResume (path cfg it)
  else .getFileWithMetadata (path cfg it) (1 < protocolVersion) (fileId cfg it)

def itemRequest (it : SQueueItem) : ClientRequest :=
  if it.scriptEnd then .scriptFinish (path cfg it)
  else if it.metadataOnly then .getFileMetadataOnly (path cfg it) it.folderItems (fileId cfg it)
  else if fileId cfg it ≠ 0 then
    .getFileWithMetadata (path cfg it) cfg.hashedTransfer (fileId cfg it)
  else if cfg.hashedTransfer then .getFileResumeHash (path cfg it)
  else .getFileResume (path cfg it)

end Requests

section Steps

variable (cfg : PipelineConfig)

def send (s : Pipeline) (it : SQueueItem) (request : ClientRequest) : Pipeline :=
  { s with sent := s.sent ++ [(it, request)] }

def request (s : Pipeline) (it : SQueueItem) (finishScript : Bool) (request : ClientRequest) :
    Pipeline :=
  match s.queued with
  | [] => s.send it request
  | front :: rest => { s with
      queued := rest
      assertionFailed := s.assertionFailed ||
        !(front.fn = path cfg it && front.finishScript = finishScript) }

/-- Where a round of the loop of `GetFile` begins. -/
def loopHead (s : Pipeline) (it : SQueueItem) (g : GetFile) (got : List UInt8) : Pipeline :=
  { s with
    working := if it.isScript || queuedFilesLow < s.queued.length then .reading it g got
      else .filling it g got }

def startGetFile (s : Pipeline) (it : SQueueItem) : Pipeline :=
  let s := { s with
    protocolVersion :=
      if !cfg.hashedTransfer && 1 < s.protocolVersion then 1 else s.protocolVersion }
  let s := s.request cfg it false (getFileRequest cfg s.protocolVersion it)
  s.loopHead it (.start cfg.segmentHash .empty) s.dlBuf

def startFinishScript (s : Pipeline) (it : SQueueItem) : Pipeline :=
  { s.request cfg it true (.scriptFinish (path cfg it)) with working := .finishScript it }

/-- The thread takes the next item. Without a file for the data it gives up. -/
def take (s : Pipeline) (o : TransferOutcome) : Option Pipeline :=
  match s.working, s.thread.dlQueue with
  | .idle, it :: rest =>
    let s := { s with thread := { s.thread with dlQueue := rest } }
    if s.thread.isOffline then some { s with thread := s.thread.skipItem it o }
    else if it.scriptEnd then some (s.startFinishScript cfg it)
    else if !it.metadataOnly && !o.tempFile then
      some { s with thread := s.thread.goOffline false }
    else some (s.startGetFile cfg it)
  | _, _ => none

/-- A round of the loop of `fillQueue`. All full items are there, so there are no patch downloads to
prepare. -/
def fill (s : Pipeline) (isWritable : Bool) (prepare : SQueueItem → PrepareOutcome) :
    Option Pipeline :=
  match s.working with
  | .filling it g got =>
    let done := { s with working := .reading it g got }
    if maxQueuedFiles ≤ s.queued.length || !isWritable then some done
    else
      match DlQueue.getQueuedFileFull prepare s.thread.dlQueue with
      | (none, dlQueue) => some { done with thread := { s.thread with dlQueue := dlQueue } }
      | (some next, dlQueue) =>
        let s := { s with thread := { s.thread with dlQueue := dlQueue } }
        if (path cfg next).isEmpty then some { s with working := .reading it g got }
        else some { s.send next (queuedRequest cfg s.protocolVersion next) with
          queued := s.queued ++ [⟨path cfg next, next.scriptEnd⟩] }
  | _ => none

/-- The ten seconds for `fillQueue` are over. -/
def fillTimeout (s : Pipeline) : Option Pipeline :=
  match s.working with
  | .filling it g got => some { s with working := .reading it g got }
  | _ => none

/-- `GetFile` has returned, and the thread goes on with the result. -/
def getFileReturned (s : Pipeline) (it : SQueueItem) (rc : ErrorCode) (o : TransferOutcome) :
    Pipeline :=
  let (thread, ret) :=
    s.thread.loadFile cfg.saveIncompleteFile it { o with tempFile := true, rc := fun _ => rc }
  { s with thread := thread.goOffline ret, working := .idle }

/-- `GetFile` goes to the connection for more. -/
def mustRead (s : Pipeline) (g : GetFile) (isReadable : Bool) : Bool :=
  isReadable || s.dlBuf.isEmpty || (g.firstpacket && GetFile.incompleteHeader s.dlBuf)

/-- A round of `GetFile` with what is in the buffer and `n` bytes from the connection, if it reads.
No read is empty, since the connection is not lost. The files that a script announces are full
items, like the others. -/
def receive (s : Pipeline) (isReadable : Bool) (n : Nat) (o : TransferOutcome) : Option Pipeline :=
  match s.working with
  | .reading it g got =>
    let n := if s.mustRead g isReadable then n else 0
    if s.mustRead g isReadable && !(0 < n && n ≤ s.stream.length
        && s.dlBuf.length + n ≤ bufferSize) then none
    else if o.script.tarFiles.any fun file => file.1 then none
    else
      let buf := s.dlBuf ++ s.stream.take n
      let got := got ++ s.stream.take n
      let s := { s with stream := s.stream.drop n }
      match g.receive cfg.segmentHash it.metadataOnly (1 < s.protocolVersion) buf with
      | .more g kept => some ({ s with dlBuf := kept }.loopHead it g got)
      | .returned rc _ left =>
        some ({ s with
          dlBuf := left
          finished := s.finished ++ [(it, got.take (got.length - left.length))] }.getFileReturned
            cfg it rc o)
      | .reconnected _ _ => some { s with working := .idle, reconnected := true }
  | _ => none

/-- `FinishScript` reads one byte from the connection. -/
def finishByte (s : Pipeline) : Option Pipeline :=
  match s.working, s.stream with
  | .finishScript it, b :: stream =>
    some { s with stream := stream, finished := s.finished ++ [(it, [b])], working := .idle }
  | _, _ => none

def replyBytes (p : SQueueItem × ClientRequest) (reply : Reply) : List UInt8 :=
  reply.bytes cfg.segmentHash p.2.withHashes 0

def answer (s : Pipeline) (reply : Reply) : Option Pipeline :=
  match s.sent.drop s.replies.length with
  | [] => none
  | p :: _ =>
    if p.2.Answered reply then
      some { s with
        stream := s.stream ++ replyBytes cfg p reply
        replies := s.replies ++ [reply] }
    else none

inductive Event where
  | addToQueueFull (a : QueueArgs)
  | take (o : TransferOutcome)
  | fill (isWritable : Bool) (prepare : SQueueItem → PrepareOutcome)
  | fillTimeout
  | receive (isReadable : Bool) (n : Nat) (o : TransferOutcome)
  | finishByte
  | answer (reply : Reply)

def step (s : Pipeline) (e : Event) : Option Pipeline :=
  if s.reconnected then none
  else
    match e with
    | .addToQueueFull a => some { s with thread := s.thread.pushBack (.ofFullArgs a) }
    | .take o => s.take cfg o
    | .fill isWritable prepare => s.fill cfg isWritable prepare
    | .fillTimeout => s.fillTimeout
    | .receive isReadable n o => s.receive cfg isReadable n o
    | .finishByte => s.finishByte
    | .answer reply => s.answer cfg reply

end Steps

end Pipeline

end UrBackup
