import UrBackup.Download.DownloadThread

/-! The issues that a client is told about when its snapshots are removed. The counters and the
messages stand beside the download thread, whose steps they follow. -/
namespace UrBackup

/-- What the client says beyond the outcome of a transfer: whether the file was in a snapshot, and
the levels of the entries of its snapshot log. -/
structure ClientAnswer where
  hasSnapshot : Bool
  vssLog : List Int

/-- A STOP SC message, with the counter as it was when the message was composed. It goes out again
as it is while the share is in use. -/
structure StopMessage where
  path : List UInt8
  issues : Option Nat
  numIssues : Nat

structure IssuesConfig where
  dl : SQueueItem.DlConfig
  saveIncompleteFile : Bool
  filesrvProtocolVersion : Nat
  clientsubname : List UInt8

/-- The messages stand newest first. -/
structure DownloadIssues where
  thread : ServerDownloadThread
  numIssues : Nat
  lastSnapNumIssues : Nat
  sent : List StopMessage

namespace DownloadIssues

open ServerDownloadThread (retryHash retryPatch prepared)

def llError : Int := 2

/-- The counters are of type `size_t`. -/
def raise (n : Nat) : Nat := (n + 1) % 2 ^ 64

def escapeParamString (str : List UInt8) : List UInt8 :=
  str.flatMap fun c =>
    if c ∈ ([37, 38, 36, 47, 32, 35, 43, 10, 13] : List UInt8) then
      37 :: [(c >>> 4), c &&& 15].map fun d => if d < 10 then 48 + d else 55 + d
    else [c]

/-- `/clientsubname=` -/
def subnameParam : List UInt8 := [47, 99, 108, 105, 101, 110, 116, 115, 117, 98, 110, 97, 109, 101, 61]

/-- `issues=` -/
def issuesParam : List UInt8 := [105, 115, 115, 117, 101, 115, 61]

def logVssLogdata (vssLog : List Int) (numIssues : Nat) : Nat :=
  vssLog.foldl (fun n level => if level = llError then raise n else n) numIssues

def failedTransfer (rc : ErrorCode) (a : ClientAnswer) (numIssues : Nat) : Nat :=
  if rc = .readError then raise numIssues
  else if rc = .cannotOpenFile && a.hasSnapshot then raise numIssues
  else numIssues

def loadFile (todl : SQueueItem) (o : TransferOutcome) (a : ClientAnswer) (numIssues : Nat) : Nat :=
  if !todl.metadataOnly && !o.tempFile then numIssues
  else failedTransfer (retryHash o.rc 5 0) a numIssues

def loadPrepared (o : TransferOutcome) (a : ClientAnswer) (files : SPatchDownloadFiles)
    (fullDl : Bool) (numIssues : Nat) : Nat :=
  if !files.origFile && fullDl then numIssues
  else if files.prepareError then numIssues
  else
    match retryPatch o.rc o.retryTempFiles 5 0 with
    | none => numIssues
    | some rc =>
      failedTransfer (if rc = .errorcodes && o.readingFailed then .readError else rc) a numIssues

def loadFilePatch (todl : SQueueItem) (o : TransferOutcome) (a : ClientAnswer) (numIssues : Nat) :
    Nat :=
  if todl.patchDlFiles.prepareError then loadPrepared o a todl.patchDlFiles false numIssues
  else loadPrepared o a (prepared todl o).1 (prepared todl o).2 numIssues

section Messages

variable (cfg : IssuesConfig)

/-- The message that `stop_shadowcopy` composes. -/
def stopMessage (s : DownloadIssues) (path : List UInt8) : StopMessage :=
  let hasSlash := !cfg.clientsubname.isEmpty
  let path := if hasSlash then path ++ subnameParam ++ escapeParamString cfg.clientsubname else path
  if cfg.filesrvProtocolVersion > 2 then
    let addIssues := (s.lastSnapNumIssues + 2 ^ 64 - s.numIssues) % 2 ^ 64
    if addIssues > 0 then
      { path := path ++ (if hasSlash then 38 else 47) :: issuesParam ++ Decimal.digits addIssues
        issues := some addIssues
        numIssues := s.numIssues }
    else { path := path, issues := none, numIssues := s.numIssues }
  else { path := path, issues := none, numIssues := s.numIssues }

/-- The log is read when the client could not start or stop a snapshot and that is fatal. -/
def afterShadowcopy (ok : Bool) (a : ClientAnswer) (numIssues : Nat) : Nat :=
  if ok then numIssues else logVssLogdata a.vssLog numIssues

def stopShadowcopy (s : DownloadIssues) (path : List UInt8) (ok : Bool) (a : ClientAnswer) :
    DownloadIssues :=
  { s with
    sent := s.stopMessage cfg path :: s.sent
    lastSnapNumIssues := s.numIssues
    numIssues := afterShadowcopy ok a s.numIssues }

def processItem (s : DownloadIssues) (curr : SQueueItem) (o : TransferOutcome) (a : ClientAnswer) :
    DownloadIssues :=
  if s.thread.isOffline || s.thread.skipping then s
  else if curr.action = .startShadowcopy then
    { s with numIssues := afterShadowcopy o.shadowcopyOk a s.numIssues }
  else if curr.action = .stopShadowcopy then s.stopShadowcopy cfg curr.fn o.shadowcopyOk a
  else
    match curr.fileclient with
    | .full =>
      if curr.scriptEnd then s else { s with numIssues := loadFile curr o a s.numIssues }
    | .chunked => { s with numIssues := loadFilePatch curr o a s.numIssues }

def step (s : DownloadIssues) : ServerDownloadThread.Event × ClientAnswer → Option DownloadIssues
  | (e, a) =>
    (s.thread.step cfg.dl cfg.saveIncompleteFile e).map fun thread =>
      match e, s.thread.curr with
      | .process o, some curr => { s.processItem cfg curr o a with thread := thread }
      | _, _ => { s with thread := thread }

end Messages

def initial : DownloadIssues where
  thread := .initial
  numIssues := 0
  lastSnapNumIssues := 0
  sent := []

def reported (sent : List StopMessage) : Nat := (sent.map fun m => m.issues.getD 0).sum

def countedAt : List StopMessage → Nat
  | [] => 0
  | m :: _ => m.numIssues

/-- How many messages were composed with more issues than the message before. -/
def raises : List StopMessage → Nat
  | [] => 0
  | m :: rest => raises rest + if countedAt rest < m.numIssues then 1 else 0

section Runs

variable {cfg : IssuesConfig} {s s' : DownloadIssues}

/-- What a message reports is too much by a whole range of the counter whenever it reports
anything new. -/
structure Tallied (s : DownloadIssues) : Prop where
  numIssues_lt : s.numIssues < 2 ^ 64
  last_eq : s.lastSnapNumIssues = countedAt s.sent
  last_lt : s.lastSnapNumIssues < 2 ^ 64
  reported_eq : reported s.sent + countedAt s.sent = 2 ^ 64 * raises s.sent

theorem initial_tallied : Tallied initial := ⟨by decide, rfl, by decide, rfl⟩

theorem raise_lt (n : Nat) : raise n < 2 ^ 64 := Nat.mod_lt _ (Nat.two_pow_pos 64)

theorem logVssLogdata_lt {n : Nat} (h : n < 2 ^ 64) (vssLog : List Int) :
    logVssLogdata vssLog n < 2 ^ 64 := by
  unfold logVssLogdata
  induction vssLog generalizing n with
  | nil => exact h
  | cons level vssLog ih =>
    apply ih
    by_cases herror : level = llError
    · simpa only [if_pos herror] using raise_lt n
    · simpa only [if_neg herror] using h

theorem afterShadowcopy_lt {n : Nat} (h : n < 2 ^ 64) (ok : Bool) (a : ClientAnswer) :
    afterShadowcopy ok a n < 2 ^ 64 := by
  unfold afterShadowcopy
  split
  · exact h
  · exact logVssLogdata_lt h a.vssLog

theorem failedTransfer_lt {n : Nat} (h : n < 2 ^ 64) (rc : ErrorCode) (a : ClientAnswer) :
    failedTransfer rc a n < 2 ^ 64 := by
  unfold failedTransfer
  split
  · exact raise_lt n
  · split
    · exact raise_lt n
    · exact h

theorem loadFile_lt {n : Nat} (h : n < 2 ^ 64) (todl : SQueueItem) (o : TransferOutcome)
    (a : ClientAnswer) : loadFile todl o a n < 2 ^ 64 := by
  unfold loadFile
  split
  · exact h
  · exact failedTransfer_lt h _ a

theorem loadPrepared_lt {n : Nat} (h : n < 2 ^ 64) (o : TransferOutcome) (a : ClientAnswer)
    (files : SPatchDownloadFiles) (fullDl : Bool) : loadPrepared o a files fullDl n < 2 ^ 64 := by
  unfold loadPrepared
  split
  · exact h
  · split
    · exact h
    · split
      · exact h
      · exact failedTransfer_lt h _ a

theorem loadFilePatch_lt {n : Nat} (h : n < 2 ^ 64) (todl : SQueueItem) (o : TransferOutcome)
    (a : ClientAnswer) : loadFilePatch todl o a n < 2 ^ 64 := by
  unfold loadFilePatch
  split
  · exact loadPrepared_lt h o a _ _
  · exact loadPrepared_lt h o a _ _

theorem stopMessage_numIssues (path : List UInt8) :
    (s.stopMessage cfg path).numIssues = s.numIssues := by
  unfold stopMessage
  cases cfg.clientsubname.isEmpty <;>
    · simp only [Bool.not_false, Bool.not_true, if_true, Bool.false_eq_true, if_false]
      split_ifs <;> rfl

theorem stopMessage_issues (hversion : 2 < cfg.filesrvProtocolVersion) (path : List UInt8) :
    (s.stopMessage cfg path).issues.getD 0 =
      (s.lastSnapNumIssues + 2 ^ 64 - s.numIssues) % 2 ^ 64 := by
  simp only [stopMessage, if_pos hversion]
  by_cases hpos : (s.lastSnapNumIssues + 2 ^ 64 - s.numIssues) % 2 ^ 64 > 0
  · rw [if_pos hpos, Option.getD_some]
  · rw [if_neg hpos, Option.getD_none]
    exact (Nat.eq_zero_of_not_pos hpos).symm

theorem Tallied.stop (h : Tallied s) (hversion : 2 < cfg.filesrvProtocolVersion)
    (path : List UInt8) (ok : Bool) (a : ClientAnswer) :
    Tallied (s.stopShadowcopy cfg path ok a) where
  numIssues_lt := afterShadowcopy_lt h.numIssues_lt ok a
  last_eq := (stopMessage_numIssues path).symm
  last_lt := h.numIssues_lt
  reported_eq := by
    have hlast := h.last_eq
    have hlast_lt := h.last_lt
    have hnum_lt := h.numIssues_lt
    have hreported := h.reported_eq
    have hissues := stopMessage_issues (s := s) hversion path
    change (s.stopMessage cfg path).issues.getD 0 + reported s.sent +
      (s.stopMessage cfg path).numIssues = 2 ^ 64 * (raises s.sent +
        if countedAt s.sent < (s.stopMessage cfg path).numIssues then 1 else 0)
    rw [hissues, stopMessage_numIssues, ← hlast]
    split <;> omega

theorem Tallied.count (h : Tallied s) {n : Nat} (hn : n < 2 ^ 64) :
    Tallied { s with numIssues := n } := ⟨hn, h.last_eq, h.last_lt, h.reported_eq⟩

theorem Tallied.processItem (h : Tallied s) (hversion : 2 < cfg.filesrvProtocolVersion)
    (curr : SQueueItem) (o : TransferOutcome) (a : ClientAnswer) :
    Tallied (s.processItem cfg curr o a) := by
  unfold DownloadIssues.processItem
  split
  · exact h
  · split
    · exact h.count (afterShadowcopy_lt h.numIssues_lt _ a)
    · split
      · exact h.stop hversion curr.fn o.shadowcopyOk a
      · split
        · split
          · exact h
          · exact h.count (loadFile_lt h.numIssues_lt curr o a)
        · exact h.count (loadFilePatch_lt h.numIssues_lt curr o a)

theorem Tallied.step {e : ServerDownloadThread.Event × ClientAnswer} (h : Tallied s)
    (hversion : 2 < cfg.filesrvProtocolVersion) (hstep : s.step cfg e = some s') : Tallied s' := by
  obtain ⟨e, a⟩ := e
  obtain ⟨thread, -, rfl⟩ := Option.map_eq_some_iff.mp hstep
  split
  · rename_i o curr _
    have hitem := h.processItem hversion curr o a
    exact ⟨hitem.numIssues_lt, hitem.last_eq, hitem.last_lt, hitem.reported_eq⟩
  · exact ⟨h.numIssues_lt, h.last_eq, h.last_lt, h.reported_eq⟩

/-- The messages add up to the counter only while nothing is reported, or by the accident that one
message reports half of the range of the counter. -/
theorem reported_eq_iff (hversion : 2 < cfg.filesrvProtocolVersion)
    {es : List (ServerDownloadThread.Event × ClientAnswer)}
    (hrun : TransitionSystem.run (step cfg) initial es = some s) :
    reported s.sent = countedAt s.sent ↔
      raises s.sent = 0 ∨ raises s.sent = 1 ∧ countedAt s.sent = 2 ^ 63 := by
  have htallied : Tallied s := TransitionSystem.run_invariant
    (fun _ _ _ h hstep => h.step hversion hstep) initial_tallied hrun
  have hreported := htallied.reported_eq
  have hlt := htallied.last_eq ▸ htallied.last_lt
  omega

def oneFile : QueueArgs where
  id := 1
  fn := [97]
  currPath := [47, 99]
  isScript := false
  metadataOnly := false
  folderItems := 0
  scriptRandom := 0

def readFails : TransferOutcome where
  tempFile := true
  prepare := ⟨false, false, false, false, false⟩
  rc := fun _ => .readError
  retryTempFiles := fun _ => true
  received := false
  readingFailed := false
  linked := false
  copied := false
  shadowcopyOk := true
  script := ⟨true, true, []⟩

def quietClient : ClientAnswer := ⟨true, []⟩

def oneShare : IssuesConfig := ⟨⟨0, [], false⟩, false, 3, []⟩

def readErrorEvents : List (ServerDownloadThread.Event × ClientAnswer) :=
  [.addToQueueFull oneFile, .addToQueueStopShadowcopy, .take, .process readFails, .take,
    .process readFails].map (·, quietClient)

theorem reported_eq_iff_readError : ∃ s,
    TransitionSystem.run (step oneShare) initial readErrorEvents = some s ∧
      (reported s.sent = countedAt s.sent ↔
        raises s.sent = 0 ∨ raises s.sent = 1 ∧ countedAt s.sent = 2 ^ 63) := by
  have hsome : (TransitionSystem.run (step oneShare) initial readErrorEvents).isSome = true := rfl
  obtain ⟨s, hrun⟩ := Option.isSome_iff_exists.mp hsome
  exact ⟨s, hrun, reported_eq_iff (by decide) hrun⟩

/-- The message reports almost the whole range of the counter. -/
theorem readError_reported : ∃ s,
    TransitionSystem.run (step oneShare) initial readErrorEvents = some s ∧
      reported s.sent = 2 ^ 64 - 1 ∧ countedAt s.sent = 1 :=
  ⟨_, rfl, rfl, rfl⟩

end Runs

end DownloadIssues

end UrBackup
