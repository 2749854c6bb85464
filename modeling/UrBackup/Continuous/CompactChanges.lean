import UrBackup.Internet.Connector
import UrBackup.Patch.ChunkPatcher

/-! The changes that a client sends between two backups. They come in messages, each of which names
the ranges of the change journals that it covers, and are compacted before they are executed. -/
namespace UrBackup

open ByteOrder

namespace CRData

def getInt64 (rd : Bytes) : Option Int × Bytes :=
  if rd.length < 8 then (none, rd) else (some (int64 (rd.take 8)), rd.drop 8)

end CRData

/-- The position in a change journal up to which there are changes. -/
structure SSequence where
  id : Int
  next : Int
  updated : Bool
  deriving DecidableEq

inductive ChangeAction where
  | renFile
  | renDir
  | delFile
  | addFile
  | addDir
  | mod
  | delDir
  deriving DecidableEq

structure SChange where
  action : ChangeAction
  fn1 : Bytes
  fn2 : Bytes
  deriving DecidableEq

namespace ChangeAction

/-- The change that a byte stands for. Nobody handles a change of everything. -/
def ofChar (id : UInt8) : Option ChangeAction :=
  if id = 0 then some .renFile
  else if id = 1 then some .renDir
  else if id = 2 then some .delFile
  else if id = 3 then some .addFile
  else if id = 4 then some .addDir
  else if id = 5 then some .mod
  else if id = 7 then some .delDir
  else none

def isRename : ChangeAction → Bool
  | .renFile | .renDir => true
  | _ => false

end ChangeAction

def changeHeader : UInt8 := 8

/-- What a loop over the known sequences found. -/
inductive SequenceCheck where
  | fits
  | skip
  | gap
  deriving DecidableEq

section Compaction

def addChangeCheck (compactedChanges : List SChange) (change : SChange) : List SChange :=
  if change ∈ compactedChanges then compactedChanges else compactedChanges ++ [change]

def eraseDeletion (delAction : ChangeAction) (fn1 : Bytes) : List SChange → Option (List SChange)
  | [] => none
  | c :: cs =>
    if c.action = delAction ∧ c.fn1 = fn1 then some cs
    else (eraseDeletion delAction fn1 cs).map (c :: ·)

def addChange (compactedChanges : List SChange) (change : SChange) (delAction : ChangeAction)
    (modAction : Option ChangeAction) : List SChange :=
  match eraseDeletion delAction change.fn1 compactedChanges with
  | some cs => cs ++ [{ change with action := modAction.getD change.action }]
  | none => compactedChanges ++ [change]

/-- The variables of `delChange`. -/
structure DelState where
  change : SChange
  add : Bool
  sweepAgain : Bool

def delMatch (addAction : ChangeAction) (modAction : Option ChangeAction) (renAction : ChangeAction)
    (all : List SChange) (s : DelState) (c : SChange) : Bool × DelState :=
  if c.action = addAction ∧ c.fn1 = s.change.fn1 then (true, { s with add := false })
  else if some c.action = modAction ∧ c.fn1 = s.change.fn1 then (true, s)
  else if c.action = renAction ∧ c.fn2 = s.change.fn1 then
    if all.any fun a => decide (a.action = addAction ∧ a.fn1 = s.change.fn1) then (false, s)
    else (true, { s with change := { s.change with fn1 := c.fn1 }, sweepAgain := true })
  else (false, s)

/-- A sweep of `delChange`. The index goes on by one after an element that is erased, and by two
after one that is not, so every second one is passed over. -/
def delSweep (addAction : ChangeAction) (modAction : Option ChangeAction)
    (renAction : ChangeAction) : List SChange → List SChange → DelState → List SChange × DelState
  | before, [], s => (before, s)
  | before, [c], s =>
    let (del, s) := delMatch addAction modAction renAction (before ++ [c]) s c
    (if del then before else before ++ [c], s)
  | before, c :: passed :: rest, s =>
    let (del, s) := delMatch addAction modAction renAction (before ++ c :: passed :: rest) s c
    delSweep addAction modAction renAction
      (if del then before ++ [passed] else before ++ [c, passed]) rest s

def delChange (compactedChanges : List SChange) (change : SChange) (addAction : ChangeAction)
    (modAction : Option ChangeAction) (renAction : ChangeAction) : List SChange :=
  let (cs, s) := delSweep addAction modAction renAction [] compactedChanges ⟨change, true, false⟩
  let (cs, s) := if s.sweepAgain then delSweep addAction modAction renAction [] cs s else (cs, s)
  if s.add then cs ++ [s.change] else cs

/-- The variables of `renChange`. -/
structure RenState where
  change : SChange
  add : Bool
  addMod : Bool
  otherFn1 : Bytes
  sweepAgain : Bool

def renMatch (addAction : ChangeAction) (modAction : Option ChangeAction) (renAction : ChangeAction)
    (s : RenState) (c : SChange) : Option SChange × RenState :=
  if c.action = renAction ∧ c.fn2 = s.change.fn1 then
    (none, { s with
      otherFn1 := s.change.fn1, change := { s.change with fn1 := c.fn1 }, sweepAgain := true })
  else if some c.action = modAction ∧
      (c.fn1 = s.change.fn1 ∨ (s.otherFn1 ≠ [] ∧ c.fn1 = s.otherFn1)) then
    (none, { s with addMod := true })
  else if c.action = addAction ∧ c.fn1 = s.change.fn1 then
    (some { c with fn1 := s.change.fn2 }, { s with add := false })
  else (some c, s)

/-- A sweep of `renChange`, over every second element as well. -/
def renSweep (addAction : ChangeAction) (modAction : Option ChangeAction)
    (renAction : ChangeAction) : List SChange → List SChange → RenState → List SChange × RenState
  | before, [], s => (before, s)
  | before, [c], s =>
    let (kept, s) := renMatch addAction modAction renAction s c
    (before ++ kept.toList, s)
  | before, c :: passed :: rest, s =>
    let (kept, s) := renMatch addAction modAction renAction s c
    renSweep addAction modAction renAction (before ++ kept.toList ++ [passed]) rest s

def renChange (compactedChanges : List SChange) (change : SChange) (addAction : ChangeAction)
    (modAction : Option ChangeAction) (renAction : ChangeAction) : List SChange :=
  let (cs, s) := renSweep addAction modAction renAction [] compactedChanges
    ⟨change, true, false, [], false⟩
  let (cs, s) := if s.sweepAgain then renSweep addAction modAction renAction [] cs s else (cs, s)
  let cs := if s.add then cs ++ [s.change] else cs
  if s.addMod then cs ++ [⟨.mod, s.change.fn2, []⟩] else cs

def compactChange (compactedChanges : List SChange) (change : SChange) : List SChange :=
  match change.action with
  | .mod => addChangeCheck compactedChanges change
  | .addFile => addChange compactedChanges change .delFile (some .mod)
  | .addDir => addChange compactedChanges change .delDir none
  | .delFile => delChange compactedChanges change .addFile (some .mod) .renFile
  | .delDir => delChange compactedChanges change .delFile none .renDir
  | .renFile => renChange compactedChanges change .addFile (some .mod) .renFile
  | .renDir => renChange compactedChanges change .addDir none .renDir

end Compaction

section Messages

def parseTwoFn (id : ChangeAction) (data : Bytes) : Option SChange × Bytes :=
  match CRData.getStr data with
  | (none, data) => (none, data)
  | (some fn1, data) =>
    match CRData.getStr data with
    | (none, data) => (none, data)
    | (some fn2, data) => (some ⟨id, fn1, fn2⟩, data)

def parseOneFn (id : ChangeAction) (data : Bytes) : Option SChange × Bytes :=
  match CRData.getStr data with
  | (none, data) => (none, data)
  | (some fn1, data) => (some ⟨id, fn1, []⟩, data)

def parseChange (id : ChangeAction) (data : Bytes) : Option SChange × Bytes :=
  if id.isRename then parseTwoFn id data else parseOneFn id data

def compactAll (data : Bytes) (compactedChanges : List SChange) : Bool × List SChange :=
  match data with
  | [] => (true, compactedChanges)
  | id :: data =>
    match ChangeAction.ofChar id with
    | none => (false, compactedChanges)
    | some action =>
      match parseChange action data with
      | (none, _) => (false, compactedChanges)
      | (some change, rest) =>
        if _h : rest.length ≤ data.length then
          compactAll rest (compactChange compactedChanges change)
        else (false, compactedChanges)
  termination_by data.length

def checkSequence (firstCompaction : Bool) (seqId seqStart seqStop : Int) :
    List SSequence → SequenceCheck × List SSequence
  | [] => (.fits, [])
  | s :: sequences =>
    if s.id = seqId then
      if firstCompaction ∧ seqStart < s.next then (.skip, { s with next := seqStop } :: sequences)
      else if seqStart ≠ s.next then (.gap, s :: sequences)
      else
        let (check, sequences) := checkSequence firstCompaction seqId seqStart seqStop sequences
        (check, { s with next := seqStop, updated := true } :: sequences)
    else
      let (check, sequences) := checkSequence firstCompaction seqId seqStart seqStop sequences
      (check, s :: sequences)

/-- What came of a header: the answer, whether the message is skipped, and what follows. -/
structure HeaderCheck where
  ok : Bool
  skip : Bool
  data : Bytes
  sequences : List SSequence

def checkRanges (firstCompaction : Bool) : Nat → Bytes → List SSequence → HeaderCheck
  | 0, data, sequences => ⟨true, false, data, sequences⟩
  | n + 1, data, sequences =>
    match CRData.getInt64 data with
    | (none, data) => ⟨false, false, data, sequences⟩
    | (some seqId, data) =>
      match CRData.getInt64 data with
      | (none, data) => ⟨false, false, data, sequences⟩
      | (some seqStart, data) =>
        match CRData.getInt64 data with
        | (none, data) => ⟨false, false, data, sequences⟩
        | (some seqStop, data) =>
          match checkSequence firstCompaction seqId seqStart seqStop sequences with
          | (.skip, sequences) => ⟨true, true, data, sequences⟩
          | (.gap, sequences) => ⟨firstCompaction, false, data, sequences⟩
          | (.fits, sequences) => checkRanges firstCompaction n data sequences

def checkHeaderAndUpdate (firstCompaction : Bool) (data : Bytes) (sequences : List SSequence) :
    HeaderCheck :=
  match CRData.getUInt data with
  | (none, data) => ⟨false, false, data, sequences⟩
  | (some numSequences, data) => checkRanges firstCompaction numSequences data sequences

end Messages

/-- What the server knows of the changes since a backup. -/
structure BackupServerContinuous where
  changes : List Bytes
  sequences : List SSequence
  compactedChanges : List SChange
  firstCompaction : Bool

namespace BackupServerContinuous

def header (s : BackupServerContinuous) (message : Bytes) : HeaderCheck :=
  match CRData.getChar (CRData.set message) with
  | (some id, data) =>
    if id ≠ changeHeader then ⟨false, false, data, s.sequences⟩
    else checkHeaderAndUpdate s.firstCompaction data s.sequences
  | (none, data) => ⟨false, false, data, s.sequences⟩

/-- `compactChanges` of a message. -/
def compactMessage (s : BackupServerContinuous) (message : Bytes) : Bool × BackupServerContinuous :=
  let header := s.header message
  let s := { s with sequences := header.sequences }
  if header.ok = false then (false, s)
  else if header.skip then (true, s)
  else
    let (ret, compactedChanges) := compactAll header.data s.compactedChanges
    (ret, { s with compactedChanges })

def compactMessages (s : BackupServerContinuous) : List Bytes → Bool × BackupServerContinuous
  | [] => (true, s)
  | message :: messages =>
    let (b, s) := s.compactMessage message
    let (ret, s) := s.compactMessages messages
    (b && ret, s)

/-- `compactChanges` of all messages that have come. -/
def compactChanges (s : BackupServerContinuous) : Bool × BackupServerContinuous :=
  let (ret, s) := s.compactMessages s.changes
  (ret, { s with firstCompaction := false, changes := [] })

end BackupServerContinuous

end UrBackup
