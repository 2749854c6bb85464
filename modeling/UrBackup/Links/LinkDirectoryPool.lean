import UrBackup.Links.ServerLinkDao
import UrBackup.Lib.Run

/-! A directory is moved to the pool and linked to, with a journal for the time in between. -/
namespace UrBackup

open DirectoryLinks

/-- The arguments of a call and the place in the pool. -/
structure LinkCall where
  clientid : Int
  targetDir : Path
  srcDir : Path
  linkSrcDir : Path
  poolName : String
  depth : Nat

/-- What a call does next. `id` is the row of the journal. -/
inductive LinkPc where
  | idle
  | makeParent (c : LinkCall)
  | addJournal (c : LinkCall)
  | rename (c : LinkCall) (id : Nat)
  | linkSrc (c : LinkCall) (id : Nat)
  | renameBack (c : LinkCall) (id : Nat)
  | removeJournal (c : LinkCall) (id : Nat) (ok : Bool)
  | linkTarget (c : LinkCall)

/-- `journalOpen` is whether `link_journal_dao` is set, `full` whether this call switched the
journal to synchronous=FULL. -/
structure LinkWorld where
  fs : FileSystem
  links : DirectoryLinks
  journal : LinkJournal
  journalOpen : Bool
  full : Bool
  pc : LinkPc

/-- A call, or its next operation, which may fail. `steps` bounds the lookups. -/
inductive LinkEvent where
  | call (clientid : Int) (targetDir srcDir pooldir : Path) (poolName : String) (depth : Nat)
      (steps : Nat)
  | op (ok : Bool) (steps : Nat)

namespace LinkWorld

def initial (fs : FileSystem) (links : DirectoryLinks) : LinkWorld :=
  ⟨fs, links, ⟨[], []⟩, false, false, .idle⟩

def call (w : LinkWorld) (clientid : Int) (targetDir srcDir pooldir : Path) (poolName : String)
    (depth steps : Nat) : Option LinkWorld :=
  let w := { w with journalOpen := true, full := !w.journalOpen }
  match w.fs.readLink steps srcDir with
  | some linkSrcDir =>
    match poolNameOf linkSrcDir with
    | none => some w
    | some poolName =>
      let links := w.links.addDirectoryLink clientid poolName targetDir
      some { w with
        links := links.referenceAllSublinks clientid srcDir targetDir
        pc := .linkTarget ⟨clientid, targetDir, srcDir, linkSrcDir, poolName, depth⟩ }
  | none =>
    if w.fs.directoryExists steps srcDir then
      let parentSrcDir := pooldir ++ [String.ofList (poolName.toList.take 2)]
      let linkSrcDir := parentSrcDir ++ [poolName]
      if w.fs.directoryExists steps linkSrcDir then none
      else some { w with
        pc := .makeParent ⟨clientid, targetDir, srcDir, linkSrcDir, poolName, depth⟩ }
    else some w

def addRows (w : LinkWorld) (c : LinkCall) (steps : Nat) : DirectoryLinks :=
  let t := w.links.referenceParents w.fs steps c.clientid c.srcDir c.poolName false c.depth
    c.srcDir []
  let t := t.addDirectoryLink c.clientid c.poolName c.srcDir
  let t := t.referenceAllSublinks c.clientid c.srcDir c.targetDir
  t.addDirectoryLink c.clientid c.poolName c.targetDir

def removeRows (w : LinkWorld) (c : LinkCall) (steps : Nat) : DirectoryLinks :=
  let t := w.links.referenceParents w.fs steps c.clientid c.srcDir c.poolName true c.depth
    c.srcDir []
  let t := t.removeDirectoryLink c.clientid c.srcDir
  let t := t.removeDirectoryLinkGlob c.clientid c.targetDir
  t.removeDirectoryLink c.clientid c.targetDir

def fail (w : LinkWorld) (c : LinkCall) (id steps : Nat) : LinkWorld :=
  { w with links := w.removeRows c steps, pc := .removeJournal c id false }

def op (w : LinkWorld) (ok : Bool) (steps : Nat) : Option LinkWorld :=
  match w.pc with
  | .idle => none
  | .makeParent c =>
    let parentSrcDir := c.linkSrcDir.dropLast
    if w.fs.directoryExists steps parentSrcDir then
      some { w with links := w.addRows c steps, pc := .addJournal c }
    else if ok then
      (w.fs.createDirRecursive steps parentSrcDir).map fun fs =>
        let w := { w with fs }
        { w with links := w.addRows c steps, pc := .addJournal c }
    else some { w with pc := .idle }
  | .addJournal c => some { w with
      journal := w.journal.addDirectoryLinkJournalEntry w.full c.srcDir c.linkSrcDir
      pc := .rename c w.journal.nextId }
  | .rename c id =>
    if ok then
      (w.fs.rename steps c.srcDir c.linkSrcDir).map fun fs => { w with fs, pc := .linkSrc c id }
    else some (w.fail c id steps)
  | .linkSrc c id =>
    if ok then
      (w.fs.symlink steps c.linkSrcDir c.srcDir).map fun fs =>
        { w with fs, pc := .removeJournal c id true }
    else some { w with pc := .renameBack c id }
  | .renameBack c id =>
    if ok then
      (w.fs.rename steps c.linkSrcDir c.srcDir).map fun fs =>
        LinkWorld.fail { w with fs } c id steps
    else some (w.fail c id steps)
  | .removeJournal c id done => some { w with
      journal := w.journal.removeDirectoryLinkJournalEntry w.full id
      pc := if done then .linkTarget c else .idle }
  | .linkTarget c =>
    if ok then
      (w.fs.symlink steps c.linkSrcDir c.targetDir).map fun fs => { w with fs, pc := .idle }
    else
      let links := w.links.removeDirectoryLink c.clientid c.targetDir
      some { w with
        links := links.removeDirectoryLinkGlob c.clientid c.targetDir
        pc := .idle }

def step (w : LinkWorld) : LinkEvent → Option LinkWorld
  | .call clientid targetDir srcDir pooldir poolName depth steps =>
    match w.pc with
    | .idle => w.call clientid targetDir srcDir pooldir poolName depth steps
    | _ => none
  | .op ok steps => w.op ok steps

end LinkWorld

def replayEntry (steps : Nat) (fs : FileSystem) (je : JournalEntry) : FileSystem :=
  if fs.readLink steps je.linkname ≠ some je.linktarget then
    if fs.directoryExists steps je.linktarget then
      let fs := (fs.unlink steps je.linkname).getD fs
      (fs.symlink steps je.linktarget je.linkname).getD fs
    else fs
  else fs

def replayDirectoryLinkJournal (steps : Nat) (entries : List JournalEntry) (fs : FileSystem) :
    FileSystem := entries.foldl (replayEntry steps) fs

end UrBackup
