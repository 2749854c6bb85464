import UrBackup.Lib.FileSystem

/-! The rows that say which paths are links to which pool directory, and the journal of the
directories that are being moved to the pool. -/
namespace UrBackup

abbrev Path := List String

structure DirectoryLinkEntry where
  clientid : Int
  name : String
  target : Path
  deriving DecidableEq

/-- The table `directory_links`. -/
abbrev DirectoryLinks := List DirectoryLinkEntry

namespace DirectoryLinks

def addDirectoryLink (t : DirectoryLinks) (clientid : Int) (name : String) (target : Path) :
    DirectoryLinks := t ++ [⟨clientid, name, target⟩]

def removeDirectoryLink (t : DirectoryLinks) (clientid : Int) (target : Path) : DirectoryLinks :=
  t.filter fun e => ¬ (e.clientid = clientid ∧ e.target = target)

def removeDirectoryLinkWithName (t : DirectoryLinks) (clientid : Int) (target : Path)
    (name : String) : DirectoryLinks :=
  t.filter fun e => ¬ (e.clientid = clientid ∧ e.target = target ∧ e.name = name)

/-- What `target GLOB` says of the escaped path of a directory with `/*` behind it. -/
def below (dir target : Path) : Bool := dir.isPrefixOf target && target.length != dir.length

def removeDirectoryLinkGlob (t : DirectoryLinks) (clientid : Int) (dir : Path) : DirectoryLinks :=
  t.filter fun e => ¬ (e.clientid = clientid ∧ below dir e.target = true)

def getLinksInDirectory (t : DirectoryLinks) (clientid : Int) (dir : Path) :
    List DirectoryLinkEntry := t.filter fun e => e.clientid = clientid ∧ below dir e.target = true

def getLinksByPoolName (t : DirectoryLinks) (clientid : Int) (name : String) :
    List DirectoryLinkEntry := t.filter fun e => e.clientid = clientid ∧ e.name = name

def referenceAllSublinks (t : DirectoryLinks) (clientid : Int) (target newTarget : Path) :
    DirectoryLinks :=
  (t.getLinksInDirectory clientid target).foldl (fun t e =>
    t.addDirectoryLink clientid e.name (newTarget ++ e.target.drop target.length)) t

def poolNameOf (linkTarget : Path) : Option String := linkTarget.getLast?

/-- One link above the directory: the directory has a path through every other link to the same
pool directory. -/
def referenceParent (t : DirectoryLinks) (clientid : Int) (target subPath : Path)
    (newPoolName poolName : String) (remove : Bool) : DirectoryLinks :=
  (t.getLinksByPoolName clientid poolName).foldl (fun t e =>
    let newLinkPath := e.target ++ subPath
    if newLinkPath = target then t
    else if remove then t.removeDirectoryLinkWithName clientid newLinkPath newPoolName
    else t.addDirectoryLink clientid newPoolName newLinkPath) t

def referenceParents (fs : FileSystem) (steps : Nat) (clientid : Int) (target : Path)
    (newPoolName : String) (remove : Bool) : Nat → Path → Path → DirectoryLinks → DirectoryLinks
  | 0, _, _, t => t
  | depth + 1, path, subPath, t =>
    let subPath := path.getLast?.toList ++ subPath
    let path := path.dropLast
    referenceParents fs steps clientid target newPoolName remove depth path subPath
      (match (fs.readLink steps path).bind poolNameOf with
      | none => t
      | some poolName => t.referenceParent clientid target subPath newPoolName poolName remove)

end DirectoryLinks

structure JournalEntry where
  id : Nat
  linkname : Path
  linktarget : Path
  deriving DecidableEq

/-- The table `directory_link_journal`, and the part of it that a power failure leaves: what was
there at the last write with synchronous=FULL. -/
structure LinkJournal where
  entries : List JournalEntry
  durable : List JournalEntry

namespace LinkJournal

def write (j : LinkJournal) (full : Bool) (entries : List JournalEntry) : LinkJournal :=
  ⟨entries, if full then entries else j.durable⟩

def nextId (j : LinkJournal) : Nat := (j.entries.map JournalEntry.id).foldl max 0 + 1

def addDirectoryLinkJournalEntry (j : LinkJournal) (full : Bool) (linkname linktarget : Path) :
    LinkJournal := j.write full (j.entries ++ [⟨j.nextId, linkname, linktarget⟩])

def removeDirectoryLinkJournalEntry (j : LinkJournal) (full : Bool) (id : Nat) : LinkJournal :=
  j.write full (j.entries.filter fun e => e.id ≠ id)

end LinkJournal

end UrBackup
