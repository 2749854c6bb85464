import UrBackup.Files.Chains
import UrBackup.FileIndex.Writer

/-! Adding, finding and deleting file entries: the `files` table, the file entry index
in front of it, and the log of files that clients gained and lost. -/
namespace UrBackup

abbrev linkFileMinSize : Nat := 2048

inductive IncomingDirection where
  | incoming
  | outgoing
  | outgoingNobackupstat
  deriving DecidableEq

structure IncomingFile where
  filesize : FileSize
  clientid : ClientId
  backupid : Int
  existingClients : String
  direction : IncomingDirection
  incremental : Int
  deriving DecidableEq

/-- The file an entry is added for, and the time of the insert. -/
structure NewFile where
  backupid : Int
  clientid : ClientId
  incremental : Int
  fp : String
  hashPath : String
  shahash : List UInt8
  filesize : FileSize
  rsize : Int
  created : Int

def NewFile.entry (f : NewFile) (nextEntry prevEntry : Int) (pointedTo : Bool) : FileEntry :=
  ⟨f.backupid, f.fp, f.hashPath, f.shahash, f.filesize, f.rsize, f.clientid, f.incremental,
    nextEntry, prevEntry, pointedTo, f.created⟩

def NewFile.key (f : NewFile) : SIndexKey := SIndexKey.ofHash f.shahash f.filesize f.clientid

structure Store where
  files : FilesTable
  index : WriterState
  incoming : List IncomingFile

namespace Store

def initial : Store := ⟨.empty, .initial, []⟩

/-- The loop over the clients that have a file: the entry of one client and the list of all. -/
def clientsLoop (clientid : ClientId) : Int × String → List (ClientId × Int) → Int × String
  | r, [] => r
  | (entryid, clients), (c, id) :: es =>
    if id ≠ 0 then
      clientsLoop clientid
        (if c = clientid then id else entryid,
          (if clients.isEmpty then clients else clients ++ ",") ++ toString c.val) es
    else clientsLoop clientid (entryid, clients) es

def allClients (s : Store) (shahash : List UInt8) (filesize : FileSize) : OrderedMap ClientId Int :=
  s.index.index.getAllClientsWithCache (SIndexKey.ofHash shahash filesize 0) true

def incomingFile (f : NewFile) (clients : String) : IncomingFile :=
  ⟨f.filesize, f.clientid, f.backupid, clients, .incoming, f.incremental⟩

/-- Where a new entry goes into the chain of its file. -/
structure Placement where
  prevEntry : Int
  nextEntry : Int
  updateFileindex : Bool
  incoming : List IncomingFile

def placeNew (s : Store) (f : NewFile) (prevEntryClientid : Int) (updateFileindex : Bool) :
    Placement :=
  let (prevEntry, clients) :=
    if prevEntryClientid ≠ 0 then
      clientsLoop f.clientid (0, "") (s.allClients f.shahash f.filesize).entries
    else (0, "")
  if prevEntry = 0 then ⟨0, 0, updateFileindex, s.incoming ++ [incomingFile f clients]⟩
  else
    match FilesTable.getFileEntry s.files prevEntry with
    | some fentry =>
      ⟨prevEntry, fentry.nextEntry, updateFileindex || fentry.pointedTo, s.incoming⟩
    | none => ⟨0, 0, updateFileindex, s.incoming⟩

def unpoint (s : Store) (f : NewFile) (prevEntry : Int) : FilesTable :=
  if (FilesTable.getFileEntry s.files prevEntry).any FileEntry.pointedTo = true then
    FilesTable.setPointedTo s.files false prevEntry
  else
    let clientEntryid := s.index.index.getWithCacheExact f.key
    if clientEntryid ≠ 0 then FilesTable.setPointedTo s.files false clientEntryid else s.files

/-- `none` is a failed assertion, or a put that has to wait. -/
def addFileSQL (s : Store) (f : NewFile) (prevEntry prevEntryClientid nextEntry : Int)
    (updateFileindex : Bool) : Option Store :=
  if f.filesize.val < linkFileMinSize then
    if prevEntryClientid = 0 ∧ prevEntry = 0 ∧ nextEntry = 0 then
      some { s with
        files := (FilesTable.addFileEntryExternal s.files (f.entry nextEntry prevEntry false)).1
        incoming := s.incoming ++ [incomingFile f ""] }
    else none
  else
    let newForClient : Bool := prevEntryClientid ≠ f.clientid.val ∨ prevEntry = 0
    let place := if newForClient then s.placeNew f prevEntryClientid updateFileindex
      else ⟨prevEntry, nextEntry, updateFileindex, s.incoming⟩
    let files := if place.updateFileindex = true ∧ place.prevEntry ≠ 0 then
      s.unpoint f place.prevEntry else s.files
    let put := newForClient || place.updateFileindex
    let (files, entryid) := FilesTable.addFileEntryExternal files
      (f.entry place.nextEntry place.prevEntry put)
    if put then
      (s.index.putDelayed f.key entryid).map fun index => ⟨files, index, place.incoming⟩
    else some ⟨files, s.index, place.incoming⟩

def outgoingFile (e : FileEntry) (clients : String) (withBackupstat : Bool) : IncomingFile :=
  ⟨e.filesize, e.clientid, e.backupid, clients,
    if withBackupstat then .outgoing else .outgoingNobackupstat, e.incremental⟩

/-- What the index names for the client of the entry, and the clients that have the file. -/
def targetEntry (s : Store) (e : FileEntry) : Int × String :=
  let all := s.allClients e.shahash e.filesize
  if all.isEmpty then (0, toString e.clientid.val)
  else clientsLoop e.clientid (0, "") all.entries

def dropLast (s : Store) (id : Int) (e : FileEntry) (withBackupstat : Bool) : Option Store :=
  let target := s.targetEntry e
  let clients :=
    if target.1 = 0 then
      (if target.2.isEmpty then target.2 else target.2 ++ ",") ++ toString e.clientid.val
    else target.2
  let incoming := s.incoming ++ [outgoingFile e clients withBackupstat]
  if e.pointedTo = true ∧ (s.allClients e.shahash e.filesize).isEmpty = false ∧
      (target.1 = 0 ∨ target.1 = id) then
    (s.index.putDelayed e.key 0).map fun index => { s with index, incoming }
  else some { s with incoming }

def pointToNeighbour (s : Store) (id : Int) (e : FileEntry) : Option Store :=
  if e.nextEntry ≠ 0 ∧ e.nextEntry ≠ id then
    (s.index.putDelayed e.key e.nextEntry).map fun index =>
      { s with files := FilesTable.setPointedTo s.files true e.nextEntry, index }
  else if e.prevEntry ≠ id then
    (s.index.putDelayed e.key e.prevEntry).map fun index =>
      { s with files := FilesTable.setPointedTo s.files true e.prevEntry, index }
  else some s

def deleteFileSQLEntry (s : Store) (id : Int) (e : FileEntry) (withBackupstat : Bool) :
    Option Store :=
  if e.prevEntry = 0 ∧ e.nextEntry = 0 then
    if e.filesize.val < linkFileMinSize then
      some { s with
        files := FilesTable.delFileEntry s.files id
        incoming := s.incoming ++ [outgoingFile e (toString e.clientid.val) withBackupstat] }
    else
      (s.dropLast id e withBackupstat).map fun s =>
        { s with files := FilesTable.delFileEntry (FilesTable.unlink s.files e) id }
  else
    (if e.pointedTo then s.pointToNeighbour id e else some s).map fun s =>
      { s with files := FilesTable.delFileEntry (FilesTable.unlink s.files e) id }

def deleteFileSQL (s : Store) (id : Int) : Option Store :=
  match FilesTable.getFileEntry s.files id with
  | some e => s.deleteFileSQLEntry id e false
  | none => some s

/-- The values 0 to 4 of `SFindState::state`. -/
inductive FindPhase where
  | start
  | ownNewer
  | ownOlder
  | clientNewer
  | clientOlder
  deriving DecidableEq

/-- `prev` is the entry returned before; `client` lists the clients from the iterator on. -/
structure SFindState where
  state : FindPhase
  origPrev : Int
  prev : Option FileEntry
  client : List (ClientId × Int)

def SFindState.initial : SFindState := ⟨.start, 0, none, []⟩

def firstEntry : List (ClientId × Int) → Int
  | [] => 0
  | (_, id) :: _ => id

def switchToAllClients (s : Store) (pHash : List UInt8) (filesize : FileSize) (st : SFindState) :
    Int × SFindState × Bool :=
  let client :=
    (s.index.index.getAllClientsWithCache (SIndexKey.ofHash pHash filesize 0) false).entries
  (firstEntry client, { st with state := .clientNewer, client }, !client.isEmpty)

def switchToNextClient (st : SFindState) : Int × SFindState × Bool :=
  (firstEntry st.client.tail, { st with client := st.client.tail }, false)

/-- The next entry to try, and whether its older link is to be kept as `orig_prev`. -/
def nextCandidate (s : Store) (pHash : List UInt8) (filesize : FileSize) (clientid : ClientId)
    (st : SFindState) : Int × SFindState × Bool :=
  let nextEntry := (st.prev.map FileEntry.nextEntry).getD 0
  let prevEntry := (st.prev.map FileEntry.prevEntry).getD 0
  match st.state with
  | .start =>
    (s.index.index.getWithCachePreferClient (SIndexKey.ofHash pHash filesize clientid),
      { st with state := .ownNewer }, true)
  | .ownNewer =>
    if nextEntry ≠ 0 then (nextEntry, st, false)
    else if st.origPrev ≠ 0 then (st.origPrev, { st with state := .ownOlder }, false)
    else s.switchToAllClients pHash filesize st
  | .ownOlder =>
    if prevEntry ≠ 0 then (prevEntry, st, false)
    else s.switchToAllClients pHash filesize st
  | .clientNewer =>
    if nextEntry = 0 then
      if st.origPrev ≠ 0 then (st.origPrev, { st with state := .clientOlder }, false)
      else switchToNextClient st
    else (nextEntry, st, false)
  | .clientOlder =>
    if prevEntry = 0 then switchToNextClient st else (prevEntry, st, false)

/-- The outer `none` is the failed assertion about the size. -/
def findFileHash (s : Store) (pHash : List UInt8) (filesize : FileSize) (clientid : ClientId)
    (st : SFindState) : Option (Option (Int × FileEntry) × SFindState) :=
  let (entryid, st, saveOrig) := s.nextCandidate pHash filesize clientid st
  if entryid = 0 then some (none, st)
  else
    match FilesTable.getFileEntry s.files entryid with
    | none => some (none, { st with prev := none })
    | some e =>
      if e.shahash.take pHash.length ≠ pHash then some (none, { st with prev := some e })
      else if e.filesize ≠ filesize then none
      else some (some (entryid, e), { st with
        prev := some e
        origPrev := if saveOrig then e.prevEntry else st.origPrev })

end Store

/-- One call on the store, or a step of the index behind it. The entry of an `addFound`
is the one a search for the file returns at that moment. -/
inductive StoreEvent where
  | addNew (f : NewFile) (updateFileindex : Bool)
  | addFound (f : NewFile) (clientid : ClientId) (st : Store.SFindState) (updateFileindex : Bool)
  | delete (id : Int)
  | index (e : WriterEvent)

namespace Store

def indexStep (s : Store) : WriterEvent → Option Store
  | .putDelayed _ _ => none
  | e => (s.index.step e).map fun index => { s with index }

def step (s : Store) : StoreEvent → Option Store
  | .addNew f updateFileindex => s.addFileSQL f 0 0 0 updateFileindex
  | .addFound f clientid st updateFileindex =>
    match s.findFileHash f.shahash f.filesize clientid st with
    | some (some (id, e), _) => s.addFileSQL f id e.clientid.val e.nextEntry updateFileindex
    | _ => none
  | .delete id => s.deleteFileSQL id
  | .index e => s.indexStep e

end Store

end UrBackup
