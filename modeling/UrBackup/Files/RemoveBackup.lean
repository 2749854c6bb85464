import UrBackup.Files.StoreInvariant

/-! The removal of all file entries of a backup in one transaction. Changes of rows in the id
range of the backup are not written but kept in memory, where the rows that are still to come
find them; the rest is written at the end. -/
namespace UrBackup

/-- Changes of rows that are not written. -/
structure SInMemCorrection where
  nextEntries : OrderedMap Int Int
  prevEntries : OrderedMap Int Int
  pointedTo : OrderedMap Int Bool
  minCorrect : Int
  maxCorrect : Int

namespace SInMemCorrection

def needsCorrection (c : SInMemCorrection) (id : Int) : Bool :=
  c.minCorrect ≤ id ∧ id ≤ c.maxCorrect

def correct (c : SInMemCorrection) (id : Int) (e : FileEntry) : FileEntry :=
  { e with
    nextEntry := (c.nextEntries.find? id).getD e.nextEntry
    prevEntry := (c.prevEntries.find? id).getD e.prevEntry
    pointedTo := (c.pointedTo.find? id).getD e.pointedTo }

def consume (c : SInMemCorrection) (id : Int) : SInMemCorrection :=
  { c with
    nextEntries := c.nextEntries.erase id
    prevEntries := c.prevEntries.erase id
    pointedTo := c.pointedTo.erase id }

end SInMemCorrection

namespace FilesTable

/-- `SELECT MIN(id), MAX(id) FROM files WHERE backupid=?` -/
def getBackupIdMinMax (t : FilesTable) (backupid : Int) : Int × Int :=
  let rows := t.entries.filter fun row => row.2.backupid = backupid
  ((rows.head?.map Prod.fst).getD 0, (rows.getLast?.map Prod.fst).getD 0)

def deleteFiles (t : FilesTable) (backupid : Int) : FilesTable :=
  t.filterValues fun e => e.backupid ≠ backupid

end FilesTable

/-- The removal under way: what the cursor still yields, and whether the index was changed. -/
structure Sweep where
  store : Store
  correction : SInMemCorrection
  todo : List (Int × FileEntry)
  modifiedFileEntryIndex : Bool

/-- The next row of the cursor, or a step of the index behind the store. -/
inductive SweepEvent where
  | next
  | index (e : WriterEvent)

namespace Sweep

def setNextEntry (sw : Sweep) (nextEntry id : Int) : Sweep :=
  if sw.correction.needsCorrection id then
    { sw with correction := { sw.correction with
        nextEntries := sw.correction.nextEntries.insert id nextEntry } }
  else { sw with store := { sw.store with
    files := FilesTable.setNextEntry sw.store.files nextEntry id } }

def setPrevEntry (sw : Sweep) (prevEntry id : Int) : Sweep :=
  if sw.correction.needsCorrection id then
    { sw with correction := { sw.correction with
        prevEntries := sw.correction.prevEntries.insert id prevEntry } }
  else { sw with store := { sw.store with
    files := FilesTable.setPrevEntry sw.store.files prevEntry id } }

def setPointedTo (sw : Sweep) (pointedTo : Bool) (id : Int) : Sweep :=
  if sw.correction.needsCorrection id then
    { sw with correction := { sw.correction with
        pointedTo := sw.correction.pointedTo.insert id pointedTo } }
  else { sw with store := { sw.store with
    files := FilesTable.setPointedTo sw.store.files pointedTo id } }

def pointTo (sw : Sweep) (key : SIndexKey) (neighbour : Int) : Option Sweep :=
  let sw := sw.setPointedTo true neighbour
  (sw.store.index.putDelayed key neighbour).map fun index =>
    { sw with store := { sw.store with index } }

def pointToNeighbour (sw : Sweep) (id : Int) (e : FileEntry) : Option Sweep :=
  if e.nextEntry ≠ 0 ∧ e.nextEntry ≠ id then sw.pointTo e.key e.nextEntry
  else if e.prevEntry ≠ id then sw.pointTo e.key e.prevEntry
  else some sw

def deleteFileSQL (sw : Sweep) (id : Int) (e : FileEntry) : Option Sweep :=
  if e.prevEntry = 0 ∧ e.nextEntry = 0 then
    if e.filesize.val < linkFileMinSize then
      some { sw with store := { sw.store with
        incoming := sw.store.incoming ++ [Store.outgoingFile e (toString e.clientid.val) true] } }
    else (sw.store.dropLast id e true).map fun store => { sw with store }
  else
    (if e.pointedTo then sw.pointToNeighbour id e else some sw).map fun sw =>
      let sw := if e.nextEntry ≠ 0 then sw.setPrevEntry e.prevEntry e.nextEntry else sw
      if e.prevEntry ≠ 0 then sw.setNextEntry e.nextEntry e.prevEntry else sw

def next (sw : Sweep) : Option Sweep :=
  match sw.todo with
  | [] => none
  | (id, e) :: todo =>
    let e := sw.correction.correct id e
    deleteFileSQL { sw with
      correction := sw.correction.consume id
      todo
      modifiedFileEntryIndex := sw.modifiedFileEntryIndex || e.pointedTo } id e

def step (sw : Sweep) : SweepEvent → Option Sweep
  | .next => sw.next
  | .index e => (sw.store.indexStep e).map fun store => { sw with store }

def start (s : Store) (backupid : Int) (rows : List (Int × FileEntry)) : Sweep where
  store := s
  correction :=
    { nextEntries := .empty
      prevEntries := .empty
      pointedTo := .empty
      minCorrect := (s.files.getBackupIdMinMax backupid).1
      maxCorrect := (s.files.getBackupIdMinMax backupid).2 }
  todo := rows
  modifiedFileEntryIndex := false

def writeCorrections (c : SInMemCorrection) (t : FilesTable) : FilesTable :=
  let t := c.nextEntries.entries.foldl (fun t e => FilesTable.setNextEntry t e.2 e.1) t
  let t := c.prevEntries.entries.foldl (fun t e => FilesTable.setPrevEntry t e.2 e.1) t
  c.pointedTo.entries.foldl (fun t e => FilesTable.setPointedTo t e.2 e.1) t

def finish (sw : Sweep) (backupid : Int) : Store :=
  { sw.store with
    files := (writeCorrections sw.correction sw.store.files).deleteFiles backupid }

end Sweep

/-- `rows` is what the cursor yields; `es` and `es'` are what happens in the loop and while the
index is flushed by the thread `t`. -/
def Store.removeFileBackupSql (s : Store) (backupid : Int) (rows : List (Int × FileEntry))
    (t : ThreadId) (es : List SweepEvent) (es' : List WriterEvent) : Option Store := do
  let sw ← TransitionSystem.run Sweep.step (Sweep.start s backupid rows) es
  if sw.todo = [] then
    if sw.modifiedFileEntryIndex then
      TransitionSystem.run Store.indexStep (sw.finish backupid)
        (.flushCall t :: es' ++ [.flushReturn t])
    else some (sw.finish backupid)
  else none

/-- What the table and the index say, without the places where they keep it. -/
structure Ledger where
  rows : Int → Option FileEntry
  index : SIndexKey → Int

namespace Ledger

def update (rows : Int → Option FileEntry) (id : Option Int) (f : FileEntry → FileEntry) :
    Int → Option FileEntry := fun a =>
  if id = some a then (rows a).map f else rows a

def linked (link : Int) : Option Int := if link = 0 then none else some link

def heir (id : Int) (e : FileEntry) : Option Int :=
  if e.pointedTo = false ∨ e.prevEntry = 0 ∧ e.nextEntry = 0 then none
  else if e.nextEntry ≠ 0 ∧ e.nextEntry ≠ id then some e.nextEntry
  else if e.prevEntry ≠ id then some e.prevEntry
  else none

/-- The rows without an entry: its neighbours are linked, and its heir is pointed to. -/
def rowsWithout (rows : Int → Option FileEntry) (id : Int) (e : FileEntry) :
    Int → Option FileEntry := fun a =>
  if a = id then none
  else update (update (update rows (heir id e) fun r => { r with pointedTo := true })
    (linked e.nextEntry) fun r => { r with prevEntry := e.prevEntry })
    (linked e.prevEntry) (fun r => { r with nextEntry := e.nextEntry }) a

def indexWithout (index : SIndexKey → Int) (id : Int) (e : FileEntry) : SIndexKey → Int :=
  fun key =>
    if e.key = key then
      match heir id e with
      | some neighbour => neighbour
      | none =>
        if e.prevEntry = 0 ∧ e.nextEntry = 0 ∧ linkFileMinSize ≤ e.filesize.val ∧
            e.pointedTo = true ∧ index e.key = id then 0
        else index key
    else index key

def delete (l : Ledger) (id : Int) : Ledger :=
  match l.rows id with
  | none => l
  | some e => ⟨rowsWithout l.rows id e, indexWithout l.index id e⟩

end Ledger

end UrBackup
