import UrBackup.FileIndex.Key

/-! The `files` table of the server and the statements that write it. Entries of the
same content and client are linked; 0 stands for the end of a chain. -/
namespace UrBackup

/-- A row, without its primary key. The column `pointed_to` holds 0 or 1. -/
structure FileEntry where
  backupid : Int
  fullpath : String
  hashpath : String
  shahash : List UInt8
  filesize : FileSize
  rsize : Int
  clientid : ClientId
  incremental : Int
  nextEntry : Int
  prevEntry : Int
  pointedTo : Bool
  created : Int
  deriving DecidableEq

def FileEntry.key (e : FileEntry) : SIndexKey := SIndexKey.ofHash e.shahash e.filesize e.clientid

abbrev FilesTable := OrderedMap Int FileEntry

namespace FilesTable

def getFileEntry (t : FilesTable) (id : Int) : Option FileEntry := t.find? id

/-- `UPDATE files SET … WHERE id=?` -/
def update (t : FilesTable) (id : Int) (f : FileEntry → FileEntry) : FilesTable :=
  match t.find? id with
  | some e => t.insert id (f e)
  | none => t

def setNextEntry (t : FilesTable) (nextEntry id : Int) : FilesTable :=
  update t id fun e => { e with nextEntry }

def setPrevEntry (t : FilesTable) (prevEntry id : Int) : FilesTable :=
  update t id fun e => { e with prevEntry }

def setPointedTo (t : FilesTable) (pointedTo : Bool) (id : Int) : FilesTable :=
  update t id fun e => { e with pointedTo }

def delFileEntry (t : FilesTable) (id : Int) : FilesTable := t.erase id

def nextRowId (t : FilesTable) : Int :=
  match t.entries.getLast? with
  | some e => e.1 + 1
  | none => 1

def addFileEntryExternal (t : FilesTable) (e : FileEntry) : FilesTable × Int :=
  let id := t.nextRowId
  let t := t.insert id e
  let t := if e.prevEntry ≠ 0 then setNextEntry t id e.prevEntry else t
  let t := if e.nextEntry ≠ 0 then setPrevEntry t id e.nextEntry else t
  (t, id)

theorem find?_update (t : FilesTable) (id id' : Int) (f : FileEntry → FileEntry) :
    (update t id f).find? id' = if id = id' then (t.find? id').map f else t.find? id' := by
  unfold update
  cases hfind : t.find? id with
  | none =>
    by_cases hid : id = id'
    · rw [if_pos hid, ← hid, hfind]
      rfl
    · rw [if_neg hid]
  | some e =>
    simp only [OrderedMap.find?_insert]
    by_cases hid : id = id'
    · rw [if_pos hid, if_pos hid, ← hid, hfind]
      rfl
    · rw [if_neg hid, if_neg hid]

theorem find?_updateIf (c : Prop) [Decidable c] (t : FilesTable) (id id' : Int)
    (f : FileEntry → FileEntry) :
    (if c then update t id f else t).find? id' =
      if id = id' then (t.find? id').map fun e => if c then f e else e else t.find? id' := by
  by_cases hc : c
  · simp only [if_pos hc, find?_update]
  · simp only [if_neg hc, Option.map_id', ite_self]

theorem find?_setPointedTo (t : FilesTable) (pointedTo : Bool) (id id' : Int) :
    (setPointedTo t pointedTo id).find? id' =
      if id = id' then (t.find? id').map fun e => { e with pointedTo } else t.find? id' :=
  find?_update t id id' _

theorem key_updateIf (c : Prop) [Decidable c] (t : FilesTable) (id id' : Int)
    {f : FileEntry → FileEntry} (hf : ∀ e, (f e).key = e.key) :
    ((if c then update t id f else t).find? id').map FileEntry.key =
      (t.find? id').map FileEntry.key := by
  rw [find?_updateIf]
  by_cases hid : id = id'
  · rw [if_pos hid, Option.map_map]
    congr 1
    funext e
    by_cases hc : c
    · simp only [Function.comp_apply, if_pos hc, hf]
    · simp only [Function.comp_apply, if_neg hc]
  · rw [if_neg hid]

section Keys

variable (c : Prop) [Decidable c] (t : FilesTable) (id id' : Int)

theorem key_setNextEntryIf (nextEntry : Int) :
    ((if c then setNextEntry t nextEntry id else t).find? id').map FileEntry.key =
      (t.find? id').map FileEntry.key := key_updateIf c t id id' fun _ => rfl

theorem key_setPrevEntryIf (prevEntry : Int) :
    ((if c then setPrevEntry t prevEntry id else t).find? id').map FileEntry.key =
      (t.find? id').map FileEntry.key := key_updateIf c t id id' fun _ => rfl

theorem key_setPointedToIf (pointedTo : Bool) :
    ((if c then setPointedTo t pointedTo id else t).find? id').map FileEntry.key =
      (t.find? id').map FileEntry.key := key_updateIf c t id id' fun _ => rfl

end Keys

/-- The links of the chains go both ways, between entries of one key. -/
structure WellLinked (t : FilesTable) : Prop where
  noZero : t.find? 0 = none
  next : ∀ a ea, t.find? a = some ea → ea.nextEntry ≠ 0 →
    ∃ eb, t.find? ea.nextEntry = some eb ∧ eb.key = ea.key ∧ eb.prevEntry = a
  prev : ∀ b eb, t.find? b = some eb → eb.prevEntry ≠ 0 →
    ∃ ea, t.find? eb.prevEntry = some ea ∧ ea.key = eb.key ∧ ea.nextEntry = b

/-- Following a stored link is a lookup, so the links of a table can be checked. -/
theorem wellLinked_iff {t : FilesTable} : WellLinked t ↔
    t.find? 0 = none ∧
    (∀ a ∈ t.entries, a.2.nextEntry ≠ 0 → (t.find? a.2.nextEntry).any
      (fun eb => eb.key = a.2.key ∧ eb.prevEntry = a.1) = true) ∧
    ∀ b ∈ t.entries, b.2.prevEntry ≠ 0 → (t.find? b.2.prevEntry).any
      (fun ea => ea.key = b.2.key ∧ ea.nextEntry = b.1) = true := by
  have hany : ∀ (o : Option FileEntry) (p : FileEntry → Prop) [DecidablePred p],
      o.any (fun e => p e) = true ↔ ∃ e, o = some e ∧ p e := by
    intro o p _
    cases o with
    | none => simp
    | some e => simp
  simp only [hany]
  constructor
  · intro h
    exact ⟨h.noZero, fun a ha => h.next a.1 a.2 (OrderedMap.find?_eq_some_iff.mpr ha),
      fun b hb => h.prev b.1 b.2 (OrderedMap.find?_eq_some_iff.mpr hb)⟩
  · rintro ⟨hzero, hnext, hprev⟩
    exact ⟨hzero, fun a ea ha => hnext (a, ea) (OrderedMap.find?_eq_some_iff.mp ha),
      fun b eb hb => hprev (b, eb) (OrderedMap.find?_eq_some_iff.mp hb)⟩

instance (t : FilesTable) : Decidable (WellLinked t) := decidable_of_iff _ wellLinked_iff.symm

end FilesTable

end UrBackup
