import UrBackup.FileIndex.Lookup
import UrBackup.Files.FilesDao
import Mathlib.Data.List.Chain
import Mathlib.Data.List.Nodup

/-! Rebuilding the index from the `files` table. The rows are read from the old
database, newest first inside a key, and the links are repaired in a copy of it. -/
namespace UrBackup

/-- What `create` keeps of the row before. -/
structure LastRow where
  key : SIndexKey
  prevEntry : Int
  id : Int

def LastRow.ofRow (row : Int × FileEntry) : LastRow := ⟨row.2.key, row.2.prevEntry, row.1⟩

structure CreateState where
  files : FilesTable
  index : Table
  last : LastRow

namespace CreateState

/-- `put` with `MDB_APPEND` fails unless the key is behind all keys of the table. -/
def append (t : Table) (key : SIndexKey) (value : Int) : Option Table :=
  match t.entries.getLast? with
  | some e => if e.1 < key then some (t.insert key value) else none
  | none => some (t.insert key value)

def relink (files : FilesTable) (last : LastRow) (row : Int × FileEntry) : FilesTable :=
  let id := row.1
  let files := if last.prevEntry = 0 then FilesTable.setPrevEntry files id last.id else files
  let files :=
    if row.2.nextEntry = 0 ∧ (last.prevEntry = 0 ∨ last.prevEntry = id) then
      FilesTable.setNextEntry files last.id id
    else files
  if row.2.pointedTo = true then FilesTable.setPointedTo files false id else files

def pointTo (files : FilesTable) (row : Int × FileEntry) : FilesTable :=
  if row.2.pointedTo = false then FilesTable.setPointedTo files true row.1 else files

def createRow (s : CreateState) (row : Int × FileEntry) : Option CreateState :=
  if row.2.key = s.last.key then some ⟨relink s.files s.last row, s.index, .ofRow row⟩
  else (append s.index row.2.key row.1).map fun index =>
    ⟨pointTo s.files row, index, .ofRow row⟩

/-- `none` is the return after an error of the index. -/
def createLoop : CreateState → List (Int × FileEntry) → Option CreateState
  | s, [] => some s
  | s, row :: rows => (s.createRow row).bind fun s' => createLoop s' rows

/-- `last_prev_entry` and `last_id` start without a value. -/
def create (files : FilesTable) (rows : List (Int × FileEntry)) (lastPrevEntry lastId : Int) :
    Option CreateState :=
  createLoop ⟨files, .empty, ⟨.zero, lastPrevEntry, lastId⟩⟩ rows

/-- `ORDER BY shahash ASC, filesize ASC, clientid ASC, created DESC` -/
def RowOrder (a b : Int × FileEntry) : Prop :=
  a.2.key < b.2.key ∨ a.2.key = b.2.key ∧ b.2.created ≤ a.2.created

def firstOfKey (last : LastRow) (row : Int × FileEntry) : Bool := row.2.key ≠ last.key

theorem firstOfKey_eq_true {last : LastRow} {row : Int × FileEntry} :
    firstOfKey last row = true ↔ row.2.key ≠ last.key := decide_eq_true_iff

/-- The link to the newer entry, as the row and the one before it were read. -/
def newNext (last : LastRow) (row : Int × FileEntry) : Int :=
  if row.2.key = last.key ∧ row.2.nextEntry = 0 ∧ (last.prevEntry = 0 ∨ last.prevEntry = row.1) then
    last.id
  else row.2.nextEntry

/-- The link to the older entry, as the row and the one after it were read. -/
def newPrev (last : LastRow) (rows : List (Int × FileEntry)) (prevEntry : Int) : Int :=
  match rows with
  | row :: _ => if row.2.key = last.key ∧ last.prevEntry = 0 then row.1 else prevEntry
  | [] => prevEntry

theorem find?_relink (files : FilesTable) (last : LastRow) (row : Int × FileEntry) (id : Int)
    (hrow : files.find? row.1 = some row.2) (hne : last.id ≠ row.1) (hkey : row.2.key = last.key) :
    (relink files last row).find? id =
      if id = row.1 then some { row.2 with nextEntry := newNext last row, pointedTo := false }
      else if id = last.id then
        (files.find? id).map fun e => { e with prevEntry := newPrev last [row] e.prevEntry }
      else files.find? id := by
  unfold relink FilesTable.setPrevEntry FilesTable.setNextEntry FilesTable.setPointedTo
  simp only [FilesTable.find?_updateIf, newNext, newPrev, hkey, true_and]
  by_cases hid : id = row.1
  · subst hid
    simp only [if_neg hne, if_pos, hrow, Option.map_some]
    by_cases hnext : row.2.nextEntry = 0 ∧ (last.prevEntry = 0 ∨ last.prevEntry = row.1)
    · simp only [if_pos hnext]
      cases row.2.pointedTo <;> simp
    · simp only [if_neg hnext]
      cases hpt : row.2.pointedTo <;> simp [← hpt]
  · simp only [if_neg (Ne.symm hid), if_neg hid]
    by_cases hl : id = last.id
    · subst hl
      simp only [if_pos]
      congr 1
      funext e
      split <;> rfl
    · simp only [if_neg (Ne.symm hl), if_neg hl]

theorem find?_pointTo (files : FilesTable) (row : Int × FileEntry) (id : Int)
    (hrow : files.find? row.1 = some row.2) :
    (pointTo files row).find? id =
      if id = row.1 then some { row.2 with pointedTo := true } else files.find? id := by
  unfold pointTo FilesTable.setPointedTo
  rw [FilesTable.find?_updateIf]
  by_cases hid : id = row.1
  · subst hid
    simp only [if_pos, hrow, Option.map_some]
    cases hpt : row.2.pointedTo <;> simp [← hpt]
  · rw [if_neg (Ne.symm hid), if_neg hid]

theorem createRow_files {s s' : CreateState} {row : Int × FileEntry}
    (h : s.createRow row = some s') (hrow : s.files.find? row.1 = some row.2)
    (hlast : row.2.key = s.last.key → s.last.id ≠ row.1) (id : Int) :
    s'.files.find? id =
      if id = row.1 then
        some { row.2 with
          nextEntry := newNext s.last row
          pointedTo := firstOfKey s.last row }
      else if id = s.last.id then
        (s.files.find? id).map fun e => { e with prevEntry := newPrev s.last [row] e.prevEntry }
      else s.files.find? id := by
  unfold createRow at h
  by_cases hkey : row.2.key = s.last.key
  · rw [if_pos hkey, Option.some.injEq] at h
    rw [← h, find?_relink _ _ _ _ hrow (hlast hkey) hkey]
    simp only [firstOfKey, hkey, ne_eq, not_true_eq_false, decide_false]
  · rw [if_neg hkey] at h
    obtain ⟨index, -, hs⟩ := Option.map_eq_some_iff.mp h
    rw [← hs, find?_pointTo _ _ _ hrow]
    simp only [firstOfKey, newNext, newPrev, hkey, false_and, if_false, ne_eq, not_false_eq_true,
      decide_true, Option.map_id', ite_self]

theorem createRow_last {s s' : CreateState} {row : Int × FileEntry}
    (h : s.createRow row = some s') : s'.last = .ofRow row := by
  unfold createRow at h
  by_cases hkey : row.2.key = s.last.key
  · rw [if_pos hkey, Option.some.injEq] at h
    rw [← h]
  · rw [if_neg hkey] at h
    obtain ⟨index, -, hs⟩ := Option.map_eq_some_iff.mp h
    rw [← hs]

/-- The row in front of position `i`. -/
def lastAt (last : LastRow) (rows : List (Int × FileEntry)) : Nat → LastRow
  | 0 => last
  | i + 1 => (rows[i]?.map LastRow.ofRow).getD last

theorem lastAt_cons (last : LastRow) (row : Int × FileEntry) (rows : List (Int × FileEntry))
    (i : Nat) (hi : i ≤ rows.length) :
    lastAt last (row :: rows) (i + 1) = lastAt (.ofRow row) rows i := by
  cases i with
  | zero => rfl
  | succ i =>
    have hget : rows[i]? = some rows[i] := List.getElem?_eq_getElem (by omega)
    simp only [lastAt, List.getElem?_cons_succ, hget, Option.map_some, Option.getD_some]

/-- The entry of position `i` when all rows are done. -/
def relinked (last : LastRow) (rows : List (Int × FileEntry)) (i : Nat)
    (row : Int × FileEntry) : FileEntry :=
  { row.2 with
    nextEntry := newNext (lastAt last rows i) row
    prevEntry := newPrev (.ofRow row) (rows.drop (i + 1)) row.2.prevEntry
    pointedTo := firstOfKey (lastAt last rows i) row }

@[simp] theorem relinked_key (last : LastRow) (rows : List (Int × FileEntry)) (i : Nat)
    (row : Int × FileEntry) : (relinked last rows i row).key = row.2.key := rfl

theorem relinked_pointedTo (last : LastRow) (rows : List (Int × FileEntry)) (i : Nat)
    (row : Int × FileEntry) :
    (relinked last rows i row).pointedTo = firstOfKey (lastAt last rows i) row := by
  simp only [relinked]

theorem createLoop_files {s s' : CreateState} {rows : List (Int × FileEntry)}
    (h : s.createLoop rows = some s') (hnodup : (rows.map Prod.fst).Nodup)
    (hrows : ∀ row ∈ rows, s.files.find? row.1 = some row.2)
    (hlast : ∀ row ∈ rows, rows.head?.any (fun r => r.2.key = s.last.key) = true →
      s.last.id ≠ row.1) :
    (∀ (i : Nat) (row : Int × FileEntry), rows[i]? = some row →
      s'.files.find? row.1 = some (relinked s.last rows i row)) ∧
    ∀ id, (∀ row ∈ rows, row.1 ≠ id) → s'.files.find? id =
      if id = s.last.id then
        (s.files.find? id).map fun e => { e with prevEntry := newPrev s.last rows e.prevEntry }
      else s.files.find? id := by
  induction rows generalizing s with
  | nil =>
    cases h
    refine ⟨?_, ?_⟩
    · intro i row hi
      cases hi
    · intro id _
      simp only [newPrev, Option.map_id', ite_self]
  | cons row rows ih =>
    obtain ⟨s₁, hstep, hrest⟩ := Option.bind_eq_some_iff.mp h
    have hlast₁ := createRow_last hstep
    have hkeyne : row.2.key = s.last.key → s.last.id ≠ row.1 := by
      intro hkey
      exact hlast row List.mem_cons_self (by simpa using hkey)
    have hfiles := createRow_files hstep (hrows row List.mem_cons_self) hkeyne
    obtain ⟨hhead, htail⟩ := List.nodup_cons.mp hnodup
    have hrow : ∀ r ∈ rows, r.1 ≠ row.1 := by
      intro r hr heq
      exact hhead (List.mem_map.mpr ⟨r, hr, heq⟩)
    have hrows₁ : ∀ r ∈ rows, s₁.files.find? r.1 = some r.2 := by
      intro r hr
      have hfind := hrows r (List.mem_cons_of_mem _ hr)
      rw [hfiles, if_neg (hrow r hr)]
      by_cases hid : r.1 = s.last.id
      · have hkey : ¬ row.2.key = s.last.key := by
          intro hkey
          exact hlast r (List.mem_cons_of_mem _ hr) (by simpa using hkey) hid.symm
        rw [if_pos hid, hfind]
        simp only [newPrev, hkey, false_and, if_false, Option.map_some]
      · rw [if_neg hid, hfind]
    have hlastid : s₁.last.id = row.1 := by rw [hlast₁]; rfl
    obtain ⟨hrest₁, hrest₂⟩ := ih hrest htail hrows₁ fun r hr _ => by
      rw [hlastid]
      exact (hrow r hr).symm
    refine ⟨?_, ?_⟩
    · intro i r hi
      cases i with
      | zero =>
        rw [List.getElem?_cons_zero, Option.some.injEq] at hi
        rw [← hi, hrest₂ row.1 hrow, if_pos hlastid.symm, hfiles, if_pos rfl, hlast₁,
          Option.map_some]
        simp only [relinked, lastAt, Nat.zero_add, List.drop_succ_cons, List.drop_zero]
      | succ i =>
        rw [List.getElem?_cons_succ] at hi
        have hlt := (List.getElem?_eq_some_iff.mp hi).1
        rw [hrest₁ i r hi, hlast₁]
        simp only [relinked, lastAt_cons s.last row rows i hlt.le, List.drop_succ_cons]
    · intro id hid
      have hne : row.1 ≠ id := hid row List.mem_cons_self
      rw [hrest₂ id fun r hr => hid r (List.mem_cons_of_mem _ hr), hlastid, if_neg hne.symm,
        hfiles, if_neg hne.symm]
      rfl

theorem append_eq {t : Table} {key : SIndexKey} (value : Int)
    (h : ∀ e ∈ t.entries, e.1 < key) : append t key value = some (t.insert key value) := by
  unfold append
  cases hlast : t.entries.getLast? with
  | none => rfl
  | some e => exact if_pos (h e (List.mem_of_getLast? hlast))

theorem createLoop_index {s : CreateState} {rows : List (Int × FileEntry)}
    (hsorted : rows.Pairwise fun a b => a.2.key ≤ b.2.key)
    (hlast : ∀ row ∈ rows, s.last.key ≤ row.2.key)
    (hindex : ∀ e ∈ s.index.entries, e.1 ≤ s.last.key) :
    ∃ s', s.createLoop rows = some s' ∧ ∀ key, s'.index.find? key =
      if key = s.last.key then s.index.find? key
      else ((rows.find? fun row => row.2.key = key).map Prod.fst).or (s.index.find? key) := by
  induction rows generalizing s with
  | nil =>
    refine ⟨s, rfl, ?_⟩
    intro key
    simp only [List.find?_nil, Option.map_none, Option.none_or, ite_self]
  | cons row rows ih =>
    obtain ⟨hhead, htail⟩ := List.pairwise_cons.mp hsorted
    have hle := hlast row List.mem_cons_self
    by_cases hkey : row.2.key = s.last.key
    · have hstep : s.createRow row =
          some ⟨relink s.files s.last row, s.index, .ofRow row⟩ := by rw [createRow, if_pos hkey]
      obtain ⟨s', hloop, hfind⟩ := @ih ⟨relink s.files s.last row, s.index, .ofRow row⟩
        htail hhead fun e he => (hindex e he).trans hle
      refine ⟨s', Option.bind_eq_some_iff.mpr ⟨_, hstep, hloop⟩, ?_⟩
      intro key
      rw [hfind]
      simp only [LastRow.ofRow, hkey]
      by_cases hk : key = s.last.key
      · rw [if_pos hk, if_pos hk]
      · rw [if_neg hk, if_neg hk, List.find?_cons_of_neg]
        simpa [hkey] using Ne.symm hk
    · have hlt : s.last.key < row.2.key := lt_of_le_of_ne hle (Ne.symm hkey)
      have hput : append s.index row.2.key row.1 = some (s.index.insert row.2.key row.1) :=
        append_eq _ fun e he => (hindex e he).trans_lt hlt
      have hstep : s.createRow row =
          some ⟨pointTo s.files row, s.index.insert row.2.key row.1, .ofRow row⟩ := by
        rw [createRow, if_neg hkey, hput]
        rfl
      have hindex' : ∀ e ∈ (s.index.insert row.2.key row.1).entries, e.1 ≤ row.2.key := by
        intro e he
        rcases OrderedMap.mem_insertEntry he with rfl | he
        · exact le_rfl
        · exact (hindex e he).trans hle
      obtain ⟨s', hloop, hfind⟩ :=
        @ih ⟨pointTo s.files row, s.index.insert row.2.key row.1, .ofRow row⟩ htail hhead hindex'
      refine ⟨s', Option.bind_eq_some_iff.mpr ⟨_, hstep, hloop⟩, ?_⟩
      intro key
      rw [hfind]
      simp only [LastRow.ofRow, OrderedMap.find?_insert]
      by_cases hk : key = row.2.key
      · rw [if_pos hk, if_pos hk.symm, if_neg (hk ▸ hkey), List.find?_cons_of_pos (by simp [hk])]
        rfl
      · rw [if_neg hk, if_neg (Ne.symm hk), List.find?_cons_of_neg (by simpa using Ne.symm hk)]
        by_cases hl : key = s.last.key
        · have hnone : rows.find? (fun row => row.2.key = key) = none := by
            rw [List.find?_eq_none]
            intro r hr hr'
            have hr'' : r.2.key = key := by simpa using hr'
            exact absurd (hl ▸ hr'' ▸ hhead r hr) (not_le.mpr hlt)
          rw [if_pos hl, hnone]
          rfl
        · rw [if_neg hl]

/-- The rows that keep the chain of a key in the order of the rows: whenever the older
link of a row is free, so is the newer link of the row after it. -/
def LinkEndsMeet (a b : Int × FileEntry) : Prop :=
  a.2.key = b.2.key → a.2.prevEntry = 0 → b.2.nextEntry = 0

structure IndexConsistent (files : FilesTable) (index : Table) : Prop where
  links : FilesTable.WellLinked files
  indexed : ∀ key, (∃ id e, files.find? id = some e ∧ e.key = key) →
    ∃ id, index.find? key = some id ∧
      ∀ id', (∃ e, files.find? id' = some e ∧ e.key = key ∧ e.pointedTo = true) ↔ id' = id
  absent : ∀ key, (∀ id e, files.find? id = some e → e.key ≠ key) → index.find? key = none

theorem lastAt_succ {last : LastRow} {rows : List (Int × FileEntry)} {i : Nat}
    {prev : Int × FileEntry} (h : rows[i]? = some prev) :
    lastAt last rows (i + 1) = .ofRow prev := by
  simp only [lastAt, h, Option.map_some, Option.getD_some]

theorem newPrev_drop {last : LastRow} {rows : List (Int × FileEntry)} {i : Nat}
    {row : Int × FileEntry} (h : rows[i]? = some row) (prevEntry : Int) :
    newPrev last (rows.drop i) prevEntry =
      if row.2.key = last.key ∧ last.prevEntry = 0 then row.1 else prevEntry := by
  obtain ⟨hlt, hget⟩ := List.getElem?_eq_some_iff.mp h
  rw [List.drop_eq_getElem_cons hlt, hget]
  rfl

section Rebuilt

variable {files : FilesTable} {rows : List (Int × FileEntry)} {last : LastRow}

theorem ids_nodup (hperm : rows.Perm files.entries) : (rows.map Prod.fst).Nodup := by
  rw [(hperm.map Prod.fst).nodup_iff, List.Nodup, List.pairwise_map]
  exact files.entries_keys_ne

theorem find?_row (hperm : rows.Perm files.entries) {i : Nat} {row : Int × FileEntry}
    (h : rows[i]? = some row) : files.find? row.1 = some row.2 :=
  OrderedMap.find?_eq_some_iff.mpr (hperm.mem_iff.mp (List.mem_of_getElem? h))

theorem row_of_find? (hperm : rows.Perm files.entries) {id : Int} {e : FileEntry}
    (h : files.find? id = some e) : ∃ i : Nat, rows[i]? = some (id, e) :=
  List.mem_iff_getElem?.mp (hperm.mem_iff.mpr (OrderedMap.find?_eq_some_iff.mp h))

theorem index_unique (hperm : rows.Perm files.entries) {i j : Nat} {a b : Int × FileEntry}
    (ha : rows[i]? = some a) (hb : rows[j]? = some b) (hid : a.1 = b.1) : i = j := by
  have hnodup := ids_nodup hperm
  have hi : (rows.map Prod.fst)[i]? = some a.1 := by rw [List.getElem?_map, ha]; rfl
  have hj : (rows.map Prod.fst)[j]? = some a.1 := by rw [List.getElem?_map, hb, hid]; rfl
  obtain ⟨hlt, -⟩ := List.getElem?_eq_some_iff.mp hi
  exact (List.getElem?_inj hlt hnodup).mp (hi.trans hj.symm)

/-- The row after the loop, by its position. -/
structure Rebuilt (files : FilesTable) (rows : List (Int × FileEntry)) (last : LastRow)
    (out : FilesTable) : Prop where
  perm : rows.Perm files.entries
  linked : FilesTable.WellLinked files
  fresh : ∀ row ∈ rows, row.2.key ≠ last.key
  find?_out : ∀ id e, out.find? id = some e ↔
    ∃ (i : Nat) (row : Int × FileEntry), rows[i]? = some row ∧ row.1 = id ∧
      e = relinked last rows i row

variable {out : FilesTable}

theorem Rebuilt.id_ne_zero (h : Rebuilt files rows last out) {i : Nat} {row : Int × FileEntry}
    (hi : rows[i]? = some row) : row.1 ≠ 0 := by
  intro hzero
  have hfind := find?_row h.perm hi
  rw [hzero, h.linked.noZero] at hfind
  cases hfind

theorem Rebuilt.next_cases (h : Rebuilt files rows last out) {i : Nat} {row : Int × FileEntry}
    (hi : rows[i]? = some row) :
    (relinked last rows i row).nextEntry = row.2.nextEntry ∨
      ∃ j prev, i = j + 1 ∧ rows[j]? = some prev ∧ row.2.key = prev.2.key ∧
        row.2.nextEntry = 0 ∧ prev.2.prevEntry = 0 ∧
        (relinked last rows i row).nextEntry = prev.1 := by
  cases i with
  | zero =>
    left
    have hfresh := h.fresh row (List.mem_of_getElem? hi)
    simp only [relinked, lastAt, newNext, hfresh, false_and, if_false]
  | succ j =>
    obtain ⟨hlt, -⟩ := List.getElem?_eq_some_iff.mp hi
    have hprev : rows[j]? = some rows[j] := List.getElem?_eq_getElem (by omega)
    simp only [relinked, lastAt_succ hprev, newNext, LastRow.ofRow]
    by_cases hcond : row.2.key = rows[j].2.key ∧ row.2.nextEntry = 0 ∧
        (rows[j].2.prevEntry = 0 ∨ rows[j].2.prevEntry = row.1)
    · right
      obtain ⟨hkey, hnext, hends⟩ := hcond
      refine ⟨j, rows[j], rfl, hprev, hkey, hnext, ?_, if_pos ⟨hkey, hnext, hends⟩⟩
      rcases hends with hend | hend
      · exact hend
      · by_contra hne
        obtain ⟨e, he, -, hback⟩ := h.linked.prev _ _ (find?_row h.perm hprev) hne
        rw [hend, find?_row h.perm hi] at he
        cases he
        exact h.id_ne_zero hprev (hback.symm.trans hnext)
    · left
      exact if_neg hcond

theorem Rebuilt.prev_cases {i : Nat} {row : Int × FileEntry} :
    (relinked last rows i row).prevEntry = row.2.prevEntry ∨
      ∃ next, rows[i + 1]? = some next ∧ next.2.key = row.2.key ∧ row.2.prevEntry = 0 ∧
        (relinked last rows i row).prevEntry = next.1 := by
  simp only [relinked]
  cases hnext : rows[i + 1]? with
  | none =>
    left
    rw [List.drop_eq_nil_of_le (List.getElem?_eq_none_iff.mp hnext)]
    rfl
  | some next =>
    rw [newPrev_drop hnext]
    by_cases hcond : next.2.key = row.2.key ∧ row.2.prevEntry = 0
    · right
      exact ⟨next, rfl, hcond.1, hcond.2, if_pos hcond⟩
    · left
      exact if_neg hcond

theorem Rebuilt.next_kept (h : Rebuilt files rows last out) {i : Nat} {row : Int × FileEntry}
    (hi : rows[i]? = some row) (hne : row.2.nextEntry ≠ 0) :
    (relinked last rows i row).nextEntry = row.2.nextEntry := by
  rcases h.next_cases hi with hsame | ⟨_, _, _, _, _, hzero, _⟩
  · exact hsame
  · exact absurd hzero hne

theorem Rebuilt.prev_kept {i : Nat} {row : Int × FileEntry} (hne : row.2.prevEntry ≠ 0) :
    (relinked last rows i row).prevEntry = row.2.prevEntry := by
  rcases @Rebuilt.prev_cases rows last i row with hsame | ⟨_, _, _, hzero, _⟩
  · exact hsame
  · exact absurd hzero hne

theorem Rebuilt.find?_at (h : Rebuilt files rows last out) {i : Nat} {row : Int × FileEntry}
    (hi : rows[i]? = some row) : out.find? row.1 = some (relinked last rows i row) :=
  (h.find?_out _ _).mpr ⟨i, row, hi, rfl, rfl⟩

theorem Rebuilt.wellLinked (h : Rebuilt files rows last out)
    (hends : rows.IsChain LinkEndsMeet) : FilesTable.WellLinked out := by
  refine ⟨?_, ?_, ?_⟩
  · rw [Option.eq_none_iff_forall_ne_some]
    intro e he
    obtain ⟨i, row, hi, hid, -⟩ := (h.find?_out _ _).mp he
    exact h.id_ne_zero hi hid
  · intro a ea ha hne
    obtain ⟨i, row, hi, rfl, rfl⟩ := (h.find?_out _ _).mp ha
    rcases h.next_cases hi with hold | ⟨j, prev, hij, hj, hkey, hfree, hfree', hnew⟩
    · rw [hold] at hne ⊢
      obtain ⟨eb, hb, hkey, hback⟩ := h.linked.next _ _ (find?_row h.perm hi) hne
      obtain ⟨j, hj⟩ := row_of_find? h.perm hb
      have hrow := h.id_ne_zero hi
      refine ⟨_, h.find?_at hj, by rw [relinked_key, relinked_key]; exact hkey, ?_⟩
      rw [Rebuilt.prev_kept (by rw [hback]; exact hrow)]
      exact hback
    · rw [hnew]
      subst hij
      refine ⟨_, h.find?_at hj, by rw [relinked_key, relinked_key]; exact hkey.symm, ?_⟩
      simp only [relinked]
      rw [newPrev_drop hi]
      exact if_pos ⟨hkey, hfree'⟩
  · intro b eb hb hne
    obtain ⟨i, row, hi, rfl, rfl⟩ := (h.find?_out _ _).mp hb
    rcases @Rebuilt.prev_cases rows last i row with hold | ⟨next, hi', hkey, hfree, hnew⟩
    · rw [hold] at hne ⊢
      obtain ⟨ea, ha, hkey, hback⟩ := h.linked.prev _ _ (find?_row h.perm hi) hne
      obtain ⟨j, hj⟩ := row_of_find? h.perm ha
      have hrow := h.id_ne_zero hi
      refine ⟨_, h.find?_at hj, by rw [relinked_key, relinked_key]; exact hkey, ?_⟩
      rw [h.next_kept hj (by rw [hback]; exact hrow)]
      exact hback
    · rw [hnew]
      refine ⟨_, h.find?_at hi', by rw [relinked_key, relinked_key]; exact hkey, ?_⟩
      obtain ⟨hlt, hget⟩ := List.getElem?_eq_some_iff.mp hi
      obtain ⟨hlt', hget'⟩ := List.getElem?_eq_some_iff.mp hi'
      have hmeet := List.isChain_iff_getElem.mp hends i hlt'
      rw [hget, hget'] at hmeet
      simp only [relinked, lastAt_succ hi, newNext, LastRow.ofRow]
      exact if_pos ⟨hkey, hmeet hkey.symm hfree, .inl hfree⟩

theorem Rebuilt.linkEndsMeet (h : Rebuilt files rows last out)
    (hout : FilesTable.WellLinked out) : rows.IsChain LinkEndsMeet := by
  rw [List.isChain_iff_getElem]
  intro i hlt hkey hfree
  have hi : rows[i]? = some rows[i] := List.getElem?_eq_getElem (by omega)
  have hi' : rows[i + 1]? = some rows[i + 1] := List.getElem?_eq_getElem hlt
  by_contra hne
  have hlink : (relinked last rows i rows[i]).prevEntry = rows[i + 1].1 := by
    simp only [relinked]
    rw [newPrev_drop hi']
    exact if_pos ⟨hkey.symm, hfree⟩
  have hid := h.id_ne_zero hi'
  obtain ⟨e, he, -, hback⟩ := hout.prev _ _ (h.find?_at hi) (by rw [hlink]; exact hid)
  rw [hlink, h.find?_at hi', Option.some.injEq] at he
  rw [← he, h.next_kept hi' hne] at hback
  obtain ⟨e', he', -, hback'⟩ := h.linked.next _ _ (find?_row h.perm hi') hne
  rw [hback, find?_row h.perm hi, Option.some.injEq] at he'
  rw [← he', hfree] at hback'
  exact hid hback'.symm

theorem firstOfKey_iff (hperm : rows.Perm files.entries)
    (hsorted : rows.Pairwise fun a b => a.2.key ≤ b.2.key)
    (hfresh : ∀ row ∈ rows, row.2.key ≠ last.key) {i : Nat} {row : Int × FileEntry}
    (hi : rows[i]? = some row) : firstOfKey (lastAt last rows i) row = true ↔
      rows.find? (fun r => r.2.key = row.2.key) = some row := by
  obtain ⟨hlt, hget⟩ := List.getElem?_eq_some_iff.mp hi
  rw [List.find?_eq_some_iff_getElem]
  constructor
  · intro hfirst
    refine ⟨decide_eq_true rfl, i, hlt, hget, ?_⟩
    intro j hj
    cases i with
    | zero => omega
    | succ i =>
      have hprev : rows[i]? = some rows[i] := List.getElem?_eq_getElem (by omega)
      rw [lastAt_succ hprev] at hfirst
      have hne : row.2.key ≠ rows[i].2.key := firstOfKey_eq_true.mp hfirst
      have hle : rows[i].2.key ≤ row.2.key := by
        rw [← hget]
        exact List.pairwise_iff_getElem.mp hsorted i (i + 1) (by omega) hlt (by omega)
      have hj' : rows[j].2.key ≤ rows[i].2.key := by
        rcases Nat.lt_or_ge j i with hji | hji
        · exact List.pairwise_iff_getElem.mp hsorted j i (by omega) (by omega) hji
        · have heq : j = i := by omega
          subst heq
          exact le_rfl
      have hfar := (hj'.trans_lt (lt_of_le_of_ne hle hne.symm)).ne
      rw [decide_eq_false hfar]
      rfl
  · rintro ⟨-, i', hlt', hget', hbefore⟩
    have hi' : rows[i']? = some row := List.getElem?_eq_some_iff.mpr ⟨hlt', hget'⟩
    have hii := index_unique hperm hi hi' rfl
    subst hii
    cases i with
    | zero => exact firstOfKey_eq_true.mpr (hfresh row (List.mem_of_getElem? hi))
    | succ i =>
      have hprev : rows[i]? = some rows[i] := List.getElem?_eq_getElem (by omega)
      rw [lastAt_succ hprev]
      have hne := hbefore i (by omega)
      refine firstOfKey_eq_true.mpr fun heq => ?_
      have hsame : rows[i].2.key = row.2.key := heq.symm
      rw [decide_eq_true hsame] at hne
      cases hne

theorem Rebuilt.indexed (h : Rebuilt files rows last out) {index : Table}
    (hsorted : rows.Pairwise fun a b => a.2.key ≤ b.2.key)
    (hindex : ∀ key, index.find? key = (rows.find? fun r => r.2.key = key).map Prod.fst) (key : SIndexKey)
    (hkey : ∃ id e, out.find? id = some e ∧ e.key = key) :
    ∃ id, index.find? key = some id ∧
      ∀ id', (∃ e, out.find? id' = some e ∧ e.key = key ∧ e.pointedTo = true) ↔ id' = id := by
  obtain ⟨id, e, he, hekey⟩ := hkey
  obtain ⟨i, row, hi, -, hrow⟩ := (h.find?_out _ _).mp he
  rw [hrow, relinked_key] at hekey
  have hsome : (rows.find? fun r => r.2.key = key).isSome = true := by
    rw [List.find?_isSome]
    exact ⟨row, List.mem_of_getElem? hi, decide_eq_true hekey⟩
  obtain ⟨first, hfirst⟩ := Option.isSome_iff_exists.mp hsome
  have hfkey : first.2.key = key := by
    have htest := List.find?_some hfirst
    exact of_decide_eq_true htest
  refine ⟨first.1, by rw [hindex, hfirst]; rfl, ?_⟩
  intro id'
  constructor
  · rintro ⟨e', he', hkey', hpoint⟩
    obtain ⟨j, row', hj, hid', hrow'⟩ := (h.find?_out _ _).mp he'
    rw [hrow', relinked_key] at hkey'
    rw [hrow', relinked_pointedTo] at hpoint
    have hfound := (firstOfKey_iff h.perm hsorted h.fresh hj).mp hpoint
    rw [hkey', hfirst, Option.some.injEq] at hfound
    rw [← hid', hfound]
  · intro hid'
    obtain ⟨j, hj⟩ := List.mem_iff_getElem?.mp (List.mem_of_find?_eq_some hfirst)
    refine ⟨_, by rw [hid']; exact h.find?_at hj, by rw [relinked_key]; exact hfkey, ?_⟩
    rw [relinked_pointedTo, firstOfKey_iff h.perm hsorted h.fresh hj]
    rw [hfkey]
    exact hfirst

end Rebuilt

theorem createRow_key {s s' : CreateState} {row : Int × FileEntry}
    (h : s.createRow row = some s') (id : Int) :
    (s'.files.find? id).map FileEntry.key = (s.files.find? id).map FileEntry.key := by
  unfold createRow at h
  by_cases hkey : row.2.key = s.last.key
  · rw [if_pos hkey, Option.some.injEq] at h
    rw [← h]
    simp only [relink]
    rw [FilesTable.key_setPointedToIf, FilesTable.key_setNextEntryIf, FilesTable.key_setPrevEntryIf]
  · rw [if_neg hkey] at h
    obtain ⟨index, -, hs⟩ := Option.map_eq_some_iff.mp h
    rw [← hs]
    exact FilesTable.key_setPointedToIf _ _ _ _ _

theorem createLoop_key {s s' : CreateState} {rows : List (Int × FileEntry)}
    (h : s.createLoop rows = some s') (id : Int) :
    (s'.files.find? id).map FileEntry.key = (s.files.find? id).map FileEntry.key := by
  induction rows generalizing s with
  | nil => cases h; rfl
  | cons row rows ih =>
    obtain ⟨s₁, hstep, hrest⟩ := Option.bind_eq_some_iff.mp h
    rw [ih hrest, createRow_key hstep]

theorem create_rebuilt {files : FilesTable} {rows : List (Int × FileEntry)}
    {lastPrevEntry lastId : Int} {out : CreateState}
    (h : create files rows lastPrevEntry lastId = some out)
    (hlinked : FilesTable.WellLinked files) (hperm : rows.Perm files.entries)
    (hfresh : ∀ row ∈ rows, row.2.key ≠ .zero) :
    Rebuilt files rows ⟨.zero, lastPrevEntry, lastId⟩ out.files := by
  have hrows : ∀ row ∈ rows, files.find? row.1 = some row.2 := by
    intro row hrow
    exact OrderedMap.find?_eq_some_iff.mpr (hperm.mem_iff.mp hrow)
  have hlast : ∀ row ∈ rows, rows.head?.any (fun r => r.2.key = .zero) = true →
      lastId ≠ row.1 := by
    intro row _ hany
    cases rows with
    | nil => cases hany
    | cons head rest =>
      rw [List.head?_cons, Option.any_some] at hany
      exact absurd (of_decide_eq_true hany) (hfresh head List.mem_cons_self)
  obtain ⟨hat, hother⟩ := createLoop_files h (ids_nodup hperm) hrows hlast
  refine ⟨hperm, hlinked, hfresh, ?_⟩
  intro id e
  constructor
  · intro hfind
    by_cases hid : ∃ row ∈ rows, row.1 = id
    · obtain ⟨row, hrow, hid⟩ := hid
      obtain ⟨i, hi⟩ := List.mem_iff_getElem?.mp hrow
      have hnew := hat i row hi
      rw [hid, hfind, Option.some.injEq] at hnew
      exact ⟨i, row, hi, hid, hnew⟩
    · have hkey := createLoop_key h id
      have hnone : files.find? id = none := by
        rw [Option.eq_none_iff_forall_ne_some]
        intro e' he'
        obtain ⟨i, hi⟩ := row_of_find? hperm he'
        exact hid ⟨_, List.mem_of_getElem? hi, rfl⟩
      rw [hfind, show (CreateState.mk files .empty ⟨.zero, lastPrevEntry, lastId⟩).files = files from rfl,
        hnone] at hkey
      cases hkey
  · rintro ⟨i, row, hi, hid, he⟩
    rw [← hid, hat i row hi, he]

/-- Rebuilding is consistent exactly when no row has the default key and the link ends of
neighbouring rows meet. -/
theorem create_consistent_iff {files : FilesTable} {rows : List (Int × FileEntry)}
    (hlinked : FilesTable.WellLinked files) (hperm : rows.Perm files.entries)
    (hsorted : rows.Pairwise RowOrder) (lastPrevEntry lastId : Int) :
    (∃ out, create files rows lastPrevEntry lastId = some out ∧
      IndexConsistent out.files out.index) ↔
      (∀ row ∈ rows, row.2.key ≠ .zero) ∧ rows.IsChain LinkEndsMeet := by
  have hkeys : rows.Pairwise fun a b => a.2.key ≤ b.2.key := by
    refine hsorted.imp fun {a b} hab => ?_
    rcases hab with hlt | ⟨heq, -⟩
    · exact hlt.le
    · exact heq.le
  obtain ⟨out, hout, hindex⟩ := @createLoop_index
    ⟨files, .empty, ⟨.zero, lastPrevEntry, lastId⟩⟩ rows hkeys
    (fun row _ => SIndexKey.zero_le row.2.key) (fun e he => absurd he List.not_mem_nil)
  constructor
  · rintro ⟨out', hout', hcons⟩
    have heq : out' = out := Option.some.inj (hout'.symm.trans hout)
    rw [heq] at hcons
    have hfresh : ∀ row ∈ rows, row.2.key ≠ .zero := by
      intro row hrow hzero
      have hkey := createLoop_key hout row.1
      rw [show (CreateState.mk files .empty ⟨.zero, lastPrevEntry, lastId⟩).files = files from rfl,
        OrderedMap.find?_eq_some_iff.mpr (hperm.mem_iff.mp hrow), Option.map_some, hzero,
        Option.map_eq_some_iff] at hkey
      obtain ⟨e, he, hekey⟩ := hkey
      obtain ⟨id, hid, -⟩ := hcons.indexed .zero ⟨row.1, e, he, hekey⟩
      rw [hindex, if_pos rfl] at hid
      cases hid
    exact ⟨hfresh, (create_rebuilt hout hlinked hperm hfresh).linkEndsMeet hcons.links⟩
  · rintro ⟨hfresh, hends⟩
    have hrebuilt := create_rebuilt hout hlinked hperm hfresh
    have hindex' : ∀ key, out.index.find? key =
        (rows.find? fun row => row.2.key = key).map Prod.fst := by
      intro key
      rw [hindex]
      by_cases hzero : key = .zero
      · have hnone : rows.find? (fun row => row.2.key = key) = none := by
          rw [List.find?_eq_none]
          intro row hrow htest
          have hkey : decide (row.2.key = key) = true := htest
          exact hfresh row hrow ((of_decide_eq_true hkey).trans hzero)
        rw [hnone, if_pos hzero]
        rfl
      · rw [if_neg hzero]
        exact Option.or_none
    refine ⟨out, hout, hrebuilt.wellLinked hends, hrebuilt.indexed hkeys hindex', ?_⟩
    intro key habsent
    rw [hindex', Option.map_eq_none_iff, List.find?_eq_none]
    intro row hrow htest
    obtain ⟨i, hi⟩ := List.mem_iff_getElem?.mp hrow
    have hkey : decide (row.2.key = key) = true := htest
    refine habsent row.1 _ (hrebuilt.find?_at hi) ?_
    rw [relinked_key]
    exact of_decide_eq_true hkey

/-- An entry of one fixed file, for tables that differ in their links only. -/
def entryOf (prevEntry nextEntry created : Int) (pointedTo : Bool) : FileEntry :=
  ⟨1, "", "", [1], 4096, 4096, 1, 0, nextEntry, prevEntry, pointedTo, created⟩

def tableOf (rows : List (Int × FileEntry)) : FilesTable := OrderedMap.empty.insertAll rows

theorem create_consistent_two_chains :
    ∃ out, create (tableOf [(2, entryOf 0 0 9 true), (1, entryOf 0 0 8 true)])
        [(2, entryOf 0 0 9 true), (1, entryOf 0 0 8 true)] 0 0 = some out ∧
      IndexConsistent out.files out.index := by
  refine (create_consistent_iff (by decide) (by decide) ?_ 0 0).mpr ⟨by decide, ?_⟩
  · unfold RowOrder
    decide
  · unfold LinkEndsMeet
    decide

/-- The newest and the oldest row are linked, and the row between them is a chain of its
own: it gets a link to the oldest row, which keeps its link to the newest. -/
def crossedRows : List (Int × FileEntry) :=
  [(3, entryOf 1 0 9 true), (2, entryOf 0 0 8 false), (1, entryOf 0 3 7 false)]

theorem create_crosses_chains :
    ¬ ∀ (files : FilesTable) (rows : List (Int × FileEntry)) (lastPrevEntry lastId : Int),
      FilesTable.WellLinked files → rows.Perm files.entries → rows.Pairwise RowOrder →
      ∃ out, create files rows lastPrevEntry lastId = some out ∧
        IndexConsistent out.files out.index := by
  intro hclaim
  have hsorted : crossedRows.Pairwise RowOrder := by
    unfold RowOrder
    decide
  obtain ⟨out, hout, hcons⟩ := hclaim (tableOf crossedRows) crossedRows 0 0 (by decide)
    (by decide) hsorted
  have hbad : (create (tableOf crossedRows) crossedRows 0 0).all
      (fun out => ¬ FilesTable.WellLinked out.files) = true := by decide
  rw [hout, Option.all_some] at hbad
  exact of_decide_eq_true hbad hcons.links

end CreateState

end UrBackup
