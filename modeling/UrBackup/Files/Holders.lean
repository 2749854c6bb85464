import UrBackup.Files.StorageUsage
import Mathlib.Data.Finset.Max

/-! Every client has one chain of rows for each of its larger files, and the index finds it as
long as no add starts a second one. -/
namespace UrBackup

open FilesTable

def fileKey (file : SharedFile) (c : ClientId) : SIndexKey := SIndexKey.ofHash file.1 file.2 c

def NewFile.file (f : NewFile) : SharedFile := (f.shahash, f.filesize)

theorem FileEntry.key_eq (e : FileEntry) : e.key = fileKey e.held.1 e.held.2 := rfl

theorem FileEntry.key_congr {e : FileEntry} {file : SharedFile} {c : ClientId}
    (h : e.held = (file, c)) : e.key = fileKey file c := by
  rw [e.key_eq, h]

theorem fileKey_congr {file file' : SharedFile} {c c' : ClientId}
    (h : fileKey file c = fileKey file' c') (d : ClientId) : fileKey file d = fileKey file' d := by
  have hwith (g : SharedFile) (x : ClientId) : fileKey g d = (fileKey g x).withClient d := rfl
  rw [hwith file c, hwith file' c', h]

namespace FilesTable

/-- The larger files of a table: clients have one chain for each, and a key stands for one hash. -/
structure OneChain (t : FilesTable) : Prop where
  small : ∀ id e, t.find? id = some e → e.filesize.val < linkFileMinSize → e.prevEntry = 0
  heads : ∀ a b ea eb, t.find? a = some ea → t.find? b = some eb →
    linkFileMinSize ≤ ea.filesize.val → ea.key = eb.key → ea.prevEntry = 0 → eb.prevEntry = 0 →
    a = b
  hashes : ∀ a b ea eb, t.find? a = some ea → t.find? b = some eb →
    linkFileMinSize ≤ ea.filesize.val → fileKey ea.held.1 0 = fileKey eb.held.1 0 →
    ea.shahash = eb.shahash
  clients : ∀ id e, t.find? id = some e → linkFileMinSize ≤ e.filesize.val → e.clientid ≠ 0

section Tables

variable {t : FilesTable} {e : FileEntry} {id : Int}

theorem oneChain_setPointedTo (h : OneChain t) (pointedTo : Bool) (id : Int) :
    OneChain (setPointedTo t pointedTo id) := by
  refine ⟨?_, ?_, ?_, ?_⟩
  · intro a ea ha hsmall
    rw [find?_mark] at ha
    obtain ⟨ea₀, ha₀, rfl⟩ := Option.map_eq_some_iff.mp ha
    exact h.small a ea₀ ha₀ hsmall
  · intro a b ea eb ha hb
    rw [find?_mark] at ha hb
    obtain ⟨ea₀, ha₀, rfl⟩ := Option.map_eq_some_iff.mp ha
    obtain ⟨eb₀, hb₀, rfl⟩ := Option.map_eq_some_iff.mp hb
    exact h.heads a b ea₀ eb₀ ha₀ hb₀
  · intro a b ea eb ha hb
    rw [find?_mark] at ha hb
    obtain ⟨ea₀, ha₀, rfl⟩ := Option.map_eq_some_iff.mp ha
    obtain ⟨eb₀, hb₀, rfl⟩ := Option.map_eq_some_iff.mp hb
    exact h.hashes a b ea₀ eb₀ ha₀ hb₀
  · intro a ea ha
    rw [find?_mark] at ha
    obtain ⟨ea₀, ha₀, rfl⟩ := Option.map_eq_some_iff.mp ha
    exact h.clients a ea₀ ha₀

/-- An entry that starts a chain only where the client has none. -/
structure Starts (t : FilesTable) (e : FileEntry) : Prop where
  small : e.filesize.val < linkFileMinSize → e.prevEntry = 0
  first : linkFileMinSize ≤ e.filesize.val → e.prevEntry = 0 →
    ∀ a ea, t.find? a = some ea → ea.key ≠ e.key
  hashes : linkFileMinSize ≤ e.filesize.val →
    ∀ a ea, t.find? a = some ea → fileKey ea.held.1 0 = fileKey e.held.1 0 →
    ea.shahash = e.shahash
  client : linkFileMinSize ≤ e.filesize.val → e.clientid ≠ 0

theorem Starts.setPointedTo (h : Starts t e) (pointedTo : Bool) (id : Int) :
    Starts (setPointedTo t pointedTo id) e := by
  refine ⟨h.small, ?_, ?_, h.client⟩
  · intro hlarge hprev a ea ha
    rw [find?_mark] at ha
    obtain ⟨ea₀, ha₀, rfl⟩ := Option.map_eq_some_iff.mp ha
    exact h.first hlarge hprev a ea₀ ha₀
  · intro hlarge a ea ha
    rw [find?_mark] at ha
    obtain ⟨ea₀, ha₀, rfl⟩ := Option.map_eq_some_iff.mp ha
    exact h.hashes hlarge a ea₀ ha₀

theorem find?_add_cases (hc : Chained t) (hfits : Fits t e) {a : Int} {ea : FileEntry}
    (ha : (addFileEntryExternal t e).1.find? a = some ea) :
    a = t.nextRowId ∧ ea = e ∨ ∃ ea₀, t.find? a = some ea₀ ∧
      ea = patch e.prevEntry t.nextRowId e.nextEntry t.nextRowId a ea₀ := by
  rw [find?_addFileEntryExternal hc hfits] at ha
  split at ha
  next hnew =>
    cases ha
    exact .inl ⟨hnew, rfl⟩
  next =>
    obtain ⟨ea₀, ha₀, rfl⟩ := Option.map_eq_some_iff.mp ha
    exact .inr ⟨ea₀, ha₀, rfl⟩

theorem patch_prevEntry_eq_zero {older next newer prev a : Int} {ea : FileEntry}
    (hprev : prev ≠ 0) (h : (patch older next newer prev a ea).prevEntry = 0) :
    ea.prevEntry = 0 := by
  unfold patch at h
  dsimp only at h
  split at h
  · exact absurd h hprev
  · exact h

theorem oneChain_add (hc : Chained t) (h : OneChain t) (hfits : Fits t e) (hstarts : Starts t e) :
    OneChain (addFileEntryExternal t e).1 := by
  have hnew : t.nextRowId ≠ 0 := (nextRowId_pos hc.positive).ne'
  refine ⟨?_, ?_, ?_, ?_⟩
  · intro a ea ha hsmall
    rcases find?_add_cases hc hfits ha with ⟨-, rfl⟩ | ⟨ea₀, ha₀, rfl⟩
    · exact hstarts.small hsmall
    · have hold := h.small a ea₀ ha₀ hsmall
      by_cases hnext : a = e.nextEntry
      · obtain ⟨hp, en, hen, hkey, -⟩ := hfits.newer hc (hnext ▸ hc.ne_zero ha₀)
        rw [← hnext, ha₀, Option.some.injEq] at hen
        have hsize : ea₀.filesize = e.filesize := by
          rw [hen]
          exact congrArg SIndexKey.filesize hkey
        exact absurd (hstarts.small (hsize ▸ hsmall)) hp
      · exact (if_neg hnext).trans hold
  · intro a b ea eb ha hb hlarge hkey hpa hpb
    rcases find?_add_cases hc hfits ha with ⟨haid, rfl⟩ | ⟨ea₀, ha₀, rfl⟩
    · rcases find?_add_cases hc hfits hb with ⟨hbid, -⟩ | ⟨eb₀, hb₀, rfl⟩
      · exact haid.trans hbid.symm
      · exact absurd hkey.symm (hstarts.first hlarge hpa b eb₀ hb₀)
    · rcases find?_add_cases hc hfits hb with ⟨-, rfl⟩ | ⟨eb₀, hb₀, rfl⟩
      · have hsize : ea₀.filesize = eb.filesize := congrArg SIndexKey.filesize hkey
        exact absurd hkey (hstarts.first (hsize ▸ hlarge) hpb a ea₀ ha₀)
      · exact h.heads a b ea₀ eb₀ ha₀ hb₀ hlarge hkey (patch_prevEntry_eq_zero hnew hpa)
          (patch_prevEntry_eq_zero hnew hpb)
  · intro a b ea eb ha hb hlarge hkey
    rcases find?_add_cases hc hfits ha with ⟨-, rfl⟩ | ⟨ea₀, ha₀, rfl⟩
    · rcases find?_add_cases hc hfits hb with ⟨-, rfl⟩ | ⟨eb₀, hb₀, rfl⟩
      · rfl
      · exact (hstarts.hashes hlarge b eb₀ hb₀ hkey.symm).symm
    · rcases find?_add_cases hc hfits hb with ⟨-, rfl⟩ | ⟨eb₀, hb₀, rfl⟩
      · have hsize : ea₀.filesize = eb.filesize := congrArg SIndexKey.filesize hkey
        exact hstarts.hashes (hsize ▸ hlarge) a ea₀ ha₀ hkey
      · exact h.hashes a b ea₀ eb₀ ha₀ hb₀ hlarge hkey
  · intro a ea ha hlarge
    rcases find?_add_cases hc hfits ha with ⟨-, rfl⟩ | ⟨ea₀, ha₀, rfl⟩
    · exact hstarts.client hlarge
    · exact h.clients a ea₀ ha₀ hlarge

theorem head_of_delete (hc : Chained t) (hid : t.find? id = some e) {a : Int} {ea : FileEntry}
    (ha : t.find? a = some ea)
    (hprev : (patch e.prevEntry e.nextEntry e.nextEntry e.prevEntry a ea).prevEntry = 0) :
    a = e.nextEntry ∧ ea.key = e.key ∧ e.prevEntry = 0 ∨ ea.prevEntry = 0 := by
  by_cases hnext : a = e.nextEntry
  · obtain ⟨en, hen, hkey, -⟩ := hc.linked.next id e hid (hnext ▸ hc.ne_zero ha)
    rw [← hnext, ha, Option.some.injEq] at hen
    refine .inl ⟨hnext, hen ▸ hkey, ?_⟩
    exact (if_pos hnext).symm.trans hprev
  · exact .inr ((if_neg hnext).symm.trans hprev)

section

variable (hc : Chained t) (h : OneChain t) (hid : t.find? id = some e)

include hc h hid

theorem oneChain_delete : OneChain (delFileEntry (unlink t e) id) := by
  have hold {a : Int} {ea : FileEntry} (ha : (delFileEntry (unlink t e) id).find? a = some ea) :
      a ≠ id ∧ ∃ ea₀, t.find? a = some ea₀ ∧
        ea = patch e.prevEntry e.nextEntry e.nextEntry e.prevEntry a ea₀ := by
    rw [find?_delete hc.linked.noZero] at ha
    split at ha
    next => cases ha
    next hne =>
      obtain ⟨ea₀, ha₀, rfl⟩ := Option.map_eq_some_iff.mp ha
      exact ⟨hne, ea₀, ha₀, rfl⟩
  refine ⟨?_, ?_, ?_, ?_⟩
  · intro a ea ha hsmall
    obtain ⟨-, ea₀, ha₀, rfl⟩ := hold ha
    have hzero := h.small a ea₀ ha₀ hsmall
    by_cases hnext : a = e.nextEntry
    · obtain ⟨en, hen, hkey, hback⟩ := hc.linked.next id e hid (hnext ▸ hc.ne_zero ha₀)
      rw [← hnext, ha₀, Option.some.injEq] at hen
      rw [hen] at hzero
      exact absurd (hback.symm.trans hzero) (hc.ne_zero hid)
    · exact (if_neg hnext).trans hzero
  · intro a b ea eb ha hb hlarge hkey hpa hpb
    obtain ⟨haid, ea₀, ha₀, rfl⟩ := hold ha
    obtain ⟨hbid, eb₀, hb₀, rfl⟩ := hold hb
    have hlarge' : linkFileMinSize ≤ ea₀.filesize.val := hlarge
    have hkey' : ea₀.key = eb₀.key := hkey
    rcases head_of_delete hc hid ha₀ hpa with ⟨haid', hakey, hzero⟩ | hpa
    · rcases head_of_delete hc hid hb₀ hpb with ⟨hbid', -, -⟩ | hpb
      · exact haid'.trans hbid'.symm
      · -- the other row and the deleted one would both be first
        have hsize : ea₀.filesize = eb₀.filesize := congrArg SIndexKey.filesize hkey'
        exact absurd (h.heads b id eb₀ e hb₀ hid (hsize ▸ hlarge') (hkey'.symm.trans hakey)
          hpb hzero) hbid
    · rcases head_of_delete hc hid hb₀ hpb with ⟨-, hbkey, hzero⟩ | hpb
      · exact absurd (h.heads a id ea₀ e ha₀ hid hlarge' (hkey'.trans hbkey) hpa hzero) haid
      · exact h.heads a b ea₀ eb₀ ha₀ hb₀ hlarge' hkey' hpa hpb
  · intro a b ea eb ha hb
    obtain ⟨-, ea₀, ha₀, rfl⟩ := hold ha
    obtain ⟨-, eb₀, hb₀, rfl⟩ := hold hb
    exact h.hashes a b ea₀ eb₀ ha₀ hb₀
  · intro a ea ha
    obtain ⟨-, ea₀, ha₀, rfl⟩ := hold ha
    exact h.clients a ea₀ ha₀

theorem OneChain.small_last (hsmall : e.filesize.val < linkFileMinSize) :
    e.prevEntry = 0 ∧ e.nextEntry = 0 := by
  refine ⟨h.small id e hid hsmall, ?_⟩
  by_contra hnext
  obtain ⟨en, hen, hkey, hback⟩ := hc.linked.next id e hid hnext
  have hsize : e.filesize = en.filesize := (congrArg SIndexKey.filesize hkey).symm
  exact hc.ne_zero hid (hback.symm.trans (h.small _ en hen (hsize ▸ hsmall)))

/-- A row without neighbours is the only one of its file and client. Among the others the one of
the least rank would have the row as its older neighbour. -/
theorem OneChain.only (hlarge : linkFileMinSize ≤ e.filesize.val) (hprev : e.prevEntry = 0)
    (hnext : e.nextEntry = 0)
    {a : Int} {ea : FileEntry} (ha : t.find? a = some ea) (hkey : ea.key = e.key) : a = id := by
  by_contra hne
  obtain ⟨rank, hrank⟩ := hc.ranked
  have hmem : (a, ea) ∈ t.entries.toFinset.filter fun row => row.2.key = e.key ∧ row.1 ≠ id :=
    Finset.mem_filter.mpr
      ⟨List.mem_toFinset.mpr (OrderedMap.find?_eq_some_iff.mp ha), hkey, hne⟩
  obtain ⟨⟨b, eb⟩, hb, hleast⟩ := Finset.exists_min_image _ (fun row => rank row.1) ⟨_, hmem⟩
  obtain ⟨hbmem, hbkey, hbne⟩ := Finset.mem_filter.mp hb
  have hbfind := OrderedMap.find?_eq_some_iff.mpr (List.mem_toFinset.mp hbmem)
  have hsize : e.filesize = eb.filesize := congrArg SIndexKey.filesize hbkey.symm
  have hbprev : eb.prevEntry ≠ 0 := fun hzero =>
    hbne (h.heads b id eb e hbfind hid (hsize ▸ hlarge) hbkey hzero hprev)
  obtain ⟨ec, hec, hckey, hcnext⟩ := hc.linked.prev b eb hbfind hbprev
  by_cases hcid : eb.prevEntry = id
  · rw [hcid, hid, Option.some.injEq] at hec
    rw [← hec, hnext] at hcnext
    exact hc.ne_zero hbfind hcnext.symm
  · have hcmem : (eb.prevEntry, ec) ∈
        t.entries.toFinset.filter fun row => row.2.key = e.key ∧ row.1 ≠ id :=
      Finset.mem_filter.mpr
        ⟨List.mem_toFinset.mpr (OrderedMap.find?_eq_some_iff.mp hec), hckey.trans hbkey, hcid⟩
    have hlt := hrank eb.prevEntry ec hec (hcnext ▸ hc.ne_zero hbfind)
    rw [hcnext] at hlt
    exact absurd (hleast _ hcmem) (not_le.mpr hlt)

end

end Tables

end FilesTable

namespace Store

/-- Every client with rows of a larger file has one chain of them, which the index names. -/
structure Held (s : Store) : Prop where
  consistent : Consistent Set.univ s
  chain : OneChain s.files
  covered : ∀ id e, s.files.find? id = some e → linkFileMinSize ≤ e.filesize.val →
    s.index.index.logical e.key ≠ 0

/-- No row has another hash that the index takes for the one of the file. -/
def NoCollision (s : Store) (file : SharedFile) : Prop :=
  ∀ row ∈ s.files.rows, fileKey row.1 0 = fileKey file 0 → row.1.1 = file.1

def holders (s : Store) (file : SharedFile) : List ClientId :=
  ((s.allClients file.1 file.2).entries.filter fun e => e.2 ≠ 0).map Prod.fst

section Holders

variable {s : Store} {file : SharedFile}

theorem parseClients_holders (s : Store) (file : SharedFile) (c : ClientId) :
    parseClients (clientsLoop c (0, "") (s.allClients file.1 file.2).entries).2 =
      (s.holders file).map fun c => (c.val : Int) := by
  have hclosed : Closed "" := fun h => Option.some_ne_none _ h.symm
  rw [parseClients_clientsLoop c hclosed, holders, List.map_map]
  rfl

theorem holders_nodup (s : Store) (file : SharedFile) : (s.holders file).Nodup := by
  have hkeys := OrderedMap.entries_keys_ne (s.allClients file.1 file.2)
  exact List.pairwise_map.mpr (hkeys.sublist List.filter_sublist)

theorem mem_holders {c : ClientId} :
    c ∈ s.holders file ↔ s.index.index.logical (fileKey file c) ≠ 0 := by
  have hfind : (s.allClients file.1 file.2).find? c = s.index.index.layered (fileKey file c) :=
    s.index.index.find?_getAllClientsWithCache_withDel rfl c
  unfold holders FileIndex.logical
  rw [← hfind, List.mem_map]
  constructor
  · rintro ⟨⟨c', id⟩, hmem, rfl⟩
    rw [List.mem_filter, decide_eq_true_eq] at hmem
    rw [OrderedMap.find?_eq_some_iff.mpr hmem.1]
    exact hmem.2
  · intro hne
    cases hget : (s.allClients file.1 file.2).find? c with
    | none =>
      rw [hget] at hne
      exact absurd rfl hne
    | some id =>
      rw [hget] at hne
      exact ⟨(c, id), List.mem_filter.mpr
        ⟨OrderedMap.find?_eq_some_iff.mp hget, decide_eq_true hne⟩, rfl⟩

theorem NoCollision.held_eq (h : s.NoCollision file) {id : Int} {e : FileEntry} {c : ClientId}
    (he : s.files.find? id = some e) (hkey : e.key = fileKey file c) : e.held = (file, c) := by
  have hrow : e.held ∈ s.files.rows := mem_rows.mpr ⟨id, e, he, rfl⟩
  have hkey' : fileKey e.held.1 e.held.2 = fileKey file c := hkey
  have hclient : e.clientid = c := congrArg SIndexKey.clientid hkey
  have hsize : e.filesize = file.2 := congrArg SIndexKey.filesize hkey
  have hhash : e.shahash = file.1 := h _ hrow (fileKey_congr hkey' 0)
  exact Prod.ext (Prod.ext hhash hsize) hclient

theorem NoCollision.mem_clientsOf (h : s.NoCollision file) {c : ClientId} :
    c ∈ s.files.clientsOf file ↔ ∃ id e, s.files.find? id = some e ∧ e.key = fileKey file c := by
  rw [FilesTable.mem_clientsOf, mem_rows]
  constructor
  · rintro ⟨id, e, he, hheld⟩
    exact ⟨id, e, he, FileEntry.key_congr hheld⟩
  · rintro ⟨id, e, he, hkey⟩
    exact ⟨id, e, he, h.held_eq he hkey⟩

theorem Held.mem_holders (h : Held s) (hlarge : linkFileMinSize ≤ file.2.val)
    (hcollision : s.NoCollision file) {c : ClientId} :
    c ∈ s.holders file ↔ c ∈ s.files.clientsOf file := by
  rw [Store.mem_holders, hcollision.mem_clientsOf]
  constructor
  · intro hne
    obtain ⟨e, he, hkey, -⟩ := h.consistent.indexed _ hne
    exact ⟨_, e, he, hkey⟩
  · rintro ⟨id, e, he, hkey⟩
    have hsize : e.filesize = file.2 := congrArg SIndexKey.filesize hkey
    rw [← hkey]
    rw [← hsize] at hlarge
    exact h.covered id e he hlarge

theorem Held.toFinset_holders (h : Held s) (hlarge : linkFileMinSize ≤ file.2.val)
    (hcollision : s.NoCollision file) : (s.holders file).toFinset = s.files.clientsOf file := by
  ext c
  rw [List.mem_toFinset]
  exact h.mem_holders hlarge hcollision

theorem Held.noCollision (h : Held s) {id : Int} {e : FileEntry} (he : s.files.find? id = some e)
    (hlarge : linkFileMinSize ≤ e.filesize.val) : s.NoCollision e.held.1 := by
  intro row hrow hkey
  obtain ⟨b, eb, hb, rfl⟩ := mem_rows.mp hrow
  exact (h.chain.hashes id b e eb he hb hlarge hkey.symm).symm

end Holders

end Store

end UrBackup
