import UrBackup.Files.Store

/-! What every sequence of adds and deletes keeps: chains linked both ways, and an index
that only names existing entries which know that they are pointed to. -/
namespace UrBackup

open FilesTable

namespace WriterState

theorem step_log {s s' : WriterState} {e : WriterEvent} (h : s.step e = some s')
    (hput : ∀ key value, e ≠ .putDelayed key value) : s'.log = s.log := by
  cases e with
  | putDelayed key value => exact absurd rfl (hput key value)
  | stopAccept => cases h; rfl
  | shutdown => cases h; rfl
  | flushCall t =>
    simp only [step] at h
    split at h
    · cases h; rfl
    · cases h
  | flushReturn t =>
    simp only [step, flushReturn] at h
    split at h
    · cases h
    · cases h; rfl
  | writerWake timeout =>
    have hloop : s.waitLoop.log = s.log := by
      unfold waitLoop
      split <;> rfl
    simp only [step, writerWake] at h
    split at h
    · split at h
      · cases h; rfl
      · cases h; exact hloop
    · split at h
      · cases h; rfl
      · cases h; exact hloop
    · cases h
  | writerWrite =>
    simp only [step, writerWrite] at h
    split at h
    · cases h; rfl
    · cases h
  | writerCommit =>
    simp only [step, writerCommit] at h
    split at h
    · cases h; rfl
    · cases h
  | writerClear =>
    simp only [step, writerClear] at h
    split at h
    · cases h; rfl
    · cases h

theorem step_logical {s s' : WriterState} {e : WriterEvent} {p : LogParts} (hsplit : Splits s p)
    (h : s.step e = some s') (hput : ∀ key value, e ≠ .putDelayed key value) (key : SIndexKey) :
    s'.index.logical key = s.index.logical key := by
  obtain ⟨p', hsplit', -⟩ := splits_step hsplit h
  rw [logical_eq_lastPut hsplit', logical_eq_lastPut hsplit, step_log h hput]

theorem putDelayed_index {s s' : WriterState} {key : SIndexKey} {value : Int}
    (h : s.putDelayed key value = some s') : s'.index = s.index.putDelayed key value := by
  unfold putDelayed at h
  split at h
  · cases h; rfl
  · cases h

end WriterState

/-- The index may name the row for the key. -/
def Refers (t : FilesTable) (key : SIndexKey) (id : Int) : Prop :=
  ∃ e, t.find? id = some e ∧ e.key = key ∧ e.pointedTo = true

def Indexed (t : FilesTable) (ix : FileIndex) : Prop :=
  ∀ key, ix.logical key ≠ 0 → Refers t key (ix.logical key)

structure FilesOk (H : Set (List UInt8)) (t : FilesTable) : Prop where
  chained : Chained t
  small : ∀ id e, t.find? id = some e → e.pointedTo = true → linkFileMinSize ≤ e.filesize.val
  hashes : ∀ id e, t.find? id = some e → e.shahash ∈ H

namespace Store

structure Consistent (H : Set (List UInt8)) (s : Store) : Prop where
  files : FilesOk H s.files
  indexed : Indexed s.files s.index.index
  writer : ∃ p, WriterState.Splits s.index p

end Store

section Tables

variable {H : Set (List UInt8)} {t : FilesTable} {key : SIndexKey} {e : FileEntry} {id k : Int}

theorem filesOk_setPointedTo (h : FilesOk H t) (pointedTo : Bool)
    (hsmall : pointedTo = true → ∀ e, t.find? id = some e → linkFileMinSize ≤ e.filesize.val) :
    FilesOk H (setPointedTo t pointedTo id) := by
  refine ⟨chained_setPointedTo h.chained pointedTo id, ?_, ?_⟩
  · intro a ea ha hpoint
    rw [find?_mark] at ha
    obtain ⟨ea₀, ha₀, rfl⟩ := Option.map_eq_some_iff.mp ha
    by_cases hid : id = a
    · subst hid
      rw [mark, if_pos rfl] at hpoint
      exact hsmall hpoint ea₀ ha₀
    · rw [mark, if_neg hid] at hpoint
      exact h.small a ea₀ ha₀ hpoint
  · intro a ea ha
    rw [find?_mark] at ha
    obtain ⟨ea₀, ha₀, rfl⟩ := Option.map_eq_some_iff.mp ha
    exact h.hashes a ea₀ ha₀

theorem refers_setPointedTo (h : Refers t key k) (pointedTo : Bool)
    (hkeep : id = k → pointedTo = true) : Refers (setPointedTo t pointedTo id) key k := by
  obtain ⟨e, he, hkey, hpoint⟩ := h
  refine ⟨mark pointedTo id k e, by rw [find?_mark, he]; rfl, hkey, ?_⟩
  by_cases hid : id = k
  · rw [mark, if_pos hid]
    exact hkeep hid
  · rw [mark, if_neg hid]
    exact hpoint

theorem fits_setPointedTo (h : Fits t e) (pointedTo : Bool) :
    Fits (setPointedTo t pointedTo id) e := by
  refine ⟨h.first, ?_⟩
  intro hp
  obtain ⟨ep, hep, hkey, hnext⟩ := h.behind hp
  exact ⟨mark pointedTo id _ ep, by rw [find?_mark, hep]; rfl, hkey, hnext⟩

theorem filesOk_add (h : FilesOk H t) (hfits : Fits t e)
    (hsmall : e.pointedTo = true → linkFileMinSize ≤ e.filesize.val) (hhash : e.shahash ∈ H) :
    FilesOk H (addFileEntryExternal t e).1 := by
  refine ⟨chained_add h.chained hfits, ?_, ?_⟩
  · intro a ea ha hpoint
    rw [find?_addFileEntryExternal h.chained hfits] at ha
    split at ha
    · cases ha
      exact hsmall hpoint
    · obtain ⟨ea₀, ha₀, rfl⟩ := Option.map_eq_some_iff.mp ha
      exact h.small a ea₀ ha₀ hpoint
  · intro a ea ha
    rw [find?_addFileEntryExternal h.chained hfits] at ha
    split at ha
    · cases ha
      exact hhash
    · obtain ⟨ea₀, ha₀, rfl⟩ := Option.map_eq_some_iff.mp ha
      exact h.hashes a ea₀ ha₀

theorem refers_add (hc : Chained t) (hfits : Fits t e) (h : Refers t key k) :
    Refers (addFileEntryExternal t e).1 key k := by
  obtain ⟨ek, hek, hkey, hpoint⟩ := h
  refine ⟨patch e.prevEntry t.nextRowId e.nextEntry t.nextRowId k ek, ?_, hkey, hpoint⟩
  rw [find?_addFileEntryExternal hc hfits, if_neg (ne_nextRowId hek), hek]
  rfl

theorem refers_added (hc : Chained t) (hfits : Fits t e) (hpoint : e.pointedTo = true) :
    Refers (addFileEntryExternal t e).1 e.key (addFileEntryExternal t e).2 := by
  refine ⟨e, ?_, rfl, hpoint⟩
  rw [find?_addFileEntryExternal hc hfits]
  exact if_pos rfl

theorem filesOk_delete (h : FilesOk H t) (hid : t.find? id = some e) :
    FilesOk H (delFileEntry (unlink t e) id) := by
  refine ⟨chained_delete h.chained hid, ?_, ?_⟩
  · intro a ea ha hpoint
    rw [find?_delete h.chained.linked.noZero] at ha
    split at ha
    · cases ha
    · obtain ⟨ea₀, ha₀, rfl⟩ := Option.map_eq_some_iff.mp ha
      exact h.small a ea₀ ha₀ hpoint
  · intro a ea ha
    rw [find?_delete h.chained.linked.noZero] at ha
    split at ha
    · cases ha
    · obtain ⟨ea₀, ha₀, rfl⟩ := Option.map_eq_some_iff.mp ha
      exact h.hashes a ea₀ ha₀

theorem refers_delete (hc : Chained t) (h : Refers t key k) (hne : k ≠ id) :
    Refers (delFileEntry (unlink t e) id) key k := by
  obtain ⟨ek, hek, hkey, hpoint⟩ := h
  refine ⟨patch e.prevEntry e.nextEntry e.nextEntry e.prevEntry k ek, ?_, hkey, hpoint⟩
  rw [find?_delete hc.linked.noZero, if_neg hne, hek]
  rfl

theorem Refers.ne_of_key (h : Refers t key k) (hid : t.find? id = some e) (hkey : e.key ≠ key) :
    k ≠ id := by
  rintro rfl
  obtain ⟨ek, hek, hkey', -⟩ := h
  rw [hid, Option.some.injEq] at hek
  exact hkey (hek ▸ hkey')

theorem Refers.ne_of_pointedTo (h : Refers t key k) (hid : t.find? id = some e)
    (hpoint : e.pointedTo = false) : k ≠ id := by
  rintro rfl
  obtain ⟨ek, hek, -, hpoint'⟩ := h
  rw [hid, Option.some.injEq] at hek
  rw [← hek, hpoint] at hpoint'
  cases hpoint'

end Tables

namespace Store

section Lookups

variable {s : Store}

theorem clientsLoop_fst (c : ClientId) (r : Int × String) {es : List (ClientId × Int)}
    (h : es.Pairwise fun a b => a.1 ≠ b.1) :
    (clientsLoop c r es).1 = ((OrderedMap.findEntry c es).filter (· ≠ 0)).getD r.1 := by
  induction es generalizing r with
  | nil => rfl
  | cons e es ih =>
    obtain ⟨hhead, htail⟩ := List.pairwise_cons.mp h
    have hnone : e.1 = c → OrderedMap.findEntry c es = none := fun hc =>
      OrderedMap.findEntry_none fun e' he' heq => hhead e' he' (hc.trans heq.symm)
    by_cases hid : e.2 = 0
    · simp only [clientsLoop, hid, ne_eq, not_true_eq_false, if_false, ih _ htail,
        OrderedMap.findEntry]
      by_cases hc : e.1 = c
      · rw [if_pos hc, hnone hc]
        rfl
      · rw [if_neg hc]
    · simp only [clientsLoop, hid, ne_eq, not_false_eq_true, if_true, ih _ htail,
        OrderedMap.findEntry]
      by_cases hc : e.1 = c
      · rw [if_pos hc, hnone hc, if_pos hc]
        simp only [Option.filter_none, Option.getD_none, Option.filter_some, hid,
          not_false_eq_true, decide_true, if_true, Option.getD_some]
      · rw [if_neg hc, if_neg hc]

theorem clientsLoop_allClients (s : Store) (c : ClientId) (shahash : List UInt8)
    (filesize : FileSize) :
    (clientsLoop c (0, "") (s.allClients shahash filesize).entries).1 =
      s.index.index.logical (SIndexKey.ofHash shahash filesize c) := by
  have hfind : OrderedMap.findEntry c (s.allClients shahash filesize).entries =
      s.index.index.layered (SIndexKey.ofHash shahash filesize c) :=
    s.index.index.find?_getAllClientsWithCache_withDel rfl c
  rw [clientsLoop_fst c _ (OrderedMap.entries_keys_ne _), hfind, FileIndex.logical]
  cases s.index.index.layered (SIndexKey.ofHash shahash filesize c) with
  | none => rfl
  | some id =>
    by_cases hid : id = 0
    · simp only [hid, Option.filter_some, ne_eq, not_true_eq_false, decide_false,
        Bool.false_eq_true, if_false, Option.getD_none, Option.getD_some]
    · simp only [Option.filter_some, hid, ne_eq, not_false_eq_true, decide_true, if_true,
        Option.getD_some]

theorem allClients_isEmpty {c : ClientId} {shahash : List UInt8} {filesize : FileSize}
    (h : s.index.index.logical (SIndexKey.ofHash shahash filesize c) ≠ 0) :
    (s.allClients shahash filesize).isEmpty = false := by
  cases hempty : (s.allClients shahash filesize).isEmpty with
  | false => rfl
  | true =>
    have hnone := OrderedMap.find?_of_isEmpty hempty c
    have hfind : (s.allClients shahash filesize).find? c =
        s.index.index.layered (SIndexKey.ofHash shahash filesize c) :=
      s.index.index.find?_getAllClientsWithCache_withDel rfl c
    rw [hnone] at hfind
    rw [FileIndex.logical, ← hfind] at h
    exact absurd rfl h

theorem findFileHash_found {pHash : List UInt8} {filesize : FileSize} {clientid : ClientId}
    {st st' : SFindState} {id : Int} {e : FileEntry} (hlong : bytesInIndex ≤ pHash.length)
    (h : s.findFileHash pHash filesize clientid st = some (some (id, e), st')) :
    id ≠ 0 ∧ s.files.find? id = some e ∧ e.key = SIndexKey.ofHash pHash filesize e.clientid := by
  unfold findFileHash at h
  obtain ⟨entryid, st₁, saveOrig⟩ := s.nextCandidate pHash filesize clientid st
  simp only at h
  split at h
  · simp at h
  rename_i hne
  split at h
  · simp at h
  rename_i e' he'
  split at h
  · simp at h
  rename_i hhash
  split at h
  · cases h
  rename_i hsize
  simp only [Option.some.injEq, Prod.mk.injEq] at h
  obtain ⟨⟨rfl, rfl⟩, -⟩ := h
  refine ⟨hne, he', ?_⟩
  simp only [ne_eq, not_not] at hhash hsize
  unfold FileEntry.key SIndexKey.ofHash
  rw [hsize]
  congr 2
  funext i
  have hi : i.val < pHash.length := lt_of_lt_of_le i.isLt hlong
  rw [← hhash, List.getD_eq_getElem?_getD, List.getD_eq_getElem?_getD,
    List.getElem?_take_of_lt hi]

end Lookups

section Add

variable {H : Set (List UInt8)} {s : Store} {f : NewFile}

/-- The arguments of an add: no entry, or an entry of the file as the table has it. -/
def Found (s : Store) (f : NewFile) (prevEntry prevEntryClientid nextEntry : Int) : Prop :=
  prevEntry = 0 ∧ prevEntryClientid = 0 ∧ nextEntry = 0 ∨
    prevEntry ≠ 0 ∧ ∃ e, s.files.find? prevEntry = some e ∧
      e.key = SIndexKey.ofHash f.shahash f.filesize e.clientid ∧
      prevEntryClientid = e.clientid.val ∧ nextEntry = e.nextEntry

theorem fits_nil (t : FilesTable) (f : NewFile) (pointedTo : Bool) :
    Fits t (f.entry 0 0 pointedTo) :=
  ⟨fun _ => rfl, fun h => absurd rfl h⟩

theorem fits_behind {t : FilesTable} {prevEntry : Int} {ep : FileEntry}
    (hp : t.find? prevEntry = some ep) (hne : prevEntry ≠ 0) (hkey : ep.key = f.key)
    (pointedTo : Bool) : Fits t (f.entry ep.nextEntry prevEntry pointedTo) :=
  ⟨fun h => absurd h hne, fun _ => ⟨ep, hp, hkey, rfl⟩⟩

theorem placeNew_fits (h : Consistent H s) (f : NewFile) (prevEntryClientid : Int)
    (updateFileindex pointedTo : Bool) :
    Fits s.files (f.entry (s.placeNew f prevEntryClientid updateFileindex).nextEntry
      (s.placeNew f prevEntryClientid updateFileindex).prevEntry pointedTo) := by
  have hclient := clientsLoop_allClients s f.clientid f.shahash f.filesize
  unfold placeNew
  split
  rename_i prevEntry clients hloop
  by_cases hzero : prevEntry = 0
  · rw [if_pos hzero]
    exact fits_nil _ _ _
  · rw [if_neg hzero]
    have hprev : prevEntry = s.index.index.logical f.key := by
      split at hloop
      · rw [hloop] at hclient
        exact hclient
      · exact absurd (Prod.mk.inj hloop).1.symm hzero
    have hne : s.index.index.logical f.key ≠ 0 := hprev ▸ hzero
    obtain ⟨e, he, hkey, -⟩ := h.indexed f.key hne
    have hget : getFileEntry s.files prevEntry = some e := by rw [hprev]; exact he
    simp only [hget]
    exact fits_behind hget hzero hkey pointedTo

theorem fits_place (h : Consistent H s) {prevEntry prevEntryClientid nextEntry : Int}
    (hfound : Found s f prevEntry prevEntryClientid nextEntry) (updateFileindex pointedTo : Bool)
    {place : Placement}
    (hplace : place = if prevEntryClientid ≠ f.clientid.val ∨ prevEntry = 0 then
      s.placeNew f prevEntryClientid updateFileindex
      else ⟨prevEntry, nextEntry, updateFileindex, s.incoming⟩) :
    Fits s.files (f.entry place.nextEntry place.prevEntry pointedTo) := by
  by_cases hnew : prevEntryClientid ≠ f.clientid.val ∨ prevEntry = 0
  · rw [hplace, if_pos hnew]
    exact placeNew_fits h f prevEntryClientid updateFileindex pointedTo
  · rw [hplace, if_neg hnew]
    simp only [ne_eq, not_or, not_not] at hnew
    rcases hfound with ⟨hzero, -, -⟩ | ⟨hne, e, he, hkey, hclient, hnext⟩
    · exact absurd hzero hnew.2
    · have hsame : e.clientid = f.clientid :=
        Fin.ext (Int.ofNat_inj.mp (hclient.symm.trans hnew.1))
      rw [hsame] at hkey
      rw [hnext]
      exact fits_behind he hne hkey pointedTo

theorem unpoint_spec (h : Consistent H s) {prevEntry : Int} {e : FileEntry}
    (hprev : prevEntry ≠ 0) (hfits : Fits s.files e) (he : e.prevEntry = prevEntry)
    (hkey : e.key = f.key) :
    FilesOk H (s.unpoint f prevEntry) ∧ Fits (s.unpoint f prevEntry) e ∧
      ∀ key id, key ≠ f.key → Refers s.files key id → Refers (s.unpoint f prevEntry) key id := by
  have hmark : ∀ x, (∃ ex, s.files.find? x = some ex ∧ ex.key = f.key) →
      FilesOk H (setPointedTo s.files false x) ∧ Fits (setPointedTo s.files false x) e ∧
      ∀ key id, key ≠ f.key → Refers s.files key id →
        Refers (setPointedTo s.files false x) key id := by
    rintro x ⟨ex, hex, hxkey⟩
    refine ⟨filesOk_setPointedTo h.files false fun hfalse => Bool.noConfusion hfalse,
      fits_setPointedTo hfits false, ?_⟩
    intro key id hne href
    refine refers_setPointedTo href false fun hid => ?_
    exact absurd hid.symm (href.ne_of_key hex (by rw [hxkey]; exact hne.symm))
  unfold unpoint
  rw [FileIndex.getWithCacheExact_eq_logical]
  split
  · obtain ⟨ep, hep, hpkey, -⟩ := hfits.behind (by rw [he]; exact hprev)
    exact hmark prevEntry ⟨ep, he ▸ hep, hpkey.trans hkey⟩
  · simp only
    split
    · rename_i hne
      obtain ⟨ec, hec, hckey, -⟩ := h.indexed f.key hne
      exact hmark _ ⟨ec, hec, hckey⟩
    · exact ⟨h.files, hfits, fun _ _ _ href => href⟩

theorem addFileSQL_small {prevEntry prevEntryClientid nextEntry : Int} {updateFileindex : Bool}
    {s' : Store} (h : Consistent H s) (hhash : f.shahash ∈ H)
    (hsmall : f.filesize.val < linkFileMinSize)
    (hs : s.addFileSQL f prevEntry prevEntryClientid nextEntry updateFileindex = some s') :
    Consistent H s' := by
  unfold addFileSQL at hs
  rw [if_pos hsmall] at hs
  split at hs
  · rename_i hargs
    obtain ⟨-, hprev, hnext⟩ := hargs
    rw [Option.some.injEq] at hs
    rw [← hs, hprev, hnext]
    have hfits := fits_nil s.files f false
    refine ⟨filesOk_add h.files hfits (fun hfalse => Bool.noConfusion hfalse) hhash, ?_, h.writer⟩
    intro key hne
    exact refers_add h.files.chained hfits (h.indexed key hne)
  · cases hs

theorem addFileSQL_consistent {prevEntry prevEntryClientid nextEntry : Int}
    {updateFileindex : Bool} {s' : Store} (h : Consistent H s) (hhash : f.shahash ∈ H)
    (hfound : Found s f prevEntry prevEntryClientid nextEntry)
    (hs : s.addFileSQL f prevEntry prevEntryClientid nextEntry updateFileindex = some s') :
    Consistent H s' := by
  by_cases hsmall : f.filesize.val < linkFileMinSize
  · exact addFileSQL_small h hhash hsmall hs
  unfold addFileSQL at hs
  rw [if_neg hsmall] at hs
  simp only [decide_eq_true_eq] at hs
  generalize hplace : (if prevEntryClientid ≠ f.clientid.val ∨ prevEntry = 0 then
      s.placeNew f prevEntryClientid updateFileindex
      else ⟨prevEntry, nextEntry, updateFileindex, s.incoming⟩ : Placement) = place at hs
  generalize hput : (decide (prevEntryClientid ≠ f.clientid.val ∨ prevEntry = 0) ||
    place.updateFileindex) = put at hs
  have hfits := fits_place h hfound updateFileindex put hplace.symm
  generalize hfiles : (if place.updateFileindex = true ∧ place.prevEntry ≠ 0 then
      s.unpoint f place.prevEntry else s.files) = files at hs
  have hspec : FilesOk H files ∧ Fits files (f.entry place.nextEntry place.prevEntry put) ∧
      ∀ key id, key ≠ f.key ∨ put = false → Refers s.files key id → Refers files key id := by
    rw [← hfiles]
    split
    · rename_i hcond
      obtain ⟨hok, hfit, href⟩ := unpoint_spec (f := f) h hcond.2 hfits rfl rfl
      refine ⟨hok, hfit, fun key id hkey => ?_⟩
      rcases hkey with hkey | hfalse
      · exact href key id hkey
      · rw [hfalse, hcond.1, Bool.or_true] at hput
        cases hput
    · exact ⟨h.files, hfits, fun _ _ _ href => href⟩
  obtain ⟨hok, hfit, href⟩ := hspec
  have hok' := filesOk_add hok hfit (fun _ => not_lt.mp hsmall) hhash
  cases put with
  | true =>
    simp only [if_true] at hs
    obtain ⟨index, hindex, rfl⟩ := Option.map_eq_some_iff.mp hs
    obtain ⟨p, hsplit⟩ := h.writer
    refine ⟨hok', ?_, _, (WriterState.splits_putDelayed hsplit hindex).1⟩
    intro key hne
    simp only [WriterState.putDelayed_index hindex, FileIndex.logical_putDelayed] at hne ⊢
    by_cases hkey : f.key = key
    · rw [if_pos hkey, ← hkey]
      exact refers_added hok.chained hfit rfl
    · rw [if_neg hkey] at hne ⊢
      exact refers_add hok.chained hfit (href key _ (.inl (Ne.symm hkey)) (h.indexed key hne))
  | false =>
    simp only [Bool.false_eq_true, if_false, Option.some.injEq] at hs
    rw [← hs]
    refine ⟨hok', ?_, h.writer⟩
    intro key hne
    exact refers_add hok.chained hfit (href key _ (.inr rfl) (h.indexed key hne))

end Add

section Delete

variable {H : Set (List UInt8)} {s s' : Store} {id : Int} {e : FileEntry}

/-- Nothing in the index names the row that goes. -/
def Unnamed (s : Store) (id : Int) : Prop :=
  ∀ key, s.index.index.logical key ≠ 0 → s.index.index.logical key ≠ id

theorem delete_consistent (h : Consistent H s) (hid : s.files.find? id = some e)
    (hfree : s.Unnamed id) :
    Consistent H { s with files := delFileEntry (unlink s.files e) id } := by
  refine ⟨filesOk_delete h.files hid, ?_, h.writer⟩
  intro key hne
  exact refers_delete h.files.chained (h.indexed key hne) (hfree key hne)

theorem unnamed_of_pointedTo (h : Consistent H s) (hid : s.files.find? id = some e)
    (hpoint : e.pointedTo = false) : s.Unnamed id := by
  intro key hne
  exact (h.indexed key hne).ne_of_pointedTo hid hpoint

theorem put_consistent {files : FilesTable} {index : WriterState} {value : Int}
    {incoming : List IncomingFile} (h : Consistent H s) (hid : s.files.find? id = some e)
    (hput : s.index.putDelayed e.key value = some index) (hok : FilesOk H files)
    (hrefers : ∀ key k, Refers s.files key k → Refers files key k)
    (hvalue : value ≠ 0 → Refers files e.key value ∧ value ≠ id) :
    Consistent H ⟨files, index, incoming⟩ ∧ Unnamed ⟨files, index, incoming⟩ id := by
  obtain ⟨p, hsplit⟩ := h.writer
  have hlogical : ∀ key, index.index.logical key =
      if e.key = key then value else s.index.index.logical key := by
    intro key
    rw [WriterState.putDelayed_index hput, FileIndex.logical_putDelayed]
  refine ⟨⟨hok, ?_, _, (WriterState.splits_putDelayed hsplit hput).1⟩, ?_⟩
  · intro key hne
    rw [hlogical] at hne ⊢
    by_cases hkey : e.key = key
    · rw [if_pos hkey] at hne ⊢
      exact hkey ▸ (hvalue hne).1
    · rw [if_neg hkey] at hne ⊢
      exact hrefers key _ (h.indexed key hne)
  · intro key hne
    simp only [hlogical] at hne ⊢
    by_cases hkey : e.key = key
    · rw [if_pos hkey] at hne ⊢
      exact (hvalue hne).2
    · rw [if_neg hkey] at hne ⊢
      exact (h.indexed key hne).ne_of_key hid hkey

theorem incoming_consistent (h : Consistent H s) (incoming : List IncomingFile) :
    Consistent H { s with incoming } := ⟨h.files, h.indexed, h.writer⟩

/-- The last entry of a chain goes with its key, unless the index names another entry. -/
theorem dropLast_spec {withBackupstat : Bool} (h : Consistent H s)
    (hid : s.files.find? id = some e)
    (hs : s.dropLast id e withBackupstat = some s') :
    Consistent H s' ∧ s'.files = s.files ∧ s'.Unnamed id := by
  have hclient := clientsLoop_allClients s e.clientid e.shahash e.filesize
  unfold dropLast at hs
  simp only at hs
  split at hs
  · obtain ⟨index, hput, rfl⟩ := Option.map_eq_some_iff.mp hs
    obtain ⟨hcons, hfree⟩ := put_consistent h hid hput h.files (fun _ _ href => href)
      fun hne => absurd rfl hne
    exact ⟨hcons, rfl, hfree⟩
  · rename_i hkeep
    rw [Option.some.injEq] at hs
    rw [← hs]
    refine ⟨incoming_consistent h _, rfl, ?_⟩
    intro key hne hself
    have href := h.indexed key hne
    rw [hself] at href hne
    obtain ⟨e', he', hkey, hpoint⟩ := href
    rw [hid, Option.some.injEq] at he'
    rw [← he'] at hkey hpoint
    have hlogical : s.index.index.logical e.key = id := by rw [hkey]; exact hself
    have hall : (s.allClients e.shahash e.filesize).isEmpty = false :=
      @allClients_isEmpty s e.clientid _ _ (by rw [← FileEntry.key, hlogical]; exact hne)
    have htarget : (s.targetEntry e).1 = id := by
      rw [targetEntry, hall]
      exact hclient.trans hlogical
    exact hkeep ⟨hpoint, hall, .inr htarget⟩

theorem moveTo_consistent {index : WriterState} {neighbour : Int} {en : FileEntry}
    (h : Consistent H s) (hid : s.files.find? id = some e) (hpoint : e.pointedTo = true)
    (hen : s.files.find? neighbour = some en) (hkey : en.key = e.key) (hne : neighbour ≠ id)
    (hput : s.index.putDelayed e.key neighbour = some index) :
    Consistent H { s with files := setPointedTo s.files true neighbour, index } ∧
      Unnamed { s with files := setPointedTo s.files true neighbour, index } id ∧
      (setPointedTo s.files true neighbour).find? id = some e := by
  have hsize : en.filesize = e.filesize := congrArg SIndexKey.filesize hkey
  have hok : FilesOk H (setPointedTo s.files true neighbour) := by
    refine filesOk_setPointedTo h.files true fun _ e' he' => ?_
    rw [hen, Option.some.injEq] at he'
    rw [← he', hsize]
    exact h.files.small id e hid hpoint
  have hrefers : ∀ key k, Refers s.files key k →
      Refers (setPointedTo s.files true neighbour) key k :=
    fun key k href => refers_setPointedTo href true fun _ => rfl
  have hmarked : Refers (setPointedTo s.files true neighbour) e.key neighbour := by
    refine ⟨mark true neighbour neighbour en, by rw [find?_mark, hen]; rfl, hkey, ?_⟩
    exact if_pos rfl
  obtain ⟨hcons, hfree⟩ := put_consistent h hid hput hok hrefers fun _ => ⟨hmarked, hne⟩
  refine ⟨hcons, hfree, ?_⟩
  rw [find?_mark, hid, Option.map_some, mark, if_neg hne]

theorem pointToNeighbour_spec (h : Consistent H s) (hid : s.files.find? id = some e)
    (hpoint : e.pointedTo = true) (hlinks : ¬ (e.prevEntry = 0 ∧ e.nextEntry = 0))
    (hs : s.pointToNeighbour id e = some s') :
    Consistent H s' ∧ s'.Unnamed id ∧ s'.files.find? id = some e := by
  have hchained := h.files.chained
  unfold pointToNeighbour at hs
  split at hs
  · rename_i hnext
    obtain ⟨index, hput, rfl⟩ := Option.map_eq_some_iff.mp hs
    obtain ⟨en, hen, hkey, -⟩ := hchained.linked.next id e hid hnext.1
    exact moveTo_consistent h hid hpoint hen hkey hnext.2 hput
  · rename_i hnext
    have hzero : e.nextEntry = 0 := by
      by_contra hne
      exact hnext ⟨hne, hchained.next_ne_self hid⟩
    have hprev : e.prevEntry ≠ 0 := fun hp => hlinks ⟨hp, hzero⟩
    rw [if_pos (hchained.prev_ne_self hid)] at hs
    obtain ⟨index, hput, rfl⟩ := Option.map_eq_some_iff.mp hs
    obtain ⟨ep, hep, hkey, -⟩ := hchained.linked.prev id e hid hprev
    exact moveTo_consistent h hid hpoint hep hkey (hchained.prev_ne_self hid) hput

theorem unlink_of_no_links {t : FilesTable} (hprev : e.prevEntry = 0) (hnext : e.nextEntry = 0) :
    unlink t e = t := by
  simp only [unlink, hprev, hnext, ne_eq, not_true_eq_false, if_false]

theorem deleteFileSQLEntry_consistent {withBackupstat : Bool} (h : Consistent H s)
    (hid : s.files.find? id = some e)
    (hs : s.deleteFileSQLEntry id e withBackupstat = some s') : Consistent H s' := by
  unfold deleteFileSQLEntry at hs
  split at hs
  · rename_i hlinks
    split at hs
    · rename_i hsmall
      rw [Option.some.injEq] at hs
      rw [← hs]
      have hpoint : e.pointedTo = false := by
        cases hp : e.pointedTo with
        | false => rfl
        | true => exact absurd hsmall (not_lt.mpr (h.files.small id e hid hp))
      have hdel := delete_consistent h hid (unnamed_of_pointedTo h hid hpoint)
      rw [unlink_of_no_links hlinks.1 hlinks.2] at hdel
      exact incoming_consistent hdel _
    · obtain ⟨s₁, hdrop, rfl⟩ := Option.map_eq_some_iff.mp hs
      obtain ⟨hcons, hfiles, hfree⟩ := dropLast_spec h hid hdrop
      exact delete_consistent hcons (hfiles ▸ hid) hfree
  · rename_i hlinks
    obtain ⟨s₁, hmove, rfl⟩ := Option.map_eq_some_iff.mp hs
    cases hpoint : e.pointedTo with
    | true =>
      rw [hpoint, if_pos rfl] at hmove
      obtain ⟨hcons, hfree, hid'⟩ := pointToNeighbour_spec h hid hpoint hlinks hmove
      exact delete_consistent hcons hid' hfree
    | false =>
      rw [hpoint] at hmove
      simp only [Bool.false_eq_true, if_false, Option.some.injEq] at hmove
      rw [← hmove]
      exact delete_consistent h hid (unnamed_of_pointedTo h hid hpoint)

theorem deleteFileSQL_consistent (h : Consistent H s) (hs : s.deleteFileSQL id = some s') :
    Consistent H s' := by
  unfold deleteFileSQL at hs
  split at hs
  · rename_i e hid
    exact deleteFileSQLEntry_consistent h hid hs
  · cases hs
    exact h

theorem indexStep_consistent {e : WriterEvent} (h : Consistent H s)
    (hs : s.indexStep e = some s') : Consistent H s' := by
  unfold indexStep at hs
  split at hs
  · cases hs
  · rename_i hput
    obtain ⟨index, hindex, rfl⟩ := Option.map_eq_some_iff.mp hs
    obtain ⟨p, hsplit⟩ := h.writer
    have hlogical := WriterState.step_logical hsplit hindex hput
    obtain ⟨p', hsplit', -⟩ := WriterState.splits_step hsplit hindex
    refine ⟨h.files, ?_, p', hsplit'⟩
    intro key hne
    rw [hlogical] at hne ⊢
    exact h.indexed key hne

end Delete

/-- The hashes of the files that are added. -/
def HashIn (H : Set (List UInt8)) : StoreEvent → Prop
  | .addNew f _ => f.shahash ∈ H
  | .addFound f _ _ _ => f.shahash ∈ H
  | _ => True

theorem step_consistent {H : Set (List UInt8)} {s s' : Store} {e : StoreEvent}
    (hlong : ∀ h ∈ H, bytesInIndex ≤ h.length) (h : Consistent H s) (hhash : HashIn H e)
    (hs : s.step e = some s') : Consistent H s' := by
  cases e with
  | addNew f updateFileindex =>
    exact addFileSQL_consistent h hhash (.inl ⟨rfl, rfl, rfl⟩) hs
  | addFound f clientid st updateFileindex =>
    simp only [step] at hs
    split at hs
    · rename_i id e st' hfind
      obtain ⟨hne, hid, hkey⟩ := findFileHash_found (hlong _ hhash) hfind
      exact addFileSQL_consistent h hhash (.inr ⟨hne, e, hid, hkey, rfl, rfl⟩) hs
    · cases hs
  | delete id => exact deleteFileSQL_consistent h hs
  | index e => exact indexStep_consistent h hs

theorem consistent_initial (H : Set (List UInt8)) : Consistent H initial := by
  refine ⟨⟨⟨?_, ⟨rfl, ?_, ?_⟩, fun _ => 0, ?_⟩, ?_, ?_⟩, ?_, _, WriterState.splits_initial⟩
  · intro id e he
    cases he
  · intro a ea ha
    cases ha
  · intro b eb hb
    cases hb
  · intro a ea ha
    cases ha
  · intro id e he
    cases he
  · intro id e he
    cases he
  · intro key hne
    exact absurd rfl hne

theorem run_consistent {H : Set (List UInt8)} {es : List StoreEvent} {s : Store}
    (hlong : ∀ h ∈ H, bytesInIndex ≤ h.length) (hhash : ∀ e ∈ es, HashIn H e)
    (hrun : TransitionSystem.run step initial es = some s) : Consistent H s := by
  have hguard : ∀ (es : List StoreEvent) (s : Store), (∀ e ∈ es, HashIn H e) →
      TransitionSystem.Guarded step (fun _ => HashIn H) s es := by
    intro es
    induction es with
    | nil => exact fun _ _ => trivial
    | cons e es ih =>
      intro s hes
      exact ⟨hes e List.mem_cons_self, fun s' _ => ih s' fun e' he' =>
        hes e' (List.mem_cons_of_mem _ he')⟩
  exact TransitionSystem.guarded_run_invariant (fun s e s' h hok hs =>
    step_consistent hlong h hok hs) (consistent_initial H) (hguard es initial hhash) hrun

/-- Entries of one file of one client. -/
def SameFile (a b : FileEntry) : Prop :=
  a.shahash = b.shahash ∧ a.filesize = b.filesize ∧ a.clientid = b.clientid

theorem take_eq_of_ofHash {h h' : List UInt8} {filesize filesize' : FileSize}
    {clientid clientid' : ClientId} (hlong : bytesInIndex ≤ h.length)
    (hlong' : bytesInIndex ≤ h'.length)
    (heq : SIndexKey.ofHash h filesize clientid = SIndexKey.ofHash h' filesize' clientid') :
    h.take bytesInIndex = h'.take bytesInIndex := by
  have hvec := congrArg SIndexKey.hash heq
  apply List.ext_getElem
  · rw [List.length_take, List.length_take, Nat.min_eq_left hlong, Nat.min_eq_left hlong']
  · intro i hi hi'
    have hlt : i < bytesInIndex := lt_of_lt_of_le hi (List.length_take_le _ _)
    have hget := congrArg (fun v : Vector UInt8 bytesInIndex => v[i]) hvec
    simp only [SIndexKey.ofHash, Vector.getElem_ofFn] at hget
    rw [List.getElem_take, List.getElem_take]
    rw [List.getD_eq_getElem?_getD, List.getD_eq_getElem?_getD,
      List.getElem?_eq_getElem (by omega), List.getElem?_eq_getElem (by omega)] at hget
    exact hget

theorem sameFile_of_key {H : Set (List UInt8)} {a b : FileEntry}
    (hlong : ∀ h ∈ H, bytesInIndex ≤ h.length)
    (hunique : ∀ h ∈ H, ∀ h' ∈ H, h.take bytesInIndex = h'.take bytesInIndex → h = h')
    (ha : a.shahash ∈ H) (hb : b.shahash ∈ H) (hkey : a.key = b.key) : SameFile a b :=
  ⟨hunique _ ha _ hb (take_eq_of_ofHash (hlong _ ha) (hlong _ hb) hkey),
    congrArg SIndexKey.filesize hkey, congrArg SIndexKey.clientid hkey⟩

/-- In every reachable store the links are mutual and the index names marked entries. -/
theorem links_mutual_and_index_valid {H : Set (List UInt8)} {es : List StoreEvent} {s : Store}
    (hlong : ∀ h ∈ H, bytesInIndex ≤ h.length)
    (hunique : ∀ h ∈ H, ∀ h' ∈ H, h.take bytesInIndex = h'.take bytesInIndex → h = h')
    (hhash : ∀ e ∈ es, HashIn H e) (hrun : TransitionSystem.run step initial es = some s) :
    (∀ a ea b, s.files.find? a = some ea → b ≠ 0 →
      (ea.nextEntry = b ↔ ∃ eb, s.files.find? b = some eb ∧ SameFile ea eb ∧ eb.prevEntry = a)) ∧
    ∀ key id, s.index.index.logical key = id → id ≠ 0 →
      ∃ e, s.files.find? id = some e ∧ e.key = key ∧ e.pointedTo = true := by
  have hcons := run_consistent hlong hhash hrun
  refine ⟨?_, ?_⟩
  · intro a ea b ha hne
    constructor
    · intro hnext
      obtain ⟨eb, hb, hkey, hback⟩ := hcons.files.chained.linked.next a ea ha (hnext ▸ hne)
      rw [hnext] at hb
      exact ⟨eb, hb, sameFile_of_key hlong hunique (hcons.files.hashes a ea ha)
        (hcons.files.hashes b eb hb) hkey.symm, hback⟩
    · rintro ⟨eb, hb, -, hback⟩
      obtain ⟨ea', ha', -, hnext⟩ := hcons.files.chained.linked.prev b eb hb
        (by rw [hback]; exact hcons.files.chained.ne_zero ha)
      rw [hback, ha, Option.some.injEq] at ha'
      rw [ha']
      exact hnext
  · intro key id hid hne
    rw [← hid] at hne ⊢
    exact hcons.indexed key hne

/-- A file, a second copy of it behind the first, and the first one deleted. -/
def copiedFile : NewFile := ⟨1, 1, 0, "a", "h", List.replicate 64 7, 4096, 4096, 1⟩

def copiedRun : List StoreEvent :=
  [.addNew copiedFile false, .addFound copiedFile 1 .initial true, .delete 1]

theorem links_mutual_and_index_valid_copiedRun :
    ∃ s, TransitionSystem.run step initial copiedRun = some s ∧
      ∃ e, s.files.find? 2 = some e ∧ e.key = copiedFile.key ∧ e.pointedTo = true := by
  refine ⟨_, rfl, (@links_mutual_and_index_valid {List.replicate 64 7} copiedRun _ ?_ ?_ ?_
    rfl).2 copiedFile.key 2 ?_ ?_⟩
  · rintro h rfl
    decide
  · rintro h rfl h' rfl _
    rfl
  · intro e he
    simp only [copiedRun, List.mem_cons, List.not_mem_nil, or_false] at he
    rcases he with rfl | rfl | rfl
    · exact rfl
    · exact rfl
    · exact trivial
  · decide
  · decide

end Store

end UrBackup
