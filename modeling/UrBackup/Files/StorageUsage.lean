import UrBackup.Files.StoreInvariant
import UrBackup.Files.UpdateStats

/-! What the clients use of the storage, read off the `files` table: a small file counts for each
row, and a larger one is shared by the clients that have it. -/
namespace UrBackup

abbrev SharedFile := List UInt8 × FileSize

def FileEntry.held (e : FileEntry) : SharedFile × ClientId := ((e.shahash, e.filesize), e.clientid)

namespace FilesTable

open Shares

section Definitions

variable (t : FilesTable)

def rows : List (SharedFile × ClientId) := t.entries.map fun row => row.2.held

def clientsOf (file : SharedFile) : Finset ClientId :=
  ((t.rows.filter fun row => row.1 = file).map Prod.snd).toFinset

def filesOf (c : ClientId) : Finset SharedFile :=
  ((t.rows.filter fun row => row.2 = c ∧ linkFileMinSize ≤ row.1.2.val).map Prod.fst).toFinset

def smallBytes (c : ClientId) : Nat :=
  ((t.rows.filter fun row => row.2 = c ∧ row.1.2.val < linkFileMinSize).map
    fun row => row.1.2.val).sum

def bytesUsed (c : ClientId) : Int :=
  t.smallBytes c + ∑ file ∈ t.filesOf c, ((file.2.val / (t.clientsOf file).card : Nat) : Int)

end Definitions

section Rows

variable {t t' : FilesTable} {id : Int} {e : FileEntry}

theorem rows_congr (h : ∀ a, (t'.find? a).map FileEntry.held = (t.find? a).map FileEntry.held) :
    t'.rows = t.rows := OrderedMap.entries_map_congr h

theorem rows_update (t : FilesTable) (id : Int) {f : FileEntry → FileEntry}
    (hf : ∀ e, (f e).held = e.held) : (update t id f).rows = t.rows := by
  apply rows_congr
  intro a
  rw [find?_update]
  split
  · rw [Option.map_map]
    exact congrArg (Option.map · (t.find? a)) (funext hf)
  · rfl

theorem rows_setPointedTo (t : FilesTable) (pointedTo : Bool) (id : Int) :
    (setPointedTo t pointedTo id).rows = t.rows := rows_update t id fun _ => rfl

theorem rows_links (t : FilesTable) (c c' : Prop) [Decidable c] [Decidable c'] (id id' : Int)
    {f f' : FileEntry → FileEntry} (hf : ∀ e, (f e).held = e.held)
    (hf' : ∀ e, (f' e).held = e.held) :
    rows (if c' then update (if c then update t id f else t) id' f'
      else if c then update t id f else t) = t.rows := by
  have hinner : rows (if c then update t id f else t) = t.rows := by
    split
    · exact rows_update t id hf
    · rfl
  split
  · exact (rows_update _ id' hf').trans hinner
  · exact hinner

theorem rows_add (t : FilesTable) (e : FileEntry) :
    (addFileEntryExternal t e).1.rows.Perm (e.held :: t.rows) := by
  have hinsert : (rows (t.insert t.nextRowId e)).Perm (e.held :: t.rows) :=
    (OrderedMap.insert_perm (find?_nextRowId t) e).map fun row : Int × FileEntry => row.2.held
  have hlinks : (addFileEntryExternal t e).1.rows = rows (t.insert t.nextRowId e) :=
    @rows_links (t.insert t.nextRowId e) (e.prevEntry ≠ 0) (e.nextEntry ≠ 0) _ _ e.prevEntry
      e.nextEntry (fun ep => { ep with nextEntry := t.nextRowId })
      (fun en => { en with prevEntry := t.nextRowId }) (fun _ => rfl) fun _ => rfl
  rw [hlinks]
  exact hinsert

theorem rows_unlink (t : FilesTable) (e : FileEntry) : (unlink t e).rows = t.rows :=
  @rows_links t (e.nextEntry ≠ 0) (e.prevEntry ≠ 0) _ _ e.nextEntry e.prevEntry
    (fun en => { en with prevEntry := e.prevEntry })
    (fun ep => { ep with nextEntry := e.nextEntry }) (fun _ => rfl) fun _ => rfl

theorem rows_delete (hzero : t.find? 0 = none) (h : t.find? id = some e) :
    (e.held :: (delFileEntry (unlink t e) id).rows).Perm t.rows := by
  have hunlink : (unlink t e).find? id =
      some (patch e.prevEntry e.nextEntry e.nextEntry e.prevEntry id e) := by
    rw [find?_unlink hzero, h]
    rfl
  have herase := (OrderedMap.erase_perm hunlink).map fun row : Int × FileEntry => row.2.held
  exact herase.trans (List.Perm.of_eq (rows_unlink t e))

theorem mem_rows {row : SharedFile × ClientId} :
    row ∈ t.rows ↔ ∃ id e, t.find? id = some e ∧ e.held = row := by
  unfold rows
  rw [List.mem_map]
  constructor
  · rintro ⟨⟨id, e⟩, hmem, heq⟩
    exact ⟨id, e, OrderedMap.find?_eq_some_iff.mpr hmem, heq⟩
  · rintro ⟨id, e, hid, heq⟩
    exact ⟨(id, e), OrderedMap.find?_eq_some_iff.mp hid, heq⟩

theorem mem_clientsOf {file : SharedFile} {c : ClientId} :
    c ∈ t.clientsOf file ↔ (file, c) ∈ t.rows := by
  unfold clientsOf
  rw [List.mem_toFinset, List.mem_map]
  constructor
  · rintro ⟨⟨f, c'⟩, hmem, rfl⟩
    rw [List.mem_filter, decide_eq_true_eq] at hmem
    rw [← hmem.2]
    exact hmem.1
  · intro hmem
    exact ⟨(file, c), List.mem_filter.mpr ⟨hmem, decide_eq_true rfl⟩, rfl⟩

theorem mem_filesOf {file : SharedFile} {c : ClientId} :
    file ∈ t.filesOf c ↔ (file, c) ∈ t.rows ∧ linkFileMinSize ≤ file.2.val := by
  unfold filesOf
  rw [List.mem_toFinset, List.mem_map]
  constructor
  · rintro ⟨⟨f, c'⟩, hmem, rfl⟩
    rw [List.mem_filter, decide_eq_true_eq] at hmem
    rw [← hmem.2.1]
    exact ⟨hmem.1, hmem.2.2⟩
  · intro hmem
    exact ⟨(file, c), List.mem_filter.mpr ⟨hmem.1, decide_eq_true ⟨rfl, hmem.2⟩⟩, rfl⟩

end Rows

section Usage

variable {t t' : FilesTable} {row : SharedFile × ClientId}

theorem bytesUsed_eq {things : Finset SharedFile}
    (hlarge : ∀ file ∈ things, linkFileMinSize ≤ file.2.val)
    (hall : ∀ row ∈ t.rows, linkFileMinSize ≤ row.1.2.val → row.1 ∈ things) (c : ClientId) :
    t.bytesUsed c = t.smallBytes c + usage things (fun file => file.2.val) t.clientsOf c := by
  have hfiles : t.filesOf c = things.filter fun file => c ∈ t.clientsOf file := by
    ext file
    rw [mem_filesOf, Finset.mem_filter, mem_clientsOf]
    constructor
    · exact fun h => ⟨hall _ h.1 h.2, h.1⟩
    · exact fun h => ⟨h.2, hlarge file h.1⟩
  unfold bytesUsed usage share
  rw [hfiles, Finset.sum_filter]

theorem bytesUsed_nonneg (t : FilesTable) (c : ClientId) : 0 ≤ t.bytesUsed c :=
  Int.add_nonneg (Int.natCast_nonneg _) (Finset.sum_nonneg fun _ _ => Int.natCast_nonneg _)

theorem bytesUsed_eq_zero {c : ClientId} (h : ∀ row ∈ t.rows, row.2 ≠ c) : t.bytesUsed c = 0 := by
  have hsmall : t.smallBytes c = 0 := by
    unfold smallBytes
    rw [List.filter_eq_nil_iff.mpr, List.map_nil, List.sum_nil]
    intro row hrow hmem
    exact h row hrow (of_decide_eq_true hmem).1
  have hfiles : t.filesOf c = ∅ := by
    apply Finset.eq_empty_of_forall_notMem
    intro file hfile
    exact h _ (mem_filesOf.mp hfile).1 rfl
  unfold bytesUsed
  rw [hsmall, hfiles, Finset.sum_empty]
  rfl

def sharedFiles (t t' : FilesTable) : Finset SharedFile :=
  ((t.rows ++ t'.rows).filter fun row => linkFileMinSize ≤ row.1.2.val).map Prod.fst |>.toFinset

theorem mem_sharedFiles {file : SharedFile} :
    file ∈ sharedFiles t t' ↔ linkFileMinSize ≤ file.2.val ∧
      ∃ c, (file, c) ∈ t.rows ∨ (file, c) ∈ t'.rows := by
  unfold sharedFiles
  rw [List.mem_toFinset, List.mem_map]
  constructor
  · rintro ⟨⟨f, c⟩, hmem, rfl⟩
    rw [List.mem_filter, decide_eq_true_eq, List.mem_append] at hmem
    exact ⟨hmem.2, c, hmem.1⟩
  · rintro ⟨hlarge, c, hmem⟩
    exact ⟨(file, c), List.mem_filter.mpr ⟨List.mem_append.mpr hmem, decide_eq_true hlarge⟩, rfl⟩

theorem bytesUsed_both (t t' : FilesTable) (c : ClientId) :
    t.bytesUsed c = t.smallBytes c +
        usage (sharedFiles t t') (fun file => file.2.val) t.clientsOf c ∧
      t'.bytesUsed c = t'.smallBytes c +
        usage (sharedFiles t t') (fun file => file.2.val) t'.clientsOf c := by
  have hlarge (file : SharedFile) (h : file ∈ sharedFiles t t') :
      linkFileMinSize ≤ file.2.val := (mem_sharedFiles.mp h).1
  refine ⟨bytesUsed_eq hlarge ?_ c, bytesUsed_eq hlarge ?_ c⟩
  · exact fun row hrow hsize => mem_sharedFiles.mpr ⟨hsize, row.2, .inl hrow⟩
  · exact fun row hrow hsize => mem_sharedFiles.mpr ⟨hsize, row.2, .inr hrow⟩

theorem clientsOf_cons (h : t'.rows.Perm (row :: t.rows)) :
    t'.clientsOf row.1 = insert row.2 (t.clientsOf row.1) := by
  ext c
  rw [mem_clientsOf, Finset.mem_insert, mem_clientsOf, h.mem_iff, List.mem_cons, Prod.ext_iff]
  exact or_congr (and_iff_right rfl) Iff.rfl

theorem clientsOf_cons_of_ne (h : t'.rows.Perm (row :: t.rows)) {file : SharedFile}
    (hne : file ≠ row.1) : t'.clientsOf file = t.clientsOf file := by
  ext c
  rw [mem_clientsOf, mem_clientsOf, h.mem_iff, List.mem_cons]
  exact or_iff_right fun heq => hne (congrArg Prod.fst heq)

theorem bytesUsed_cons_small (h : t'.rows.Perm (row :: t.rows))
    (hsmall : row.1.2.val < linkFileMinSize) (c : ClientId) :
    t'.bytesUsed c = t.bytesUsed c + share row.1.2.val {row.2} c := by
  have hsum : (t'.smallBytes c : Int) = t.smallBytes c + share row.1.2.val {row.2} c := by
    unfold smallBytes
    rw [((h.filter _).map fun row => row.1.2.val).sum_eq]
    unfold share
    by_cases hc : row.2 = c
    · rw [List.filter_cons_of_pos (by simp [hc, hsmall]), List.map_cons, List.sum_cons,
        if_pos (Finset.mem_singleton.mpr hc.symm), Finset.card_singleton, Nat.div_one]
      omega
    · rw [List.filter_cons_of_neg (by simp [hc]),
        if_neg fun hmem => hc (Finset.mem_singleton.mp hmem).symm]
      omega
  have hsame : usage (sharedFiles t t') (fun file => file.2.val) t'.clientsOf c =
      usage (sharedFiles t t') (fun file => file.2.val) t.clientsOf c := by
    apply usage_congr
    intro file hfile
    apply clientsOf_cons_of_ne h
    rintro rfl
    exact absurd hsmall (not_lt.mpr (mem_sharedFiles.mp hfile).1)
  obtain ⟨hbefore, hafter⟩ := bytesUsed_both t t' c
  rw [hbefore, hafter, hsum, hsame]
  omega

theorem bytesUsed_cons_large (h : t'.rows.Perm (row :: t.rows))
    (hlarge : linkFileMinSize ≤ row.1.2.val) (c : ClientId) :
    t'.bytesUsed c = t.bytesUsed c + (share row.1.2.val (insert row.2 (t.clientsOf row.1)) c -
      share row.1.2.val (t.clientsOf row.1) c) := by
  have hsum : t'.smallBytes c = t.smallBytes c := by
    unfold smallBytes
    rw [((h.filter _).map fun row => row.1.2.val).sum_eq, List.filter_cons_of_neg]
    rw [decide_eq_true_eq]
    exact fun hrow => absurd hrow.2 (not_lt.mpr hlarge)
  have hmem : row.1 ∈ sharedFiles t t' :=
    mem_sharedFiles.mpr ⟨hlarge, row.2, .inr (h.mem_iff.mpr List.mem_cons_self)⟩
  have hchange : usage (sharedFiles t t') (fun file => file.2.val) t'.clientsOf c =
      usage (sharedFiles t t') (fun file => file.2.val) t.clientsOf c +
        (share row.1.2.val (t'.clientsOf row.1) c - share row.1.2.val (t.clientsOf row.1) c) :=
    usage_change hmem (fun _ _ hne => clientsOf_cons_of_ne h hne) c
  obtain ⟨hbefore, hafter⟩ := bytesUsed_both t t' c
  rw [hbefore, hafter, hsum, hchange, clientsOf_cons h]
  omega

end Usage

end FilesTable

end UrBackup
