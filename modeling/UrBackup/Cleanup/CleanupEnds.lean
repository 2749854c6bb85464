import UrBackup.Cleanup.FileBackups
import UrBackup.Cleanup.ImagesEnd
import Mathlib.Data.List.Perm.Subperm

/-! When the loops of the cleanup end: a turn deletes a backup or remembers it, or it comes to a backup
with which it can do neither. -/
namespace UrBackup

open Loop

namespace BackupCleanup

variable {s s' : BackupCleanup} {id : Int}

def left (s : BackupCleanup) : List FileBackupRow := s.backups.filter fun row => row.id ∉ s.removeerr

/-- A backup is not tried again. -/
structure Uses (id : Int) (s s' : BackupCleanup) : Prop where
  images : s'.images = s.images
  backups : s'.backups.Sublist s.backups
  sublist : s'.left.Sublist s.left
  used : ∀ row ∈ s'.left, row.id ≠ id

theorem uses_of (himages : s'.images = s.images) (hbackups : s'.backups.Sublist s.backups)
    (herr : s.removeerr ⊆ s'.removeerr)
    (hgone : id ∈ s'.removeerr ∨ ∀ row ∈ s'.backups, row.id ≠ id) : Uses id s s' where
  images := himages
  backups := hbackups
  sublist := by
    refine (hbackups.filter _).trans (List.monotone_filter_right s.backups ?_)
    intro row hrow
    simp only [decide_eq_true_eq] at hrow ⊢
    exact fun hmem => hrow (herr hmem)
  used := by
    intro row hrow hid
    obtain ⟨hmem, hnot⟩ := List.mem_filter.mp hrow
    rw [decide_eq_true_eq, hid] at hnot
    exact hgone.elim hnot fun hnone => hnone row hmem hid

theorem Uses.length_lt (h : Uses id s s') {row : FileBackupRow} (hrow : row ∈ s.left)
    (hid : row.id = id) : s'.left.length < s.left.length := by
  apply Nat.lt_of_le_of_ne h.sublist.length_le
  intro hlength
  have hsame := h.sublist.eq_of_length hlength
  rw [← hsame] at hrow
  exact h.used row hrow hid

end BackupCleanup

namespace FileCleanup

open BackupCleanup

variable {c : FileCleanup} {s s' : BackupCleanup} {backupfolder : String} {clientid backupid : Int}
  {forceRemove incremental b : Bool}

theorem deleteFileBackup_early (h : s.ReturnsEarly backupfolder clientid backupid) :
    c.deleteFileBackup backupfolder clientid backupid forceRemove s = (false, s) := by
  unfold deleteFileBackup
  cases hname : s.getClientName clientid with
  | none => rfl
  | some clientname =>
    dsimp only
    cases hpath : s.getFileBackupPath backupid with
    | none => simp
    | some backuppath =>
      simp only [ReturnsEarly, hname, hpath, Option.some.injEq, reduceCtorEq, false_or] at h
      by_cases hclient : s.getFileBackupClientId backupid = clientid
      · simp only [hclient, ne_eq, not_true, if_false, false_or] at h ⊢
        split
        · rfl
        · split
          · rfl
          · rw [if_pos]
            tauto
      · simp [hclient]

theorem deleteFileBackup_late (h : ¬ s.ReturnsEarly backupfolder clientid backupid) :
    ∃ clientname backuppath path, c.deleteFileBackup backupfolder clientid backupid forceRemove s =
      c.deleteDirectory forceRemove backupid clientname backuppath path s := by
  unfold deleteFileBackup
  cases hname : s.getClientName clientid with
  | none => exact absurd (.inl hname) h
  | some clientname =>
    cases hpath : s.getFileBackupPath backupid with
    | none => exact absurd (.inr (.inr (.inr (.inl hpath)))) h
    | some backuppath =>
      simp only [ReturnsEarly, hname, hpath, Option.some.injEq, reduceCtorEq, false_or, not_or,
        not_not] at h
      obtain ⟨hclientname, hclient, hbackuppath, hfolder⟩ := h
      simp only [hclient, ne_eq, not_true, if_false, hbackuppath, hfolder, hclientname]
      exact ⟨_, _, _, rfl⟩

theorem deleteDirectory_uses {clientname backuppath path : String}
    (h : c.deleteDirectory forceRemove backupid clientname backuppath path s = (b, s')) :
    Uses backupid s s' ∧ (forceRemove = true → ∀ row ∈ s'.backups, row.id ≠ backupid) := by
  unfold deleteDirectory at h
  generalize c.removeDirectory s clientname backuppath path = answer at h
  obtain ⟨removed, stays⟩ := answer
  have hfilter : (s.backups.filter fun row => row.id ≠ backupid).Sublist s.backups :=
    List.filter_sublist
  have hrows : ∀ row ∈ s.backups.filter fun row => row.id ≠ backupid, row.id ≠ backupid :=
    fun row hrow => of_decide_eq_true (List.mem_filter.mp hrow).2
  cases stays with
  | false =>
    simp only [Bool.and_false, Bool.false_eq_true, if_false, Bool.not_false, Bool.true_or,
      if_true] at h
    cases h
    exact ⟨uses_of rfl hfilter (List.Subset.refl _) (.inr hrows), fun _ => hrows⟩
  | true =>
    have hs' : ∃ err, backupid ∈ err ∧ s' = { s with
        tries := s.tries ++ [(path, true)], removeerr := s.removeerr ++ err
        backups := if forceRemove then s.backups.filter fun row => row.id ≠ backupid
          else s.backups } := by
      refine ⟨if removed then [backupid] else [backupid, backupid], by split <;> simp, ?_⟩
      have hsecond : _ = s' := congrArg Prod.snd h
      rw [← hsecond]
      cases removed with
      | false => cases forceRemove <;> simp [removeFileBackupSql]
      | true => cases forceRemove <;> simp [removeFileBackupSql]
    obtain ⟨err, hmem, rfl⟩ := hs'
    refine ⟨uses_of rfl ?_ (List.subset_append_left _ _) (.inl (List.mem_append_right _ hmem)), ?_⟩
    · dsimp only
      split
      · exact hfilter
      · exact List.Sublist.refl _
    · rintro rfl
      exact hrows

/-- A backup that does not make `deleteFileBackup` return early is not tried again. -/
theorem deleteFileBackup_uses (h : ¬ s.ReturnsEarly backupfolder clientid backupid)
    (hdelete : c.deleteFileBackup backupfolder clientid backupid forceRemove s = (b, s')) :
    Uses backupid s s' ∧ (forceRemove = true → ∀ row ∈ s'.backups, row.id ≠ backupid) := by
  obtain ⟨clientname, backuppath, path, hlate⟩ := @deleteFileBackup_late c _ _ _ _ forceRemove h
  rw [hlate] at hdelete
  exact deleteDirectory_uses hdelete

theorem nextBackup_left (h : c.nextBackup clientid incremental s = some backupid) :
    ∃ row ∈ s.left, row.id = backupid := by
  unfold nextBackup getFilesNum at h
  dsimp only at h
  split at h
  · have hmem := List.mem_of_head? h
    obtain ⟨hid, hnot⟩ := List.mem_filter.mp hmem
    obtain ⟨row, hrow, rfl⟩ := List.mem_map.mp hid
    have hback := (List.mem_filter.mp (List.mem_mergeSort.mp hrow)).1
    exact ⟨row, List.mem_filter.mpr ⟨hback, hnot⟩, rfl⟩
  · cases h

theorem clientTurn_left {st : Bool × BackupCleanup} (h : ¬ c.ClientStuck clientid st) :
    match c.clientTurn clientid st with
    | .inl (deleted, s') => s'.images = st.2.images ∧
        if deleted then s'.left.length < st.2.left.length else s' = st.2
    | .inr (incremental, s') => s'.images = st.2.images ∧
        (incremental = st.1 ∧ s'.left.length < st.2.left.length ∨
          st.1 = false ∧ incremental = true ∧ s' = st.2) := by
  obtain ⟨incremental, s⟩ := st
  unfold clientTurn
  cases hnext : c.nextBackup clientid incremental s with
  | none =>
    cases incremental with
    | false => simp
    | true => simp
  | some backupid =>
    have hlate : ¬ s.ReturnsEarly (c.clientBackupfolder clientid) clientid backupid :=
      fun hearly => h ⟨backupid, hnext, hearly⟩
    obtain ⟨row, hrow, hid⟩ := nextBackup_left hnext
    dsimp only
    cases hdelete : c.deleteFileBackup (c.clientBackupfolder clientid) clientid backupid false s with
    | mk deleted s' =>
      have huses := (deleteFileBackup_uses hlate hdelete).1
      have hlt := huses.length_lt hrow hid
      cases deleted with
      | false => exact ⟨huses.images, .inl ⟨rfl, hlt⟩⟩
      | true => exact ⟨huses.images, hlt⟩

theorem clientTurn_stuck {st : Bool × BackupCleanup} (h : c.ClientStuck clientid st) :
    c.clientTurn clientid st = .inr st := by
  obtain ⟨backupid, hnext, hearly⟩ := h
  unfold clientTurn
  rw [hnext]
  dsimp only
  rw [deleteFileBackup_early hearly]
  rfl

/-- The loops over the backups of a client end exactly if they do not come to a backup that is
neither deleted nor remembered. -/
theorem clientTurn_ends_iff (clientid : Int) (st : Bool × BackupCleanup) :
    (∃ b, Ends (c.clientTurn clientid) st b) ↔
      ∀ st', Reaches (c.clientTurn clientid) st st' → ¬ c.ClientStuck clientid st' := by
  refine @ends_iff_never _ _ _ (fun _ => True) (c.ClientStuck clientid)
    (fun st => st.2.left.length + if st.1 then 0 else 1) ?_ ?_ st trivial
  · exact fun st hstuck => ⟨st, clientTurn_stuck hstuck, hstuck⟩
  · intro st _ hstuck
    have hleft := clientTurn_left hstuck
    cases hturn : c.clientTurn clientid st with
    | inl b => trivial
    | inr st' =>
      rw [hturn] at hleft
      refine ⟨trivial, ?_⟩
      obtain ⟨-, ⟨hsame, hlt⟩ | ⟨hfull, hincr, hs⟩⟩ := hleft
      · rw [hsame]
        exact Nat.add_lt_add_right hlt _
      · simp [hfull, hincr, hs]

section Files

/-- There are no more clients to go through than there are rows of clients. -/
theorem getClientsSortFilebackups_length (s : BackupCleanup) :
    s.getClientsSortFilebackups.length ≤ s.images.db.clients.length := by
  have hsub : s.getClientsSortFilebackups ⊆ s.images.db.clients.map ImageClient.id := by
    intro clientid hmem
    obtain ⟨row, hrow, rfl⟩ := List.mem_map.mp (List.mem_dedup.mp hmem)
    obtain ⟨client, hclient, hid⟩ := List.any_eq_true.mp
      (List.mem_filter.mp (List.mem_mergeSort.mp hrow)).2
    exact List.mem_map.mpr ⟨client, hclient, of_decide_eq_true hid⟩
  have hlength := ((List.Nodup.subperm (List.nodup_dedup _) hsub)).length_le
  rwa [List.length_map] at hlength

def FilesLoop.phase (clients : Nat) (l : FilesLoop) : Nat :=
  (if l.deletedSomething then 3 * clients + 1 else 0) + 3 * l.clients.length +
    match l.current with
    | none => 0
    | some (_, true) => 1
    | some (_, false) => 2

/-- The phase grows with a deletion only, and not by more than the clients allow. -/
def FilesLoop.rank (l : FilesLoop) : Nat :=
  l.s.left.length * (3 * l.s.images.db.clients.length + 2) +
    l.phase l.s.images.db.clients.length

theorem FilesLoop.rank_lt {l l' : FilesLoop} (himages : l'.s.images = l.s.images)
    (h : l'.s.left.length < l.s.left.length ∧
        l'.phase l.s.images.db.clients.length < l.phase l.s.images.db.clients.length +
          (3 * l.s.images.db.clients.length + 2) ∨
      l'.s.left.length = l.s.left.length ∧
        l'.phase l.s.images.db.clients.length < l.phase l.s.images.db.clients.length) :
    l'.rank < l.rank := by
  unfold rank
  rw [himages]
  generalize 3 * l.s.images.db.clients.length + 2 = weight at h ⊢
  obtain ⟨hlt, hphase⟩ | ⟨hsame, hphase⟩ := h
  · have hmul := Nat.mul_le_mul_right weight (Nat.succ_le_of_lt hlt)
    rw [Nat.succ_mul] at hmul
    omega
  · rw [hsame]
    exact Nat.add_lt_add_left hphase _

theorem filesTurn_rank {l : FilesLoop}
    (hclients : l.clients.length ≤ l.s.images.db.clients.length) (h : ¬ c.FilesStuck l) :
    match c.filesTurn l with
    | .inl _ => True
    | .inr l' => l'.clients.length ≤ l'.s.images.db.clients.length ∧ l'.rank < l.rank := by
  obtain ⟨s, clients, deletedSomething, current⟩ := l
  dsimp only at hclients
  cases current with
  | some loop =>
    obtain ⟨clientid, incremental⟩ := loop
    have hleft := @clientTurn_left c clientid (incremental, s)
      fun hstuck => h ⟨clientid, incremental, rfl, hstuck⟩
    simp only [filesTurn]
    cases hturn : c.clientTurn clientid (incremental, s) with
    | inl res =>
      obtain ⟨deleted, s'⟩ := res
      rw [hturn] at hleft
      obtain ⟨himages, hleft⟩ := hleft
      cases deleted with
      | false =>
        obtain rfl : s' = s := hleft
        refine ⟨hclients, FilesLoop.rank_lt rfl (.inr ⟨rfl, ?_⟩)⟩
        cases incremental <;> simp [FilesLoop.phase]
      | true =>
        by_cases hover : c.isOver s' = true
        · simp only [hover, if_true]
        · simp only [hover]
          refine ⟨himages ▸ hclients, FilesLoop.rank_lt himages (.inl ⟨hleft, ?_⟩)⟩
          cases incremental <;> simp only [FilesLoop.phase, if_true] <;> omega
    | inr res =>
      obtain ⟨incremental', s'⟩ := res
      rw [hturn] at hleft
      obtain ⟨himages, ⟨hsame, hlt⟩ | ⟨hfull, hincr, hs⟩⟩ := hleft
      · obtain rfl : incremental' = incremental := hsame
        refine ⟨himages ▸ hclients, FilesLoop.rank_lt himages (.inl ⟨hlt, ?_⟩)⟩
        simp only [FilesLoop.phase]
        omega
      · obtain rfl : incremental = false := hfull
        obtain rfl : incremental' = true := hincr
        obtain rfl : s' = s := hs
        refine ⟨hclients, FilesLoop.rank_lt rfl (.inr ⟨rfl, ?_⟩)⟩
        simp [FilesLoop.phase]
  | none =>
    cases clients with
    | cons clientid clients =>
      simp only [filesTurn]
      refine ⟨Nat.le_of_succ_le hclients, FilesLoop.rank_lt rfl (.inr ⟨rfl, ?_⟩)⟩
      simp only [FilesLoop.phase, List.length_cons]
      omega
    | nil =>
      simp only [filesTurn]
      by_cases hagain : (deletedSomething && !c.isOver s) = true
      · have hlength := getClientsSortFilebackups_length s
        simp only [hagain, if_true]
        refine ⟨hlength, FilesLoop.rank_lt rfl (.inr ⟨rfl, ?_⟩)⟩
        simp only [FilesLoop.phase, (Bool.and_eq_true_iff.mp hagain).1, List.length_nil, if_true]
        simp only [Bool.false_eq_true, if_false]
        omega
      · simp only [hagain, Bool.false_eq_true, if_false]

theorem filesTurn_stuck {l : FilesLoop} (h : c.FilesStuck l) : c.filesTurn l = .inr l := by
  obtain ⟨clientid, incremental, hcurrent, hstuck⟩ := h
  obtain ⟨s, clients, deletedSomething, current⟩ := l
  obtain rfl : current = some (clientid, incremental) := hcurrent
  simp only [filesTurn, clientTurn_stuck hstuck]

/-- The loops over all clients end exactly if they do not come to a backup that is neither deleted
nor remembered. -/
theorem filesTurn_ends_iff (s : BackupCleanup) :
    (∃ b, Ends c.filesTurn (FilesLoop.start s) b) ↔
      ∀ l, Reaches c.filesTurn (FilesLoop.start s) l → ¬ c.FilesStuck l := by
  refine @ends_iff_never _ _ _ (fun l => l.clients.length ≤ l.s.images.db.clients.length)
    c.FilesStuck FilesLoop.rank ?_ ?_ _ (Nat.zero_le _)
  · exact fun l hstuck => ⟨l, filesTurn_stuck hstuck, hstuck⟩
  · intro l hclients hstuck
    have hrank := filesTurn_rank hclients hstuck
    cases hturn : c.filesTurn l with
    | inl b => trivial
    | inr l' =>
      rw [hturn] at hrank
      exact hrank

end Files

section RemoveClient

theorem mem_of_head_filter_map {α : Type*} {p : α → Bool} {f : α → Int} {rows : List α}
    (h : ((rows.filter p).map f).head? = some backupid) : ∃ row ∈ rows, f row = backupid := by
  obtain ⟨row, hrow, hid⟩ := List.mem_map.mp (List.mem_of_head? h)
  exact ⟨row, (List.mem_filter.mp hrow).1, hid⟩

theorem removeImage_images {clientname : String}
    (h : s.images.db.getImageClientname backupid = some clientname) :
    (c.removeImage backupid s).images.db.images =
      s.images.db.images.filter fun image => image.id ≠ backupid := by
  obtain ⟨image, himage, -⟩ := Option.bind_eq_some_iff.mp h
  have hpath : s.images.db.getImagePath backupid = some image.path := by
    simp only [ImageDb.getImagePath, himage, Option.map_some]
  show (CleanupState.removeFiles c.deleteImage backupid _ true true true _ s.images).2.db.images = _
  rw [CleanupState.removeFiles_eq, hpath, h]
  simp only [Bool.or_true, if_true]
  rfl

theorem removeImage_stays (h : s.images.db.getImageClientname backupid = none) :
    (c.removeImage backupid s).images.db = s.images.db := by
  show (CleanupState.removeFiles c.deleteImage backupid _ true true true _ s.images).2.db = _
  rw [CleanupState.removeFiles_eq, h]
  cases s.images.db.getImagePath backupid <;> rfl

theorem filter_length_lt {α : Type*} {f : α → Int} {rows : List α}
    (h : ∃ row ∈ rows, f row = backupid) :
    (rows.filter fun row => f row ≠ backupid).length < rows.length := by
  obtain ⟨row, hrow, hid⟩ := h
  exact List.length_filter_lt_length_iff_exists.mpr ⟨row, hrow, by simp [hid]⟩

theorem removeClientTurn_rank {st : Bool × BackupCleanup}
    (h : ¬ c.RemoveClientStuck clientid st) :
    match c.removeClientTurn clientid st with
    | .inl _ => True
    | .inr st' => (if st'.1 then 0 else st'.2.images.db.images.length + 1) + st'.2.backups.length <
        (if st.1 then 0 else st.2.images.db.images.length + 1) + st.2.backups.length := by
  obtain ⟨removesFiles, s⟩ := st
  cases removesFiles with
  | true =>
    simp only [removeClientTurn, if_true]
    cases hhead : (s.getClientFileBackups clientid).head? with
    | none => trivial
    | some backupid =>
      have hlate : ¬ s.ReturnsEarly c.backupfolder clientid backupid :=
        fun hearly => h ⟨backupid, hhead, hearly⟩
      obtain ⟨row, hrow, hid⟩ := mem_of_head_filter_map hhead
      obtain ⟨huses, hgone⟩ := @deleteFileBackup_uses c s _ c.backupfolder clientid backupid true _
        hlate rfl
      simp only [if_true, Nat.zero_add]
      apply Nat.lt_of_le_of_ne huses.backups.length_le
      intro hlength
      rw [← huses.backups.eq_of_length hlength] at hrow
      exact hgone rfl row hrow hid
  | false =>
    simp only [removeClientTurn, Bool.false_eq_true, if_false]
    cases hhead : (s.getClientImages clientid).head? with
    | none => simp
    | some backupid =>
      cases hname : s.images.db.getImageClientname backupid with
      | none => exact absurd ⟨backupid, hhead, hname⟩ h
      | some clientname =>
        have hlt := filter_length_lt (mem_of_head_filter_map hhead)
        simp only [Bool.false_eq_true, if_false, removeImage_images hname]
        have hbackups : (c.removeImage backupid s).backups = s.backups := rfl
        rw [hbackups]
        omega

theorem removeClientTurn_stuck {st : Bool × BackupCleanup} (h : c.RemoveClientStuck clientid st) :
    ∃ st', c.removeClientTurn clientid st = .inr st' ∧ c.RemoveClientStuck clientid st' := by
  obtain ⟨removesFiles, s⟩ := st
  cases removesFiles with
  | true =>
    obtain ⟨backupid, hhead, hearly⟩ := h
    refine ⟨(true, s), ?_, backupid, hhead, hearly⟩
    simp only [removeClientTurn, if_true, hhead, deleteFileBackup_early hearly]
  | false =>
    obtain ⟨backupid, hhead, hname⟩ := h
    have hdb := @removeImage_stays c s backupid hname
    refine ⟨(false, c.removeImage backupid s), ?_, backupid, ?_, ?_⟩
    · simp only [removeClientTurn, Bool.false_eq_true, if_false, hhead]
    · simp only [getClientImages, hdb]
      exact hhead
    · simp only [hdb]
      exact hname

/-- The loops that delete a client end exactly if they come neither to a backup whose deletion
returns early nor to an image without a client. -/
theorem removeClientTurn_ends_iff (clientid : Int) (s : BackupCleanup) :
    (∃ b, Ends (c.removeClientTurn clientid) (false, s) b) ↔
      ∀ st, Reaches (c.removeClientTurn clientid) (false, s) st →
        ¬ c.RemoveClientStuck clientid st := by
  refine @ends_iff_never _ _ _ (fun _ => True) (c.RemoveClientStuck clientid)
    (fun st => (if st.1 then 0 else st.2.images.db.images.length + 1) + st.2.backups.length)
    ?_ ?_ _ trivial
  · exact fun st hstuck => removeClientTurn_stuck hstuck
  · intro st _ hstuck
    have hrank := removeClientTurn_rank hstuck
    cases hturn : c.removeClientTurn clientid st with
    | inl b => trivial
    | inr st' =>
      rw [hturn] at hrank
      exact ⟨trivial, hrank⟩

end RemoveClient

/-- The loops over the backups of a client, over all clients and over what is left of a client end
exactly if they come to no backup with which nothing can be done, and to no image without a client.
The loops over the images of a client end if references and associations have no cycle. -/
theorem cleanup_loops_end_iff (c : FileCleanup) (images : ImageCleanup) (clientid : Int)
    (s : BackupCleanup) :
    ((∃ b, Ends (c.clientTurn clientid) (false, s) b) ↔
      ∀ st, Reaches (c.clientTurn clientid) (false, s) st → ¬ c.ClientStuck clientid st) ∧
    ((∃ b, Ends c.filesTurn (FilesLoop.start s) b) ↔
      ∀ l, Reaches c.filesTurn (FilesLoop.start s) l → ¬ c.FilesStuck l) ∧
    ((∃ b, Ends (c.removeClientTurn clientid) (false, s) b) ↔
      ∀ st, Reaches (c.removeClientTurn clientid) (false, s) st →
        ¬ c.RemoveClientStuck clientid st) ∧
    ((∃ rank, CleanupState.Ranked rank s.images.db) →
      ∃ fuel res, images.cleanupImagesClient fuel clientid s.images = some res) := by
  refine ⟨clientTurn_ends_iff clientid _, filesTurn_ends_iff s, removeClientTurn_ends_iff clientid s, ?_⟩
  rintro ⟨rank, hranked⟩
  exact images.cleanupImagesClient_ends clientid hranked

section Example

def keepsNone : FileCleanup where
  minspace := -1
  maxFileFull := fun _ => 0
  minFileFull := fun _ => 0
  maxFileIncr := fun _ => 0
  minFileIncr := fun _ => 0
  clientBackupfolder := fun _ => "/backups"
  backupfolder := "/backups"
  now := 1000
  freeSpace := fun _ => 0
  directoryExists := fun _ _ => true
  removeDirectory := fun _ _ _ _ => (true, false)
  deleteImage := fun _ _ _ => true

def withoutPath : BackupCleanup where
  images := ⟨⟨[], [], [⟨1, "laptop", 0⟩], []⟩, []⟩
  backups := [⟨1, 1, 0, "", 0, 0, 100⟩]
  removeerr := []
  tries := []

/-- The backup is found again and again. -/
theorem backup_without_path_is_tried_forever :
    ¬ ∃ b, Ends (keepsNone.clientTurn 1) (false, withoutPath) b := by
  have hstuck : keepsNone.ClientStuck 1 (false, withoutPath) := by
    refine ⟨1, ?_, by decide⟩
    simp [nextBackup, getFilesNum, getNumFiles, limit, keepsNone, withoutPath]
  rintro ⟨b, hends⟩
  exact @not_ends_of_invariant _ _ _ (fun st => keepsNone.ClientStuck 1 st)
    (fun st hst => ⟨st, clientTurn_stuck hst, hst⟩) _ hstuck b hends

end Example

end FileCleanup

end UrBackup
