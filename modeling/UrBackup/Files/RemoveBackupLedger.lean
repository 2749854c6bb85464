import UrBackup.Files.RemoveBackup

/-! Deleting entries one by one and removing a backup as a whole do the same to the table and
to the index, entry by entry. -/
namespace UrBackup

open FilesTable

namespace Store

def ledger (s : Store) : Ledger := ⟨s.files.find?, s.index.index.logical⟩

end Store

section Rows

variable {t : FilesTable} {id : Int} {e : FileEntry}

theorem find?_update_eq (t : FilesTable) (id : Int) (f : FileEntry → FileEntry) :
    (FilesTable.update t id f).find? = Ledger.update t.find? (some id) f := by
  funext a
  simp only [Ledger.update, find?_update, Option.some.injEq]

theorem find?_updateIf_eq (t : FilesTable) (link : Int) (f : FileEntry → FileEntry) :
    (if link ≠ 0 then FilesTable.update t link f else t).find? =
      Ledger.update t.find? (Ledger.linked link) f := by
  unfold Ledger.linked
  by_cases hlink : link = 0
  · rw [if_neg (not_not.mpr hlink), if_pos hlink]
    rfl
  · rw [if_pos hlink, if_neg hlink, find?_update_eq]

theorem find?_delFileEntry_unlink {rows : Int → Option FileEntry}
    (hrows : t.find? = Ledger.update rows (Ledger.heir id e) fun r => { r with pointedTo := true }) :
    (delFileEntry (unlink t e) id).find? = Ledger.rowsWithout rows id e := by
  funext a
  unfold Ledger.rowsWithout
  rw [delFileEntry, OrderedMap.find?_erase]
  by_cases ha : a = id
  · rw [if_pos ha, if_pos ha.symm]
  · have hprev := find?_updateIf_eq t e.nextEntry fun r => { r with prevEntry := e.prevEntry }
    have hnext := find?_updateIf_eq
      (if e.nextEntry ≠ 0 then FilesTable.setPrevEntry t e.prevEntry e.nextEntry else t) e.prevEntry
      fun r => { r with nextEntry := e.nextEntry }
    rw [if_neg ha, if_neg (Ne.symm ha), ← hrows, ← hprev]
    exact congrFun hnext a

end Rows

section Index

variable {s s' : Store} {id : Int} {e : FileEntry}

theorem heir_nil (h : e.prevEntry = 0 ∧ e.nextEntry = 0) : Ledger.heir id e = none :=
  if_pos (.inr h)

/-- Whether the writer is told or not, the last entry of a chain goes from the index exactly if
the index names it. -/
theorem dropLast_ledger {withBackupstat : Bool} (hlinks : e.prevEntry = 0 ∧ e.nextEntry = 0)
    (hsize : ¬ e.filesize.val < linkFileMinSize)
    (h : s.dropLast id e withBackupstat = some s') : s'.files = s.files ∧
      s'.index.index.logical = Ledger.indexWithout s.index.index.logical id e := by
  have hclient := Store.clientsLoop_allClients s e.clientid e.shahash e.filesize
  have htarget : (s.targetEntry e).1 = s.index.index.logical e.key := by
    unfold Store.targetEntry
    simp only
    split
    · rename_i hempty
      by_contra hne
      have hfull := @Store.allClients_isEmpty s e.clientid e.shahash e.filesize (Ne.symm hne)
      rw [hempty] at hfull
      cases hfull
    · exact hclient
  unfold Store.dropLast at h
  simp only at h
  split at h
  · rename_i hput
    obtain ⟨index, hindex, rfl⟩ := Option.map_eq_some_iff.mp h
    refine ⟨rfl, ?_⟩
    funext key
    rw [WriterState.putDelayed_index hindex, FileIndex.logical_putDelayed, Ledger.indexWithout,
      heir_nil hlinks]
    by_cases hkey : e.key = key
    · rw [if_pos hkey, if_pos hkey]
      simp only
      split
      · rfl
      · rename_i hcond
        have hzero := (hput.2.2.resolve_right fun hid =>
          hcond ⟨hlinks.1, hlinks.2, Nat.le_of_not_lt hsize, hput.1, htarget.symm.trans hid⟩)
        rw [← hkey, ← htarget, hzero]
    · rw [if_neg hkey, if_neg hkey]
  · rename_i hput
    cases h
    refine ⟨rfl, ?_⟩
    funext key
    rw [Ledger.indexWithout, heir_nil hlinks]
    by_cases hkey : e.key = key
    · rw [if_pos hkey]
      simp only
      split
      · rename_i hcond
        by_contra hne
        rw [← hkey] at hne
        apply hput
        refine ⟨hcond.2.2.2.1, Store.allClients_isEmpty hne, .inr (htarget.trans hcond.2.2.2.2)⟩
      · rfl
    · rw [if_neg hkey]

/-- At most one put was made. -/
def Touched (index index' : WriterState) : Prop :=
  index' = index ∨ ∃ key value, index.putDelayed key value = some index'

theorem Touched.splits {index index' : WriterState} (h : Touched index index')
    (hsplit : ∃ p, WriterState.Splits index p) : ∃ p, WriterState.Splits index' p := by
  obtain ⟨p, hsplit⟩ := hsplit
  rcases h with rfl | ⟨key, value, hput⟩
  · exact ⟨p, hsplit⟩
  · exact ⟨_, (WriterState.splits_putDelayed hsplit hput).1⟩

theorem dropLast_touched {withBackupstat : Bool} (h : s.dropLast id e withBackupstat = some s') :
    Touched s.index s'.index := by
  unfold Store.dropLast at h
  simp only at h
  split at h
  · obtain ⟨index, hindex, rfl⟩ := Option.map_eq_some_iff.mp h
    exact .inr ⟨_, _, hindex⟩
  · cases h
    exact .inl rfl

theorem putDelayed_ledger {index index' : WriterState} {neighbour : Int}
    (hheir : Ledger.heir id e = some neighbour)
    (hput : index.putDelayed e.key neighbour = some index') :
    index'.index.logical = Ledger.indexWithout index.index.logical id e := by
  funext key
  rw [WriterState.putDelayed_index hput, FileIndex.logical_putDelayed, Ledger.indexWithout, hheir]

theorem indexWithout_of_links {index : SIndexKey → Int} (hheir : Ledger.heir id e = none)
    (hlinks : ¬ (e.prevEntry = 0 ∧ e.nextEntry = 0)) : Ledger.indexWithout index id e = index := by
  funext key
  rw [Ledger.indexWithout, hheir]
  simp only
  rw [if_neg fun h : _ ∧ _ => hlinks ⟨h.1, h.2.1⟩, ite_self]

theorem indexWithout_of_small {index : SIndexKey → Int} (hlinks : e.prevEntry = 0 ∧ e.nextEntry = 0)
    (hsize : e.filesize.val < linkFileMinSize) : Ledger.indexWithout index id e = index := by
  have hkeep : ¬ (e.prevEntry = 0 ∧ e.nextEntry = 0 ∧ linkFileMinSize ≤ e.filesize.val ∧
      e.pointedTo = true ∧ index e.key = id) := fun hcond =>
    absurd hsize (Nat.not_lt.mpr hcond.2.2.1)
  funext key
  rw [Ledger.indexWithout, heir_nil hlinks]
  simp only
  rw [if_neg hkeep, ite_self]

end Index

namespace Store

variable {s s' : Store} {id : Int} {e : FileEntry}

theorem pointToNeighbour_ledger (hpoint : e.pointedTo = true)
    (hlinks : ¬ (e.prevEntry = 0 ∧ e.nextEntry = 0)) (h : s.pointToNeighbour id e = some s') :
    s'.files.find? = Ledger.update s.files.find? (Ledger.heir id e)
        (fun r => { r with pointedTo := true }) ∧
      s'.index.index.logical = Ledger.indexWithout s.index.index.logical id e := by
  have hfirst : ¬ (e.pointedTo = false ∨ e.prevEntry = 0 ∧ e.nextEntry = 0) := by
    rintro (h | h)
    · rw [hpoint] at h
      cases h
    · exact hlinks h
  unfold pointToNeighbour at h
  split at h
  · rename_i hnext
    have hheir : Ledger.heir id e = some e.nextEntry := by
      rw [Ledger.heir, if_neg hfirst, if_pos hnext]
    obtain ⟨index, hput, rfl⟩ := Option.map_eq_some_iff.mp h
    refine ⟨?_, putDelayed_ledger hheir hput⟩
    rw [hheir]
    exact find?_update_eq s.files e.nextEntry _
  · rename_i hnext
    split at h
    · rename_i hprev
      have hheir : Ledger.heir id e = some e.prevEntry := by
        rw [Ledger.heir, if_neg hfirst, if_neg hnext, if_pos hprev]
      obtain ⟨index, hput, rfl⟩ := Option.map_eq_some_iff.mp h
      refine ⟨?_, putDelayed_ledger hheir hput⟩
      rw [hheir]
      exact find?_update_eq s.files e.prevEntry _
    · rename_i hprev
      have hheir : Ledger.heir id e = none := by
        rw [Ledger.heir, if_neg hfirst, if_neg hnext, if_neg hprev]
      cases h
      rw [hheir, indexWithout_of_links hheir hlinks]
      exact ⟨rfl, rfl⟩

theorem deleteFileSQL_touched (h : s.deleteFileSQL id = some s') : Touched s.index s'.index := by
  unfold deleteFileSQL at h
  split at h
  · unfold deleteFileSQLEntry at h
    split at h
    · split at h
      · cases h
        exact .inl rfl
      · obtain ⟨s₁, hdrop, rfl⟩ := Option.map_eq_some_iff.mp h
        have htouched := dropLast_touched hdrop
        exact htouched
    · obtain ⟨s₁, hmove, rfl⟩ := Option.map_eq_some_iff.mp h
      simp only
      split at hmove
      · unfold pointToNeighbour at hmove
        split at hmove
        · obtain ⟨index, hput, rfl⟩ := Option.map_eq_some_iff.mp hmove
          exact .inr ⟨_, _, hput⟩
        · split at hmove
          · obtain ⟨index, hput, rfl⟩ := Option.map_eq_some_iff.mp hmove
            exact .inr ⟨_, _, hput⟩
          · cases hmove
            exact .inl rfl
      · cases hmove
        exact .inl rfl
  · cases h
    exact .inl rfl

theorem update_heir_none {rows : Int → Option FileEntry} (hheir : Ledger.heir id e = none) :
    Ledger.update rows (Ledger.heir id e) (fun r => { r with pointedTo := true }) = rows := by
  rw [hheir]
  rfl

theorem deleteFileSQL_ledger (h : s.deleteFileSQL id = some s') :
    s'.ledger = s.ledger.delete id := by
  unfold deleteFileSQL getFileEntry at h
  unfold Ledger.delete ledger
  simp only
  split at h
  · rename_i e hid
    rw [hid]
    simp only [Ledger.mk.injEq]
    unfold deleteFileSQLEntry at h
    split at h
    · rename_i hlinks
      have hrows := @find?_delFileEntry_unlink s.files id e s.files.find?
        (update_heir_none (heir_nil hlinks)).symm
      split at h
      · rename_i hsize
        cases h
        rw [unlink_of_no_links hlinks.1 hlinks.2] at hrows
        exact ⟨hrows, (indexWithout_of_small hlinks hsize).symm⟩
      · rename_i hsize
        obtain ⟨s₁, hdrop, rfl⟩ := Option.map_eq_some_iff.mp h
        obtain ⟨hfiles, hindex⟩ := dropLast_ledger hlinks hsize hdrop
        exact ⟨by rw [hfiles]; exact hrows, hindex⟩
    · rename_i hlinks
      obtain ⟨s₁, hmove, rfl⟩ := Option.map_eq_some_iff.mp h
      cases hpoint : e.pointedTo with
      | true =>
        rw [hpoint, if_pos rfl] at hmove
        obtain ⟨hrows, hindex⟩ := pointToNeighbour_ledger hpoint hlinks hmove
        exact ⟨find?_delFileEntry_unlink hrows, hindex⟩
      | false =>
        rw [hpoint, if_neg Bool.false_ne_true] at hmove
        cases hmove
        have hheir : Ledger.heir id e = none := if_pos (.inl hpoint)
        rw [indexWithout_of_links hheir hlinks]
        exact ⟨find?_delFileEntry_unlink (update_heir_none hheir).symm, rfl⟩
  · rename_i hid
    cases h
    rw [hid]

end Store

namespace Sweep

def rows (sw : Sweep) : Int → Option FileEntry := fun a =>
  (sw.store.files.find? a).map (sw.correction.correct a)

/-- Changes are kept for rows of the id range only. -/
def Bounded (sw : Sweep) : Prop :=
  ∀ a, sw.correction.needsCorrection a = false → ∀ e, sw.correction.correct a e = e

/-- What a change of some rows leaves alone. -/
structure Same (sw sw' : Sweep) : Prop where
  needs : ∀ a, sw'.correction.needsCorrection a = sw.correction.needsCorrection a
  todo : sw'.todo = sw.todo
  kept : ∀ a, sw.correction.needsCorrection a = true →
    sw'.store.files.find? a = sw.store.files.find? a
  backup : ∀ a, (sw'.store.files.find? a).map FileEntry.backupid =
    (sw.store.files.find? a).map FileEntry.backupid
  bounded : sw.Bounded → sw'.Bounded

section Write

variable {sw sw' sw'' : Sweep} {id : Int} {e : FileEntry} {f : FileEntry → FileEntry}
  {c : SInMemCorrection}

theorem Same.refl (sw : Sweep) : Same sw sw :=
  ⟨fun _ => rfl, rfl, fun _ _ => rfl, fun _ => rfl, id⟩

theorem Same.trans (h : Same sw sw') (h' : Same sw' sw'') : Same sw sw'' := by
  refine ⟨fun a => (h'.needs a).trans (h.needs a), h'.todo.trans h.todo, ?_,
    fun a => (h'.backup a).trans (h.backup a), fun hb => h'.bounded (h.bounded hb)⟩
  intro a ha
  exact (h'.kept a ((h.needs a).trans ha)).trans (h.kept a ha)

def write (sw : Sweep) (id : Int) (f : FileEntry → FileEntry) (c : SInMemCorrection) : Sweep :=
  if sw.correction.needsCorrection id then { sw with correction := c }
  else { sw with store := { sw.store with files := FilesTable.update sw.store.files id f } }

theorem write_spec (hbounded : sw.Bounded) (hf : ∀ e, (f e).backupid = e.backupid)
    (hneeds : ∀ a, c.needsCorrection a = sw.correction.needsCorrection a)
    (hc : ∀ a e, c.correct a e =
      if id = a then f (sw.correction.correct a e) else sw.correction.correct a e) :
    Same sw (sw.write id f c) ∧ (sw.write id f c).rows = Ledger.update sw.rows (some id) f ∧
      (sw.write id f c).store.index = sw.store.index := by
  unfold write
  cases hid : sw.correction.needsCorrection id with
  | true =>
    refine ⟨⟨hneeds, rfl, fun _ _ => rfl, fun _ => rfl, ?_⟩, ?_, rfl⟩
    · intro _ a ha e
      have ha' : sw.correction.needsCorrection a = false := (hneeds a).symm.trans ha
      have hne : id ≠ a := by
        rintro rfl
        rw [hid] at ha'
        cases ha'
      exact (hc a e).trans ((if_neg hne).trans (hbounded a ha' e))
    · funext a
      simp only [rows, Ledger.update, Option.some.injEq, if_true]
      by_cases ha : id = a
      · rw [if_pos ha, Option.map_map]
        congr 1
        funext e
        exact (hc a e).trans (if_pos ha)
      · rw [if_neg ha]
        congr 1
        funext e
        exact (hc a e).trans (if_neg ha)
  | false =>
    refine ⟨⟨fun _ => rfl, rfl, ?_, ?_, fun h => h⟩, ?_, rfl⟩
    · intro a ha
      have hne : id ≠ a := by
        rintro rfl
        rw [hid] at ha
        cases ha
      exact (find?_update _ _ _ _).trans (if_neg hne)
    · intro a
      simp only [Bool.false_eq_true, if_false, find?_update]
      by_cases ha : id = a
      · rw [if_pos ha, Option.map_map]
        congr 1
        funext e
        exact hf e
      · rw [if_neg ha]
    · funext a
      simp only [rows, Ledger.update, Option.some.injEq, Bool.false_eq_true, if_false, find?_update]
      by_cases ha : id = a
      · subst ha
        rw [if_pos rfl, if_pos rfl, Option.map_map, Option.map_map]
        congr 1
        funext e
        exact (hbounded id hid (f e)).trans (congrArg f (hbounded id hid e).symm)
      · rw [if_neg ha, if_neg ha]

theorem setNextEntry_spec (hbounded : sw.Bounded) (nextEntry id : Int) :
    Same sw (sw.setNextEntry nextEntry id) ∧
      (sw.setNextEntry nextEntry id).rows =
        Ledger.update sw.rows (some id) (fun r => { r with nextEntry }) ∧
      (sw.setNextEntry nextEntry id).store.index = sw.store.index := by
  refine @write_spec sw id _ { sw.correction with
    nextEntries := sw.correction.nextEntries.insert id nextEntry } hbounded (fun _ => rfl)
    (fun _ => rfl) ?_
  intro a e
  by_cases ha : id = a
  · simp [SInMemCorrection.correct, OrderedMap.find?_insert, ha]
  · simp [SInMemCorrection.correct, OrderedMap.find?_insert, ha]

theorem setPrevEntry_spec (hbounded : sw.Bounded) (prevEntry id : Int) :
    Same sw (sw.setPrevEntry prevEntry id) ∧
      (sw.setPrevEntry prevEntry id).rows =
        Ledger.update sw.rows (some id) (fun r => { r with prevEntry }) ∧
      (sw.setPrevEntry prevEntry id).store.index = sw.store.index := by
  refine @write_spec sw id _ { sw.correction with
    prevEntries := sw.correction.prevEntries.insert id prevEntry } hbounded (fun _ => rfl)
    (fun _ => rfl) ?_
  intro a e
  by_cases ha : id = a
  · simp [SInMemCorrection.correct, OrderedMap.find?_insert, ha]
  · simp [SInMemCorrection.correct, OrderedMap.find?_insert, ha]

theorem setPointedTo_spec (hbounded : sw.Bounded) (pointedTo : Bool) (id : Int) :
    Same sw (sw.setPointedTo pointedTo id) ∧
      (sw.setPointedTo pointedTo id).rows =
        Ledger.update sw.rows (some id) (fun r => { r with pointedTo }) ∧
      (sw.setPointedTo pointedTo id).store.index = sw.store.index := by
  refine @write_spec sw id _ { sw.correction with
    pointedTo := sw.correction.pointedTo.insert id pointedTo } hbounded (fun _ => rfl)
    (fun _ => rfl) ?_
  intro a e
  by_cases ha : id = a
  · simp [SInMemCorrection.correct, OrderedMap.find?_insert, ha]
  · simp [SInMemCorrection.correct, OrderedMap.find?_insert, ha]

theorem linked_spec {link : Int}
    (hspec : Same sw sw' ∧ sw'.rows = Ledger.update sw.rows (some link) f ∧
      sw'.store.index = sw.store.index) :
    Same sw (if link ≠ 0 then sw' else sw) ∧
      (if link ≠ 0 then sw' else sw).rows = Ledger.update sw.rows (Ledger.linked link) f ∧
      (if link ≠ 0 then sw' else sw).store.index = sw.store.index := by
  unfold Ledger.linked
  by_cases hlink : link = 0
  · rw [if_neg (not_not.mpr hlink), if_pos hlink]
    exact ⟨.refl sw, rfl, rfl⟩
  · rw [if_pos hlink, if_neg hlink]
    exact hspec

theorem pointTo_spec {neighbour : Int} (hbounded : sw.Bounded)
    (hheir : Ledger.heir id e = some neighbour) (h : sw.pointTo e.key neighbour = some sw') :
    Same sw sw' ∧ sw'.rows = Ledger.update sw.rows (Ledger.heir id e)
        (fun r => { r with pointedTo := true }) ∧
      sw'.store.index.index.logical = Ledger.indexWithout sw.store.index.index.logical id e ∧
      Touched sw.store.index sw'.store.index := by
  obtain ⟨hsame, hrows, hindex⟩ := setPointedTo_spec hbounded true neighbour
  obtain ⟨index, hput, rfl⟩ := Option.map_eq_some_iff.mp h
  rw [hindex] at hput
  rw [hheir]
  exact ⟨⟨hsame.needs, hsame.todo, hsame.kept, hsame.backup, hsame.bounded⟩, hrows,
    putDelayed_ledger hheir hput, .inr ⟨_, _, hput⟩⟩

theorem pointToNeighbour_spec (hbounded : sw.Bounded) (hpoint : e.pointedTo = true)
    (hlinks : ¬ (e.prevEntry = 0 ∧ e.nextEntry = 0)) (h : sw.pointToNeighbour id e = some sw') :
    Same sw sw' ∧ sw'.rows = Ledger.update sw.rows (Ledger.heir id e)
        (fun r => { r with pointedTo := true }) ∧
      sw'.store.index.index.logical = Ledger.indexWithout sw.store.index.index.logical id e ∧
      Touched sw.store.index sw'.store.index := by
  have hfirst : ¬ (e.pointedTo = false ∨ e.prevEntry = 0 ∧ e.nextEntry = 0) := by
    rintro (h | h)
    · rw [hpoint] at h
      cases h
    · exact hlinks h
  unfold pointToNeighbour at h
  split at h
  · rename_i hnext
    exact pointTo_spec hbounded (by rw [Ledger.heir, if_neg hfirst, if_pos hnext]) h
  · rename_i hnext
    split at h
    · rename_i hprev
      exact pointTo_spec hbounded
        (by rw [Ledger.heir, if_neg hfirst, if_neg hnext, if_pos hprev]) h
    · rename_i hprev
      have hheir : Ledger.heir id e = none := by
        rw [Ledger.heir, if_neg hfirst, if_neg hnext, if_neg hprev]
      cases h
      exact ⟨.refl _, (Store.update_heir_none hheir).symm,
        (indexWithout_of_links hheir hlinks).symm, .inl rfl⟩

theorem deleteFileSQL_spec (hbounded : sw.Bounded) (h : sw.deleteFileSQL id e = some sw') :
    Same sw sw' ∧ (∀ a, a ≠ id → sw'.rows a = Ledger.rowsWithout sw.rows id e a) ∧
      sw'.store.index.index.logical = Ledger.indexWithout sw.store.index.index.logical id e ∧
      Touched sw.store.index sw'.store.index := by
  unfold deleteFileSQL at h
  split at h
  · rename_i hlinks
    have hrows : ∀ a, a ≠ id → sw.rows a = Ledger.rowsWithout sw.rows id e a := by
      intro a ha
      rw [Ledger.rowsWithout, if_neg ha, Store.update_heir_none (heir_nil hlinks), hlinks.1, hlinks.2]
      rfl
    split at h
    · rename_i hsize
      cases h
      exact ⟨⟨fun _ => rfl, rfl, fun _ _ => rfl, fun _ => rfl, fun h => h⟩, hrows,
        (indexWithout_of_small hlinks hsize).symm, .inl rfl⟩
    · rename_i hsize
      obtain ⟨store, hdrop, rfl⟩ := Option.map_eq_some_iff.mp h
      obtain ⟨hfiles, hindex⟩ := dropLast_ledger hlinks hsize hdrop
      refine ⟨⟨fun _ => rfl, rfl, fun _ _ => by rw [hfiles], fun _ => by rw [hfiles], fun h => h⟩,
        ?_, hindex, dropLast_touched hdrop⟩
      intro a ha
      simp only [rows, hfiles]
      exact hrows a ha
  · rename_i hlinks
    obtain ⟨sw₁, hmove, rfl⟩ := Option.map_eq_some_iff.mp h
    have hmoved : Same sw sw₁ ∧ sw₁.rows = Ledger.update sw.rows (Ledger.heir id e)
          (fun r => { r with pointedTo := true }) ∧
        sw₁.store.index.index.logical = Ledger.indexWithout sw.store.index.index.logical id e ∧
        Touched sw.store.index sw₁.store.index := by
      cases hpoint : e.pointedTo with
      | true =>
        rw [hpoint, if_pos rfl] at hmove
        exact pointToNeighbour_spec hbounded hpoint hlinks hmove
      | false =>
        rw [hpoint, if_neg Bool.false_ne_true] at hmove
        cases hmove
        have hheir : Ledger.heir id e = none := if_pos (.inl hpoint)
        exact ⟨.refl _, (Store.update_heir_none hheir).symm,
          (indexWithout_of_links hheir hlinks).symm, .inl rfl⟩
    obtain ⟨hsame, hrows, hindex, htouched⟩ := hmoved
    have hbounded₁ := hsame.bounded hbounded
    obtain ⟨hsame₂, hrows₂, hindex₂⟩ :=
      linked_spec (setPrevEntry_spec hbounded₁ e.prevEntry e.nextEntry)
    obtain ⟨hsame₃, hrows₃, hindex₃⟩ :=
      linked_spec (setNextEntry_spec (hsame₂.bounded hbounded₁) e.nextEntry e.prevEntry)
    refine ⟨hsame.trans (hsame₂.trans hsame₃), ?_, ?_, ?_⟩
    · intro a ha
      rw [Ledger.rowsWithout, if_neg ha, ← hrows, ← hrows₂]
      exact congrFun hrows₃ a
    · simp only [hindex₃, hindex₂, hindex]
    · simp only [hindex₃, hindex₂]
      exact htouched

end Write

end Sweep

end UrBackup
