import UrBackup.Images.Cleanup
import Mathlib.Algebra.Order.BigOperators.Group.List
import Mathlib.Algebra.Order.Group.Nat
import Mathlib.Data.Finset.Card

/-! The loops over the images of a client end if references and associations have no cycle: each turn
deletes an image or sets it aside. -/
namespace UrBackup

open CleanupState

variable {rank : Int → Nat} {backupid : Int} {st st' : CleanupState}

section Refs

variable {here : Int → Bool} {bad : BackupImage → Bool} {fuel : Nat}

theorem findLoop_ends {find : Int → Option Bool} {rows : List BackupImage}
    (hends : ∀ image ∈ rows, ∃ found, find image.id = some found) :
    ∃ found, ImageDb.findLoop bad find rows = some found := by
  induction rows with
  | nil => exact ⟨_, rfl⟩
  | cons image rows ih =>
    rw [ImageDb.findLoop]
    split
    · exact ⟨_, rfl⟩
    · obtain ⟨found, hfound⟩ := hends image List.mem_cons_self
      rw [hfound, Option.bind_some]
      split
      · exact ⟨_, rfl⟩
      · exact ih fun image himage => hends image (List.mem_cons_of_mem _ himage)

/-- Induction on the depth of the calls. -/
theorem findImageRef_ends {db : ImageDb} (hranked : Ranked rank db) (hfuel : rank backupid < fuel) :
    ∃ found, db.findImageRef here bad fuel backupid = some found := by
  induction fuel generalizing backupid with
  | zero => omega
  | succ fuel ih =>
    rw [ImageDb.findImageRef]
    split
    · exact ⟨_, rfl⟩
    · apply findLoop_ends
      intro image himage
      obtain ⟨hmem, href⟩ := List.mem_filter.mp himage
      obtain ⟨hincr, hof⟩ := of_decide_eq_true href
      have hless := hranked.1 image hmem hincr
      apply ih
      rw [hof] at hless
      omega

end Refs

theorem removeImage_gone {deleteImage : DeleteImage} {minImageIncr : Int} {fuel : Nat}
    {updateStat forceRemove removeAssociated removeReferences : Bool}
    (h : CleanupState.removeImage deleteImage minImageIncr fuel updateStat forceRemove
      removeAssociated removeReferences backupid st = some (true, st')) :
    ∀ image ∈ st'.db.images, image.id ≠ backupid := by
  cases fuel with
  | zero => cases h
  | succ fuel =>
    obtain ⟨⟨res, st1⟩, -, h⟩ := Option.bind_eq_some_iff.mp h
    cases res with
    | none => cases h
    | some ret =>
      obtain ⟨⟨size, st2⟩, -, h⟩ := Option.bind_eq_some_iff.mp h
      have hfiles := Option.some.inj h
      rw [removeFiles_eq] at hfiles
      split at hfiles
      · dsimp only at hfiles
        generalize (if updateStat = true then _ else st2) = st3 at hfiles
        split at hfiles
        · cases hfiles
          intro image himage
          exact of_decide_eq_true (List.mem_filter.mp himage).2
        · cases hfiles
      · cases hfiles

namespace ImageCleanup

variable {c : ImageCleanup} {fuel : Nat}

theorem cleanupTurn_does {removed : Bool}
    (h : c.cleanupTurn fuel backupid st = some (removed, st')) :
    (Ranked rank st.db → Ranked rank st'.db) ∧ (∀ image ∈ st'.db.images, image ∈ st.db.images) ∧
      (removed = true → ∀ image ∈ st'.db.images, image.id ≠ backupid) := by
  obtain ⟨ok, -, h⟩ := Option.bind_eq_some_iff.mp h
  cases ok with
  | false =>
    cases h
    exact ⟨id, fun _ => id, nofun⟩
  | true =>
    rw [if_pos rfl] at h
    have hdoes := does_removeImage h
    refine ⟨hdoes.ranked, ?_, ?_⟩
    · obtain ⟨log, heffect, -⟩ := hdoes
      exact fun image himage => ((heffect.images image).mp himage).1
    · rintro rfl
      exact removeImage_gone h

theorem cleanupTurn_ends (hranked : Ranked rank st.db) (hfuel : rank backupid < fuel) :
    ∃ removed st', c.cleanupTurn fuel backupid st = some (removed, st') := by
  have hmay : ∃ ok, c.mayRemove fuel st.db backupid = some ok := by
    unfold mayRemove
    split
    · exact ⟨_, rfl⟩
    · obtain ⟨uncomplete, huncomplete⟩ := @findImageRef_ends rank backupid (fun _ => false)
        (fun image => image.complete ≠ 1) fuel st.db hranked hfuel
      obtain ⟨locked, hlocked⟩ := @findImageRef_ends rank backupid (fun _ => false)
        (fun image => c.locked image.id) fuel st.db hranked hfuel
      obtain ⟨archived, harchived⟩ := @findImageRef_ends rank backupid
        (fun id => (st.db.getAssocImageBackups id).any fun assoc => st.db.getImageArchived assoc = 1)
        (fun image => image.archived = 1) fuel st.db hranked hfuel
      rw [ImageDb.findUncompleteImageRef, huncomplete, Option.bind_some]
      split
      · exact ⟨_, rfl⟩
      · rw [ImageDb.findLockedImageRef, hlocked, Option.bind_some]
        split
        · exact ⟨_, rfl⟩
        · rw [ImageDb.findArchivedImageRef, harchived]
          exact ⟨_, rfl⟩
  obtain ⟨ok, hok⟩ := hmay
  rw [cleanupTurn, hok, Option.bind_some]
  split
  · obtain ⟨⟨removed, st'⟩, hremove⟩ := @removeImage_ends c.deleteImage c.minImageIncr st backupid
      rank fuel true false true true hranked hfuel
    exact ⟨removed, st', hremove⟩
  · exact ⟨_, _, rfl⟩

def left (notit : List Int) (st : CleanupState) : Finset Int :=
  ((st.db.images.map BackupImage.id).filter fun id => id ∉ notit).toFinset

theorem mem_left {notit : List Int} {id : Int} :
    id ∈ left notit st ↔ (∃ image ∈ st.db.images, image.id = id) ∧ id ∉ notit := by
  simp [left]

theorem left_card_lt {notit : List Int} {removed : Bool}
    (hturn : c.cleanupTurn fuel backupid st = some (removed, st')) (hmem : backupid ∈ left notit st) :
    (left (if removed then notit else notit ++ [backupid]) st').card < (left notit st).card := by
  obtain ⟨-, hsub, hgone⟩ := @cleanupTurn_does (fun _ => 0) _ _ _ _ _ _ hturn
  apply Finset.card_lt_card
  refine Finset.ssubset_iff_of_subset ?_ |>.mpr ⟨backupid, hmem, ?_⟩
  · intro id hid
    obtain ⟨⟨image, himage, hsame⟩, hnot⟩ := mem_left.mp hid
    refine mem_left.mpr ⟨⟨image, hsub image himage, hsame⟩, ?_⟩
    cases removed with
    | false => exact fun hin => hnot (List.mem_append_left _ hin)
    | true => exact hnot
  · intro hin
    obtain ⟨⟨image, himage, hsame⟩, hnot⟩ := mem_left.mp hin
    cases removed with
    | false => exact hnot (List.mem_append_right _ List.mem_cons_self)
    | true => exact hgone rfl image himage hsame

/-- Induction on the turns. The images that are left are fewer than those. -/
theorem cleanupLoop_ends {rows : ImageDb → List BackupImage} {maxImages : Int} {turns : Nat}
    {notit imageids : List Int} (hrows : ∀ db, rows db ⊆ db.images) (hranked : Ranked rank st.db)
    (hfuel : ∀ image ∈ st.db.images, rank image.id < fuel)
    (hturns : (left notit st).card < turns) :
    ∃ finished imageids' st', c.cleanupLoop rows maxImages fuel turns notit imageids st =
      some (finished, imageids', st') ∧ Ranked rank st'.db ∧
        ∀ image ∈ st'.db.images, image ∈ st.db.images := by
  induction turns generalizing notit imageids st with
  | zero => omega
  | succ turns ih =>
    rw [cleanupLoop]
    cases hnum : getImagesNum (rows st.db) notit with
    | mk num top =>
      cases top with
      | none => exact ⟨_, _, _, rfl, hranked, fun _ => id⟩
      | some backupid =>
        dsimp only
        split
        · obtain ⟨image, himage, hid, hnew⟩ := getImagesNum_mem hnum
          have hmem : backupid ∈ left notit st :=
            mem_left.mpr ⟨⟨image, hrows _ himage, hid⟩, hnew⟩
          obtain ⟨removed, st1, hturn⟩ := @cleanupTurn_ends rank backupid st c fuel hranked
            (hid ▸ hfuel image (hrows _ himage))
          obtain ⟨hkeeps, hsub, -⟩ := @cleanupTurn_does rank _ _ _ _ _ _ hturn
          have hcard := left_card_lt hturn hmem
          rw [hturn, Option.bind_some]
          dsimp only
          split
          · exact ⟨_, _, _, rfl, hkeeps hranked, hsub⟩
          · have hnext := fun imageids' => @ih st1
              (if removed then notit else notit ++ [backupid]) imageids' (hkeeps hranked)
              (fun image himage => hfuel image (hsub image himage)) (by omega)
            cases removed with
            | false =>
              obtain ⟨finished, ids, st2, hloop, hranked2, hsub2⟩ := hnext imageids
              exact ⟨finished, ids, st2, hloop, hranked2, fun i hi => hsub i (hsub2 i hi)⟩
            | true =>
              obtain ⟨finished, ids, st2, hloop, hranked2, hsub2⟩ :=
                hnext (imageids ++ [backupid])
              exact ⟨finished, ids, st2, hloop, hranked2, fun i hi => hsub i (hsub2 i hi)⟩
        · exact ⟨_, _, _, rfl, hranked, fun _ => id⟩

theorem getNumImages_subset (db : ImageDb) (backuptime : Int → Int) (clientid : Int)
    (incremental : Bool) : db.getNumImages backuptime clientid incremental ⊆ db.images :=
  fun _ himage => (List.mem_filter.mp (List.mem_mergeSort.mp himage)).1

theorem left_card_le (st : CleanupState) : (left [] st).card ≤ st.db.images.length := by
  refine (List.toFinset_card_le _).trans ((List.length_filter_le _ _).trans ?_)
  rw [List.length_map]

theorem cleanupImagesClient_ends (clientid : Int) (hranked : Ranked rank st.db) :
    ∃ fuel res, c.cleanupImagesClient fuel clientid st = some res := by
  have hbound : ∀ image ∈ st.db.images, rank image.id ≤ (st.db.images.map fun i => rank i.id).sum :=
    fun image himage => List.le_sum_of_mem (List.mem_map_of_mem himage)
  generalize (st.db.images.map fun i => rank i.id).sum = bound at hbound
  have hleft := left_card_le st
  refine ⟨bound + st.db.images.length + 1, ?_⟩
  obtain ⟨finished, imageids, st1, hfull, hranked1, hsub1⟩ := @cleanupLoop_ends rank st c
    (bound + st.db.images.length + 1) (fun db => db.getFullNumImages c.backuptime clientid)
    c.fullLimit (bound + st.db.images.length + 1) [] []
    (fun db => getNumImages_subset db c.backuptime clientid false) hranked
    (fun image himage => by have := hbound image himage; omega) (by omega)
  rw [cleanupImagesClient, hfull, Option.bind_some]
  dsimp only
  split
  · exact ⟨_, rfl⟩
  · have hleft1 : (left [] st1).card ≤ (left [] st).card := by
      apply Finset.card_le_card
      intro id hid
      obtain ⟨⟨image, himage, hsame⟩, hnot⟩ := mem_left.mp hid
      exact mem_left.mpr ⟨⟨image, hsub1 image himage, hsame⟩, hnot⟩
    obtain ⟨over', imageids', st2, hincr, -, -⟩ := @cleanupLoop_ends rank st1 c
      (bound + st.db.images.length + 1) (fun db => db.getIncrNumImages c.backuptime clientid)
      c.incrLimit (bound + st.db.images.length + 1) [] imageids
      (fun db => getNumImages_subset db c.backuptime clientid true) hranked1
      (fun image himage => by have := hbound image (hsub1 image himage); omega) (by omega)
    exact ⟨_, hincr⟩

end ImageCleanup

end UrBackup
