import UrBackup.Images.Cleanup
import Mathlib.Data.List.Perm.Subperm

/-! A cleanup leaves the least number of incremental images of each volume, as long as every
incremental image that it begins to remove can be removed with all that is below it. -/
namespace UrBackup

/-- What counts for the retention of a volume of a client. -/
def BackupImage.CountsFor (clientid : Int) (letter : String) (image : BackupImage) : Prop :=
  image.clientid = clientid ∧ image.incremental ≠ 0 ∧ image.complete = 1 ∧
    image.letter = letter ∧ image.archived = 0

instance (clientid : Int) (letter : String) :
    DecidablePred (BackupImage.CountsFor clientid letter) :=
  fun _ => inferInstanceAs (Decidable (_ ∧ _))

namespace ImageDb

variable {db db' : ImageDb} {x y z : Int}

def incrImages (db : ImageDb) (clientid : Int) (letter : String) : List BackupImage :=
  db.images.filter fun image => image.CountsFor clientid letter

theorem mem_incrImages {clientid : Int} {letter : String} {image : BackupImage} :
    image ∈ db.incrImages clientid letter ↔
      image ∈ db.images ∧ image.CountsFor clientid letter := by
  rw [incrImages, List.mem_filter, decide_eq_true_iff]

/-- `y` is removed with `x`, or with what is removed with it. -/
abbrev Reaches (db : ImageDb) : Int → Int → Prop := Relation.ReflTransGen db.RemovedWith

theorem Reaches.subset (hassoc : db'.assocImages ⊆ db.assocImages)
    (hsub : ∀ image ∈ db'.images, image ∈ db.images) (h : db'.Reaches x y) : db.Reaches x y := by
  have hwith : ∀ a b, db'.RemovedWith a b → db.RemovedWith a b := by
    intro a b hab
    cases hab with
    | inl href =>
      obtain ⟨image, himage, hid⟩ := CleanupState.mem_getImageRefs.mp href
      exact Or.inl (CleanupState.mem_getImageRefs.mpr ⟨image, hsub image himage, hid⟩)
    | inr hof => exact Or.inr (List.map_subset _ (List.filter_subset _ hassoc) hof)
  exact Relation.ReflTransGen.mono hwith x y h

open Classical in
noncomputable def belowIncr (db : ImageDb) (image : BackupImage) : List BackupImage :=
  (db.incrImages image.clientid image.letter).filter fun other =>
    other.id ≠ image.id ∧ db.Reaches image.id other.id

theorem mem_belowIncr {image other : BackupImage} : other ∈ db.belowIncr image ↔
    other ∈ db.incrImages image.clientid image.letter ∧ other.id ≠ image.id ∧
      db.Reaches image.id other.id := by
  simp only [belowIncr, List.mem_filter, decide_eq_true_eq]

theorem IdsUnique.nodup (h : db.IdsUnique) : db.images.Nodup := h.of_map _

theorem IdsUnique.findImage (h : db.IdsUnique) {image : BackupImage} (himage : image ∈ db.images) :
    db.findImage image.id = some image := by
  cases hfind : db.findImage image.id with
  | none =>
    have hnone := List.find?_eq_none.mp hfind image himage
    simp at hnone
  | some found =>
    have hid := List.find?_some hfind
    rw [h.eq (List.mem_of_find?_eq_some hfind) himage (of_decide_eq_true hid)]

theorem IdsUnique.getIncrNumImagesForBackup (h : db.IdsUnique) {image : BackupImage}
    (himage : image ∈ db.images) : db.getIncrNumImagesForBackup image.id =
      (db.incrImages image.clientid image.letter).length := by
  rw [ImageDb.getIncrNumImagesForBackup, h.findImage himage]
  rfl

end ImageDb

namespace ImageCleanup

open ImageDb

variable {c : ImageCleanup}

/-- An incremental image that counts can be removed with all images of its volume that are
removed with it. -/
def Room (c : ImageCleanup) (_assoc : Bool) (backupid : Int) (st : CleanupState) : Prop :=
  ∀ image ∈ st.db.images, image.id = backupid → image.CountsFor image.clientid image.letter →
    (st.db.belowIncr image).length <
      CleanupState.maxRemovableIncrImages c.minImageIncr st.db backupid

/-- The rows that are gone are those of an image and of what is removed with it. -/
structure RemovedBelow (backupid : Int) (st st' : CleanupState) : Prop where
  assoc : st'.db.assocImages ⊆ st.db.assocImages
  images : ∀ image ∈ st'.db.images, image ∈ st.db.images
  ids : st'.db.IdsUnique
  gone : ∀ image ∈ st.db.images, image ∉ st'.db.images → st.db.Reaches backupid image.id

variable {start st st1 st' : CleanupState} {backupid id : Int}

theorem RemovedBelow.refl (hids : st.db.IdsUnique) : RemovedBelow backupid st st := by
  constructor
  · exact List.Subset.refl _
  · exact fun _ himage => himage
  · exact hids
  · exact fun image himage hgone => absurd himage hgone

theorem RemovedBelow.call (h : RemovedBelow backupid st st1) (hwith : st.db.Reaches backupid id)
    (hcall : RemovedBelow id st1 st') : RemovedBelow backupid st st' := by
  constructor
  · exact List.Subset.trans hcall.assoc h.assoc
  · exact fun image himage => h.images image (hcall.images image himage)
  · exact hcall.ids
  · intro image himage hgone
    by_cases hstill : image ∈ st1.db.images
    · exact hwith.trans ((hcall.gone image hstill hgone).subset h.assoc h.images)
    · exact h.gone image himage hstill

theorem RemovedBelow.recorded {refs : List Int} (h : RemovedBelow backupid st st1)
    (hrecorded : Recorded backupid refs st1 st') : RemovedBelow backupid st st' := by
  have hassoc := List.Subset.trans hrecorded.assoc_subset h.assoc
  obtain ⟨deleted, -, -, himages⟩ := hrecorded
  cases deleted with
  | false =>
    refine ⟨hassoc, himages ▸ h.images, ?_, himages ▸ h.gone⟩
    rw [IdsUnique, himages]
    exact h.ids
  | true =>
    constructor
    · exact hassoc
    · intro image himage
      rw [himages] at himage
      exact h.images image (List.mem_filter.mp himage).1
    · rw [IdsUnique, himages]
      exact h.ids.sublist (List.filter_sublist.map _)
    · intro image himage hgone
      by_cases hstill : image ∈ st1.db.images
      · have hself : image.id = backupid := by
          by_contra hother
          apply hgone
          rw [himages]
          exact List.mem_filter.mpr ⟨hstill, decide_eq_true hother⟩
        rw [hself]
      · exact h.gone image himage hstill

/-- What a call removes. Induction on the depth of the calls. -/
theorem removeImage_below {fuel : Nat} {updateStat ret : Bool} (hids : st.db.IdsUnique)
    (h : c.removeImage fuel updateStat backupid st = some (ret, st')) :
    RemovedBelow backupid st st' := by
  induction fuel generalizing updateStat backupid st ret st' with
  | zero => cases h
  | succ fuel ih =>
    have hcall : ∀ {us id st1 b st2}, st.db.RemovedWith backupid id →
        RemovedBelow backupid st st1 → c.removeImage fuel us id st1 = some (b, st2) →
          RemovedBelow backupid st st2 := by
      intro us id st1 b st2 hwith hbelow hone
      exact hbelow.call (.single hwith) (ih hbelow.ids hone)
    obtain ⟨st1, hbelow, hrecorded⟩ := removeImage_rule (J := RemovedBelow backupid st)
      (fun id hid st1 b st2 hJ _ => hcall (Or.inl hid) hJ)
      (fun id hid st1 b st2 hJ _ => hcall
        (Or.inr (List.mem_map.mpr ⟨_, List.mem_filter.mpr ⟨hid, decide_eq_true rfl⟩, rfl⟩)) hJ)
      (fun st1 hJ => hJ.assoc) (c.callsMeet_true (fuel + 1) false backupid st) h (.refl hids)
    exact hbelow.recorded hrecorded

theorem RemovedBelow.length_le {image : BackupImage} (h : RemovedBelow image.id st st')
    (hids : st.db.IdsUnique) (himage : image ∈ st.db.images) :
    (st.db.incrImages image.clientid image.letter).length ≤
      (st'.db.incrImages image.clientid image.letter).length + ((st.db.belowIncr image).length + 1)
    := by
  have hnodup : (st.db.incrImages image.clientid image.letter).Nodup := hids.nodup.filter _
  rw [List.length_eq_length_filter_add fun other => other ∈ st'.db.images]
  apply Nat.add_le_add
  · -- those that are still there
    refine (List.subperm_of_subset (hnodup.filter _) ?_).length_le
    intro other hother
    obtain ⟨hmem, hstill⟩ := List.mem_filter.mp hother
    exact mem_incrImages.mpr ⟨of_decide_eq_true hstill, (mem_incrImages.mp hmem).2⟩
  · -- those that are gone
    rw [← List.length_cons (a := image)]
    refine (List.subperm_of_subset (hnodup.filter _) ?_).length_le
    intro other hother
    obtain ⟨hmem, hgone⟩ := List.mem_filter.mp hother
    have hrow := (mem_incrImages.mp hmem).1
    have hreach := h.gone other hrow (by simpa using hgone)
    by_cases hself : other.id = image.id
    · rw [hids.eq hrow himage hself]
      exact List.mem_cons_self
    · exact List.mem_cons_of_mem _ (mem_belowIncr.mpr ⟨hmem, hself, hreach⟩)

/-- No volume has lost images below its least number. -/
def KeepsMin (minImageIncr : Int) (st st' : CleanupState) : Prop :=
  ∀ clientid letter, min ((st.db.incrImages clientid letter).length : Int) minImageIncr ≤
    (st'.db.incrImages clientid letter).length

/-- The row of an image that does not count is deleted. -/
theorem incrImages_removed {clientid : Int} {letter : String} {deleted : Bool}
    (himages : st'.db.images = if deleted then st.db.images.filter fun image => image.id ≠ backupid
      else st.db.images)
    (hnot : ∀ image ∈ st.db.images, image.id = backupid → ¬ image.CountsFor clientid letter) :
    st'.db.incrImages clientid letter = st.db.incrImages clientid letter := by
  rw [incrImages, himages, incrImages]
  cases deleted with
  | false => rfl
  | true =>
    rw [if_pos rfl, List.filter_filter]
    apply List.filter_congr
    intro image himage
    by_cases hcounts : image.CountsFor clientid letter
    · have hother : image.id ≠ backupid := fun hid => hnot image himage hid hcounts
      simp [hcounts, hother]
    · simp [hcounts]

/-- Induction on the depth of the calls. The images below an image are removed by calls that keep
the least number. The row of the image itself is what counts for its own volume only, and there
the room that it had covers it with all that is below it. -/
theorem removeImage_keepsMin {fuel : Nat} {assoc updateStat ret : Bool}
    (hmeets : c.CallsMeet c.Room fuel assoc backupid st)
    (h : c.removeImage fuel updateStat backupid st = some (ret, st'))
    (hids : st.db.IdsUnique) (hkept : KeepsMin c.minImageIncr start st) :
    RemovedBelow backupid st st' ∧ KeepsMin c.minImageIncr start st' := by
  induction fuel generalizing assoc updateStat backupid st ret st' with
  | zero => cases h
  | succ fuel ih =>
    have hcall : ∀ {assoc us id st1 b st2}, st.db.RemovedWith backupid id →
        (RemovedBelow backupid st st1 ∧ KeepsMin c.minImageIncr start st1) →
        c.CallsMeet c.Room fuel assoc id st1 → c.removeImage fuel us id st1 = some (b, st2) →
        RemovedBelow backupid st st2 ∧ KeepsMin c.minImageIncr start st2 := by
      rintro assoc us id st1 b st2 hwith ⟨hbelow, hkept1⟩ hcallMeets hone
      obtain ⟨hremoved, hkept2⟩ := ih hcallMeets hone hbelow.ids hkept1
      exact ⟨hbelow.call (.single hwith) hremoved, hkept2⟩
    have hrule := removeImage_rule (J := fun st1 => RemovedBelow backupid st st1 ∧
      KeepsMin c.minImageIncr start st1)
      (fun id hid st1 b st2 hJ => hcall (Or.inl hid) hJ)
      (fun id hid st1 b st2 hJ => hcall
        (Or.inr (List.mem_map.mpr ⟨_, List.mem_filter.mpr ⟨hid, decide_eq_true rfl⟩, rfl⟩)) hJ)
      (fun st1 hJ => hJ.1.assoc) hmeets h ⟨.refl hids, hkept⟩
    obtain ⟨st1, ⟨hbelow, hkept1⟩, hrecorded⟩ := hrule
    have hremoved := hbelow.recorded hrecorded
    refine ⟨hremoved, ?_⟩
    intro clientid letter
    obtain ⟨deleted, -, -, himages⟩ := hrecorded
    by_cases hrow : ∃ image ∈ st1.db.images, image.id = backupid ∧
        image.CountsFor clientid letter
    · obtain ⟨image, himage, rfl, hcounts⟩ := hrow
      obtain ⟨rfl, rfl⟩ : image.clientid = clientid ∧ image.letter = letter :=
        ⟨hcounts.1, hcounts.2.2.2.1⟩
      have hold := hbelow.images image himage
      have hroom := hmeets.1 image hold rfl hcounts
      have hleast := hremoved.length_le hids hold
      rw [CleanupState.maxRemovableIncrImages, hids.getIncrNumImagesForBackup hold] at hroom
      split at hroom
      · omega
      · omega
    · rw [incrImages_removed himages fun image himage hid hcounts =>
        hrow ⟨image, himage, hid, hcounts⟩]
      exact hkept1 clientid letter

section Example

def keepIncr (minImageIncr : Int) : ImageCleanup where
  minspace := -1
  cleanupOnlyOne := true
  maxImageFull := 0
  minImageFull := 0
  maxImageIncr := minImageIncr
  minImageIncr := minImageIncr
  locked := fun _ => false
  backuptime := fun id => id
  freeSpace := fun _ => 0
  deleteImage := fun _ _ _ => true

def imageChain : CleanupState where
  db :=
    { images := [⟨1, 1, "C:", 0, 0, 1, 0, "full.vhd", 8⟩, ⟨2, 1, "C:", 1, 1, 1, 0, "incr.vhd", 4⟩,
        ⟨3, 1, "C:", 1, 2, 1, 0, "incr2.vhd", 4⟩]
      assocImages := []
      clients := [⟨1, "laptop", 12⟩]
      delStats := [] }
  calls := []

def afterTwoImages : CleanupState where
  db := { CleanupState.twoImages.db with images := [], delStats := [(2, 8), (1, 16)] }
  calls := [⟨2, [], true⟩, ⟨1, [2], true⟩]

theorem getFullNumImages_twoImages : CleanupState.twoImages.db.getFullNumImages
    (keepIncr 0).backuptime 1 = [⟨1, 1, "C", 0, 0, 1, 0, "full.vhd", 8⟩] :=
  List.mergeSort_singleton _

theorem cleanupImagesClient_twoImages : (keepIncr 0).cleanupImagesClient 3 1
    CleanupState.twoImages = some (true, [1], afterTwoImages) := by
  rw [cleanupImagesClient, cleanupLoop, getFullNumImages_twoImages, getImagesNum_singleton]
  rfl

theorem room_twoImages : (keepIncr 0).Room false 2 CleanupState.twoImages := by
  intro image himage hid _
  have hbelow : CleanupState.twoImages.db.belowIncr image = [] := by
    apply List.eq_nil_iff_forall_not_mem.mpr
    intro other hother
    obtain ⟨hcounts, hother, -⟩ := mem_belowIncr.mp hother
    have hall : ∀ row ∈ CleanupState.twoImages.db.images, row.incremental ≠ 0 → row.id = 2 := by
      decide
    obtain ⟨hrow, -, hincr, -⟩ := mem_incrImages.mp hcounts
    exact hother ((hall other hrow hincr).trans hid.symm)
  rw [hbelow]
  decide

end Example

end ImageCleanup

end UrBackup
