import Mathlib.Data.List.Basic

/-! The removal of an image backup with the images that reference it and the images that
belong to it. -/
namespace UrBackup

/-- A row of `backup_images`. -/
structure BackupImage where
  id : Int
  clientid : Int
  letter : String
  incremental : Int
  incrementalRef : Int
  complete : Int
  archived : Int
  path : String
  sizeBytes : Int
  deriving DecidableEq, Repr

structure ImageClient where
  id : Int
  name : String
  bytesUsedImages : Int
  deriving DecidableEq, Repr

/-- The tables that the removal of an image reads and writes. -/
structure ImageDb where
  images : List BackupImage
  /-- Image and associated image. -/
  assocImages : List (Int × Int)
  clients : List ImageClient
  /-- Image and size. -/
  delStats : List (Int × Int)
  deriving DecidableEq, Repr

namespace ImageDb

variable (db : ImageDb)

def findImage (id : Int) : Option BackupImage := db.images.find? fun image => image.id = id

def getImageRefs (incrementalRef : Int) : List Int :=
  (db.images.filter fun image =>
    image.incremental ≠ 0 ∧ image.incrementalRef = incrementalRef).map BackupImage.id

def getAssocImageBackups (imgId : Int) : List Int :=
  (db.assocImages.filter fun assoc => assoc.1 = imgId).map Prod.snd

def getImageSize (id : Int) : Int := ((db.findImage id).map BackupImage.sizeBytes).getD (-1)

def getImagePath (id : Int) : Option String := (db.findImage id).map BackupImage.path

def getImageClientname (id : Int) : Option String := do
  let image ← db.findImage id
  let client ← db.clients.find? fun client => client.id = image.clientid
  return client.name

def getIncrNumImagesForBackup (id : Int) : Int :=
  match db.findImage id with
  | none => 0
  | some backup =>
    (db.images.filter fun image => image.clientid = backup.clientid ∧ image.incremental ≠ 0 ∧
      image.complete = 1 ∧ image.letter = backup.letter ∧ image.archived = 0).length

def addToImageStats (sizeCorrection id : Int) : ImageDb :=
  { db with delStats := db.delStats ++ (db.images.filter fun image => image.id = id).map fun image =>
      (id, image.sizeBytes + sizeCorrection) }

/-- Deletes the row of an image, and with it the rows of `assoc_images` that refer to it. -/
def removeImage (id : Int) : ImageDb :=
  { db with
    images := db.images.filter fun image => image.id ≠ id
    assocImages := db.assocImages.filter fun assoc => assoc.1 ≠ id ∧ assoc.2 ≠ id }

/-- Without a row of the image the condition on the id of the client holds for none. -/
def removeImageSize (id : Int) : ImageDb :=
  { db with clients := match db.findImage id with
    | none => db.clients
    | some image => db.clients.map fun client =>
      if client.id = image.clientid then
        { client with bytesUsedImages := client.bytesUsedImages - image.sizeBytes }
      else client }

theorem removeImageSize_removeImage (id : Int) :
    (db.removeImage id).removeImageSize id = db.removeImage id := by
  have hgone : (db.removeImage id).findImage id = none := by
    rw [findImage, removeImage, List.find?_eq_none]
    intro image himage
    rw [decide_eq_true_eq]
    exact of_decide_eq_true (List.mem_filter.mp himage).2
  rw [removeImageSize, hgone]

/-- Every incremental image has the image that it needs. -/
def RefsExist : Prop :=
  ∀ image ∈ db.images, image.incremental ≠ 0 → ∃ ref ∈ db.images, ref.id = image.incrementalRef

instance : Decidable db.RefsExist := inferInstanceAs (Decidable (∀ image ∈ db.images, _))

end ImageDb

/-- A call of `removeImage` that is over: the references that there were at its start, and
whether the files of the image were deleted. -/
structure ImageCall where
  backupid : Int
  refs : List Int
  deleted : Bool
  deriving DecidableEq, Repr

structure CleanupState where
  db : ImageDb
  calls : List ImageCall
  deriving DecidableEq, Repr

namespace CleanupState

/-- Whether the files of an image of a client could be deleted may depend on all that has
happened so far. -/
abbrev DeleteImage := CleanupState → (clientname path : String) → Bool

variable (deleteImage : DeleteImage) (minImageIncr : Int)

def maxRemovableIncrImages (db : ImageDb) (backupid : Int) : Int :=
  if minImageIncr < db.getIncrNumImagesForBackup backupid then
    db.getIncrNumImagesForBackup backupid - minImageIncr
  else 0

def record (backupid : Int) (refs : List Int) (deleted : Bool) (st : CleanupState) : CleanupState :=
  { st with calls := st.calls ++ [⟨backupid, refs, deleted⟩] }

def removeRefs (remove : Int → CleanupState → Option (Bool × CleanupState)) :
    List Int → Bool → CleanupState → Option (Option Bool × CleanupState)
  | [], ret, st => some (some ret, st)
  | ref :: refs, ret, st =>
    if maxRemovableIncrImages minImageIncr st.db ref ≤ 0 then some (none, st)
    else do
      let (b, st) ← remove ref st
      removeRefs remove refs (if b then ret else false) st

def removeAssoc (remove : Int → CleanupState → Option (Bool × CleanupState)) :
    List Int → Int → CleanupState → Option (Int × CleanupState)
  | [], size, st => some (size, st)
  | assoc :: rest, size, st => do
      let is := st.db.getImageSize assoc
      let (_, st) ← remove assoc st
      removeAssoc remove rest (if 0 < is then size + is else size) st

def removeFiles (backupid : Int) (refs : List Int) (updateStat forceRemove ret : Bool)
    (deletedSize : Int) (st : CleanupState) : Bool × CleanupState :=
  match st.db.getImagePath backupid, st.db.getImageClientname backupid with
  | some path, some clientname =>
    let st := if updateStat then { st with db := st.db.addToImageStats deletedSize backupid } else st
    if deleteImage st clientname path || forceRemove then
      let db := (st.db.removeImage backupid).removeImageSize backupid
      (ret, record backupid refs true { st with db })
    else (false, record backupid refs false st)
  | _, _ => (false, record backupid refs false st)

theorem removeFiles_eq (backupid : Int) (refs : List Int) (updateStat forceRemove ret : Bool)
    (deletedSize : Int) (st : CleanupState) :
    removeFiles deleteImage backupid refs updateStat forceRemove ret deletedSize st =
      match st.db.getImagePath backupid, st.db.getImageClientname backupid with
      | some path, some clientname =>
        let st := if updateStat then { st with db := st.db.addToImageStats deletedSize backupid }
          else st
        if deleteImage st clientname path || forceRemove then
          (ret, record backupid refs true { st with db := st.db.removeImage backupid })
        else (false, record backupid refs false st)
      | _, _ => (false, record backupid refs false st) := by
  simp only [removeFiles, ImageDb.removeImageSize_removeImage]

def removeReferencing (remove : Int → CleanupState → Option (Bool × CleanupState))
    (forceRemove removeReferences : Bool) (refs : List Int) (st : CleanupState) :
    Option (Option Bool × CleanupState) :=
  if removeReferences then removeRefs minImageIncr remove refs true st
  else if forceRemove = false ∧ refs ≠ [] then some (none, st)
  else some (some true, st)

def removeBelonging (remove : Int → CleanupState → Option (Bool × CleanupState))
    (removeAssociated : Bool) (backupid deletedSize : Int) (st : CleanupState) :
    Option (Int × CleanupState) :=
  if removeAssociated then removeAssoc remove (st.db.getAssocImageBackups backupid) deletedSize st
  else some (deletedSize, st)

/-- The recursion has no bound of its own; `fuel` is the depth of the calls. -/
def removeImage : (fuel : Nat) → (updateStat forceRemove removeAssociated removeReferences : Bool) →
    (backupid : Int) → CleanupState → Option (Bool × CleanupState)
  | 0, _, _, _, _, _, _ => none
  | fuel + 1, updateStat, forceRemove, removeAssociated, removeReferences, backupid, st => do
      let deletedSize := if updateStat then st.db.getImageSize backupid else 0
      let refs := st.db.getImageRefs backupid
      let (ret, st) ← removeReferencing minImageIncr
        (removeImage fuel true forceRemove removeAssociated removeReferences)
        forceRemove removeReferences refs st
      match ret with
      | none => return (false, record backupid refs false st)
      | some ret => do
          let (deletedSize, st) ← removeBelonging
            (removeImage fuel false forceRemove removeAssociated removeReferences)
            removeAssociated backupid deletedSize st
          return removeFiles deleteImage backupid refs updateStat forceRemove ret deletedSize st

/-- What calls do to the database: the rows of the images whose files they delete are gone, and
they have found the references of their images. -/
structure Effect (st : CleanupState) (log : List ImageCall) (st' : CleanupState) : Prop where
  calls : st'.calls = st.calls ++ log
  assoc : st'.db.assocImages ⊆ st.db.assocImages
  images : ∀ image, image ∈ st'.db.images ↔ image ∈ st.db.images ∧
    ∀ call ∈ log, call.deleted = true → call.backupid ≠ image.id
  found : ∀ call ∈ log, ∀ image ∈ st'.db.images, image.incremental ≠ 0 →
    image.incrementalRef = call.backupid → image.id ∈ call.refs
  refs : ∀ call ∈ log, ∀ ref ∈ call.refs, ∃ image ∈ st.db.images,
    image.id = ref ∧ image.incremental ≠ 0 ∧ image.incrementalRef = call.backupid

section Effect

variable {deleteImage : DeleteImage} {minImageIncr : Int} {st st' st'' : CleanupState}
  {log log' : List ImageCall} {backupid : Int}

theorem Effect.refl (st : CleanupState) : Effect st [] st := by
  refine ⟨(List.append_nil _).symm, List.Subset.refl _, ?_, ?_, ?_⟩
  · intro image
    simp
  · intro call hcall
    cases hcall
  · intro call hcall
    cases hcall

theorem Effect.trans (h : Effect st log st') (h' : Effect st' log' st'') :
    Effect st (log ++ log') st'' := by
  refine ⟨by rw [h'.calls, h.calls, List.append_assoc], List.Subset.trans h'.assoc h.assoc,
    ?_, ?_, ?_⟩
  · intro image
    rw [h'.images, h.images, and_assoc]
    apply and_congr_right
    intro _
    simp only [List.mem_append, or_imp, forall_and]
  · intro call hcall image himage
    cases List.mem_append.mp hcall with
    | inl hcall => exact h.found call hcall image ((h'.images image).mp himage).1
    | inr hcall => exact h'.found call hcall image himage
  · intro call hcall ref href
    cases List.mem_append.mp hcall with
    | inl hcall => exact h.refs call hcall ref href
    | inr hcall =>
      obtain ⟨image, himage, hid⟩ := h'.refs call hcall ref href
      exact ⟨image, ((h.images image).mp himage).1, hid⟩

theorem mem_getImageRefs {db : ImageDb} {ref : Int} : ref ∈ db.getImageRefs backupid ↔
    ∃ image ∈ db.images, image.id = ref ∧ image.incremental ≠ 0 ∧
      image.incrementalRef = backupid := by
  simp only [ImageDb.getImageRefs, List.mem_map, List.mem_filter, decide_eq_true_eq]
  constructor
  · rintro ⟨image, ⟨himage, hincr⟩, rfl⟩
    exact ⟨image, himage, rfl, hincr⟩
  · rintro ⟨image, himage, rfl, hincr⟩
    exact ⟨image, ⟨himage, hincr⟩, rfl⟩

theorem Effect.record {db : ImageDb} {deleted : Bool} (h : Effect st log st')
    (hassoc : db.assocImages ⊆ st'.db.assocImages)
    (himages : ∀ image, image ∈ db.images ↔ image ∈ st'.db.images ∧
      (deleted = true → backupid ≠ image.id)) :
    Effect st (log ++ [⟨backupid, st.db.getImageRefs backupid, deleted⟩])
      (record backupid (st.db.getImageRefs backupid) deleted { st' with db }) := by
  refine ⟨?_, List.Subset.trans hassoc h.assoc, ?_, ?_, ?_⟩
  · simp only [CleanupState.record, h.calls, List.append_assoc]
  · intro image
    simp only [CleanupState.record, himages, h.images, List.mem_append, List.mem_singleton, or_imp,
      forall_and, forall_eq, and_assoc]
  · intro call hcall image himage hincr href
    obtain ⟨himage', -⟩ := (himages image).mp himage
    cases List.mem_append.mp hcall with
    | inl hcall => exact h.found call hcall image himage' hincr href
    | inr hcall =>
      obtain rfl := List.mem_singleton.mp hcall
      exact mem_getImageRefs.mpr ⟨image, ((h.images image).mp himage').1, rfl, hincr, href⟩
  · intro call hcall ref href
    cases List.mem_append.mp hcall with
    | inl hcall => exact h.refs call hcall ref href
    | inr hcall =>
      obtain rfl := List.mem_singleton.mp hcall
      exact mem_getImageRefs.mp href

/-- What calls do, with a property of each of them. -/
def Does (Q : ImageCall → Prop) (st st' : CleanupState) : Prop :=
  ∃ log, Effect st log st' ∧ ∀ call ∈ log, Q call

section Does

variable {Q : ImageCall → Prop}

theorem Does.refl (st : CleanupState) : Does Q st st := by
  refine ⟨[], .refl st, ?_⟩
  intro call hcall
  cases hcall

theorem Does.trans (h : Does Q st st') (h' : Does Q st' st'') : Does Q st st'' := by
  obtain ⟨log, heffect, hQ⟩ := h
  obtain ⟨log', heffect', hQ'⟩ := h'
  refine ⟨log ++ log', heffect.trans heffect', ?_⟩
  intro call hcall
  exact (List.mem_append.mp hcall).elim (hQ call) (hQ' call)

theorem Does.record {db : ImageDb} {deleted : Bool} (h : Does Q st st')
    (hassoc : db.assocImages ⊆ st'.db.assocImages)
    (himages : ∀ image, image ∈ db.images ↔ image ∈ st'.db.images ∧
      (deleted = true → backupid ≠ image.id))
    (hQ : Q ⟨backupid, st.db.getImageRefs backupid, deleted⟩) :
    Does Q st (record backupid (st.db.getImageRefs backupid) deleted { st' with db }) := by
  obtain ⟨log, heffect, hlog⟩ := h
  refine ⟨_, heffect.record hassoc himages, ?_⟩
  intro call hcall
  cases List.mem_append.mp hcall with
  | inl hcall => exact hlog call hcall
  | inr hcall =>
    obtain rfl := List.mem_singleton.mp hcall
    exact hQ

theorem does_removeRefs {remove : Int → CleanupState → Option (Bool × CleanupState)}
    (hremove : ∀ id st b st', remove id st = some (b, st') → Does Q st st')
    {refs : List Int} {ret : Bool} {res : Option Bool}
    (h : removeRefs minImageIncr remove refs ret st = some (res, st')) : Does Q st st' := by
  induction refs generalizing ret st with
  | nil =>
    cases h
    exact .refl _
  | cons ref refs ih =>
    rw [removeRefs] at h
    split at h
    · cases h
      exact .refl _
    · obtain ⟨⟨b, st1⟩, hcall, hrest⟩ := Option.bind_eq_some_iff.mp h
      exact (hremove _ _ _ _ hcall).trans (ih hrest)

theorem does_removeAssoc {remove : Int → CleanupState → Option (Bool × CleanupState)}
    (hremove : ∀ id st b st', remove id st = some (b, st') → Does Q st st')
    {assoc : List Int} {size size' : Int}
    (h : removeAssoc remove assoc size st = some (size', st')) : Does Q st st' := by
  induction assoc generalizing size st with
  | nil =>
    cases h
    exact .refl _
  | cons a assoc ih =>
    obtain ⟨⟨b, st1⟩, hcall, hrest⟩ := Option.bind_eq_some_iff.mp h
    exact (hremove _ _ _ _ hcall).trans (ih hrest)

theorem does_removeFiles {updateStat forceRemove ret : Bool} {size : Int}
    (h : Does Q st st') (hQ : ∀ deleted, Q ⟨backupid, st.db.getImageRefs backupid, deleted⟩) :
    Does Q st (removeFiles deleteImage backupid (st.db.getImageRefs backupid) updateStat forceRemove
      ret size st').2 := by
  have hstays : ∀ image, image ∈ st'.db.images ↔
      image ∈ st'.db.images ∧ (false = true → backupid ≠ image.id) := by simp
  rw [removeFiles_eq]
  split
  · simp only
    generalize hst : (if updateStat = true then
      { st' with db := st'.db.addToImageStats size backupid } else st') = st1
    have hsame : st1.calls = st'.calls ∧ st1.db.assocImages = st'.db.assocImages ∧
        st1.db.images = st'.db.images := by
      subst hst
      split
      · exact ⟨rfl, rfl, rfl⟩
      · exact ⟨rfl, rfl, rfl⟩
    obtain ⟨db, calls⟩ := st1
    obtain ⟨rfl, hassoc, hdb⟩ := hsame
    simp only at hassoc hdb
    split
    · refine h.record (hassoc ▸ List.filter_subset_self _) ?_ (hQ true)
      intro image
      rw [ImageDb.removeImage, List.mem_filter, hdb]
      simp only [decide_eq_true_eq, forall_const, ne_comm]
    · refine h.record (hassoc ▸ List.Subset.refl _) ?_ (hQ false)
      intro image
      rw [hdb]
      exact hstays image
  · exact h.record (List.Subset.refl _) hstays (hQ false)

/-- Induction on the depth of the calls. An image that is not to be removed with its references
is removed only where it has none. -/
theorem does_removeImage {fuel : Nat} {updateStat forceRemove removeAssociated removeReferences ret : Bool}
    (h : removeImage deleteImage minImageIncr fuel updateStat forceRemove removeAssociated
      removeReferences backupid st = some (ret, st')) :
    Does (fun call => forceRemove = false → removeReferences = false → call.deleted = true →
      call.refs = []) st st' := by
  induction fuel generalizing updateStat backupid st ret st' with
  | zero => cases h
  | succ fuel ih =>
    rw [removeImage] at h
    obtain ⟨⟨res, st1⟩, hrefs, h⟩ := Option.bind_eq_some_iff.mp h
    have hfirst : Does (fun call => forceRemove = false → removeReferences = false →
        call.deleted = true → call.refs = []) st st1 := by
      unfold removeReferencing at hrefs
      split at hrefs
      · exact does_removeRefs (fun _ _ _ _ hcall => ih hcall) hrefs
      · split at hrefs <;> cases hrefs <;> exact .refl _
    cases res with
    | none =>
      cases h
      exact hfirst.record (List.Subset.refl _) (by simp) (fun _ _ hdeleted => absurd hdeleted Bool.false_ne_true)
    | some b =>
      obtain ⟨⟨size, st2⟩, hassoc, h⟩ := Option.bind_eq_some_iff.mp h
      have hsecond : Does (fun call => forceRemove = false → removeReferences = false →
          call.deleted = true → call.refs = []) st1 st2 := by
        unfold removeBelonging at hassoc
        split at hassoc
        · exact does_removeAssoc (fun _ _ _ _ hcall => ih hcall) hassoc
        · cases hassoc
          exact .refl _
      have hlast : _ = st' := congrArg Prod.snd (Option.some.inj h)
      rw [← hlast]
      apply does_removeFiles (hfirst.trans hsecond)
      intro _ hforce hreferences _
      unfold removeReferencing at hrefs
      rw [hreferences, if_neg Bool.false_ne_true] at hrefs
      by_contra hne
      rw [if_pos ⟨hforce, hne⟩] at hrefs
      cases hrefs

end Does

theorem Effect.refsExist_iff (h : Effect st log st') (hvalid : st.db.RefsExist) :
    st'.db.RefsExist ↔ ∀ call ∈ log, call.deleted = true → ∀ ref ∈ call.refs,
      ∃ call' ∈ log, call'.deleted = true ∧ call'.backupid = ref := by
  constructor
  · intro hexist call hcall hdeleted ref href
    obtain ⟨image, himage, rfl, hincr, hof⟩ := h.refs call hcall ref href
    by_contra hnone
    have hstays : image ∈ st'.db.images := by
      rw [h.images]
      exact ⟨himage, fun call' hcall' hdeleted' heq => hnone ⟨call', hcall', hdeleted', heq⟩⟩
    obtain ⟨other, hother, hid⟩ := hexist image hstays hincr
    exact ((h.images other).mp hother).2 call hcall hdeleted (hof.symm.trans hid.symm)
  · intro hremoved image himage hincr
    obtain ⟨himage', hstays⟩ := (h.images image).mp himage
    obtain ⟨other, hother, hid⟩ := hvalid image himage' hincr
    refine ⟨other, (h.images other).mpr ⟨hother, ?_⟩, hid⟩
    intro call hcall hdeleted heq
    have hfound := h.found call hcall image himage hincr (hid.symm.trans heq.symm)
    obtain ⟨call', hcall', hdeleted', heq'⟩ := hremoved call hcall hdeleted _ hfound
    exact hstays call' hcall' hdeleted' heq'

/-- The images that reference an image and those that belong to it stand lower. -/
def Ranked (rank : Int → Nat) (db : ImageDb) : Prop :=
  (∀ image ∈ db.images, image.incremental ≠ 0 → rank image.id < rank image.incrementalRef) ∧
    ∀ assoc ∈ db.assocImages, rank assoc.2 < rank assoc.1

theorem Does.ranked {Q : ImageCall → Prop} {rank : Int → Nat} (h : Does Q st st')
    (hranked : Ranked rank st.db) : Ranked rank st'.db := by
  obtain ⟨log, heffect, -⟩ := h
  exact ⟨fun image himage => hranked.1 image ((heffect.images image).mp himage).1,
    fun assoc hassoc => hranked.2 assoc (heffect.assoc hassoc)⟩

section Ends

variable {rank : Int → Nat} {remove : Int → CleanupState → Option (Bool × CleanupState)}

theorem removeRefs_ends
    (hdoes : ∀ id st b st', remove id st = some (b, st') → Does (fun _ => True) st st')
    {refs : List Int} (hends : ∀ id ∈ refs, ∀ st, Ranked rank st.db → ∃ res, remove id st = some res)
    {ret : Bool} (hranked : Ranked rank st.db) :
    ∃ res st', removeRefs minImageIncr remove refs ret st = some (res, st') ∧ Ranked rank st'.db := by
  induction refs generalizing ret st with
  | nil => exact ⟨_, _, rfl, hranked⟩
  | cons ref refs ih =>
    rw [removeRefs]
    split
    · exact ⟨_, _, rfl, hranked⟩
    · obtain ⟨⟨b, st1⟩, hcall⟩ := hends ref List.mem_cons_self st hranked
      obtain ⟨res, st', hrest, hranked'⟩ :=
        @ih st1 (fun id hid => hends id (List.mem_cons_of_mem _ hid)) (if b then ret else false)
          ((hdoes _ _ _ _ hcall).ranked hranked)
      refine ⟨res, st', ?_, hranked'⟩
      rw [hcall]
      exact hrest

theorem removeAssoc_ends
    (hdoes : ∀ id st b st', remove id st = some (b, st') → Does (fun _ => True) st st')
    {assoc : List Int} (hends : ∀ id ∈ assoc, ∀ st, Ranked rank st.db → ∃ res, remove id st = some res)
    {size : Int} (hranked : Ranked rank st.db) :
    ∃ res st', removeAssoc remove assoc size st = some (res, st') := by
  induction assoc generalizing size st with
  | nil => exact ⟨_, _, rfl⟩
  | cons a assoc ih =>
    obtain ⟨⟨b, st1⟩, hcall⟩ := hends a List.mem_cons_self st hranked
    obtain ⟨res, st', hrest⟩ :=
      @ih st1 (fun id hid => hends id (List.mem_cons_of_mem _ hid))
        (if 0 < st.db.getImageSize a then size + st.db.getImageSize a else size)
        ((hdoes _ _ _ _ hcall).ranked hranked)
    refine ⟨res, st', ?_⟩
    rw [removeAssoc, hcall]
    exact hrest

theorem removeImage_ends {fuel : Nat} {updateStat forceRemove removeAssociated removeReferences : Bool}
    (hranked : Ranked rank st.db) (hfuel : rank backupid < fuel) :
    ∃ res, removeImage deleteImage minImageIncr fuel updateStat forceRemove removeAssociated
      removeReferences backupid st = some res := by
  induction fuel generalizing updateStat backupid st with
  | zero => omega
  | succ fuel ih =>
    have hdoes : ∀ us id st b st', removeImage deleteImage minImageIncr fuel us forceRemove
        removeAssociated removeReferences id st = some (b, st') → Does (fun _ => True) st st' := by
      intro us id st b st' hcall
      obtain ⟨log, heffect, -⟩ := does_removeImage hcall
      exact ⟨log, heffect, fun _ _ => trivial⟩
    have hfirst : ∃ res st1, removeReferencing minImageIncr
        (removeImage deleteImage minImageIncr fuel true forceRemove removeAssociated removeReferences)
        forceRemove removeReferences (st.db.getImageRefs backupid) st = some (res, st1) ∧
        Ranked rank st1.db := by
      unfold removeReferencing
      split
      · refine removeRefs_ends (hdoes true) ?_ hranked
        intro id hid st' hranked'
        obtain ⟨image, himage, rfl, hincr, hof⟩ := mem_getImageRefs.mp hid
        have hless := hranked.1 image himage hincr
        exact ih hranked' (by rw [hof] at hless; omega)
      · split
        · exact ⟨_, _, rfl, hranked⟩
        · exact ⟨_, _, rfl, hranked⟩
    obtain ⟨res, st1, hrefs, hranked1⟩ := hfirst
    rw [removeImage]
    simp only [hrefs, Option.bind_eq_bind, Option.bind_some]
    cases res with
    | none => exact ⟨_, rfl⟩
    | some ret =>
      have hsecond : ∃ res st2, removeBelonging
          (removeImage deleteImage minImageIncr fuel false forceRemove removeAssociated removeReferences)
          removeAssociated backupid (if updateStat then st.db.getImageSize backupid else 0) st1 =
          some (res, st2) := by
        unfold removeBelonging
        split
        · refine removeAssoc_ends (hdoes false) ?_ hranked1
          intro id hid st' hranked'
          obtain ⟨assoc, hassoc, rfl⟩ := List.mem_map.mp hid
          obtain ⟨hmem, hof⟩ := List.mem_filter.mp hassoc
          have hless := hranked1.2 assoc hmem
          rw [of_decide_eq_true hof] at hless
          exact ih hranked' (by omega)
        · exact ⟨_, _, rfl⟩
      obtain ⟨size, st2, hassoc⟩ := hsecond
      simp only [hassoc, Option.bind_some]
      exact ⟨_, rfl⟩

end Ends

end Effect

section Example

def twoImages : CleanupState where
  db :=
    { images := [⟨1, 1, "C", 0, 0, 1, 0, "full.vhd", 8⟩, ⟨2, 1, "C", 1, 1, 1, 0, "incr.vhd", 4⟩]
      assocImages := []
      clients := [⟨1, "laptop", 12⟩]
      delStats := [] }
  calls := []

end Example

end CleanupState

end UrBackup
