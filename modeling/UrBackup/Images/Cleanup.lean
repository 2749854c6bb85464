import UrBackup.Images.RemoveImage
import Mathlib.Data.List.Dedup
import Mathlib.Logic.Relation

/-! The cleanup of the images of one client: which image it takes up next, what it checks, and
when it is over. -/
namespace UrBackup

namespace ImageDb

variable (db : ImageDb)

def imageRefs (incrementalRef : Int) : List BackupImage :=
  db.images.filter fun image => image.incremental ≠ 0 ∧ image.incrementalRef = incrementalRef

theorem getImageRefs_eq (incrementalRef : Int) :
    db.getImageRefs incrementalRef = (db.imageRefs incrementalRef).map BackupImage.id := rfl

def getImageArchived (id : Int) : Int := ((db.findImage id).map BackupImage.archived).getD 0

/-- The complete images of a client that are not archived, oldest first. The images of system
partitions have longer letters. -/
def getNumImages (backuptime : Int → Int) (clientid : Int) (incremental : Bool) : List BackupImage :=
  (db.images.filter fun image => image.clientid = clientid ∧
    decide (image.incremental ≠ 0) = incremental ∧ image.complete = 1 ∧ image.letter.length ≤ 2 ∧
      image.archived = 0).mergeSort fun a b => backuptime a.id ≤ backuptime b.id

def getFullNumImages (backuptime : Int → Int) (clientid : Int) : List BackupImage :=
  db.getNumImages backuptime clientid false

def getIncrNumImages (backuptime : Int → Int) (clientid : Int) : List BackupImage :=
  db.getNumImages backuptime clientid true

/-- The loop over the references of an image. It ends at one that is bad, or has a bad one below
it. -/
def findLoop (bad : BackupImage → Bool) (find : Int → Option Bool) :
    List BackupImage → Option Bool
  | [] => some false
  | image :: rest =>
    if bad image then some true
    else (find image.id).bind fun found => if found then some true else findLoop bad find rest

/-- `fuel` is the depth of the calls. -/
def findImageRef (here : Int → Bool) (bad : BackupImage → Bool) :
    (fuel : Nat) → (backupid : Int) → Option Bool
  | 0, _ => none
  | fuel + 1, backupid =>
    if here backupid then some true
    else findLoop bad (findImageRef here bad fuel) (db.imageRefs backupid)

def findUncompleteImageRef (fuel : Nat) (backupid : Int) : Option Bool :=
  db.findImageRef (fun _ => false) (fun image => image.complete ≠ 1) fuel backupid

def findLockedImageRef (locked : Int → Bool) (fuel : Nat) (backupid : Int) : Option Bool :=
  db.findImageRef (fun _ => false) (fun image => locked image.id) fuel backupid

def findArchivedImageRef (fuel : Nat) (backupid : Int) : Option Bool :=
  db.findImageRef
    (fun id => (db.getAssocImageBackups id).any fun assoc => db.getImageArchived assoc = 1)
    (fun image => image.archived = 1) fuel backupid

/-- Ids are primary keys. -/
def IdsUnique : Prop := (db.images.map BackupImage.id).Nodup

instance : Decidable db.IdsUnique := inferInstanceAs (Decidable (List.Nodup _))

theorem IdsUnique.eq {db : ImageDb} (h : db.IdsUnique) {image image' : BackupImage}
    (himage : image ∈ db.images) (himage' : image' ∈ db.images) (hid : image.id = image'.id) :
    image = image' := List.inj_on_of_nodup_map h himage himage' hid

/-- `y` is removed with `x`. -/
def RemovedWith (x y : Int) : Prop := y ∈ db.getImageRefs x ∨ y ∈ db.getAssocImageBackups x

end ImageDb

def imagesIds (rows : List BackupImage) (notit : List Int) (letter : String) : List Int :=
  (rows.filter fun image => image.letter = letter ∧ image.id ∉ notit).map BackupImage.id

/-- The largest number of images of a letter, and the oldest image of the first letter that has so
many. -/
def getImagesNum (rows : List BackupImage) (notit : List Int) : Nat × Option Int :=
  (((rows.map BackupImage.letter).dedup).mergeSort fun a b => a ≤ b).foldl
    (fun top letter =>
      if top.1 < (imagesIds rows notit letter).length then
        ((imagesIds rows notit letter).length, (imagesIds rows notit letter).head?)
      else top) (0, none)

theorem getImagesNum_mem {rows : List BackupImage} {notit : List Int} {num : Nat} {backupid : Int}
    (h : getImagesNum rows notit = (num, some backupid)) :
    ∃ image ∈ rows, image.id = backupid ∧ backupid ∉ notit := by
  unfold getImagesNum at h
  generalize ((rows.map BackupImage.letter).dedup).mergeSort (fun a b => a ≤ b) = letters at h
  have hstart : ∀ b, ((0, none) : Nat × Option Int).2 = some b →
      ∃ image ∈ rows, image.id = b ∧ b ∉ notit := nofun
  generalize ((0, none) : Nat × Option Int) = top at h hstart
  induction letters generalizing top with
  | nil =>
    rw [List.foldl_nil] at h
    apply hstart
    rw [h]
  | cons letter letters ih =>
    rw [List.foldl_cons] at h
    apply ih _ h
    intro b hb
    split at hb
    · have hmem := List.mem_of_head? hb
      obtain ⟨image, himage, rfl⟩ := List.mem_map.mp hmem
      obtain ⟨hrow, hnew⟩ := List.mem_filter.mp himage
      exact ⟨image, hrow, rfl, (of_decide_eq_true hnew).2⟩
    · exact hstart b hb

theorem getImagesNum_singleton (image : BackupImage) :
    getImagesNum [image] [] = (1, some image.id) := by
  have hids : imagesIds [image] [] image.letter = [image.id] := by simp [imagesIds]
  have hletters : List.mergeSort [image.letter] (fun a b => a ≤ b) = [image.letter] :=
    List.mergeSort_singleton _
  rw [getImagesNum, List.map_singleton, List.dedup_cons_of_notMem List.not_mem_nil]
  rw [List.dedup_nil, hletters, List.foldl_cons, hids]
  rfl
/-- What stays as it is during a cleanup: its arguments, the settings of the client, the images
that are locked, the times of the backups, and how the file system answers. -/
structure ImageCleanup where
  minspace : Int
  cleanupOnlyOne : Bool
  maxImageFull : Int
  minImageFull : Int
  maxImageIncr : Int
  minImageIncr : Int
  locked : Int → Bool
  backuptime : Int → Int
  freeSpace : CleanupState → Int
  deleteImage : CleanupState.DeleteImage

namespace ImageCleanup

variable (c : ImageCleanup)

def hasEnoughFreeSpace (st : CleanupState) : Int :=
  if c.minspace ≠ -1 then
    if c.freeSpace st = -1 then -1 else if c.freeSpace st > c.minspace then 1 else 0
  else 0

def mayRemove (fuel : Nat) (db : ImageDb) (backupid : Int) : Option Bool :=
  if c.locked backupid then some false
  else (db.findUncompleteImageRef fuel backupid).bind fun uncomplete =>
    if uncomplete then some false
    else (db.findLockedImageRef c.locked fuel backupid).bind fun locked =>
      if locked then some false
      else (db.findArchivedImageRef fuel backupid).map not

def removeImage (fuel : Nat) (updateStat : Bool) (backupid : Int) (st : CleanupState) :
    Option (Bool × CleanupState) :=
  CleanupState.removeImage c.deleteImage c.minImageIncr fuel updateStat false true true backupid st

def cleanupTurn (fuel : Nat) (backupid : Int) (st : CleanupState) : Option (Bool × CleanupState) :=
  (c.mayRemove fuel st.db backupid).bind fun ok =>
    if ok then c.removeImage fuel true backupid st else some (false, st)

def isOver (removed : Bool) (st : CleanupState) : Bool :=
  (removed && c.cleanupOnlyOne) || decide (c.hasEnoughFreeSpace st = -1 ∨ c.hasEnoughFreeSpace st = 1)

/-- One of the two loops. Its result says whether the cleanup is over, and which images it
removed. -/
def cleanupLoop (rows : ImageDb → List BackupImage) (maxImages : Int) (fuel : Nat) :
    (turns : Nat) → (notit imageids : List Int) → CleanupState →
      Option (Bool × List Int × CleanupState)
  | 0, _, _, _ => none
  | turns + 1, notit, imageids, st =>
    match getImagesNum (rows st.db) notit with
    | (_, none) => some (false, imageids, st)
    | (num, some backupid) =>
      if maxImages < num then
        (c.cleanupTurn fuel backupid st).bind fun (removed, st) =>
          if c.isOver removed st then
            some (true, if removed then imageids ++ [backupid] else imageids, st)
          else if removed then
            cleanupLoop rows maxImages fuel turns notit (imageids ++ [backupid]) st
          else cleanupLoop rows maxImages fuel turns (notit ++ [backupid]) imageids st
      else some (false, imageids, st)

def fullLimit : Int := if c.minspace ≠ -1 then c.minImageFull else c.maxImageFull

def incrLimit : Int := if c.minspace ≠ -1 then c.minImageIncr else c.maxImageIncr

def cleanupImagesClient (fuel : Nat) (clientid : Int) (st : CleanupState) :
    Option (Bool × List Int × CleanupState) :=
  (c.cleanupLoop (fun db => db.getFullNumImages c.backuptime clientid) c.fullLimit fuel fuel [] []
    st).bind fun (finished, imageids, st) =>
      if finished then some (true, imageids, st)
      else c.cleanupLoop (fun db => db.getIncrNumImages c.backuptime clientid) c.incrLimit fuel fuel
        [] imageids st

/-- In a loop over images, what begins with an image that is not blocked meets a condition. -/
def EachMeets (blocked : Int → CleanupState → Prop) (meets : Int → CleanupState → Prop)
    (remove : Int → CleanupState → Option (Bool × CleanupState)) : List Int → CleanupState → Prop
  | [], _ => True
  | id :: rest, st => ¬ blocked id st → meets id st ∧
      ∀ b st', remove id st = some (b, st') → EachMeets blocked meets remove rest st'

/-- Every call of the recursion begins in a state that meets a condition. The condition may also
ask whether the call is for an associated image. -/
def CallsMeet (ok : (assoc : Bool) → Int → CleanupState → Prop) :
    (fuel : Nat) → (assoc : Bool) → Int → CleanupState → Prop
  | 0, _, _, _ => True
  | fuel + 1, assoc, backupid, st =>
    ok assoc backupid st ∧
    EachMeets (fun id st => CleanupState.maxRemovableIncrImages c.minImageIncr st.db id ≤ 0)
      (CallsMeet ok fuel false) (c.removeImage fuel true) (st.db.getImageRefs backupid) st ∧
    ∀ ret st', CleanupState.removeRefs c.minImageIncr (c.removeImage fuel true)
        (st.db.getImageRefs backupid) true st = some (some ret, st') →
      EachMeets (fun _ _ => False) (CallsMeet ok fuel true) (c.removeImage fuel false)
        (st'.db.getAssocImageBackups backupid) st'

/-- Every call of a loop, made for images that passed the checks, meets the condition. -/
def LoopMeets (ok : (assoc : Bool) → Int → CleanupState → Prop)
    (rows : ImageDb → List BackupImage) (maxImages : Int) (fuel : Nat) :
    (turns : Nat) → (notit : List Int) → CleanupState → Prop
  | 0, _, _ => True
  | turns + 1, notit, st =>
    ∀ num backupid, getImagesNum (rows st.db) notit = (num, some backupid) → maxImages < num →
      (c.mayRemove fuel st.db backupid = some true → c.CallsMeet ok fuel false backupid st) ∧
      ∀ removed st', c.cleanupTurn fuel backupid st = some (removed, st') →
        c.isOver removed st' = false →
          LoopMeets ok rows maxImages fuel turns (if removed then notit else notit ++ [backupid]) st'

/-- Every call of a cleanup meets the condition. -/
def CleanupMeets (ok : (assoc : Bool) → Int → CleanupState → Prop) (fuel : Nat) (clientid : Int)
    (st : CleanupState) : Prop :=
  c.LoopMeets ok (fun db => db.getFullNumImages c.backuptime clientid) c.fullLimit fuel fuel [] st ∧
  ∀ imageids st', c.cleanupLoop (fun db => db.getFullNumImages c.backuptime clientid) c.fullLimit
      fuel fuel [] [] st = some (false, imageids, st') →
    c.LoopMeets ok (fun db => db.getIncrNumImages c.backuptime clientid) c.incrLimit fuel fuel [] st'

theorem eachMeets_of_forall {blocked : Int → CleanupState → Prop} {meets : Int → CleanupState → Prop}
    {remove : Int → CleanupState → Option (Bool × CleanupState)} (hmeets : ∀ id st, meets id st)
    (ids : List Int) (st : CleanupState) : EachMeets blocked meets remove ids st := by
  induction ids generalizing st with
  | nil => trivial
  | cons id ids ih => exact fun _ => ⟨hmeets id st, fun _ st' _ => ih st'⟩

theorem callsMeet_true (fuel : Nat) (assoc : Bool) (backupid : Int) (st : CleanupState) :
    c.CallsMeet (fun _ _ _ => True) fuel assoc backupid st := by
  induction fuel generalizing assoc backupid st with
  | zero => trivial
  | succ fuel ih =>
    exact ⟨trivial, eachMeets_of_forall (fun id st => ih false id st) _ _,
      fun _ _ _ => eachMeets_of_forall (fun id st => ih true id st) _ _⟩

section Rules

variable {c} {J : CleanupState → Prop} {ok : Bool → Int → CleanupState → Prop}
  {meets : Int → CleanupState → Prop}
  {remove : Int → CleanupState → Option (Bool × CleanupState)} {st st' : CleanupState}

/-- The rule for the loop over the references. -/
theorem removeRefs_rule {minImageIncr : Int} {refs : List Int}
    (hcall : ∀ id ∈ refs, ∀ st b st', J st → meets id st → remove id st = some (b, st') → J st')
    (hmeets : EachMeets (fun id st => CleanupState.maxRemovableIncrImages minImageIncr st.db id ≤ 0)
      meets remove refs st) {ret : Bool} {res : Option Bool}
    (h : CleanupState.removeRefs minImageIncr remove refs ret st = some (res, st')) (hJ : J st) :
    J st' := by
  induction refs generalizing ret st with
  | nil =>
    cases h
    exact hJ
  | cons ref refs ih =>
    rw [CleanupState.removeRefs] at h
    split at h
    · cases h
      exact hJ
    · rename_i hnot
      obtain ⟨⟨b, st1⟩, hfirst, hrest⟩ := Option.bind_eq_some_iff.mp h
      obtain ⟨hmeet, hnext⟩ := hmeets hnot
      apply ih (fun id hid => hcall id (List.mem_cons_of_mem _ hid)) (hnext b st1 hfirst) hrest
      exact hcall ref List.mem_cons_self _ _ _ hJ hmeet hfirst

/-- The rule for the loop over the associated images. -/
theorem removeAssoc_rule {assoc : List Int}
    (hcall : ∀ id ∈ assoc, ∀ st b st', J st → meets id st → remove id st = some (b, st') → J st')
    (hmeets : EachMeets (fun _ _ => False) meets remove assoc st) {size size' : Int}
    (h : CleanupState.removeAssoc remove assoc size st = some (size', st')) (hJ : J st) :
    J st' := by
  induction assoc generalizing size st with
  | nil =>
    cases h
    exact hJ
  | cons a assoc ih =>
    obtain ⟨⟨b, st1⟩, hfirst, hrest⟩ := Option.bind_eq_some_iff.mp h
    obtain ⟨hmeet, hnext⟩ := hmeets not_false
    apply ih (fun id hid => hcall id (List.mem_cons_of_mem _ hid)) (hnext b st1 hfirst) hrest
    exact hcall a List.mem_cons_self _ _ _ hJ hmeet hfirst

/-- The end of a call: what is recorded, and the row that may be gone. -/
def Recorded (backupid : Int) (refs : List Int) (st st' : CleanupState) : Prop :=
  ∃ deleted, st'.calls = st.calls ++ [⟨backupid, refs, deleted⟩] ∧
    (st'.db.assocImages = if deleted then
      st.db.assocImages.filter fun assoc => assoc.1 ≠ backupid ∧ assoc.2 ≠ backupid
      else st.db.assocImages) ∧
    st'.db.images = if deleted then st.db.images.filter fun image => image.id ≠ backupid
      else st.db.images

theorem recorded_removeFiles {backupid : Int} {refs : List Int} {updateStat ret : Bool} {size : Int} :
    Recorded backupid refs st
      (CleanupState.removeFiles c.deleteImage backupid refs updateStat false ret size st).2 := by
  rw [CleanupState.removeFiles_eq]
  split
  · cases updateStat with
    | true =>
      simp only [if_true]
      split
      · exact ⟨true, rfl, rfl, rfl⟩
      · exact ⟨false, rfl, rfl, rfl⟩
    | false =>
      simp only [Bool.false_eq_true, if_false]
      split
      · exact ⟨true, rfl, rfl, rfl⟩
      · exact ⟨false, rfl, rfl, rfl⟩
  · exact ⟨false, rfl, rfl, rfl⟩

theorem Recorded.assoc_subset {backupid : Int} {refs : List Int} (h : Recorded backupid refs st st') :
    st'.db.assocImages ⊆ st.db.assocImages := by
  obtain ⟨deleted, -, hassoc, -⟩ := h
  rw [hassoc]
  cases deleted with
  | false => exact List.Subset.refl _
  | true => exact List.filter_subset_self _

/-- The rule for a call. Its condition is asked for where it begins, and the recursion keeps what
its own calls keep. -/
theorem removeImage_rule {fuel : Nat} {assoc updateStat ret : Bool} {backupid : Int}
    (href : ∀ id ∈ st.db.getImageRefs backupid, ∀ st b st', J st →
      c.CallsMeet ok fuel false id st → c.removeImage fuel true id st = some (b, st') → J st')
    (hassoc : ∀ id, (backupid, id) ∈ st.db.assocImages → ∀ st b st', J st →
      c.CallsMeet ok fuel true id st → c.removeImage fuel false id st = some (b, st') → J st')
    (hsub : ∀ st', J st' → st'.db.assocImages ⊆ st.db.assocImages)
    (hmeets : c.CallsMeet ok (fuel + 1) assoc backupid st)
    (h : c.removeImage (fuel + 1) updateStat backupid st = some (ret, st')) (hJ : J st) :
    ∃ st1, J st1 ∧ Recorded backupid (st.db.getImageRefs backupid) st1 st' := by
  obtain ⟨-, hrefsMeet, hassocMeet⟩ := hmeets
  rw [removeImage, CleanupState.removeImage] at h
  obtain ⟨⟨res, st1⟩, hrefs, h⟩ := Option.bind_eq_some_iff.mp h
  have hfirst : J st1 := removeRefs_rule href hrefsMeet hrefs hJ
  cases res with
  | none =>
    cases h
    exact ⟨st1, hfirst, false, rfl, rfl, rfl⟩
  | some r =>
    obtain ⟨⟨size, st2⟩, hbelonging, h⟩ := Option.bind_eq_some_iff.mp h
    have hsecond : J st2 := by
      refine removeAssoc_rule ?_ (hassocMeet r st1 hrefs) hbelonging hfirst
      intro id hid
      apply hassoc
      obtain ⟨pair, hpair, rfl⟩ := List.mem_map.mp hid
      obtain ⟨hmem, hof⟩ := List.mem_filter.mp hpair
      rw [← of_decide_eq_true hof]
      exact hsub st1 hfirst hmem
    have hlast : _ = st' := congrArg Prod.snd (Option.some.inj h)
    rw [← hlast]
    exact ⟨st2, hsecond, recorded_removeFiles⟩

/-- The rule for a loop of the cleanup. -/
theorem cleanupLoop_rule {rows : ImageDb → List BackupImage} {maxImages : Int} {fuel turns : Nat}
    {notit imageids imageids' : List Int} {finished : Bool}
    (hturn : ∀ backupid st b st', J st → (∃ image ∈ rows st.db, image.id = backupid) →
      c.mayRemove fuel st.db backupid = some true → c.CallsMeet ok fuel false backupid st →
        c.removeImage fuel true backupid st = some (b, st') → J st')
    (hmeets : c.LoopMeets ok rows maxImages fuel turns notit st)
    (h : c.cleanupLoop rows maxImages fuel turns notit imageids st = some (finished, imageids', st'))
    (hJ : J st) : J st' := by
  induction turns generalizing notit imageids st with
  | zero => cases h
  | succ turns ih =>
    rw [cleanupLoop] at h
    split at h
    · cases h
      exact hJ
    · rename_i num backupid hnum
      split at h
      · rename_i hmore
        obtain ⟨⟨removed, st1⟩, hone, h⟩ := Option.bind_eq_some_iff.mp h
        obtain ⟨hcalls, hnext⟩ := hmeets num backupid hnum hmore
        have hJ1 : J st1 := by
          obtain ⟨may, hmay, hone⟩ := Option.bind_eq_some_iff.mp hone
          cases may with
          | true =>
            obtain ⟨image, himage, hid, -⟩ := getImagesNum_mem hnum
            exact hturn backupid st removed st1 hJ ⟨image, himage, hid⟩ hmay (hcalls hmay) hone
          | false =>
            cases hone
            exact hJ
        simp only at h
        split at h
        · cases h
          exact hJ1
        · rename_i hgoes
          have hrest := hnext removed st1 hone (Bool.not_eq_true _ ▸ hgoes)
          split at h
          · rename_i hremoved
            rw [if_pos hremoved] at hrest
            exact ih hrest h hJ1
          · rename_i hremoved
            rw [if_neg hremoved] at hrest
            exact ih hrest h hJ1
      · cases h
        exact hJ

/-- The rule for a cleanup. The images it takes up are complete and not archived. -/
theorem cleanupImagesClient_rule {fuel : Nat} {clientid : Int} {imageids : List Int} {finished : Bool}
    (hturn : ∀ backupid st b st', J st → (∃ image ∈ st.db.images, image.id = backupid ∧
      image.complete = 1 ∧ image.archived = 0) → c.mayRemove fuel st.db backupid = some true →
        c.CallsMeet ok fuel false backupid st →
          c.removeImage fuel true backupid st = some (b, st') → J st')
    (hmeets : c.CleanupMeets ok fuel clientid st)
    (h : c.cleanupImagesClient fuel clientid st = some (finished, imageids, st')) (hJ : J st) :
    J st' := by
  have hrows : ∀ incremental backupid st b st', J st →
      (∃ image ∈ ImageDb.getNumImages st.db c.backuptime clientid incremental, image.id = backupid) →
      c.mayRemove fuel st.db backupid = some true → c.CallsMeet ok fuel false backupid st →
        c.removeImage fuel true backupid st = some (b, st') → J st' := by
    intro incremental backupid st b st' hJ hmem
    obtain ⟨image, himage, hid⟩ := hmem
    obtain ⟨hrow, hkind⟩ := List.mem_filter.mp (List.mem_mergeSort.mp himage)
    obtain ⟨-, -, hcomplete, -, harchived⟩ := of_decide_eq_true hkind
    exact hturn backupid st b st' hJ ⟨image, hrow, hid, hcomplete, harchived⟩
  obtain ⟨⟨over1, imageids1, st1⟩, hfull, h⟩ := Option.bind_eq_some_iff.mp h
  have hfirst : J st1 := cleanupLoop_rule (hrows false) hmeets.1 hfull hJ
  cases over1 with
  | true =>
    cases h
    exact hfirst
  | false => exact cleanupLoop_rule (hrows true) (hmeets.2 _ _ hfull) h hfirst

end Rules

end ImageCleanup

end UrBackup
