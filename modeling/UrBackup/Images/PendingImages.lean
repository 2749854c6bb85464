import UrBackup.Images.Retention
import UrBackup.Lib.Worklist

/-! Images that a user wants to be deleted, at once or with the next cleanup. -/
namespace UrBackup

namespace ImageDb

variable (db : ImageDb)

def getImageClientId (id : Int) : Int := ((db.findImage id).map BackupImage.clientid).getD 0

def getImageRefsReverse (backupid : Int) : List Int :=
  (db.images.filter fun image => some image.id =
    (db.findImage backupid).map BackupImage.incrementalRef).map BackupImage.id

def getAssocImageBackupsReverse (assocId : Int) : List Int :=
  (db.assocImages.filter fun assoc => assoc.2 = assocId).map Prod.fst

/-- The client has the image. -/
def HasImage (clientid id : Int) : Prop :=
  ∃ image ∈ db.images, image.id = id ∧ image.clientid = clientid

instance (clientid id : Int) : Decidable (db.HasImage clientid id) :=
  inferInstanceAs (Decidable (∃ image ∈ db.images, _))

end ImageDb

/-- What the user is told. -/
inductive DeleteResult where
  | ok
  | wrongClientid
  | archivedRef
  | imageLocked
  | lockedRef
  | incompleteRef
  | removeImageFailed
  deriving DecidableEq, Repr

/-- The images and which of them have `delete_pending` set. -/
structure MarkedImages where
  cleanup : CleanupState
  deletePending : List Int
  deriving DecidableEq, Repr

namespace MarkedImages

section Definitions

variable (c : ImageCleanup)

def setDeletePending (s : MarkedImages) (pending : Bool) (id clientid : Int) : MarkedImages :=
  if s.cleanup.db.HasImage clientid id then
    { s with deletePending :=
        if pending then id :: s.deletePending else s.deletePending.filter fun other => other ≠ id }
  else s

def removeImageBackup (fuel : Nat) (id : Int) (s : MarkedImages) : Option (Bool × MarkedImages) :=
  (c.removeImage fuel true id s.cleanup).map fun (b, cleanup) => (b, { s with cleanup })

def visit (fuel : Nat) (markOnly : Bool) (clientid id : Int) (s : MarkedImages) :
    Option (Bool × MarkedImages) :=
  if markOnly then some (true, s.setDeletePending true id clientid) else removeImageBackup c fuel id s

/-- The loop over the images based on an image, to which those based on them are added. -/
def visitRefs (visit : Int → MarkedImages → Option (Bool × MarkedImages)) :
    Nat → List Int → MarkedImages → Option (Bool × MarkedImages)
  | _, [], s => some (true, s)
  | 0, _ :: _, _ => none
  | turns + 1, ref :: refs, s =>
    let refs := refs ++ s.cleanup.db.getImageRefs ref
    (visit ref s).bind fun (b, s) =>
      if b then visitRefs visit turns refs s else some (false, s)

def visitAssoc (visit : Int → MarkedImages → Option (Bool × MarkedImages)) :
    List Int → MarkedImages → Option (Bool × MarkedImages)
  | [], s => some (true, s)
  | assoc :: rest, s =>
    (visit assoc s).bind fun (b, s) => if b then visitAssoc visit rest s else some (false, s)

def mayDelete (fuel : Nat) (backupid : Int) (db : ImageDb) : Option DeleteResult :=
  if c.locked backupid then some .imageLocked
  else (db.findLockedImageRef c.locked fuel backupid).bind fun locked =>
    if locked then some .lockedRef
    else (db.findUncompleteImageRef fuel backupid).map fun uncomplete =>
      if uncomplete then .incompleteRef else .ok

def check (fuel : Nat) (backupid clientid : Int) (markOnly : Bool) (db : ImageDb) :
    Option DeleteResult :=
  if db.getImageClientId backupid ≠ clientid then some .wrongClientid
  else (db.findArchivedImageRef fuel backupid).bind fun archived =>
    if archived then some .archivedRef
    else if markOnly then some .ok
    else mayDelete c fuel backupid db

/-- The images based on the image come first, then those that belong to it, then itself. -/
def visitAll (visit : Int → MarkedImages → Option (Bool × MarkedImages)) (fuel : Nat)
    (backupid : Int) (s : MarkedImages) : Option (Bool × MarkedImages) :=
  (visitRefs visit fuel (s.cleanup.db.getImageRefs backupid) s).bind fun (b, s) =>
    if b then
      (visitAssoc visit (s.cleanup.db.getAssocImageBackups backupid) s).bind fun (b, s) =>
        if b then visit backupid s else some (false, s)
    else some (false, s)

def deleteOrMarkImageBackup (fuel : Nat) (backupid clientid : Int) (markOnly : Bool)
    (s : MarkedImages) : Option (DeleteResult × MarkedImages) :=
  (check c fuel backupid clientid markOnly s.cleanup.db).bind fun result =>
    if result = .ok then
      (visitAll (visit c fuel markOnly clientid) fuel backupid s).map fun (b, s) =>
        (if b then .ok else .removeImageFailed, s)
    else some (result, s)

def unmark (clientid : Int) (s : MarkedImages) (id : Int) : MarkedImages :=
  s.setDeletePending false id clientid

/-- The loop over the image that an image is based on, and what that is based on. -/
def unmarkRefs (clientid : Int) : Nat → List Int → MarkedImages → Option MarkedImages
  | _, [], s => some s
  | 0, _ :: _, _ => none
  | turns + 1, ref :: refs, s =>
    unmarkRefs clientid turns (refs ++ s.cleanup.db.getImageRefsReverse ref) (s.unmark clientid ref)

def unmarkImageBackup (fuel : Nat) (backupid clientid : Int) (s : MarkedImages) :
    Option MarkedImages :=
  let db := s.cleanup.db
  if db.getImageClientId backupid ≠ clientid then some s
  else
    let s := (db.getAssocImageBackups backupid).foldl (unmark clientid) s
    let s := (db.getAssocImageBackupsReverse backupid).foldl (unmark clientid) s
    (unmarkRefs clientid fuel (db.getImageRefsReverse backupid) s).map fun s =>
      s.unmark clientid backupid

/-- A pending image in `cleanup_images`. -/
def cleanupPendingImage (fuel : Nat) (id : Int) (st : CleanupState) : Option CleanupState :=
  if c.locked id then some st
  else (st.db.findLockedImageRef c.locked fuel id).bind fun locked =>
    if locked then some st
    else (st.db.findUncompleteImageRef fuel id).bind fun uncomplete =>
      if uncomplete then some st
      else (st.db.findArchivedImageRef fuel id).bind fun archived =>
        if archived ∨ st.db.getImageArchived id ≠ 0 then some st
        else (c.removeImage fuel true id st).map Prod.snd

def cleanupPendingImages (fuel : Nat) : List Int → CleanupState → Option CleanupState
  | [], st => some st
  | id :: rest, st => (cleanupPendingImage c fuel id st).bind (cleanupPendingImages fuel rest)

def getDeletePendingImages (s : MarkedImages) : List Int :=
  (s.cleanup.db.images.filter fun image => image.id ∈ s.deletePending ∧
    ∃ client ∈ s.cleanup.db.clients, client.1 = image.clientid).map BackupImage.id

/-- The part of `cleanup_images` that is about pending images. -/
def cleanupImages (fuel : Nat) (s : MarkedImages) : Option CleanupState :=
  cleanupPendingImages c fuel s.getDeletePendingImages s.cleanup

end Definitions

end MarkedImages

end UrBackup
