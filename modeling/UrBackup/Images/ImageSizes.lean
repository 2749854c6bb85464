import Mathlib
import UrBackup.Images.Retention

/-! What the removal of an image records of sizes: the space that the client uses for images, and
the statistics of deletions. -/
namespace UrBackup

/-- The arguments that a call of `removeImage` hands on to the calls it makes, and how the file
system answers. -/
structure ImageRemoval where
  deleteImage : CleanupState.DeleteImage
  minImageIncr : Int
  forceRemove : Bool
  removeAssociated : Bool
  removeReferences : Bool

namespace ImageRemoval

variable (r : ImageRemoval)

def removeImage (fuel : Nat) (updateStat : Bool) (backupid : Int) (st : CleanupState) :
    Option (Bool × CleanupState) :=
  CleanupState.removeImage r.deleteImage r.minImageIncr fuel updateStat r.forceRemove
    r.removeAssociated r.removeReferences backupid st

def visitRefs (fuel : Nat) (backupid : Int) (st : CleanupState) :
    Option (Option Bool × CleanupState) :=
  CleanupState.removeReferencing r.minImageIncr (r.removeImage fuel true) r.forceRemove
    r.removeReferences (st.db.getImageRefs backupid) st

def visitAssoc (fuel : Nat) (updateStat : Bool) (backupid : Int) (st st' : CleanupState) :
    Option (Int × CleanupState) :=
  CleanupState.removeBelonging (r.removeImage fuel false) r.removeAssociated backupid
    (if updateStat then st.db.getImageSize backupid else 0) st'

/-- A call comes to its own image in a state, with a value of `deleted_size_bytes`. -/
def OwnTurn (fuel : Nat) (updateStat : Bool) (backupid : Int) (st : CleanupState) (size : Int)
    (st₂ : CleanupState) : Prop :=
  ∃ b st₁, r.visitRefs fuel backupid st = some (some b, st₁) ∧
    r.visitAssoc fuel updateStat backupid st st₁ = some (size, st₂)

def deletesRow (updateStat : Bool) (backupid size : Int) (st : CleanupState) : Bool :=
  match st.db.getImagePath backupid, st.db.getImageClientname backupid with
  | some path, some clientname =>
    r.deleteImage
      (if updateStat then { st with db := st.db.addToImageStats size backupid } else st)
      clientname path || r.forceRemove
  | _, _ => false

/-- A condition holds of a call and of every call that it makes. -/
def EachCall (P : (fuel : Nat) → (updateStat : Bool) → Int → CleanupState → Prop) :
    (fuel : Nat) → (updateStat : Bool) → Int → CleanupState → Prop
  | 0, _, _, _ => True
  | fuel + 1, updateStat, backupid, st =>
    P fuel updateStat backupid st ∧
    (r.removeReferences = true → ImageCleanup.EachMeets
      (fun id st => CleanupState.maxRemovableIncrImages r.minImageIncr st.db id ≤ 0)
      (EachCall P fuel true) (r.removeImage fuel true) (st.db.getImageRefs backupid) st) ∧
    ∀ b st₁, r.visitRefs fuel backupid st = some (some b, st₁) → r.removeAssociated = true →
      ImageCleanup.EachMeets (fun _ _ => False) (EachCall P fuel false) (r.removeImage fuel false)
        (st₁.db.getAssocImageBackups backupid) st₁

end ImageRemoval

def sumSizes (rows : List BackupImage) : Int := (rows.map BackupImage.sizeBytes).sum

namespace ImageDb

def deletedRows (db later : ImageDb) : List BackupImage :=
  db.images.filter fun image => image ∉ later.images

def assocRows (db : ImageDb) (removeAssociated : Bool) (backupid : Int) : List Int :=
  if removeAssociated then db.getAssocImageBackups backupid else []

end ImageDb

namespace ImageRemoval

variable (r : ImageRemoval)

/-- What each client uses goes down by the sizes of its rows that the call deleted. -/
def BytesFollow (fuel : Nat) (updateStat : Bool) (backupid : Int) (st : CleanupState) : Prop :=
  ∀ ret st', r.removeImage (fuel + 1) updateStat backupid st = some (ret, st') →
    st'.db.clients = st.db.clients.map fun client => { client with
      bytesUsedImages := client.bytesUsedImages - sumSizes
        ((st.db.deletedRows st'.db).filter fun image => image.clientid = client.id) }

/-- What is recorded for an image without references is its size, and the sizes of the associated
images that were removed with it. -/
def StatsFollow (fuel : Nat) (updateStat : Bool) (backupid : Int) (st : CleanupState) : Prop :=
  updateStat = true → st.db.getImageRefs backupid = [] →
    ∀ size st₂ ret st', r.OwnTurn fuel updateStat backupid st size st₂ →
      r.removeImage (fuel + 1) updateStat backupid st = some (ret, st') →
      ∀ row ∈ st'.db.delStats.drop st₂.db.delStats.length,
        row = (backupid, st.db.getImageSize backupid + sumSizes
          ((st.db.deletedRows st'.db).filter fun image =>
            image.id ∈ st.db.assocRows r.removeAssociated backupid))

structure Accounted (fuel : Nat) (updateStat : Bool) (backupid : Int) (st : CleanupState) :
    Prop where
  bytes : r.BytesFollow fuel updateStat backupid st
  stats : r.StatsFollow fuel updateStat backupid st

/-- There is nothing to account for: a row that is deleted in its turn has the size 0, and where
statistics are written for an image without references its size and the positive sizes of its
associated images come to 0. -/
structure NothingToCount (fuel : Nat) (updateStat : Bool) (backupid : Int) (st : CleanupState) :
    Prop where
  row : ∀ size st₂, r.OwnTurn fuel updateStat backupid st size st₂ →
    r.deletesRow updateStat backupid size st₂ = true → st₂.db.getImageSize backupid = 0
  stats : updateStat = true → st.db.getImageRefs backupid = [] →
    ∀ size st₂, r.OwnTurn fuel updateStat backupid st size st₂ →
      (st₂.db.getImageClientname backupid).isSome = true →
      st.db.getImageSize backupid + ((st.db.assocRows r.removeAssociated backupid).map fun assoc =>
        max 0 (st.db.getImageSize assoc)).sum = 0

variable {r}

section Rules

variable {R : CleanupState → CleanupState → Prop} {st st₁ st' : CleanupState} {fuel : Nat}
  {updateStat ret : Bool} {backupid : Int}
  {P : (fuel : Nat) → (updateStat : Bool) → Int → CleanupState → Prop}

theorem removeImage_cases
    (h : r.removeImage (fuel + 1) updateStat backupid st = some (ret, st')) :
    (∃ st₁, r.visitRefs fuel backupid st = some (none, st₁) ∧
      st' = CleanupState.record backupid (st.db.getImageRefs backupid) false st₁) ∨
    ∃ b st₁ size st₂, r.visitRefs fuel backupid st = some (some b, st₁) ∧
      r.visitAssoc fuel updateStat backupid st st₁ = some (size, st₂) ∧
      CleanupState.removeFiles r.deleteImage backupid (st.db.getImageRefs backupid) updateStat
        r.forceRemove b size st₂ = (ret, st') := by
  rw [removeImage, CleanupState.removeImage] at h
  obtain ⟨⟨res, st₁⟩, hrefs, h⟩ := Option.bind_eq_some_iff.mp h
  cases res with
  | none =>
    cases h
    exact .inl ⟨st₁, hrefs, rfl⟩
  | some b =>
    obtain ⟨⟨size, st₂⟩, hassoc, h⟩ := Option.bind_eq_some_iff.mp h
    exact .inr ⟨b, st₁, size, st₂, hrefs, hassoc, Option.some.inj h⟩

section

variable (hrefl : ∀ st, R st st) (htrans : ∀ st st₁ st₂, R st st₁ → R st₁ st₂ → R st st₂)

include hrefl htrans

theorem visitRefs_rule (hcall : ∀ id st b st', EachCall r P fuel true id st →
      r.removeImage fuel true id st = some (b, st') → R st st')
    (hmeets : r.removeReferences = true → ImageCleanup.EachMeets
      (fun id st => CleanupState.maxRemovableIncrImages r.minImageIncr st.db id ≤ 0)
      (EachCall r P fuel true) (r.removeImage fuel true) (st.db.getImageRefs backupid) st)
    {res : Option Bool} (h : r.visitRefs fuel backupid st = some (res, st')) : R st st' := by
  unfold visitRefs CleanupState.removeReferencing at h
  split at h
  · rename_i hrefs
    exact @ImageCleanup.removeRefs_rule (R st) _ _ _ _ _ _
      (fun id _ st₁ b st₂ hJ hmeet hone => htrans _ _ _ hJ (hcall id st₁ b st₂ hmeet hone))
      (hmeets hrefs) _ _ h (hrefl st)
  · split at h
    · cases h
      exact hrefl st
    · cases h
      exact hrefl st

theorem visitAssoc_rule (hcall : ∀ id st b st', EachCall r P fuel false id st →
      r.removeImage fuel false id st = some (b, st') → R st st')
    (hmeets : r.removeAssociated = true → ImageCleanup.EachMeets (fun _ _ => False)
      (EachCall r P fuel false) (r.removeImage fuel false) (st₁.db.getAssocImageBackups backupid) st₁)
    {size : Int} (h : r.visitAssoc fuel updateStat backupid st st₁ = some (size, st')) :
    R st₁ st' := by
  unfold visitAssoc CleanupState.removeBelonging at h
  split at h
  · rename_i hassoc
    exact @ImageCleanup.removeAssoc_rule (R st₁) _ _ _ _ _
      (fun id _ st₂ b st₃ hJ hmeet hone => htrans _ _ _ hJ (hcall id st₂ b st₃ hmeet hone))
      (hmeets hassoc) _ _ h (hrefl st₁)
  · cases h
    exact hrefl st₁

/-- What a call does: what its own turn does, after what the calls do that it makes. Induction on
the depth of the calls. -/
theorem eachCall_rule (hrecord : ∀ id refs st, R st (CleanupState.record id refs false st))
    (hown : ∀ fuel us id st size st₂ b refs, P fuel us id st → r.OwnTurn fuel us id st size st₂ →
      R st₂ (CleanupState.removeFiles r.deleteImage id refs us r.forceRemove b size st₂).2)
    (hmeets : r.EachCall P fuel updateStat backupid st)
    (h : r.removeImage fuel updateStat backupid st = some (ret, st')) : R st st' := by
  induction fuel generalizing updateStat backupid st ret st' with
  | zero => cases h
  | succ fuel ih =>
    obtain ⟨hP, hrefs, hassoc⟩ := hmeets
    rcases removeImage_cases h with ⟨st₁, hfirst, rfl⟩ | ⟨b, st₁, size, st₂, hfirst, hsecond, hlast⟩
    · exact htrans _ _ _ (visitRefs_rule hrefl htrans (fun _ _ _ _ => ih) hrefs hfirst)
        (hrecord _ _ _)
    · have hst' : st' = _ := (congrArg Prod.snd hlast).symm
      rw [hst']
      exact htrans _ _ _ (visitRefs_rule hrefl htrans (fun _ _ _ _ => ih) hrefs hfirst)
        (htrans _ _ _ (visitAssoc_rule hrefl htrans (fun _ _ _ _ => ih) (hassoc b st₁ hfirst)
          hsecond) (hown _ _ _ _ _ _ _ _ hP ⟨b, st₁, hfirst, hsecond⟩))

end

theorem eachCall_true (fuel : Nat) (updateStat : Bool) (backupid : Int) (st : CleanupState) :
    r.EachCall (fun _ _ _ _ => True) fuel updateStat backupid st := by
  induction fuel generalizing updateStat backupid st with
  | zero => trivial
  | succ fuel ih =>
    exact ⟨trivial, fun _ => ImageCleanup.eachMeets_of_forall (fun id st => ih true id st) _ _,
      fun _ _ _ _ => ImageCleanup.eachMeets_of_forall (fun id st => ih false id st) _ _⟩

end Rules

section OwnTurn

variable {st : CleanupState} {updateStat b : Bool} {backupid size : Int} {refs : List Int}

theorem removeFiles_spec :
    (CleanupState.removeFiles r.deleteImage backupid refs updateStat r.forceRemove b size st).2.db =
      { st.db with
        images := if r.deletesRow updateStat backupid size st then
          st.db.images.filter fun image => image.id ≠ backupid else st.db.images
        assocImages := if r.deletesRow updateStat backupid size st then
          st.db.assocImages.filter fun assoc => assoc.1 ≠ backupid ∧ assoc.2 ≠ backupid
          else st.db.assocImages
        delStats := st.db.delStats ++
          if updateStat = true ∧ (st.db.getImageClientname backupid).isSome = true then
            (st.db.images.filter fun image => image.id = backupid).map fun image =>
              (backupid, image.sizeBytes + size)
          else [] } := by
  rw [CleanupState.removeFiles_eq, deletesRow]
  cases hpath : st.db.getImagePath backupid with
  | none =>
    have hname : st.db.getImageClientname backupid = none := by
      rw [ImageDb.getImageClientname, Option.map_eq_none_iff.mp hpath]
      rfl
    simp [hname, CleanupState.record]
  | some path =>
    cases hname : st.db.getImageClientname backupid with
    | none => simp [CleanupState.record]
    | some clientname =>
      cases updateStat with
      | false =>
        simp only [Bool.false_eq_true, if_false]
        generalize (r.deleteImage st clientname path || r.forceRemove) = deleted
        cases deleted with
        | false => simp [CleanupState.record]
        | true => simp [CleanupState.record, ImageDb.removeImage]
      | true =>
        simp only [if_true]
        generalize (r.deleteImage _ clientname path || r.forceRemove) = deleted
        cases deleted with
        | false => simp [CleanupState.record, ImageDb.addToImageStats]
        | true => simp [CleanupState.record, ImageDb.removeImage, ImageDb.addToImageStats]

end OwnTurn

/-- Rows are only lost, and those that are lost have the size 0. -/
structure Lightens (db db' : ImageDb) : Prop where
  rows : db'.images.Sublist db.images
  clients : db'.clients = db.clients
  gone : ∀ image ∈ db.images, image ∉ db'.images → image.sizeBytes = 0

section Lightens

variable {db db' db'' : ImageDb}

theorem Lightens.refl (db : ImageDb) : Lightens db db :=
  ⟨.refl _, rfl, fun _ himage hgone => absurd himage hgone⟩

theorem Lightens.trans (h : Lightens db db') (h' : Lightens db' db'') : Lightens db db'' := by
  refine ⟨h'.rows.trans h.rows, h'.clients.trans h.clients, ?_⟩
  intro image himage hgone
  by_cases hthere : image ∈ db'.images
  · exact h'.gone image hthere hgone
  · exact h.gone image himage hthere

theorem idsUnique_of_sublist (hids : db.IdsUnique) (h : db'.images.Sublist db.images) :
    db'.IdsUnique := hids.sublist (h.map BackupImage.id)

theorem getImageSize_of_mem (hids : db.IdsUnique) {image : BackupImage} (himage : image ∈ db.images) :
    db.getImageSize image.id = image.sizeBytes := by
  rw [ImageDb.getImageSize, hids.findImage himage]
  rfl

theorem getImageSize_of_notMem {id : Int} (hid : ∀ image ∈ db.images, image.id ≠ id) :
    db.getImageSize id = -1 := by
  have hnone : db.findImage id = none := by
    rw [ImageDb.findImage, List.find?_eq_none]
    intro image himage
    simp [hid image himage]
  rw [ImageDb.getImageSize, hnone]
  rfl

theorem Lightens.size_eq (h : Lightens db db') (hids : db.IdsUnique) (id : Int) :
    max 0 (db'.getImageSize id) = max 0 (db.getImageSize id) := by
  by_cases hrow : ∃ image ∈ db.images, image.id = id
  · obtain ⟨image, himage, rfl⟩ := hrow
    rw [getImageSize_of_mem hids himage]
    by_cases hthere : image ∈ db'.images
    · rw [getImageSize_of_mem (idsUnique_of_sublist hids h.rows) hthere]
    · rw [h.gone image himage hthere, getImageSize_of_notMem]
      · rfl
      · intro other hother hid
        rw [hids.eq (h.rows.subset hother) himage hid] at hother
        exact hthere hother
  · have hnone : ∀ image ∈ db.images, image.id ≠ id := fun image himage hid =>
      hrow ⟨image, himage, hid⟩
    rw [getImageSize_of_notMem hnone,
      getImageSize_of_notMem fun image himage => hnone image (h.rows.subset himage)]

theorem Lightens.sumSizes_deleted (h : Lightens db db') (p : BackupImage → Bool) :
    sumSizes ((db.deletedRows db').filter p) = 0 := by
  apply List.sum_eq_zero
  intro size hsize
  obtain ⟨image, himage, rfl⟩ := List.mem_map.mp hsize
  obtain ⟨hrow, hgone⟩ := List.mem_filter.mp (List.mem_filter.mp himage).1
  exact h.gone image hrow (of_decide_eq_true hgone)

theorem sumSizes_deleted_single {image : BackupImage} (hids : db.IdsUnique)
    (himage : image ∈ db.images) (hgone : image ∉ db'.images)
    (hothers : ∀ other ∈ db.images, other ∉ db'.images → other ≠ image → other.sizeBytes = 0)
    {p : BackupImage → Bool} (hp : p image = true) :
    sumSizes ((db.deletedRows db').filter p) = image.sizeBytes := by
  have hmem : image ∈ (db.deletedRows db').filter p :=
    List.mem_filter.mpr ⟨List.mem_filter.mpr ⟨himage, decide_eq_true hgone⟩, hp⟩
  have hnodup : ((db.deletedRows db').filter p).Nodup := (hids.nodup.filter _).filter _
  rw [sumSizes, List.sum_map_eq_nsmul_single image, List.count_eq_one_of_mem hnodup hmem, one_nsmul]
  intro other hne hother
  obtain ⟨hrow, hlost⟩ := List.mem_filter.mp (List.mem_filter.mp hother).1
  exact hothers other hrow (of_decide_eq_true hlost) hne

end Lightens

section OwnTurn

variable {st st₂ : CleanupState} {updateStat b : Bool} {backupid size : Int} {refs : List Int}
  {fuel : Nat}

theorem row_of_deletesRow (h : r.deletesRow updateStat backupid size st = true) :
    ∃ image ∈ st.db.images, image.id = backupid ∧
      ∃ client ∈ st.db.clients, client.id = image.clientid := by
  unfold deletesRow at h
  split at h
  · rename_i path clientname hpath hname
    obtain ⟨image, hfind, hclient⟩ := Option.bind_eq_some_iff.mp hname
    obtain ⟨client, hclient, -⟩ := Option.bind_eq_some_iff.mp hclient
    have hid := List.find?_some hfind
    have hof := List.find?_some hclient
    exact ⟨image, List.mem_of_find?_eq_some hfind, of_decide_eq_true hid,
      client, List.mem_of_find?_eq_some hclient, of_decide_eq_true hof⟩
  · cases h

theorem lightens_removeFiles (hids : st.db.IdsUnique)
    (hrow : r.deletesRow updateStat backupid size st = true → st.db.getImageSize backupid = 0) :
    Lightens st.db (CleanupState.removeFiles r.deleteImage backupid refs updateStat r.forceRemove b
      size st).2.db := by
  rw [removeFiles_spec]
  by_cases hdelete : r.deletesRow updateStat backupid size st = true
  · simp only [if_pos hdelete]
    refine ⟨List.filter_sublist, rfl, ?_⟩
    intro image himage hgone
    have hid : image.id = backupid := by
      by_contra hne
      exact hgone (List.mem_filter.mpr ⟨himage, decide_eq_true hne⟩)
    rw [← getImageSize_of_mem hids himage, hid]
    exact hrow hdelete
  · simp only [if_neg hdelete]
    exact ⟨.refl _, rfl, fun image himage hgone => absurd himage hgone⟩

end OwnTurn

section Nested

variable {st st₁ st' : CleanupState} {updateStat ret : Bool} {backupid size : Int} {fuel : Nat}

/-- What a call does to a database with unique ids. -/
abbrev LightensIfUnique (st st' : CleanupState) : Prop :=
  st.db.IdsUnique → Lightens st.db st'.db

theorem lightensIfUnique_trans (st st₁ st₂ : CleanupState) (h : LightensIfUnique st st₁)
    (h' : LightensIfUnique st₁ st₂) : LightensIfUnique st st₂ := by
  intro hids
  exact (h hids).trans (h' (idsUnique_of_sublist hids (h hids).rows))

theorem lightens_of_nothing (hmeets : r.EachCall r.NothingToCount fuel updateStat backupid st)
    (h : r.removeImage fuel updateStat backupid st = some (ret, st')) : LightensIfUnique st st' := by
  refine eachCall_rule (fun st _ => .refl st.db) lightensIfUnique_trans
    (fun _ _ st _ => .refl st.db) ?_ hmeets h
  intro fuel us id st size st₂ b refs hnothing hturn hids
  exact lightens_removeFiles hids (hnothing.row size st₂ hturn)

theorem clients_removeImage (h : r.removeImage fuel updateStat backupid st = some (ret, st')) :
    st'.db.clients = st.db.clients ∧ st'.db.images.Sublist st.db.images := by
  refine @eachCall_rule r (fun st st' => st'.db.clients = st.db.clients ∧
    st'.db.images.Sublist st.db.images) _ _ _ _ _ _ _ (fun st => ⟨rfl, .refl _⟩) ?_
    (fun _ _ st => ⟨rfl, .refl _⟩) ?_ (eachCall_true fuel updateStat backupid st) h
  · exact fun _ _ _ h h' => ⟨h'.1.trans h.1, h'.2.trans h.2⟩
  · intro fuel us id st size st₂ b refs _ _
    rw [removeFiles_spec]
    refine ⟨rfl, ?_⟩
    by_cases hdelete : r.deletesRow us id size st₂ = true
    · simp only [if_pos hdelete]
      exact List.filter_sublist
    · simp only [if_neg hdelete]
      exact .refl _

/-- The sizes that are summed up over associated images. Induction on the list. -/
theorem removeAssoc_size {assoc : List Int}
    (hmeets : ImageCleanup.EachMeets (fun _ _ => False) (r.EachCall r.NothingToCount fuel false)
      (r.removeImage fuel false) assoc st) {size' : Int}
    (h : CleanupState.removeAssoc (r.removeImage fuel false) assoc size st = some (size', st'))
    (hids : st.db.IdsUnique) :
    size' = size + (assoc.map fun id => max 0 (st.db.getImageSize id)).sum := by
  induction assoc generalizing size st with
  | nil =>
    cases h
    simp
  | cons a assoc ih =>
    obtain ⟨⟨b, st₁⟩, hfirst, hrest⟩ := Option.bind_eq_some_iff.mp h
    obtain ⟨hmeet, hnext⟩ := hmeets not_false
    have hlight := lightens_of_nothing hmeet hfirst hids
    have hsum := ih (hnext b st₁ hfirst) hrest (idsUnique_of_sublist hids hlight.rows)
    simp only [hlight.size_eq hids] at hsum
    rw [hsum, List.map_cons, List.sum_cons]
    by_cases hpos : 0 < st.db.getImageSize a
    · rw [if_pos hpos, max_eq_right hpos.le, add_assoc]
    · rw [if_neg hpos, max_eq_left (not_lt.mp hpos), zero_add]

end Nested

section Accounted

variable {st : CleanupState} {updateStat : Bool} {backupid : Int} {fuel : Nat}

/-- What the calls do that a call makes, when these have nothing to count: they lose only rows of the
size 0, and sum up the positive sizes of the associated images. -/
structure Nested (r : ImageRemoval) (fuel : Nat) (updateStat : Bool) (backupid : Int)
    (st : CleanupState) : Prop where
  refused : ∀ st₁, r.visitRefs fuel backupid st = some (none, st₁) → Lightens st.db st₁.db
  turn : ∀ size st₂, r.OwnTurn fuel updateStat backupid st size st₂ → Lightens st.db st₂.db
  size : ∀ size st₂, r.OwnTurn fuel updateStat backupid st size st₂ →
    st.db.getImageRefs backupid = [] →
    size = (if updateStat then st.db.getImageSize backupid else 0) +
      ((st.db.assocRows r.removeAssociated backupid).map fun id =>
        max 0 (st.db.getImageSize id)).sum

theorem visitRefs_nil (hrefs : st.db.getImageRefs backupid = []) :
    r.visitRefs fuel backupid st = some (some true, st) := by
  unfold visitRefs CleanupState.removeReferencing
  rw [hrefs]
  split
  · rfl
  · simp

theorem nested_of_nothing (hids : st.db.IdsUnique)
    (hrefs : r.removeReferences = true → ImageCleanup.EachMeets
      (fun id st => CleanupState.maxRemovableIncrImages r.minImageIncr st.db id ≤ 0)
      (r.EachCall r.NothingToCount fuel true) (r.removeImage fuel true)
      (st.db.getImageRefs backupid) st)
    (hassoc : ∀ b st₁, r.visitRefs fuel backupid st = some (some b, st₁) →
      r.removeAssociated = true → ImageCleanup.EachMeets (fun _ _ => False)
        (r.EachCall r.NothingToCount fuel false) (r.removeImage fuel false)
        (st₁.db.getAssocImageBackups backupid) st₁) :
    Nested r fuel updateStat backupid st := by
  have hfirst : ∀ res st₁, r.visitRefs fuel backupid st = some (res, st₁) →
      Lightens st.db st₁.db := fun res st₁ h =>
    visitRefs_rule (fun st _ => .refl st.db) lightensIfUnique_trans
      (fun _ _ _ _ hmeet hone => lightens_of_nothing hmeet hone) hrefs h hids
  refine ⟨fun st₁ => hfirst none st₁, ?_, ?_⟩
  · rintro size st₂ ⟨b, st₁, hone, htwo⟩
    have hlight := hfirst (some b) st₁ hone
    exact hlight.trans (visitAssoc_rule (fun st _ => .refl st.db) lightensIfUnique_trans
      (fun _ _ _ _ hmeet hone => lightens_of_nothing hmeet hone) (hassoc b st₁ hone) htwo
      (idsUnique_of_sublist hids hlight.rows))
  · rintro size st₂ ⟨b, st₁, hone, htwo⟩ hnil
    have hsame : st₁ = st := by
      rw [visitRefs_nil hnil] at hone
      cases hone
      rfl
    subst hsame
    unfold visitAssoc CleanupState.removeBelonging at htwo
    unfold ImageDb.assocRows
    by_cases hassociated : r.removeAssociated = true
    · rw [if_pos hassociated] at htwo ⊢
      exact removeAssoc_size (hassoc b st₁ hone hassociated) htwo hids
    · rw [if_neg hassociated] at htwo ⊢
      cases htwo
      simp

theorem removeImage_of_turn {size : Int} {st₂ : CleanupState}
    (h : r.OwnTurn fuel updateStat backupid st size st₂) :
    ∃ b ret st', r.removeImage (fuel + 1) updateStat backupid st = some (ret, st') ∧
      (CleanupState.removeFiles r.deleteImage backupid (st.db.getImageRefs backupid) updateStat
        r.forceRemove b size st₂).2 = st' := by
  obtain ⟨b, st₁, hrefs, hassoc⟩ := h
  refine ⟨b, (CleanupState.removeFiles r.deleteImage backupid (st.db.getImageRefs backupid) updateStat
    r.forceRemove b size st₂).1, _, ?_, rfl⟩
  unfold visitRefs removeImage at hrefs
  unfold visitAssoc removeImage at hassoc
  rw [removeImage, CleanupState.removeImage]
  simp only [Option.bind_eq_bind, hrefs, Option.bind_some, hassoc]
  rfl

theorem Nested.lightens (hn : Nested r fuel updateStat backupid st) (hids : st.db.IdsUnique)
    (hrow : ∀ size st₂, r.OwnTurn fuel updateStat backupid st size st₂ →
      r.deletesRow updateStat backupid size st₂ = true → st₂.db.getImageSize backupid = 0)
    {ret : Bool} {st' : CleanupState}
    (h : r.removeImage (fuel + 1) updateStat backupid st = some (ret, st')) :
    Lightens st.db st'.db := by
  rcases removeImage_cases h with ⟨st₁, hfirst, rfl⟩ | ⟨b, st₁, size, st₂, hone, htwo, hlast⟩
  · exact hn.refused st₁ hfirst
  · have hturn : r.OwnTurn fuel updateStat backupid st size st₂ := ⟨b, st₁, hone, htwo⟩
    have hlight := hn.turn size st₂ hturn
    have hst' : st' = _ := (congrArg Prod.snd hlast).symm
    rw [hst']
    exact hlight.trans (lightens_removeFiles (idsUnique_of_sublist hids hlight.rows)
      (hrow size st₂ hturn))

theorem drop_delStats {b : Bool} {size : Int} {st₂ : CleanupState} {refs : List Int} :
    (CleanupState.removeFiles r.deleteImage backupid refs true r.forceRemove b size st₂).2.db.delStats.drop
        st₂.db.delStats.length =
      if (st₂.db.getImageClientname backupid).isSome = true then
        (st₂.db.images.filter fun image => image.id = backupid).map fun image =>
          (backupid, image.sizeBytes + size)
      else [] := by
  rw [removeFiles_spec]
  simp only [List.drop_left, true_and]

theorem BytesFollow.sumSizes_eq (h : r.BytesFollow fuel updateStat backupid st) {ret : Bool}
    {st' : CleanupState} (hcall : r.removeImage (fuel + 1) updateStat backupid st = some (ret, st'))
    {client : ImageClient} (hclient : client ∈ st.db.clients) :
    sumSizes ((st.db.deletedRows st'.db).filter fun image => image.clientid = client.id) = 0 := by
  have hclients := h ret st' hcall
  rw [(clients_removeImage hcall).1] at hclients
  nth_rewrite 1 [← List.map_id st.db.clients] at hclients
  have hsame := congrArg ImageClient.bytesUsedImages (List.map_inj_left.mp hclients client hclient)
  simp only [id_eq] at hsame
  omega

theorem Nested.row_eq_zero (hn : Nested r fuel updateStat backupid st) (hids : st.db.IdsUnique)
    (hbytes : r.BytesFollow fuel updateStat backupid st) {size : Int} {st₂ : CleanupState}
    (hturn : r.OwnTurn fuel updateStat backupid st size st₂)
    (hdelete : r.deletesRow updateStat backupid size st₂ = true) :
    st₂.db.getImageSize backupid = 0 := by
  have hlight := hn.turn size st₂ hturn
  obtain ⟨image, himage, rfl, client, hclient, hof⟩ := row_of_deletesRow hdelete
  obtain ⟨b, ret, st', hcall, hst'⟩ := removeImage_of_turn hturn
  have hzero := hbytes.sumSizes_eq hcall (hlight.clients ▸ hclient)
  have hlater : ∀ other, other ∈ st'.db.images ↔
      other ∈ st₂.db.images ∧ other.id ≠ image.id := by
    intro other
    rw [← hst', removeFiles_spec]
    simp only [if_pos hdelete, List.mem_filter, decide_eq_true_eq]
  rw [getImageSize_of_mem (idsUnique_of_sublist hids hlight.rows) himage, ← hzero, eq_comm]
  apply sumSizes_deleted_single hids (hlight.rows.subset himage)
  · exact fun hthere => ((hlater image).mp hthere).2 rfl
  · intro other hother hgone hne
    by_cases hthere : other ∈ st₂.db.images
    · have hid : other.id = image.id := by
        by_contra hid
        exact hgone ((hlater other).mpr ⟨hthere, hid⟩)
      exact absurd (hids.eq hother (hlight.rows.subset himage) hid) hne
    · exact hlight.gone other hother hthere
  · exact decide_eq_true hof.symm

/-- A call whose own calls have nothing to count accounts for what it removes exactly if it has
nothing to count itself. -/
theorem Nested.accounted_iff (hn : Nested r fuel updateStat backupid st) (hids : st.db.IdsUnique) :
    r.Accounted fuel updateStat backupid st ↔ r.NothingToCount fuel updateStat backupid st := by
  constructor
  · intro hacc
    have hrow : ∀ size st₂, r.OwnTurn fuel updateStat backupid st size st₂ →
        r.deletesRow updateStat backupid size st₂ = true → st₂.db.getImageSize backupid = 0 :=
      fun size st₂ => hn.row_eq_zero hids hacc.bytes
    refine ⟨hrow, ?_⟩
    rintro rfl hnil size st₂ hturn hname
    obtain ⟨b, ret, st', hcall, hst'⟩ := removeImage_of_turn hturn
    have hlight := hn.turn size st₂ hturn
    obtain ⟨image, hfind, -⟩ := Option.bind_eq_some_iff.mp (Option.eq_some_of_isSome hname)
    have himage := List.mem_of_find?_eq_some hfind
    have hid := List.find?_some hfind
    obtain rfl := of_decide_eq_true hid
    have hrows := hacc.stats rfl hnil size st₂ ret st' hturn hcall
    have hlast := @drop_delStats r image.id b size st₂ (st.db.getImageRefs image.id)
    rw [hst', if_pos hname] at hlast
    rw [hlast] at hrows
    have hsame := hrows _ (List.mem_map_of_mem (List.mem_filter.mpr ⟨himage, decide_eq_true rfl⟩))
    have hsize := hn.size size st₂ hturn hnil
    have hown := getImageSize_of_mem hids (hlight.rows.subset himage)
    rw [(hn.lightens hids hrow hcall).sumSizes_deleted] at hsame
    rw [if_pos rfl] at hsize
    have hsizes := congrArg Prod.snd hsame
    simp only at hsizes
    omega
  · intro hnothing
    refine ⟨?_, ?_⟩
    · intro ret st' hcall
      have hlight := hn.lightens hids hnothing.row hcall
      rw [hlight.clients]
      nth_rewrite 1 [← List.map_id st.db.clients]
      apply List.map_inj_left.mpr
      intro client _
      rw [hlight.sumSizes_deleted, sub_zero, id_eq]
    · rintro rfl hnil size st₂ ret st' hturn hcall row hmem
      have hlight := hn.lightens hids hnothing.row hcall
      obtain ⟨b, ret₀, st₀, hcall', hst'⟩ := removeImage_of_turn hturn
      rw [hcall, Option.some.injEq, Prod.mk.injEq] at hcall'
      rw [hcall'.2, ← hst', drop_delStats] at hmem
      split at hmem
      · rename_i hname
        obtain ⟨image, hfound, rfl⟩ := List.mem_map.mp hmem
        obtain ⟨himage, hid⟩ := List.mem_filter.mp hfound
        obtain rfl := of_decide_eq_true hid
        have hown := getImageSize_of_mem hids ((hn.turn size st₂ hturn).rows.subset himage)
        have hsize := hn.size size st₂ hturn hnil
        have hzero := hnothing.stats rfl hnil size st₂ hturn hname
        rw [hlight.sumSizes_deleted]
        rw [if_pos rfl] at hsize
        simp only [Prod.mk.injEq, true_and]
        omega
      · cases hmem

end Accounted

theorem eachMeets_congr {J : CleanupState → Prop} {blocked meets meets' : Int → CleanupState → Prop}
    {remove : Int → CleanupState → Option (Bool × CleanupState)}
    (hiff : ∀ id st, J st → (meets id st ↔ meets' id st))
    (hkeep : ∀ id st b st', J st → remove id st = some (b, st') → J st') {ids : List Int}
    {st : CleanupState} (hJ : J st) :
    ImageCleanup.EachMeets blocked meets remove ids st ↔
      ImageCleanup.EachMeets blocked meets' remove ids st := by
  induction ids generalizing st with
  | nil => exact Iff.rfl
  | cons id ids ih =>
    apply imp_congr Iff.rfl
    apply and_congr (hiff id st hJ)
    apply forall_congr'
    intro b
    apply forall_congr'
    intro st'
    exact forall_congr' fun hone => ih (hkeep id st b st' hJ hone)

theorem idsUnique_removeImage {st st' : CleanupState} {fuel : Nat} {updateStat ret : Bool}
    {backupid : Int} (hids : st.db.IdsUnique)
    (h : r.removeImage fuel updateStat backupid st = some (ret, st')) : st'.db.IdsUnique :=
  idsUnique_of_sublist hids (clients_removeImage h).2

/-- A call of `removeImage` and all calls that it makes account for what they remove, exactly if
none of them has anything to count. Induction on the depth of the calls. -/
theorem accounted_iff_nothing_to_count {fuel : Nat} {updateStat : Bool} {backupid : Int}
    {st : CleanupState} (hids : st.db.IdsUnique) :
    r.EachCall r.Accounted fuel updateStat backupid st ↔
      r.EachCall r.NothingToCount fuel updateStat backupid st := by
  induction fuel generalizing updateStat backupid st with
  | zero => exact Iff.rfl
  | succ fuel ih =>
    have hkeep : ∀ us id st b st', st.db.IdsUnique →
        r.removeImage fuel us id st = some (b, st') → st'.db.IdsUnique :=
      fun us id st b st' => idsUnique_removeImage
    have hrefs := @eachMeets_congr (fun st => st.db.IdsUnique)
      (fun id st => CleanupState.maxRemovableIncrImages r.minImageIncr st.db id ≤ 0) _ _ _
      (fun id st hids => @ih true id st hids) (hkeep true) (st.db.getImageRefs backupid) st hids
    have hassoc : ∀ b st₁, r.visitRefs fuel backupid st = some (some b, st₁) →
        (ImageCleanup.EachMeets (fun _ _ => False) (r.EachCall r.Accounted fuel false)
          (r.removeImage fuel false) (st₁.db.getAssocImageBackups backupid) st₁ ↔
        ImageCleanup.EachMeets (fun _ _ => False) (r.EachCall r.NothingToCount fuel false)
          (r.removeImage fuel false) (st₁.db.getAssocImageBackups backupid) st₁) := by
      intro b st₁ hone
      refine @eachMeets_congr (fun st => st.db.IdsUnique) (fun _ _ => False) _ _ _
        (fun id st hids => @ih false id st hids) (hkeep false) _ _ ?_
      exact @visitRefs_rule r (fun st st' => st.db.IdsUnique → st'.db.IdsUnique) _ _ _ _
        (fun _ _ _ _ => True) (fun _ => id) (fun _ _ _ h h' => h' ∘ h)
        (fun id st b st' _ hone hids => hkeep true id st b st' hids hone)
        (fun _ => ImageCleanup.eachMeets_of_forall (eachCall_true fuel true) _ _) _ hone hids
    constructor
    · rintro ⟨hacc, hrefsAcc, hassocAcc⟩
      have hrefsNone := fun h => hrefs.mp (hrefsAcc h)
      have hassocNone := fun b st₁ hone h => (hassoc b st₁ hone).mp (hassocAcc b st₁ hone h)
      exact ⟨((nested_of_nothing hids hrefsNone hassocNone).accounted_iff hids).mp hacc,
        hrefsNone, hassocNone⟩
    · rintro ⟨hnone, hrefsNone, hassocNone⟩
      exact ⟨((nested_of_nothing hids hrefsNone hassocNone).accounted_iff hids).mpr hnone,
        fun h => hrefs.mpr (hrefsNone h),
        fun b st₁ hone h => (hassoc b st₁ hone).mpr (hassocNone b st₁ hone h)⟩

/-- All files can be deleted, and every image goes with what belongs to it. -/
def deleteAll : ImageRemoval := ⟨fun _ _ _ => true, 0, false, true, true⟩

theorem accounted_iff_nothing_to_count_twoImages :
    deleteAll.EachCall deleteAll.Accounted 3 true 1 CleanupState.twoImages ↔
      deleteAll.EachCall deleteAll.NothingToCount 3 true 1 CleanupState.twoImages :=
  accounted_iff_nothing_to_count (show CleanupState.twoImages.db.IdsUnique by decide)

/-- The incremental image of 4 bytes is deleted. Its client still uses 12 bytes, and 8 bytes are
recorded as deleted. -/
theorem removal_is_not_accounted_for :
    CleanupState.twoImages.db.IdsUnique ∧
      ¬ deleteAll.BytesFollow 2 true 2 CleanupState.twoImages ∧
      ¬ deleteAll.StatsFollow 2 true 2 CleanupState.twoImages := by
  refine ⟨by decide, ?_, ?_⟩
  · intro hbytes
    have hclients := hbytes true _ rfl
    revert hclients
    decide
  · intro hstats
    have hrow := hstats rfl (by decide) 4 CleanupState.twoImages true _
      ⟨true, CleanupState.twoImages, rfl, rfl⟩ rfl (2, 8) (by decide)
    revert hrow
    decide

end ImageRemoval

end UrBackup
