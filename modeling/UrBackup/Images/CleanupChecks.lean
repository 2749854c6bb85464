import UrBackup.Images.Cleanup

/-! A cleanup removes only images that it may remove, as long as the images that belong to others
pass its checks as well. -/
namespace UrBackup

/-- The images that a cleanup may remove. -/
def BackupImage.Removable (locked : Int → Bool) (image : BackupImage) : Prop :=
  image.complete = 1 ∧ image.archived ≠ 1 ∧ locked image.id = false

namespace ImageDb

variable {p q : BackupImage → Prop} {db db' : ImageDb} {backupid : Int}

/-- All images that directly or indirectly reference an image have a property. -/
inductive AllRefs (p : BackupImage → Prop) (db : ImageDb) : Int → Prop
  | refs {backupid : Int} (here : ∀ image ∈ db.imageRefs backupid, p image)
      (below : ∀ image ∈ db.imageRefs backupid, AllRefs p db image.id) : AllRefs p db backupid

theorem AllRefs.here (h : AllRefs p db backupid) : ∀ image ∈ db.imageRefs backupid, p image := by
  cases h with
  | refs here _ => exact here

theorem AllRefs.next (h : AllRefs p db backupid) :
    ∀ image ∈ db.imageRefs backupid, AllRefs p db image.id := by
  cases h with
  | refs _ below => exact below

theorem AllRefs.and (h : AllRefs p db backupid) (h' : AllRefs q db backupid) :
    AllRefs (fun image => p image ∧ q image) db backupid := by
  induction h with
  | refs here _ ih =>
    constructor
    · intro image himage
      exact ⟨here image himage, h'.here image himage⟩
    · intro image himage
      exact ih image himage (h'.next image himage)

theorem AllRefs.imp (hpq : ∀ image, p image → q image) (h : AllRefs p db backupid) :
    AllRefs q db backupid := by
  induction h with
  | refs here _ ih =>
    constructor
    · intro image himage
      exact hpq image (here image himage)
    · exact ih

theorem imageRefs_subset (hsub : ∀ image ∈ db'.images, image ∈ db.images) :
    ∀ image ∈ db'.imageRefs backupid, image ∈ db.imageRefs backupid := by
  intro image himage
  obtain ⟨hrow, href⟩ := List.mem_filter.mp himage
  exact List.mem_filter.mpr ⟨hsub image hrow, href⟩

theorem AllRefs.subset (hsub : ∀ image ∈ db'.images, image ∈ db.images)
    (h : AllRefs p db backupid) : AllRefs p db' backupid := by
  induction h with
  | refs here _ ih =>
    constructor
    · intro image himage
      exact here image (imageRefs_subset hsub image himage)
    · intro image himage
      exact ih image (imageRefs_subset hsub image himage)

theorem findLoop_false {bad : BackupImage → Bool} {find : Int → Option Bool}
    {refs : List BackupImage} (h : findLoop bad find refs = some false) :
    ∀ image ∈ refs, bad image = false ∧ find image.id = some false := by
  induction refs with
  | nil => nofun
  | cons ref refs ih =>
    rw [findLoop] at h
    split at h
    · cases h
    · rename_i hgood
      obtain ⟨found, hfound, h⟩ := Option.bind_eq_some_iff.mp h
      cases found with
      | true => cases h
      | false =>
        intro image himage
        cases List.mem_cons.mp himage with
        | inl hfirst =>
          subst hfirst
          exact ⟨Bool.not_eq_true _ ▸ hgood, hfound⟩
        | inr hrest => exact ih h image hrest

theorem allRefs_of_findImageRef {here : Int → Bool} {bad : BackupImage → Bool} {fuel : Nat}
    (h : db.findImageRef here bad fuel backupid = some false) :
    AllRefs (fun image => bad image = false) db backupid := by
  induction fuel generalizing backupid with
  | zero => cases h
  | succ fuel ih =>
    rw [findImageRef] at h
    split at h
    · cases h
    · constructor
      · intro image himage
        exact (findLoop_false h image himage).1
      · intro image himage
        exact ih (findLoop_false h image himage).2

end ImageDb

namespace ImageCleanup

open ImageDb

variable {c : ImageCleanup}

theorem mayRemove_covers {fuel : Nat} {db : ImageDb} {backupid : Int}
    (h : c.mayRemove fuel db backupid = some true) :
    c.locked backupid = false ∧ AllRefs (fun image => image.Removable c.locked) db backupid := by
  rw [mayRemove] at h
  split at h
  · cases h
  · rename_i hfree
    obtain ⟨uncomplete, huncomplete, h⟩ := Option.bind_eq_some_iff.mp h
    cases uncomplete with
    | true => cases h
    | false =>
      obtain ⟨locked, hlocked, h⟩ := Option.bind_eq_some_iff.mp h
      cases locked with
      | true => cases h
      | false =>
        obtain ⟨archived, harchived, h⟩ := Option.map_eq_some_iff.mp h
        cases archived with
        | true => cases h
        | false =>
          have hcomplete := allRefs_of_findImageRef huncomplete
          have hunlocked := allRefs_of_findImageRef hlocked
          have hkept := allRefs_of_findImageRef harchived
          refine ⟨Bool.not_eq_true _ ▸ hfree, ?_⟩
          apply ((hcomplete.and hunlocked).and hkept).imp
          rintro image ⟨⟨hc, hl⟩, ha⟩
          exact ⟨by simpa using hc, by simpa using ha, hl⟩

/-- What an associated image has to pass before its removal begins. -/
def ChecksPassed (c : ImageCleanup) (fuel : Nat) (assoc : Bool) (backupid : Int)
    (st : CleanupState) : Prop :=
  assoc = true → c.mayRemove fuel st.db backupid = some true ∧
    ∀ image ∈ st.db.images, image.id = backupid → image.complete = 1 ∧ image.archived ≠ 1

/-- The database has lost only rows of images that may be removed, and only their files were
deleted. -/
structure OnlyRemovable (locked : Int → Bool) (st st' : CleanupState) : Prop where
  assoc : st'.db.assocImages ⊆ st.db.assocImages
  images : ∀ image ∈ st'.db.images, image ∈ st.db.images
  rows : ∀ image ∈ st.db.images, image ∉ st'.db.images → image.Removable locked
  files : ∃ log, st'.calls = st.calls ++ log ∧ ∀ call ∈ log, call.deleted = true →
    ∀ image ∈ st.db.images, image.id = call.backupid → image.Removable locked

variable {start st st' : CleanupState}

theorem OnlyRemovable.refl (locked : Int → Bool) : OnlyRemovable locked st st := by
  constructor
  · exact List.Subset.refl _
  · exact fun _ himage => himage
  · exact fun image himage hgone => absurd himage hgone
  · exact ⟨[], (List.append_nil _).symm, nofun⟩

theorem OnlyRemovable.recorded {locked : Int → Bool} {backupid : Int} {refs : List Int}
    (h : OnlyRemovable locked start st) (hrecorded : Recorded backupid refs st st')
    (hrow : ∀ image ∈ start.db.images, image.id = backupid → image.Removable locked) :
    OnlyRemovable locked start st' := by
  have hassoc := hrecorded.assoc_subset
  obtain ⟨deleted, hcalls, -, himages⟩ := hrecorded
  have hsub : ∀ image ∈ st'.db.images, image ∈ st.db.images := by
    intro image himage
    rw [himages] at himage
    cases deleted with
    | true => exact (List.mem_filter.mp himage).1
    | false => exact himage
  constructor
  · exact List.Subset.trans hassoc h.assoc
  · exact fun image himage => h.images image (hsub image himage)
  · intro image himage hgone
    by_cases hstill : image ∈ st.db.images
    · rw [himages] at hgone
      cases deleted with
      | true =>
        apply hrow image himage
        by_contra hother
        exact hgone (List.mem_filter.mpr ⟨hstill, decide_eq_true hother⟩)
      | false => exact absurd hstill hgone
    · exact h.rows image himage hstill
  · obtain ⟨log, hlog, hfiles⟩ := h.files
    refine ⟨log ++ [⟨backupid, refs, deleted⟩], ?_, ?_⟩
    · rw [hcalls, hlog, List.append_assoc]
    · intro call hcall hdeleted
      cases List.mem_append.mp hcall with
      | inl hcall => exact hfiles call hcall hdeleted
      | inr hcall =>
        obtain rfl := List.mem_singleton.mp hcall
        exact hrow

theorem removable_of_current {locked : Int → Bool} {backupid : Int}
    (h : OnlyRemovable locked start st)
    (hcurrent : ∀ image ∈ st.db.images, image.id = backupid → image.Removable locked) :
    ∀ image ∈ start.db.images, image.id = backupid → image.Removable locked := by
  intro image himage hid
  by_cases hstill : image ∈ st.db.images
  · exact hcurrent image hstill hid
  · exact h.rows image himage hstill

/-- Induction on the depth of the calls. A call keeps the invariant if its own image and all
images that reference it may be removed. -/
theorem removeImage_onlyRemovable (hids : start.db.IdsUnique) {all fuel : Nat}
    {assoc updateStat ret : Bool} {backupid : Int}
    (hmeets : c.CallsMeet (c.ChecksPassed all) fuel assoc backupid st)
    (h : c.removeImage fuel updateStat backupid st = some (ret, st'))
    (hkept : OnlyRemovable c.locked start st)
    (hrow : ∀ image ∈ st.db.images, image.id = backupid → image.Removable c.locked)
    (hrefs : AllRefs (fun image => image.Removable c.locked) st.db backupid) :
    OnlyRemovable c.locked start st' ∧ (∀ image ∈ st'.db.images, image ∈ st.db.images) ∧
      st'.db.assocImages ⊆ st.db.assocImages := by
  induction fuel generalizing assoc updateStat backupid st ret st' with
  | zero => cases h
  | succ fuel ih =>
    have hstart := removable_of_current hkept hrow
    have hrule := removeImage_rule (J := fun st1 => OnlyRemovable c.locked start st1 ∧
      (∀ image ∈ st1.db.images, image ∈ st.db.images) ∧ st1.db.assocImages ⊆ st.db.assocImages)
      ?_ ?_ ?_ hmeets h ⟨hkept, fun _ himage => himage, List.Subset.refl _⟩
    · obtain ⟨st1, ⟨hkept1, hsub, hassoc⟩, hrecorded⟩ := hrule
      refine ⟨hkept1.recorded hrecorded hstart, ?_,
        List.Subset.trans hrecorded.assoc_subset hassoc⟩
      obtain ⟨deleted, -, -, himages⟩ := hrecorded
      intro image himage
      rw [himages] at himage
      cases deleted with
      | true => exact hsub image (List.mem_filter.mp himage).1
      | false => exact hsub image himage
    · -- the images that reference this one
      rintro id hid st1 b st2 ⟨hkept1, hsub, hassoc⟩ hcallMeets hcall
      rw [getImageRefs_eq] at hid
      obtain ⟨ref, href, rfl⟩ := List.mem_map.mp hid
      have hrefRow : ∀ image ∈ st1.db.images, image.id = ref.id → image.Removable c.locked := by
        intro image himage hsame
        have hold := hkept.images ref (List.mem_filter.mp href).1
        rw [hids.eq (hkept1.images image himage) hold hsame]
        exact hrefs.here ref href
      obtain ⟨hkept2, hsub2, hassoc2⟩ :=
        ih hcallMeets hcall hkept1 hrefRow ((hrefs.next ref href).subset hsub)
      exact ⟨hkept2, fun image himage => hsub image (hsub2 image himage),
        List.Subset.trans hassoc2 hassoc⟩
    · -- the images that belong to it
      rintro id - st1 b st2 ⟨hkept1, hsub, hassoc⟩ hcallMeets hcall
      have hpassed : c.ChecksPassed all true id st1 := by
        cases fuel with
        | zero => cases hcall
        | succ fuel => exact hcallMeets.1
      obtain ⟨hmay, hkind⟩ := hpassed rfl
      obtain ⟨hfree, hbelow⟩ := mayRemove_covers hmay
      obtain ⟨hkept2, hsub2, hassoc2⟩ := ih hcallMeets hcall hkept1 (fun image himage hid =>
        ⟨(hkind image himage hid).1, (hkind image himage hid).2, hid ▸ hfree⟩) hbelow
      exact ⟨hkept2, fun image himage => hsub image (hsub2 image himage),
        List.Subset.trans hassoc2 hassoc⟩
    · exact fun st1 hJ => hJ.2.2

/-- If every call for an associated image begins with one that is itself complete and not archived
and passes the checks, then a cleanup removes only images that are complete, not archived and not
locked. -/
theorem cleanupImagesClient_onlyRemovable (c : ImageCleanup) {fuel : Nat} {clientid : Int}
    {finished : Bool} {imageids : List Int} {st st' : CleanupState} (hids : st.db.IdsUnique)
    (hmeets : c.CleanupMeets (c.ChecksPassed fuel) fuel clientid st)
    (h : c.cleanupImagesClient fuel clientid st = some (finished, imageids, st')) :
    OnlyRemovable c.locked st st' := by
  apply cleanupImagesClient_rule (J := OnlyRemovable c.locked st) _ hmeets h (.refl c.locked)
  rintro backupid st1 b st2 hkept ⟨top, htop, hid, hcomplete, harchived⟩ hmay hcalls hcall
  obtain ⟨hfree, hrefs⟩ := mayRemove_covers hmay
  have hrow : ∀ image ∈ st1.db.images, image.id = backupid → image.Removable c.locked := by
    intro image himage hsame
    rw [hids.eq (hkept.images image himage) (hkept.images top htop) (hsame.trans hid.symm)]
    exact ⟨hcomplete, by omega, hid ▸ hfree⟩
  exact (removeImage_onlyRemovable hids hcalls hcall hkept hrow hrefs).1

section Example

/-- An image of a volume and one of the system partition that belongs to it. -/
def systemPartition : CleanupState where
  db :=
    { images := [⟨1, 1, "C:", 0, 0, 1, 0, "c.vhd", 8⟩, ⟨2, 1, "SYSVOL", 0, 0, 1, 0, "sysvol.vhd", 1⟩]
      assocImages := [(1, 2)]
      clients := [⟨1, "laptop", 12⟩]
      delStats := [] }
  calls := []

def keepNone (locked : Int → Bool) : ImageCleanup where
  minspace := -1
  cleanupOnlyOne := true
  maxImageFull := 0
  minImageFull := 0
  maxImageIncr := 0
  minImageIncr := 0
  locked := locked
  backuptime := id
  freeSpace := fun _ => 0
  deleteImage := fun _ _ _ => true

theorem getImagesNum_systemPartition (locked : Int → Bool) :
    getImagesNum (systemPartition.db.getFullNumImages (keepNone locked).backuptime 1) [] =
      (1, some 1) := by
  have hrows : systemPartition.db.getFullNumImages (keepNone locked).backuptime 1 =
      [⟨1, 1, "C:", 0, 0, 1, 0, "c.vhd", 8⟩] := List.mergeSort_singleton _
  rw [hrows]
  exact getImagesNum_singleton _

def afterCleanup : CleanupState where
  db := { systemPartition.db with images := [], assocImages := [], delStats := [(1, 17)] }
  calls := [⟨2, [], true⟩, ⟨1, [], true⟩]

theorem cleanupTurn_systemPartition {locked : Int → Bool} (hfree : locked 1 = false) :
    (keepNone locked).cleanupTurn 3 1 systemPartition = some (true, afterCleanup) := by
  have hmay : (keepNone locked).mayRemove 3 systemPartition.db 1 = some true := by
    rw [mayRemove, show (keepNone locked).locked 1 = false from hfree]
    rfl
  rw [cleanupTurn, hmay]
  rfl

theorem cleanupImagesClient_systemPartition {locked : Int → Bool} (hfree : locked 1 = false) :
    (keepNone locked).cleanupImagesClient 3 1 systemPartition = some (true, [1], afterCleanup) := by
  rw [cleanupImagesClient, cleanupLoop, getImagesNum_systemPartition]
  simp only [cleanupTurn_systemPartition hfree]
  rfl

theorem cleanupImagesClient_onlyRemovable_systemPartition :
    OnlyRemovable (fun _ => false) systemPartition afterCleanup := by
  refine cleanupImagesClient_onlyRemovable (keepNone fun _ => false) (by decide) ?_
    (cleanupImagesClient_systemPartition rfl)
  constructor
  · intro num backupid htop _
    rw [getImagesNum_systemPartition] at htop
    cases htop
    constructor
    · intro _
      refine ⟨nofun, trivial, ?_⟩
      intro ret st1 hrefs
      cases hrefs
      intro _
      refine ⟨⟨fun _ => ⟨rfl, by decide⟩, trivial, ?_⟩, fun _ _ _ => trivial⟩
      intro ret st2 hrefs2
      cases hrefs2
      trivial
    · intro removed st1 hturn hgoes
      rw [cleanupTurn_systemPartition rfl] at hturn
      cases hturn
      cases hgoes
  · intro imageids st1 hfirst
    rw [cleanupLoop, getImagesNum_systemPartition] at hfirst
    simp only [@cleanupTurn_systemPartition (fun _ => false) rfl] at hfirst
    cases hfirst

/-- The image of the system partition is locked, and a cleanup removes it with the other one. -/
theorem cleanupImagesClient_removes_locked : ¬ ∀ (c : ImageCleanup) (fuel : Nat) (clientid : Int)
    (finished : Bool) (imageids : List Int) (st st' : CleanupState), st.db.IdsUnique →
    (∃ rank, CleanupState.Ranked rank st.db) →
    c.cleanupImagesClient fuel clientid st = some (finished, imageids, st') →
    ∀ image ∈ st.db.images, image ∉ st'.db.images → image.Removable c.locked := by
  intro h
  have hranked : CleanupState.Ranked (fun id => if id = 1 then 1 else 0) systemPartition.db := by
    constructor
    · decide
    · decide
  have hremovable := h (keepNone fun id => id = 2) 3 1 true [1] systemPartition afterCleanup
    (by decide) ⟨_, hranked⟩ (cleanupImagesClient_systemPartition rfl)
    ⟨2, 1, "SYSVOL", 0, 0, 1, 0, "sysvol.vhd", 1⟩ (by decide) nofun
  exact absurd hremovable.2.2 (by decide)

end Example

end ImageCleanup

end UrBackup
