import Mathlib.Data.Set.Insert
import UrBackup.Images.MarkedImages

/-! An image that is deleted at once goes with everything based on it only if nothing is visited that
an earlier removal has taken along. -/
namespace UrBackup

namespace ImageDb

section Definitions

variable (db : ImageDb)

/-- The foreign keys of `assoc_images`. -/
def AssocExist : Prop := ∀ assoc ∈ db.assocImages, db.HasId assoc.1 ∧ db.HasId assoc.2

def HasClient (id : Int) : Prop :=
  ∃ image ∈ db.images, image.id = id ∧ ∃ client ∈ db.clients, client.1 = image.clientid

def below (ids : List Int) : Set Int := {y | ∃ x ∈ ids, db.Reaches x y}

/-- In their turn, after some images and what is removed with those before it, each image is still
there and meets a condition. -/
def InTurn (ok : Set Int → Int → Prop) : Set Int → List Int → Prop
  | _, [] => True
  | gone, id :: rest => id ∉ gone ∧ ok gone id ∧ InTurn ok (gone ∪ db.below [id]) rest

open Classical in
/-- Of the images based on an image none is removed with an earlier one, and so down to a depth. -/
def Orderly : Nat → Set Int → Int → Prop
  | 0, _, _ => True
  | depth + 1, gone, id =>
    db.InTurn (Orderly depth) gone ((db.getImageRefs id).filter fun ref => ref ∉ gone)

open Classical in
/-- Everything removed with the image belongs to a client. No image based directly on it is removed
with an earlier one, or has an image based on it that is still there in its turn. None of the
associated images that are left is removed with an earlier one, and each of them is orderly. -/
def InOrder (backupid : Int) : Prop :=
  (∀ id, db.Reaches backupid id → db.HasClient id) ∧
    db.InTurn (fun gone id => ∀ ref ∈ db.getImageRefs id, ref ∈ gone) ∅ (db.getImageRefs backupid) ∧
    db.InTurn (fun gone id => ∀ depth, db.Orderly depth gone id) (db.below (db.getImageRefs backupid))
      ((db.getAssocImageBackups backupid).filter fun assoc =>
        assoc ∉ db.below (db.getImageRefs backupid))

open Classical in
/-- What is left of a database when the images of a set are gone. -/
structure Left (gone : Set Int) (db' : ImageDb) : Prop where
  images : db'.images = db.images.filter fun image => image.id ∉ gone
  assoc : db'.assocImages = db.assocImages.filter fun assoc => assoc.1 ∉ gone ∧ assoc.2 ∉ gone
  clients : db'.clients = db.clients

/-- With an image of a set all that is removed with it is in the set. -/
def Closed (gone : Set Int) : Prop := ∀ x ∈ gone, ∀ y, db.RemovedWith x y → y ∈ gone

end Definitions

section Below

variable {db : ImageDb} {gone : Set Int} {x y : Int} {ids : List Int}

theorem mem_below_singleton : y ∈ db.below [x] ↔ db.Reaches x y := by
  constructor
  · rintro ⟨a, ha, h⟩
    rwa [List.mem_singleton.mp ha] at h
  · exact fun h => ⟨x, List.mem_singleton_self x, h⟩

theorem mem_below_of_mem (h : x ∈ ids) : x ∈ db.below ids := ⟨x, h, .refl⟩

theorem union_below_nil : gone ∪ db.below [] = gone := by
  ext y
  constructor
  · rintro (hy | ⟨x, hx, -⟩)
    · exact hy
    · exact absurd hx List.not_mem_nil
  · exact .inl

theorem union_below_cons : gone ∪ db.below [x] ∪ db.below ids = gone ∪ db.below (x :: ids) := by
  ext y
  constructor
  · rintro ((hy | hy) | ⟨a, ha, hy⟩)
    · exact .inl hy
    · exact .inr ⟨x, List.mem_cons_self, mem_below_singleton.mp hy⟩
    · exact .inr ⟨a, List.mem_cons_of_mem _ ha, hy⟩
  · rintro (hy | ⟨a, ha, hy⟩)
    · exact .inl (.inl hy)
    · rcases List.mem_cons.mp ha with rfl | ha
      · exact .inl (.inr (mem_below_singleton.mpr hy))
      · exact .inr ⟨a, ha, hy⟩

theorem closed_empty : db.Closed ∅ := fun _ hx => absurd hx (Set.notMem_empty _)

theorem closed_below (ids : List Int) : db.Closed (db.below ids) := by
  rintro a ⟨x, hx, ha⟩ b hab
  exact ⟨x, hx, ha.tail hab⟩

theorem Closed.union_below (h : db.Closed gone) (ids : List Int) : db.Closed (gone ∪ db.below ids) := by
  rintro a (ha | ha) b hab
  · exact .inl (h a ha b hab)
  · exact .inr (closed_below ids a ha b hab)

theorem Closed.reaches (h : db.Closed gone) (hx : x ∈ gone) (hy : db.Reaches x y) : y ∈ gone := by
  induction hy with
  | refl => exact hx
  | tail _ hlast ih => exact h _ ih _ hlast

theorem inTurn_forall {ok : Nat → Set Int → Int → Prop} :
    db.InTurn (fun gone id => ∀ n, ok n gone id) gone ids ↔ ∀ n, db.InTurn (ok n) gone ids := by
  induction ids generalizing gone with
  | nil => exact ⟨fun _ _ => trivial, fun _ => trivial⟩
  | cons id ids ih =>
    constructor
    · exact fun h n => ⟨h.1, h.2.1 n, ih.mp h.2.2 n⟩
    · exact fun h => ⟨(h 0).1, fun n => (h n).2.1, ih.mpr fun n => (h n).2.2⟩

theorem InTurn.not_mem {ok : Set Int → Int → Prop} (h : db.InTurn ok gone ids) :
    ∀ id ∈ ids, id ∉ gone := by
  induction ids generalizing gone with
  | nil => exact fun id hid => absurd hid List.not_mem_nil
  | cons first ids ih =>
    intro id hid hgone
    rcases List.mem_cons.mp hid with rfl | hid
    · exact h.1 hgone
    · exact ih h.2.2 id hid (.inl hgone)

theorem reaches_rank {rank : Int → Nat} (hranked : CleanupState.Ranked rank db)
    (h : db.Reaches x y) : rank y ≤ rank x := by
  induction h with
  | refl => exact le_refl _
  | tail _ hlast ih =>
    rcases hlast with hlast | hlast
    · obtain ⟨image, himage, rfl, hincr, rfl⟩ := CleanupState.mem_getImageRefs.mp hlast
      have hless := hranked.1 image himage hincr
      omega
    · obtain ⟨assoc, hassoc, rfl⟩ := List.mem_map.mp hlast
      obtain ⟨hmem, hof⟩ := List.mem_filter.mp hassoc
      have hless := hranked.2 assoc hmem
      rw [of_decide_eq_true hof] at hless
      omega

end Below

section Left

variable {db db' : ImageDb} {gone : Set Int} {id : Int}

theorem Left.refl (db : ImageDb) : db.Left ∅ db := by
  constructor
  · symm
    apply List.filter_eq_self.mpr
    simp
  · symm
    apply List.filter_eq_self.mpr
    simp
  · rfl

open Classical in
theorem Left.mem_images (h : db.Left gone db') {image : BackupImage} :
    image ∈ db'.images ↔ image ∈ db.images ∧ image.id ∉ gone := by
  rw [h.images, List.mem_filter]
  exact and_congr_right fun _ => decide_eq_true_iff

open Classical in
theorem Left.getImageRefs (h : db.Left gone db') (id : Int) :
    db'.getImageRefs id = (db.getImageRefs id).filter fun ref => ref ∉ gone := by
  unfold ImageDb.getImageRefs
  rw [h.images, List.filter_map, List.filter_filter, List.filter_filter]
  apply congrArg
  apply List.filter_congr
  intro image _
  exact Bool.and_comm _ _

open Classical in
theorem Left.mem_getImageRefs (h : db.Left gone db') {ref : Int} :
    ref ∈ db'.getImageRefs id ↔ ref ∈ db.getImageRefs id ∧ ref ∉ gone := by
  rw [h.getImageRefs, List.mem_filter]
  exact and_congr_right fun _ => decide_eq_true_iff

open Classical in
theorem Left.getAssocImageBackups (h : db.Left gone db') (hid : id ∉ gone) :
    db'.getAssocImageBackups id =
      (db.getAssocImageBackups id).filter fun assoc => assoc ∉ gone := by
  unfold ImageDb.getAssocImageBackups
  rw [h.assoc, List.filter_map, List.filter_filter, List.filter_filter]
  apply congrArg
  apply List.filter_congr
  intro assoc _
  by_cases hof : assoc.1 = id
  · simp [hof, hid]
  · simp [hof]

open Classical in
theorem Left.mem_getAssocImageBackups (h : db.Left gone db') (hid : id ∉ gone) {assoc : Int} :
    assoc ∈ db'.getAssocImageBackups id ↔ assoc ∈ db.getAssocImageBackups id ∧ assoc ∉ gone := by
  rw [h.getAssocImageBackups hid, List.mem_filter]
  exact and_congr_right fun _ => decide_eq_true_iff

open Classical in
theorem Left.getAssocImageBackups_gone (h : db.Left gone db') (hid : id ∈ gone) :
    db'.getAssocImageBackups id = [] := by
  unfold ImageDb.getAssocImageBackups
  rw [List.map_eq_nil_iff, List.filter_eq_nil_iff]
  intro assoc hassoc hof
  rw [h.assoc, List.mem_filter] at hassoc
  exact (decide_eq_true_iff.mp hassoc.2).1 (of_decide_eq_true hof ▸ hid)

theorem Left.hasClient (h : db.Left gone db') :
    db'.HasClient id ↔ db.HasClient id ∧ id ∉ gone := by
  unfold HasClient
  rw [h.clients]
  constructor
  · rintro ⟨image, himage, rfl, hclient⟩
    obtain ⟨himage, hstill⟩ := h.mem_images.mp himage
    exact ⟨⟨image, himage, rfl, hclient⟩, hstill⟩
  · rintro ⟨⟨image, himage, rfl, hclient⟩, hstill⟩
    exact ⟨image, h.mem_images.mpr ⟨himage, hstill⟩, rfl, hclient⟩

theorem Left.removeImage (h : db.Left gone db') (id : Int) :
    db.Left (gone ∪ {id}) (db'.removeImage id) := by
  constructor
  · unfold ImageDb.removeImage
    dsimp only
    rw [h.images, List.filter_filter]
    apply List.filter_congr
    intro image _
    apply Bool.eq_iff_iff.mpr
    simp
  · unfold ImageDb.removeImage
    dsimp only
    rw [h.assoc, List.filter_filter]
    apply List.filter_congr
    intro assoc _
    apply Bool.eq_iff_iff.mpr
    simp only [Bool.and_eq_true, decide_eq_true_iff, Set.mem_union, Set.mem_singleton_iff]
    tauto
  · exact h.clients

end Left

end ImageDb

namespace ImageCleanup

open ImageDb

variable (c : ImageCleanup)

/-- Whenever a call asks how many incremental images may be removed, it is told that some may. -/
def NeverRefused : (fuel : Nat) → Int → CleanupState → Prop
  | 0, _, _ => True
  | fuel + 1, id, st =>
    EachMeets (fun _ _ => False)
      (fun ref st => 0 < CleanupState.maxRemovableIncrImages c.minImageIncr st.db ref ∧
        NeverRefused fuel ref st)
      (c.removeImage fuel true) (st.db.getImageRefs id) st ∧
    ∀ ret st', CleanupState.removeRefs c.minImageIncr (c.removeImage fuel true)
        (st.db.getImageRefs id) true st = some (some ret, st') →
      EachMeets (fun _ _ => False) (NeverRefused fuel) (c.removeImage fuel false)
        (st'.db.getAssocImageBackups id) st'

variable {c} {db : ImageDb} {gone : Set Int} {st st' : CleanupState} {id : Int} {b : Bool}
  {remove : Int → CleanupState → Option (Bool × CleanupState)} {meets : Int → CleanupState → Prop}

theorem removeRefs_left {minImageIncr : Int} {ids : List Int} {ret : Bool} {res : Option Bool}
    (hcall : ∀ id ∈ ids, ∀ gone st b st', db.Closed gone → db.Left gone st.db → meets id st →
      remove id st = some (b, st') → db.Left (gone ∪ db.below [id]) st'.db ∧
        (b = true ↔ id ∉ gone ∧ ∀ depth, db.Orderly depth gone id))
    (hclosed : db.Closed gone) (hleft : db.Left gone st.db)
    (hmeets : EachMeets (fun _ _ => False) (fun ref st =>
      0 < CleanupState.maxRemovableIncrImages minImageIncr st.db ref ∧ meets ref st) remove ids st)
    (h : CleanupState.removeRefs minImageIncr remove ids ret st = some (res, st')) :
    ∃ b, res = some b ∧ db.Left (gone ∪ db.below ids) st'.db ∧ (b = true ↔ ret = true ∧
      db.InTurn (fun gone id => ∀ depth, db.Orderly depth gone id) gone ids) := by
  induction ids generalizing gone ret st with
  | nil =>
    cases h
    refine ⟨ret, rfl, ?_, fun hret => ⟨hret, trivial⟩, And.left⟩
    rwa [union_below_nil]
  | cons id ids ih =>
    obtain ⟨⟨hmax, hmeet⟩, hnext⟩ := hmeets not_false
    rw [CleanupState.removeRefs, if_neg (not_le.mpr hmax)] at h
    obtain ⟨⟨b, st₁⟩, hfirst, hrest⟩ := Option.bind_eq_some_iff.mp h
    obtain ⟨hleft₁, hb⟩ := hcall id List.mem_cons_self gone st b st₁ hclosed hleft hmeet hfirst
    obtain ⟨b', hres, hleft', hb'⟩ :=
      ih (fun other hother => hcall other (List.mem_cons_of_mem _ hother))
        (hclosed.union_below [id]) hleft₁ (hnext b st₁ hfirst) hrest
    refine ⟨b', hres, ?_, hb'.trans ?_⟩
    · rwa [union_below_cons] at hleft'
    · cases b with
      | true =>
        obtain ⟨hstill, horderly⟩ := hb.mp rfl
        exact and_congr_right fun _ => ⟨fun h => ⟨hstill, horderly, h⟩, fun h => h.2.2⟩
      | false =>
        constructor
        · exact fun h => absurd h.1 Bool.false_ne_true
        · exact fun h => absurd (hb.mpr ⟨h.2.1, h.2.2.1⟩) Bool.false_ne_true

theorem removeAssoc_left {ids : List Int} {size size' : Int}
    (hcall : ∀ id ∈ ids, ∀ gone st b st', db.Closed gone → db.Left gone st.db → meets id st →
      remove id st = some (b, st') → db.Left (gone ∪ db.below [id]) st'.db)
    (hclosed : db.Closed gone) (hleft : db.Left gone st.db)
    (hmeets : EachMeets (fun _ _ => False) meets remove ids st)
    (h : CleanupState.removeAssoc remove ids size st = some (size', st')) :
    db.Left (gone ∪ db.below ids) st'.db := by
  induction ids generalizing gone size st with
  | nil =>
    cases h
    rwa [union_below_nil]
  | cons id ids ih =>
    obtain ⟨hmeet, hnext⟩ := hmeets not_false
    obtain ⟨⟨b, st₁⟩, hfirst, hrest⟩ := Option.bind_eq_some_iff.mp h
    have hleft₁ := hcall id List.mem_cons_self gone st b st₁ hclosed hleft hmeet hfirst
    rw [← union_below_cons]
    exact ih (fun other hother => hcall other (List.mem_cons_of_mem _ hother))
      (hclosed.union_below [id]) hleft₁ (hnext b st₁ hfirst) hrest

theorem getImageClientname_isSome (hids : db.IdsUnique) :
    (db.getImageClientname id).isSome = true ↔ db.HasClient id := by
  unfold ImageDb.getImageClientname HasClient
  constructor
  · intro h
    obtain ⟨name, hname⟩ := Option.isSome_iff_exists.mp h
    obtain ⟨image, himage, hname⟩ := Option.bind_eq_some_iff.mp hname
    obtain ⟨client, hclient, -⟩ := Option.bind_eq_some_iff.mp hname
    have hid := List.find?_some himage
    have hof := List.find?_some hclient
    exact ⟨image, List.mem_of_find?_eq_some himage, of_decide_eq_true hid, client,
      List.mem_of_find?_eq_some hclient, of_decide_eq_true hof⟩
  · rintro ⟨image, himage, rfl, client, hclient, hof⟩
    have hfound : (db.clients.find? fun client => client.1 = image.clientid).isSome = true :=
      List.find?_isSome.mpr ⟨client, hclient, decide_eq_true hof⟩
    obtain ⟨found, hfound⟩ := Option.isSome_iff_exists.mp hfound
    rw [hids.findImage himage]
    simp [hfound]

theorem removeFiles_left (hdelete : ∀ st name path, c.deleteImage st name path = true)
    (hids : st.db.IdsUnique) (hleft : db.Left gone st.db) {refs : List Int} {updateStat ret : Bool}
    {size : Int} :
    (st.db.HasClient id →
      (CleanupState.removeFiles c.deleteImage id refs updateStat false ret size st).1 = ret ∧
      db.Left (gone ∪ {id})
        (CleanupState.removeFiles c.deleteImage id refs updateStat false ret size st).2.db) ∧
    (¬ st.db.HasClient id →
      (CleanupState.removeFiles c.deleteImage id refs updateStat false ret size st).1 = false ∧
      db.Left gone
        (CleanupState.removeFiles c.deleteImage id refs updateStat false ret size st).2.db) := by
  rw [CleanupState.removeFiles_eq]
  split
  · next path clientname hpath hclientname =>
      have hhas : st.db.HasClient id :=
        (getImageClientname_isSome hids).mp (Option.isSome_iff_exists.mpr ⟨_, hclientname⟩)
      refine ⟨fun _ => ?_, fun hnot => absurd hhas hnot⟩
      dsimp only
      rw [hdelete, Bool.true_or, if_pos rfl]
      refine ⟨rfl, ?_⟩
      have hremoved := hleft.removeImage id
      cases updateStat with
      | true => exact ⟨hremoved.images, hremoved.assoc, hremoved.clients⟩
      | false => exact hremoved
  · next hnone =>
      refine ⟨fun hhas => ?_, fun _ => ⟨rfl, hleft⟩⟩
      obtain ⟨name, hname⟩ := Option.isSome_iff_exists.mp ((getImageClientname_isSome hids).mpr hhas)
      obtain ⟨image, himage, rfl, -⟩ := hhas
      have hpath : st.db.getImagePath image.id = some image.path := by
        unfold ImageDb.getImagePath
        rw [hids.findImage himage]
        rfl
      exact absurd hname (hnone _ _ hpath)

theorem removedWith_hasId (hassoc : db.AssocExist) {x y : Int} (h : db.RemovedWith x y) :
    db.HasId y := by
  rcases h with h | h
  · exact MarkedImages.hasId_of_ref h
  · obtain ⟨assoc, hmem, rfl⟩ := List.mem_map.mp h
    exact (hassoc assoc (List.mem_filter.mp hmem).1).2

theorem idsUnique_of_left (hids : db.IdsUnique) (hleft : db.Left gone st.db) : st.db.IdsUnique := by
  unfold IdsUnique
  rw [hleft.images]
  exact hids.sublist (List.filter_sublist.map _)

theorem union_below_self (hclosed : db.Closed gone) {refs assoc : List Int}
    (hrefs : ∀ y, y ∈ refs ↔ y ∈ db.getImageRefs id ∧ y ∉ gone)
    (hassoc : ∀ y, y ∈ assoc ↔ y ∈ db.getAssocImageBackups id ∧ y ∉ gone ∪ db.below refs) :
    gone ∪ db.below refs ∪ db.below assoc ∪ {id} = gone ∪ db.below [id] := by
  ext y
  constructor
  · rintro (((hy | ⟨x, hx, hy⟩) | ⟨x, hx, hy⟩) | rfl)
    · exact .inl hy
    · exact .inr (mem_below_singleton.mpr (.head (.inl ((hrefs x).mp hx).1) hy))
    · exact .inr (mem_below_singleton.mpr (.head (.inr ((hassoc x).mp hx).1) hy))
    · exact .inr (mem_below_singleton.mpr .refl)
  · rintro (hy | hy)
    · exact .inl (.inl (.inl hy))
    · rcases Relation.ReflTransGen.cases_head (mem_below_singleton.mp hy) with rfl | ⟨x, hx, hy⟩
      · exact .inr rfl
      · by_cases hgone : x ∈ gone
        · exact .inl (.inl (.inl (hclosed.reaches hgone hy)))
        · rcases hx with hx | hx
          · exact .inl (.inl (.inr ⟨x, (hrefs x).mpr ⟨hx, hgone⟩, hy⟩))
          · by_cases hbelow : x ∈ db.below refs
            · obtain ⟨a, ha, hax⟩ := hbelow
              exact .inl (.inl (.inr ⟨a, ha, hax.trans hy⟩))
            · refine .inl (.inr ⟨x, (hassoc x).mpr ⟨hx, ?_⟩, hy⟩)
              rintro (h | h)
              · exact hgone h
              · exact hbelow h

theorem not_mem_below {rank : Int → Nat} (hranked : CleanupState.Ranked rank db) {ids : List Int}
    (hwith : ∀ x ∈ ids, db.RemovedWith id x) : id ∉ db.below ids := by
  rintro ⟨x, hx, hreaches⟩
  have hle := reaches_rank hranked hreaches
  rcases hwith x hx with hx | hx
  · obtain ⟨image, himage, rfl, hincr, rfl⟩ := CleanupState.mem_getImageRefs.mp hx
    have hless := hranked.1 image himage hincr
    omega
  · obtain ⟨assoc, hmem, rfl⟩ := List.mem_map.mp hx
    obtain ⟨hmem, hof⟩ := List.mem_filter.mp hmem
    have hless := hranked.2 assoc hmem
    rw [of_decide_eq_true hof] at hless
    omega

open Classical in
theorem orderly_forall : (∀ depth, db.Orderly depth gone id) ↔
    db.InTurn (fun gone id => ∀ depth, db.Orderly depth gone id) gone
      ((db.getImageRefs id).filter fun ref => ref ∉ gone) := by
  rw [inTurn_forall]
  constructor
  · exact fun h depth => h (depth + 1)
  · intro h depth
    cases depth with
    | zero => trivial
    | succ depth => exact h depth

/-- What a call removes if it is never refused: the image and all that is removed with it. It succeeds
if the image is still there and is orderly. Induction on the depth of the calls. -/
theorem removeImage_left (hdelete : ∀ st name path, c.deleteImage st name path = true)
    (hids : db.IdsUnique) {rank : Int → Nat} (hranked : CleanupState.Ranked rank db) {fuel : Nat}
    {updateStat : Bool} (hclients : ∀ y, db.Reaches id y → db.HasClient y)
    (hclosed : db.Closed gone) (hleft : db.Left gone st.db) (hmeets : c.NeverRefused fuel id st)
    (h : c.removeImage fuel updateStat id st = some (b, st')) :
    db.Left (gone ∪ db.below [id]) st'.db ∧
      (b = true ↔ id ∉ gone ∧ ∀ depth, db.Orderly depth gone id) := by
  induction fuel generalizing gone updateStat id st b st' with
  | zero => cases h
  | succ fuel ih =>
    have hwith : ∀ x, db.RemovedWith id x → ∀ us gone st b st', db.Closed gone →
        db.Left gone st.db → c.NeverRefused fuel x st →
        c.removeImage fuel us x st = some (b, st') → db.Left (gone ∪ db.below [x]) st'.db ∧
          (b = true ↔ x ∉ gone ∧ ∀ depth, db.Orderly depth gone x) :=
      fun x hx us gone st b st' hclosed hleft hmeets hcall =>
        ih (fun y hy => hclients y (.head hx hy)) hclosed hleft hmeets hcall
    obtain ⟨hrefsMeet, hassocMeet⟩ := hmeets
    rw [removeImage, CleanupState.removeImage] at h
    obtain ⟨⟨res, st₁⟩, hrefs, h⟩ := Option.bind_eq_some_iff.mp h
    have hsub : ∀ x ∈ st.db.getImageRefs id, db.RemovedWith id x :=
      fun x hx => .inl (hleft.mem_getImageRefs.mp hx).1
    change CleanupState.removeRefs c.minImageIncr (c.removeImage fuel true)
      (st.db.getImageRefs id) true st = some (res, st₁) at hrefs
    obtain ⟨ret, rfl, hleft₁, hret⟩ :=
      removeRefs_left (fun x hx => hwith x (hsub x hx) true) hclosed hleft hrefsMeet hrefs
    obtain ⟨⟨size, st₂⟩, hbelonging, h⟩ := Option.bind_eq_some_iff.mp h
    change CleanupState.removeAssoc (c.removeImage fuel false)
      (st₁.db.getAssocImageBackups id) _ st₁ = some (size, st₂) at hbelonging
    have hclosed₁ := hclosed.union_below (st.db.getImageRefs id)
    have hassocIff : ∀ y, y ∈ st₁.db.getAssocImageBackups id ↔
        y ∈ db.getAssocImageBackups id ∧ y ∉ gone ∪ db.below (st.db.getImageRefs id) := by
      intro y
      by_cases hgone : id ∈ gone
      · rw [hleft₁.getAssocImageBackups_gone (.inl hgone)]
        refine ⟨fun hy => absurd hy List.not_mem_nil, fun hy => ?_⟩
        exact absurd (.inl (hclosed id hgone y (.inr hy.1))) hy.2
      · apply hleft₁.mem_getAssocImageBackups
        rintro (hid | hid)
        · exact hgone hid
        · exact not_mem_below hranked hsub hid
    have hsubAssoc : ∀ x ∈ st₁.db.getAssocImageBackups id, db.RemovedWith id x :=
      fun x hx => .inr ((hassocIff x).mp hx).1
    have hleft₂ := removeAssoc_left (fun x hx gone st b st' hclosed hleft hmeet hcall =>
      (hwith x (hsubAssoc x hx) false gone st b st' hclosed hleft hmeet hcall).1) hclosed₁ hleft₁
      (hassocMeet ret st₁ hrefs) hbelonging
    have hall := union_below_self hclosed (fun _ => hleft.mem_getImageRefs) hassocIff
    obtain ⟨hthere, hnot⟩ := @removeFiles_left c db _ st₂ id hdelete (idsUnique_of_left hids hleft₂)
      hleft₂ (st.db.getImageRefs id) updateStat ret size
    have hend : CleanupState.removeFiles c.deleteImage id (st.db.getImageRefs id) updateStat false
      ret size st₂ = (b, st') := Option.some.inj h
    rw [hend, hleft₂.hasClient] at hthere hnot
    by_cases hgone : id ∈ gone
    · obtain ⟨rfl, hleft'⟩ := hnot fun hhas => hhas.2 (.inl (.inl hgone))
      constructor
      · rw [← hall, Set.union_eq_self_of_subset_right]
        · exact hleft'
        · exact Set.singleton_subset_iff.mpr (.inl (.inl hgone))
      · exact ⟨fun hb => absurd hb Bool.false_ne_true, fun hb => absurd hgone hb.1⟩
    · have hstill : id ∉ gone ∪ db.below (st.db.getImageRefs id) ∪
          db.below (st₁.db.getAssocImageBackups id) := by
        rintro ((hid | hid) | hid)
        · exact hgone hid
        · exact not_mem_below hranked hsub hid
        · exact not_mem_below hranked hsubAssoc hid
      obtain ⟨rfl, hleft'⟩ := hthere ⟨hclients id .refl, hstill⟩
      constructor
      · rwa [hall] at hleft'
      · rw [hret, orderly_forall, hleft.getImageRefs]
        exact ⟨fun hb => ⟨hgone, hb.2⟩, fun hb => ⟨rfl, hb.2⟩⟩

/-- The images that belong to no client are all there. -/
structure KeepsClientless (db : ImageDb) (st : CleanupState) : Prop where
  clients : st.db.clients = db.clients
  ids : st.db.IdsUnique
  kept : ∀ image ∈ db.images, ¬ db.HasClient image.id → image ∈ st.db.images

theorem KeepsClientless.removeFiles (h : KeepsClientless db st) {refs : List Int}
    {updateStat ret : Bool} {size : Int} : KeepsClientless db
      (CleanupState.removeFiles c.deleteImage id refs updateStat false ret size st).2 := by
  have hremoved (hhas : st.db.HasClient id) : ∀ image ∈ db.images, ¬ db.HasClient image.id →
      image ∈ (st.db.removeImage id).images := by
    intro image himage hnone
    have hstill := h.kept image himage hnone
    refine List.mem_filter.mpr ⟨hstill, decide_eq_true ?_⟩
    rintro rfl
    obtain ⟨other, hother, hid, client, hclient, hof⟩ := hhas
    rw [h.ids.eq hother hstill hid] at hof
    exact hnone ⟨image, himage, rfl, client, h.clients ▸ hclient, hof⟩
  have hids : (st.db.removeImage id).IdsUnique := h.ids.sublist (List.filter_sublist.map _)
  rw [CleanupState.removeFiles_eq]
  split
  · next hclientname =>
      have hhas : st.db.HasClient id :=
        (getImageClientname_isSome h.ids).mp (Option.isSome_iff_exists.mpr ⟨_, hclientname⟩)
      dsimp only
      generalize (_ || false) = deleted
      cases deleted with
      | true =>
        cases updateStat with
        | true => exact ⟨h.clients, hids, hremoved hhas⟩
        | false => exact ⟨h.clients, hids, hremoved hhas⟩
      | false =>
        cases updateStat with
        | true => exact ⟨h.clients, h.ids, h.kept⟩
        | false => exact ⟨h.clients, h.ids, h.kept⟩
  · exact ⟨h.clients, h.ids, h.kept⟩

/-- Induction on the depth of the calls. -/
theorem KeepsClientless.removeImage (h : KeepsClientless db st) {fuel : Nat} {updateStat : Bool}
    (hcall : c.removeImage fuel updateStat id st = some (b, st')) : KeepsClientless db st' := by
  induction fuel generalizing updateStat id st b st' with
  | zero => cases hcall
  | succ fuel ih =>
    rw [ImageCleanup.removeImage, CleanupState.removeImage] at hcall
    obtain ⟨⟨res, st₁⟩, hrefs, hcall⟩ := Option.bind_eq_some_iff.mp hcall
    have hfirst : KeepsClientless db st₁ :=
      removeRefs_rule (fun _ _ _ _ _ hJ _ hone => ih hJ hone)
        (eachMeets_of_forall (fun _ _ => trivial) _ _) hrefs h
    cases res with
    | none =>
      cases hcall
      exact ⟨hfirst.clients, hfirst.ids, hfirst.kept⟩
    | some ret =>
      obtain ⟨⟨size, st₂⟩, hbelonging, hcall⟩ := Option.bind_eq_some_iff.mp hcall
      have hsecond : KeepsClientless db st₂ :=
        removeAssoc_rule (fun _ _ _ _ _ hJ _ hone => ih hJ hone)
          (eachMeets_of_forall (fun _ _ => trivial) _ _) hbelonging hfirst
      have hend : _ = st' := congrArg Prod.snd (Option.some.inj hcall)
      rw [← hend]
      exact hsecond.removeFiles

end ImageCleanup

namespace MarkedImages

open ImageDb

section Definitions

variable (c : ImageCleanup)

/-- No removal in the loop over the images based on an image is refused. -/
def RefsNeverRefused (fuel : Nat) : Nat → List Int → MarkedImages → Prop
  | turns + 1, ref :: refs, s => c.NeverRefused fuel ref s.cleanup ∧
      ∀ s', removeImageBackup c fuel ref s = some (true, s') →
        RefsNeverRefused fuel turns (refs ++ s.cleanup.db.getImageRefs ref) s'
  | _, _, _ => True

def AssocNeverRefused (fuel : Nat) : List Int → MarkedImages → Prop
  | assoc :: rest, s => c.NeverRefused fuel assoc s.cleanup ∧
      ∀ s', removeImageBackup c fuel assoc s = some (true, s') → AssocNeverRefused fuel rest s'
  | _, _ => True

/-- No removal is refused while an image is deleted. -/
def NeverRefused (fuel : Nat) (backupid : Int) (s : MarkedImages) : Prop :=
  RefsNeverRefused c fuel fuel (s.cleanup.db.getImageRefs backupid) s ∧
    ∀ s₁, visitRefs (removeImageBackup c fuel) fuel (s.cleanup.db.getImageRefs backupid) s =
        some (true, s₁) →
      AssocNeverRefused c fuel (s₁.cleanup.db.getAssocImageBackups backupid) s₁ ∧
      ∀ s₂, visitAssoc (removeImageBackup c fuel) (s₁.cleanup.db.getAssocImageBackups backupid) s₁ =
          some (true, s₂) → c.NeverRefused fuel backupid s₂.cleanup

/-- The call returns no error, and exactly the image and what is removed with it are gone. -/
def Deletes (fuel : Nat) (backupid clientid : Int) (s : MarkedImages) : Prop :=
  ∃ s', s.deleteOrMarkImageBackup c fuel backupid clientid false = some (.ok, s') ∧
    ∀ image, image ∈ s'.cleanup.db.images ↔
      image ∈ s.cleanup.db.images ∧ ¬ s.cleanup.db.Reaches backupid image.id

end Definitions

section Visits

variable {c : ImageCleanup} {db : ImageDb} {rank : Int → Nat} {gone : Set Int}
  {s s' : MarkedImages} {fuel turns : Nat} {ids : List Int} {id : Int} {b : Bool}

theorem visit_delete (c : ImageCleanup) (fuel : Nat) (clientid : Int) :
    visit c fuel false clientid = removeImageBackup c fuel := by
  funext id s
  rfl

theorem removeImageBackup_left (hdelete : ∀ st name path, c.deleteImage st name path = true)
    (hids : db.IdsUnique) (hranked : CleanupState.Ranked rank db)
    (hclients : ∀ y, db.Reaches id y → db.HasClient y) (hclosed : db.Closed gone)
    (hleft : db.Left gone s.cleanup.db) (hmeets : c.NeverRefused fuel id s.cleanup)
    (h : removeImageBackup c fuel id s = some (b, s')) :
    db.Left (gone ∪ db.below [id]) s'.cleanup.db ∧
      (b = true ↔ id ∉ gone ∧ ∀ depth, db.Orderly depth gone id) := by
  obtain ⟨⟨b', st⟩, hremove, heq⟩ := Option.map_eq_some_iff.mp h
  cases heq
  exact ImageCleanup.removeImage_left hdelete hids hranked hclients hclosed hleft hmeets hremove

theorem removeImageBackup_ends (hranked : CleanupState.Ranked rank db)
    (hleft : db.Left gone s.cleanup.db) (hfuel : rank id < fuel) :
    ∃ b s', removeImageBackup c fuel id s = some (b, s') := by
  have hranked' : CleanupState.Ranked rank s.cleanup.db := by
    refine ⟨fun image himage => hranked.1 image (hleft.mem_images.mp himage).1,
      fun assoc hassoc => hranked.2 assoc ?_⟩
    rw [hleft.assoc] at hassoc
    exact (List.mem_filter.mp hassoc).1
  have hends : ∃ res, CleanupState.removeImage c.deleteImage c.minImageIncr fuel true false true true
      id s.cleanup = some res := CleanupState.removeImage_ends hranked' hfuel
  obtain ⟨⟨b, st⟩, hremove⟩ := hends
  refine ⟨b, { s with cleanup := st }, ?_⟩
  unfold removeImageBackup ImageCleanup.removeImage
  rw [hremove]
  rfl

/-- Nothing is based any more on an image that has its turn. -/
abbrev Bare (db : ImageDb) (gone : Set Int) (id : Int) : Prop := ∀ ref ∈ db.getImageRefs id, ref ∈ gone

open Classical in
theorem Bare.orderly (h : Bare db gone id) (depth : Nat) : db.Orderly depth gone id := by
  cases depth with
  | zero => trivial
  | succ depth =>
    unfold Orderly
    rw [List.filter_eq_nil_iff.mpr]
    · trivial
    · intro ref href hnot
      exact decide_eq_true_iff.mp hnot (h ref href)

section Loops

variable (hdelete : ∀ st name path, c.deleteImage st name path = true) (hids : db.IdsUnique)
  (hranked : CleanupState.Ranked rank db)
  (hclients : ∀ x ∈ ids, ∀ y, db.Reaches x y → db.HasClient y) (hclosed : db.Closed gone)
  (hleft : db.Left gone s.cleanup.db)

include hdelete hids hranked hclients hclosed hleft

/-- A loop that goes through has met images in their turn, each with nothing based on it, because what
is based on an image is put on the list and is then gone. -/
theorem visitRefs_left (hmeets : RefsNeverRefused c fuel turns ids s)
    (h : visitRefs (removeImageBackup c fuel) turns ids s = some (true, s')) :
    db.Left (gone ∪ db.below ids) s'.cleanup.db ∧ db.InTurn (Bare db) gone ids := by
  induction turns generalizing gone ids s with
  | zero =>
    cases ids with
    | nil =>
      cases h
      rw [union_below_nil]
      exact ⟨hleft, trivial⟩
    | cons id ids => cases h
  | succ turns ih =>
    cases ids with
    | nil =>
      cases h
      rw [union_below_nil]
      exact ⟨hleft, trivial⟩
    | cons id ids =>
      obtain ⟨⟨b, s₁⟩, hfirst, hrest⟩ := Option.bind_eq_some_iff.mp h
      obtain ⟨hmeet, hnext⟩ := hmeets
      dsimp only at hrest
      split at hrest
      · next hb =>
          subst hb
          obtain ⟨hleft₁, hdone⟩ := removeImageBackup_left hdelete hids hranked
            (hclients id List.mem_cons_self) hclosed hleft hmeet hfirst
          have hbased : ∀ ref ∈ s.cleanup.db.getImageRefs id, db.RemovedWith id ref :=
            fun ref href => .inl (hleft.mem_getImageRefs.mp href).1
          obtain ⟨hleft', hinTurn⟩ := ih (fun x hx y hy => by
            rcases List.mem_append.mp hx with hx | hx
            · exact hclients x (List.mem_cons_of_mem _ hx) y hy
            · exact hclients id List.mem_cons_self y (.head (hbased x hx) hy))
            (hclosed.union_below [id]) hleft₁ (hnext s₁ hfirst) hrest
          -- what is based on the image was put on the list, and is gone
          have hbare : s.cleanup.db.getImageRefs id = [] := by
            apply List.eq_nil_iff_forall_not_mem.mpr
            intro ref href
            exact hinTurn.not_mem ref (List.mem_append_right _ href)
              (.inr (mem_below_singleton.mpr (.single (hbased ref href))))
          rw [hbare, List.append_nil] at hleft' hinTurn
          rw [union_below_cons] at hleft'
          refine ⟨hleft', (hdone.mp rfl).1, fun ref href => ?_, hinTurn⟩
          by_contra hstill
          have hmem := hleft.mem_getImageRefs.mpr ⟨href, hstill⟩
          rw [hbare] at hmem
          exact absurd hmem List.not_mem_nil
      · cases hrest

theorem visitRefs_done (hmeets : RefsNeverRefused c fuel turns ids s)
    (hinTurn : db.InTurn (Bare db) gone ids) (hturns : ids.length ≤ turns)
    (hfuel : ∀ x ∈ ids, rank x < fuel) :
    ∃ s', visitRefs (removeImageBackup c fuel) turns ids s = some (true, s') := by
  induction turns generalizing gone ids s with
  | zero =>
    rw [List.eq_nil_of_length_eq_zero (Nat.le_zero.mp hturns)]
    exact ⟨s, rfl⟩
  | succ turns ih =>
    cases ids with
    | nil => exact ⟨s, rfl⟩
    | cons id ids =>
      obtain ⟨hmeet, hnext⟩ := hmeets
      obtain ⟨hstill, hbare, hrest⟩ := hinTurn
      obtain ⟨b, s₁, hfirst⟩ := @removeImageBackup_ends c db rank gone s fuel id hranked hleft
        (hfuel id List.mem_cons_self)
      obtain ⟨hleft₁, hdone⟩ := removeImageBackup_left hdelete hids hranked
        (hclients id List.mem_cons_self) hclosed hleft hmeet hfirst
      obtain rfl : b = true := hdone.mpr ⟨hstill, Bare.orderly hbare⟩
      have hnone : s.cleanup.db.getImageRefs id = [] := by
        apply List.eq_nil_iff_forall_not_mem.mpr
        intro ref href
        obtain ⟨href, hthere⟩ := hleft.mem_getImageRefs.mp href
        exact hthere (hbare ref href)
      have hnext' := hnext s₁ hfirst
      rw [hnone, List.append_nil] at hnext'
      obtain ⟨s', hs'⟩ := ih (fun x hx => hclients x (List.mem_cons_of_mem _ hx))
        (hclosed.union_below [id]) hleft₁ hnext' hrest (Nat.le_of_succ_le_succ hturns)
        (fun x hx => hfuel x (List.mem_cons_of_mem _ hx))
      refine ⟨s', ?_⟩
      rw [visitRefs]
      dsimp only
      rw [hfirst, hnone, List.append_nil]
      exact hs'

theorem visitAssoc_left (hmeets : AssocNeverRefused c fuel ids s)
    (h : visitAssoc (removeImageBackup c fuel) ids s = some (true, s')) :
    db.Left (gone ∪ db.below ids) s'.cleanup.db ∧
      db.InTurn (fun gone id => ∀ depth, db.Orderly depth gone id) gone ids := by
  induction ids generalizing gone s with
  | nil =>
    cases h
    rw [union_below_nil]
    exact ⟨hleft, trivial⟩
  | cons id ids ih =>
    obtain ⟨⟨b, s₁⟩, hfirst, hrest⟩ := Option.bind_eq_some_iff.mp h
    obtain ⟨hmeet, hnext⟩ := hmeets
    dsimp only at hrest
    split at hrest
    · next hb =>
        subst hb
        obtain ⟨hleft₁, hdone⟩ := removeImageBackup_left hdelete hids hranked
          (hclients id List.mem_cons_self) hclosed hleft hmeet hfirst
        obtain ⟨hleft', hinTurn⟩ := ih (fun x hx => hclients x (List.mem_cons_of_mem _ hx))
          (hclosed.union_below [id]) hleft₁ (hnext s₁ hfirst) hrest
        rw [union_below_cons] at hleft'
        exact ⟨hleft', (hdone.mp rfl).1, (hdone.mp rfl).2, hinTurn⟩
    · cases hrest

theorem visitAssoc_done (hmeets : AssocNeverRefused c fuel ids s)
    (hinTurn : db.InTurn (fun gone id => ∀ depth, db.Orderly depth gone id) gone ids)
    (hfuel : ∀ x ∈ ids, rank x < fuel) :
    ∃ s', visitAssoc (removeImageBackup c fuel) ids s = some (true, s') := by
  induction ids generalizing gone s with
  | nil => exact ⟨s, rfl⟩
  | cons id ids ih =>
    obtain ⟨hmeet, hnext⟩ := hmeets
    obtain ⟨hstill, horderly, hrest⟩ := hinTurn
    obtain ⟨b, s₁, hfirst⟩ := @removeImageBackup_ends c db rank gone s fuel id hranked hleft
      (hfuel id List.mem_cons_self)
    obtain ⟨hleft₁, hdone⟩ := removeImageBackup_left hdelete hids hranked
      (hclients id List.mem_cons_self) hclosed hleft hmeet hfirst
    obtain rfl : b = true := hdone.mpr ⟨hstill, horderly⟩
    obtain ⟨s', hs'⟩ := ih (fun x hx => hclients x (List.mem_cons_of_mem _ hx))
      (hclosed.union_below [id]) hleft₁ (hnext s₁ hfirst) hrest
      (fun x hx => hfuel x (List.mem_cons_of_mem _ hx))
    refine ⟨s', ?_⟩
    rw [visitAssoc, hfirst]
    exact hs'

end Loops

theorem keepsClientless_removeImageBackup (h : ImageCleanup.KeepsClientless db s.cleanup)
    (hcall : removeImageBackup c fuel id s = some (b, s')) :
    ImageCleanup.KeepsClientless db s'.cleanup := by
  obtain ⟨⟨b', st⟩, hremove, heq⟩ := Option.map_eq_some_iff.mp hcall
  cases heq
  exact h.removeImage hremove

theorem keepsClientless_visitRefs (h : ImageCleanup.KeepsClientless db s.cleanup)
    (hvisit : visitRefs (removeImageBackup c fuel) turns ids s = some (b, s')) :
    ImageCleanup.KeepsClientless db s'.cleanup := by
  induction turns generalizing ids s with
  | zero =>
    cases ids with
    | nil =>
      cases hvisit
      exact h
    | cons id ids => cases hvisit
  | succ turns ih =>
    cases ids with
    | nil =>
      cases hvisit
      exact h
    | cons id ids =>
      obtain ⟨⟨b', s₁⟩, hfirst, hrest⟩ := Option.bind_eq_some_iff.mp hvisit
      have h₁ := keepsClientless_removeImageBackup h hfirst
      cases b' with
      | true => exact ih h₁ hrest
      | false =>
        cases hrest
        exact h₁

theorem keepsClientless_visitAssoc (h : ImageCleanup.KeepsClientless db s.cleanup)
    (hvisit : visitAssoc (removeImageBackup c fuel) ids s = some (b, s')) :
    ImageCleanup.KeepsClientless db s'.cleanup := by
  induction ids generalizing s with
  | nil =>
    cases hvisit
    exact h
  | cons id ids ih =>
    obtain ⟨⟨b', s₁⟩, hfirst, hrest⟩ := Option.bind_eq_some_iff.mp hvisit
    have h₁ := keepsClientless_removeImageBackup h hfirst
    cases b' with
    | true => exact ih h₁ hrest
    | false =>
      cases hrest
      exact h₁

end Visits

section Deletes

variable {c : ImageCleanup} {s s' : MarkedImages} {rank : Int → Nat} {fuel : Nat}
  {backupid clientid : Int}

theorem visitAll_true {visit : Int → MarkedImages → Option (Bool × MarkedImages)} :
    visitAll visit fuel backupid s = some (true, s') ↔ ∃ s₁ s₂,
      visitRefs visit fuel (s.cleanup.db.getImageRefs backupid) s = some (true, s₁) ∧
      visitAssoc visit (s₁.cleanup.db.getAssocImageBackups backupid) s₁ = some (true, s₂) ∧
      visit backupid s₂ = some (true, s') := by
  constructor
  · intro h
    obtain ⟨⟨b, s₁⟩, hrefs, h⟩ := Option.bind_eq_some_iff.mp h
    cases b with
    | false => cases h
    | true =>
      obtain ⟨⟨b, s₂⟩, hassoc, h⟩ := Option.bind_eq_some_iff.mp h
      cases b with
      | false => cases h
      | true => exact ⟨s₁, s₂, hrefs, hassoc, h⟩
  · rintro ⟨s₁, s₂, hrefs, hassoc, h⟩
    unfold visitAll
    rw [hrefs, Option.bind_some]
    dsimp only
    rw [if_pos rfl, hassoc]
    exact h

theorem deleteOrMarkImageBackup_ok
    (hcheck : check c fuel backupid clientid false s.cleanup.db = some .ok) :
    s.deleteOrMarkImageBackup c fuel backupid clientid false = some (.ok, s') ↔
      visitAll (removeImageBackup c fuel) fuel backupid s = some (true, s') := by
  unfold deleteOrMarkImageBackup
  rw [hcheck, Option.bind_some, if_pos rfl, visit_delete, Option.map_eq_some_iff]
  constructor
  · rintro ⟨⟨b, s₁⟩, h, heq⟩
    cases b with
    | true =>
      cases heq
      exact h
    | false => cases heq
  · exact fun h => ⟨_, h, rfl⟩

/-- After both loops the image is still there, with nothing based on it, and it is the rest of what is
removed with it. -/
theorem last_left {db : ImageDb} (hranked : CleanupState.Ranked rank db) {s₁ : MarkedImages}
    {gone : Set Int} (hleft₁ : db.Left (db.below (db.getImageRefs backupid)) s₁.cleanup.db)
    (hgone : gone = db.below (db.getImageRefs backupid) ∪
      db.below (s₁.cleanup.db.getAssocImageBackups backupid)) :
    backupid ∉ gone ∧ Bare db gone backupid ∧ db.Closed gone ∧
      gone ∪ db.below [backupid] = db.below [backupid] := by
  subst hgone
  have hrefs : ∀ x ∈ db.getImageRefs backupid, db.RemovedWith backupid x := fun _ => .inl
  have hassoc : ∀ x ∈ s₁.cleanup.db.getAssocImageBackups backupid, db.RemovedWith backupid x :=
    fun x hx => .inr ((hleft₁.mem_getAssocImageBackups
      (ImageCleanup.not_mem_below hranked hrefs)).mp hx).1
  refine ⟨?_, fun ref href => .inl (mem_below_of_mem href), ?_, ?_⟩
  · rintro (hid | hid)
    · exact ImageCleanup.not_mem_below hranked hrefs hid
    · exact ImageCleanup.not_mem_below hranked hassoc hid
  · exact (closed_below _).union_below _
  · apply Set.union_eq_self_of_subset_left
    rintro y (⟨x, hx, hy⟩ | ⟨x, hx, hy⟩)
    · exact mem_below_singleton.mpr (.head (hrefs x hx) hy)
    · exact mem_below_singleton.mpr (.head (hassoc x hx) hy)

theorem hasId_of_reaches {db : ImageDb} (hassoc : db.AssocExist) {x y : Int} (hx : db.HasId x)
    (h : db.Reaches x y) : db.HasId y := by
  rcases Relation.ReflTransGen.cases_tail h with rfl | ⟨z, -, hlast⟩
  · exact hx
  · exact ImageCleanup.removedWith_hasId hassoc hlast

theorem clients_of_deletes (hids : s.cleanup.db.IdsUnique) (hassoc : s.cleanup.db.AssocExist)
    (himage : s.cleanup.db.HasId backupid)
    (hall : visitAll (removeImageBackup c fuel) fuel backupid s = some (true, s'))
    (hgone : ∀ image, image ∈ s'.cleanup.db.images ↔
      image ∈ s.cleanup.db.images ∧ ¬ s.cleanup.db.Reaches backupid image.id)
    (id : Int) (hid : s.cleanup.db.Reaches backupid id) : s.cleanup.db.HasClient id := by
  obtain ⟨s₁, s₂, hrefs, hbelonging, hlast⟩ := visitAll_true.mp hall
  have hstart : ImageCleanup.KeepsClientless s.cleanup.db s.cleanup :=
    ⟨rfl, hids, fun _ h _ => h⟩
  have hend := keepsClientless_removeImageBackup
    (keepsClientless_visitAssoc (keepsClientless_visitRefs hstart hrefs) hbelonging) hlast
  obtain ⟨image, hmem, rfl⟩ := hasId_of_reaches hassoc himage hid
  by_contra hnone
  exact ((hgone image).mp (hend.kept image hmem hnone)).2 hid

/-- An image that passes the checks is deleted with exactly what has to go with it, if and only if all
of that is in order. -/
theorem deletes_iff (hdelete : ∀ st name path, c.deleteImage st name path = true)
    (hids : s.cleanup.db.IdsUnique) (hassoc : s.cleanup.db.AssocExist)
    (hranked : CleanupState.Ranked rank s.cleanup.db) (himage : s.cleanup.db.HasId backupid)
    (hcheck : check c fuel backupid clientid false s.cleanup.db = some .ok)
    (hmeets : NeverRefused c fuel backupid s) (hrank : rank backupid < fuel)
    (hlength : (s.cleanup.db.getImageRefs backupid).length ≤ fuel) :
    Deletes c fuel backupid clientid s ↔ s.cleanup.db.InOrder backupid := by
  obtain ⟨hrefsMeet, hrest⟩ := hmeets
  generalize hdb : s.cleanup.db = db at *
  have hleft : db.Left ∅ s.cleanup.db := by
    rw [hdb]
    exact .refl db
  have hrefsWith : ∀ x ∈ db.getImageRefs backupid, db.RemovedWith backupid x := fun _ => .inl
  have hnotBelow := ImageCleanup.not_mem_below hranked hrefsWith
  have hlower : ∀ x, db.RemovedWith backupid x → rank x < fuel := by
    intro x hx
    have hle := reaches_rank hranked (.single hx)
    omega
  have hclosed : db.Closed (db.below (db.getImageRefs backupid)) := closed_below _
  unfold Deletes
  simp only [deleteOrMarkImageBackup_ok (hdb ▸ hcheck), hdb]
  constructor
  · rintro ⟨s', hall, hgone⟩
    have hclients := clients_of_deletes (hdb ▸ hids) (hdb ▸ hassoc) (hdb ▸ himage) hall
      (by rw [hdb]; exact hgone)
    rw [hdb] at hclients
    refine ⟨hclients, ?_⟩
    obtain ⟨s₁, s₂, hrefs, hbelonging, hlast⟩ := visitAll_true.mp hall
    rw [hdb] at hrefs
    obtain ⟨hassocMeet, -⟩ := hrest s₁ hrefs
    obtain ⟨hleft₁, hinTurn⟩ := visitRefs_left hdelete hids hranked
      (fun x hx y hy => hclients y (.head (hrefsWith x hx) hy)) closed_empty hleft hrefsMeet hrefs
    refine ⟨hinTurn, ?_⟩
    rw [Set.empty_union] at hleft₁
    rw [hleft₁.getAssocImageBackups hnotBelow] at hassocMeet hbelonging
    exact (visitAssoc_left hdelete hids hranked
      (fun x hx y hy => hclients y (.head (.inr (List.mem_filter.mp hx).1) hy)) hclosed hleft₁
      hassocMeet hbelonging).2
  · rintro ⟨hclients, hinTurn, hassocInTurn⟩
    obtain ⟨s₁, hrefs⟩ := visitRefs_done hdelete hids hranked
      (fun x hx y hy => hclients y (.head (hrefsWith x hx) hy)) closed_empty hleft hrefsMeet hinTurn
      hlength (fun x hx => hlower x (.inl hx))
    obtain ⟨hassocMeet, hlastMeet⟩ := hrest s₁ hrefs
    obtain ⟨hleft₁, -⟩ := visitRefs_left hdelete hids hranked
      (fun x hx y hy => hclients y (.head (hrefsWith x hx) hy)) closed_empty hleft hrefsMeet hrefs
    rw [Set.empty_union] at hleft₁
    have hassocWith : ∀ x ∈ s₁.cleanup.db.getAssocImageBackups backupid,
        db.RemovedWith backupid x :=
      fun x hx => .inr ((hleft₁.mem_getAssocImageBackups hnotBelow).mp hx).1
    rw [← hleft₁.getAssocImageBackups hnotBelow] at hassocInTurn
    obtain ⟨s₂, hbelonging⟩ := visitAssoc_done hdelete hids hranked
      (fun x hx y hy => hclients y (.head (hassocWith x hx) hy)) hclosed hleft₁ hassocMeet
      hassocInTurn (fun x hx => hlower x (hassocWith x hx))
    obtain ⟨hleft₂, -⟩ := visitAssoc_left hdelete hids hranked
      (fun x hx y hy => hclients y (.head (hassocWith x hx) hy)) hclosed hleft₁ hassocMeet hbelonging
    obtain ⟨hstill, hbare, hclosed₂, hunion⟩ := last_left hranked hleft₁ rfl
    obtain ⟨b, s', hlast⟩ := removeImageBackup_ends (c := c) hranked hleft₂ hrank
    obtain ⟨hleft', hdone⟩ := removeImageBackup_left hdelete hids hranked hclients hclosed₂ hleft₂
      (hlastMeet s₂ hbelonging) hlast
    obtain rfl : b = true := hdone.mpr ⟨hstill, Bare.orderly hbare⟩
    refine ⟨s', visitAll_true.mpr ⟨s₁, s₂, by rw [hdb]; exact hrefs, hbelonging, hlast⟩, ?_⟩
    intro image
    rw [hleft'.mem_images, hunion, mem_below_singleton]

theorem check_ends {db : ImageDb} (hranked : CleanupState.Ranked rank db) (c : ImageCleanup)
    (hfuel : rank backupid < fuel) :
    ∃ result, check c fuel backupid clientid false db = some result := by
  have hrank : ∀ a, ∀ b ∈ db.getImageRefs a, rank b < rank a := by
    intro a b hb
    obtain ⟨image, himage, rfl, hincr, rfl⟩ := CleanupState.mem_getImageRefs.mp hb
    exact hranked.1 image himage hincr
  obtain ⟨archived, harchived⟩ := findImageRef_ends hrank
    (fun id => (db.getAssocImageBackups id).any fun assoc => db.getImageArchived assoc = 1)
    (fun image => image.archived = 1) hfuel
  obtain ⟨locked, hlocked⟩ :=
    findImageRef_ends hrank (fun _ => false) (fun image => c.locked image.id) hfuel
  obtain ⟨uncomplete, huncomplete⟩ :=
    findImageRef_ends hrank (fun _ => false) (fun image => image.complete ≠ 1) hfuel
  have hmay : ∃ result, mayDelete c fuel backupid db = some result := by
    unfold mayDelete findLockedImageRef findUncompleteImageRef
    rw [hlocked, huncomplete, Option.bind_some]
    split
    · exact ⟨_, rfl⟩
    · split
      · exact ⟨_, rfl⟩
      · exact ⟨_, rfl⟩
  unfold check findArchivedImageRef
  rw [harchived, Option.bind_some]
  split
  · exact ⟨_, rfl⟩
  · split
    · exact ⟨_, rfl⟩
    · exact hmay

/-- A check that fails leaves everything as it is, and so does every other error but that of a removal. -/
theorem unchanged_of_check {result : DeleteResult}
    (h : s.deleteOrMarkImageBackup c fuel backupid clientid false = some (result, s'))
    (hok : result ≠ .ok) (hremove : result ≠ .removeImageFailed) : s' = s := by
  obtain ⟨checked, -, h⟩ := Option.bind_eq_some_iff.mp h
  split at h
  · obtain ⟨⟨b, s₁⟩, -, heq⟩ := Option.map_eq_some_iff.mp h
    cases b with
    | true =>
      cases heq
      exact absurd rfl hok
    | false =>
      cases heq
      exact absurd rfl hremove
  · cases h
    rfl

/-- Where a check fails nothing is changed. Where all of them pass, the files can be deleted and no
removal is refused, exactly the image and what has to go with it are gone if and only if all of that
is in order. -/
theorem deleteOrMarkImageBackup_deletes (hids : s.cleanup.db.IdsUnique)
    (hassoc : s.cleanup.db.AssocExist) (hacyclic : ∃ rank, CleanupState.Ranked rank s.cleanup.db)
    (himage : s.cleanup.db.HasId backupid) :
    (∀ fuel result s', s.deleteOrMarkImageBackup c fuel backupid clientid false = some (result, s') →
      result ≠ .ok → result ≠ .removeImageFailed → s' = s) ∧
    ∃ bound, ∀ fuel, bound ≤ fuel → ∃ result,
      check c fuel backupid clientid false s.cleanup.db = some result ∧
      (result ≠ .ok →
        s.deleteOrMarkImageBackup c fuel backupid clientid false = some (result, s)) ∧
      (result = .ok → (∀ st name path, c.deleteImage st name path = true) →
        NeverRefused c fuel backupid s →
          (Deletes c fuel backupid clientid s ↔ s.cleanup.db.InOrder backupid)) := by
  obtain ⟨rank, hranked⟩ := hacyclic
  refine ⟨fun _ _ _ => unchanged_of_check, rank backupid + 1 +
    (s.cleanup.db.getImageRefs backupid).length, fun fuel hfuel => ?_⟩
  obtain ⟨result, hresult⟩ :=
    @check_ends rank fuel backupid clientid _ hranked c (by omega)
  refine ⟨result, hresult, fun hok => ?_, fun hok hdelete hmeets => ?_⟩
  · unfold deleteOrMarkImageBackup
    rw [hresult, Option.bind_some, if_neg hok]
  · subst hok
    exact deletes_iff hdelete hids hassoc hranked himage hresult hmeets (by omega) (by omega)

theorem deleteOrMarkImageBackup_deletes_twoImages :
    (∀ fuel result s', (⟨CleanupState.twoImages, []⟩ : MarkedImages).deleteOrMarkImageBackup
      (ImageCleanup.keepIncr 0) fuel 1 1 false = some (result, s') →
        result ≠ .ok → result ≠ .removeImageFailed → s' = ⟨CleanupState.twoImages, []⟩) ∧
    ∃ bound, ∀ fuel, bound ≤ fuel → ∃ result,
      check (ImageCleanup.keepIncr 0) fuel 1 1 false CleanupState.twoImages.db = some result ∧
      (result ≠ .ok → (⟨CleanupState.twoImages, []⟩ : MarkedImages).deleteOrMarkImageBackup
        (ImageCleanup.keepIncr 0) fuel 1 1 false = some (result, ⟨CleanupState.twoImages, []⟩)) ∧
      (result = .ok → (∀ st name path, (ImageCleanup.keepIncr 0).deleteImage st name path = true) →
        NeverRefused (ImageCleanup.keepIncr 0) fuel 1 ⟨CleanupState.twoImages, []⟩ →
          (Deletes (ImageCleanup.keepIncr 0) fuel 1 1 ⟨CleanupState.twoImages, []⟩ ↔
            CleanupState.twoImages.db.InOrder 1)) := by
  have hranked : CleanupState.Ranked (fun id => (2 - id).toNat) CleanupState.twoImages.db := by
    constructor
    · decide
    · decide
  exact @deleteOrMarkImageBackup_deletes (ImageCleanup.keepIncr 0) ⟨CleanupState.twoImages, []⟩ 1 1
    (by decide) (fun assoc hassoc => absurd hassoc List.not_mem_nil) ⟨_, hranked⟩
    ⟨_, List.mem_cons_self, rfl⟩

/-- Of a chain of two incremental images the second one goes with the first, and is then tried again. -/
theorem imageChain_is_not_deleted : ∃ s' : MarkedImages,
    ImageCleanup.imageChain.db.IdsUnique ∧
    (∃ rank, CleanupState.Ranked rank ImageCleanup.imageChain.db) ∧
    check (ImageCleanup.keepIncr 0) 4 1 1 false ImageCleanup.imageChain.db = some .ok ∧
    NeverRefused (ImageCleanup.keepIncr 0) 4 1 ⟨ImageCleanup.imageChain, []⟩ ∧
    (⟨ImageCleanup.imageChain, []⟩ : MarkedImages).deleteOrMarkImageBackup (ImageCleanup.keepIncr 0)
      4 1 1 false = some (.removeImageFailed, s') ∧
    s'.cleanup.db.images = [⟨1, 1, "C:", 0, 0, 1, 0, "full.vhd", 8⟩] := by
  have hranked : CleanupState.Ranked (fun id => (3 - id).toNat) ImageCleanup.imageChain.db := by
    constructor
    · decide
    · decide
  refine ⟨_, by decide, ⟨_, hranked⟩, by decide, ⟨⟨⟨?_, ?_⟩, ?_⟩, ?_⟩, rfl, rfl⟩
  · intro _
    refine ⟨⟨by decide, trivial, fun ret st hrefs => ?_⟩, fun b st hrefs => trivial⟩
    cases hrefs
    trivial
  · intro ret st hrefs
    cases hrefs
    trivial
  · intro s' hremove
    cases hremove
    refine ⟨⟨trivial, fun ret st hrefs => ?_⟩, fun s'' hremove => ?_⟩
    · cases hrefs
      trivial
    · cases hremove
  · intro s₁ hrefs
    cases hrefs

end Deletes

end MarkedImages

end UrBackup
