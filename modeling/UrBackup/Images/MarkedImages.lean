import Mathlib
import UrBackup.Images.PendingImages

/-! Which images are to be deleted after any marks that users set and take back, and what the next
cleanup deletes of those that others need. -/
namespace UrBackup

namespace ImageDb

section Definitions

variable (db : ImageDb)

def HasId (id : Int) : Prop := ∃ image ∈ db.images, image.id = id

/-- An image is based on another one, or has it as an associated image. -/
def Needs (x z : Int) : Prop :=
  db.HasId x ∧ db.HasId z ∧ (x ∈ db.getImageRefs z ∨ z ∈ db.getAssocImageBackups x)

/-- The images that a mark of one of them is set on. -/
def Marks (clientid backupid y : Int) : Prop :=
  db.HasImage clientid y ∧
    (Worklist.From db.getImageRefs backupid y ∨ y ∈ db.getAssocImageBackups backupid)

/-- The images that a mark is taken from with that of one of them. -/
def Unmarks (clientid backupid y : Int) : Prop :=
  db.HasImage clientid y ∧ (Worklist.From db.getImageRefsReverse backupid y ∨
    y ∈ db.getAssocImageBackups backupid ∨ y ∈ db.getAssocImageBackupsReverse backupid)

/-- No image is based on itself, directly or indirectly. -/
def RefsAcyclic : Prop :=
  ∃ rank : Int → Nat, ∀ image ∈ db.images, ∀ base ∈ db.images, base.id = image.incrementalRef →
    rank image.id < rank base.id

end Definitions

end ImageDb

inductive PendingCall where
  | mark (backupid clientid : Int)
  | unmark (backupid clientid : Int)

namespace MarkedImages

open ImageDb

section Definitions

variable (c : ImageCleanup)

def perform (fuel : Nat) (s : MarkedImages) : PendingCall → Option MarkedImages
  | .mark backupid clientid =>
    (s.deleteOrMarkImageBackup c fuel backupid clientid true).map Prod.snd
  | .unmark backupid clientid => s.unmarkImageBackup fuel backupid clientid

/-- An image that stays is based only on images that stay, and its associated images stay. -/
def Consistent (s : MarkedImages) : Prop :=
  ∀ image ∈ s.cleanup.db.images, image.id ∉ s.deletePending →
    (∀ y, Relation.TransGen (fun a b => a ∈ s.cleanup.db.getImageRefs b) image.id y →
      y ∉ s.deletePending) ∧
      ∀ y ∈ s.cleanup.db.getAssocImageBackups image.id, y ∉ s.deletePending

/-- The next cleanup does not delete what an image that stays needs. -/
def Safe (s : MarkedImages) : Prop :=
  ∀ fuel st', s.cleanupImages c fuel = some st' →
    ∀ image ∈ s.cleanup.db.images, image.id ∉ s.deletePending →
      ∀ needed ∈ s.cleanup.db.images, Relation.TransGen s.cleanup.db.Needs image.id needed.id →
        needed ∈ st'.db.images

/-- Only pending images need what is removed with a pending image. -/
structure MarksClosed (s : MarkedImages) : Prop where
  exist : ∀ id ∈ s.deletePending, s.cleanup.db.HasId id
  closed : ∀ id ∈ s.deletePending, ∀ z, s.cleanup.db.Reaches id z →
    ∀ y, s.cleanup.db.Needs y z → y ∈ s.deletePending

/-- What a call has to be like. If it marks an image, then what needs an image that is removed with
it, through references and associated images, is marked as well or was so before. If it takes a
mark back, then it takes none from what needs an image that is removed with one still pending. -/
def Fits (s : MarkedImages) : PendingCall → Prop
  | .mark backupid clientid =>
    (∃ fuel, check c fuel backupid clientid true s.cleanup.db = some .ok) →
      ∀ z, s.cleanup.db.Reaches backupid z → ∀ y, s.cleanup.db.Needs y z →
        y ∈ s.deletePending ∨ s.cleanup.db.Marks clientid backupid y
  | .unmark backupid clientid =>
    s.cleanup.db.getImageClientId backupid = clientid →
      ∀ id ∈ s.deletePending, ¬ s.cleanup.db.Unmarks clientid backupid id →
        ∀ z, s.cleanup.db.Reaches id z → ∀ y, s.cleanup.db.Needs y z →
          ¬ s.cleanup.db.Unmarks clientid backupid y

/-- After any calls, none of which meets a bad state. -/
inductive Called (start : CleanupState) : MarkedImages → Prop where
  | start : Called start ⟨start, []⟩
  | call {s s' call fuel} (h : Called start s) (hfits : s.Fits c call)
      (hcall : s.perform c fuel call = some s') : Called start s'

end Definitions

section Marks

variable {c : ImageCleanup} {s s' : MarkedImages} {fuel turns : Nat} {clientid backupid y : Int}

theorem setDeletePending_cleanup (s : MarkedImages) (pending : Bool) (id clientid : Int) :
    (s.setDeletePending pending id clientid).cleanup = s.cleanup := by
  unfold setDeletePending
  split <;> rfl

theorem mem_mark (s : MarkedImages) (id clientid y : Int) :
    y ∈ (s.setDeletePending true id clientid).deletePending ↔
      y ∈ s.deletePending ∨ (y = id ∧ s.cleanup.db.HasImage clientid y) := by
  unfold setDeletePending
  split
  · next himage =>
      rw [if_pos rfl, List.mem_cons]
      constructor
      · rintro (rfl | hy)
        · exact .inr ⟨rfl, himage⟩
        · exact .inl hy
      · rintro (hy | ⟨rfl, -⟩)
        · exact .inr hy
        · exact .inl rfl
  · next himage =>
      refine ⟨.inl, fun h => h.resolve_right ?_⟩
      rintro ⟨rfl, hhas⟩
      exact himage hhas

theorem mem_unmark (s : MarkedImages) (id clientid y : Int) :
    y ∈ (s.unmark clientid id).deletePending ↔
      y ∈ s.deletePending ∧ ¬ (y = id ∧ s.cleanup.db.HasImage clientid y) := by
  unfold unmark setDeletePending
  split
  · next himage =>
      rw [if_neg nofun, List.mem_filter, decide_eq_true_eq]
      apply and_congr_right
      intro _
      constructor
      · rintro hne ⟨heq, -⟩
        exact hne heq
      · rintro hne rfl
        exact hne ⟨rfl, himage⟩
  · next himage =>
      refine ⟨fun h => ⟨h, ?_⟩, And.left⟩
      rintro ⟨rfl, h⟩
      exact himage h

def markAll (clientid : Int) (ids : List Int) (s : MarkedImages) : MarkedImages :=
  ids.foldl (fun s id => s.setDeletePending true id clientid) s

theorem markAll_spec (clientid : Int) (ids : List Int) (s : MarkedImages) :
    (s.markAll clientid ids).cleanup = s.cleanup ∧
      ∀ y, y ∈ (s.markAll clientid ids).deletePending ↔
        y ∈ s.deletePending ∨ (y ∈ ids ∧ s.cleanup.db.HasImage clientid y) := by
  induction ids generalizing s with
  | nil => exact ⟨rfl, fun y => ⟨.inl, fun h => h.resolve_right fun h' => absurd h'.1 List.not_mem_nil⟩⟩
  | cons id ids ih =>
    obtain ⟨hcleanup, hmem⟩ := ih (s.setDeletePending true id clientid)
    rw [setDeletePending_cleanup] at hcleanup hmem
    refine ⟨hcleanup, fun y => (hmem y).trans ?_⟩
    rw [mem_mark, List.mem_cons]
    tauto

theorem unmarkAll_spec (clientid : Int) (ids : List Int) (s : MarkedImages) :
    (ids.foldl (unmark clientid) s).cleanup = s.cleanup ∧
      ∀ y, y ∈ (ids.foldl (unmark clientid) s).deletePending ↔
        y ∈ s.deletePending ∧ ¬ (y ∈ ids ∧ s.cleanup.db.HasImage clientid y) := by
  induction ids generalizing s with
  | nil => exact ⟨rfl, fun y => ⟨fun h => ⟨h, fun h' => absurd h'.1 List.not_mem_nil⟩, And.left⟩⟩
  | cons id ids ih =>
    obtain ⟨hcleanup, hmem⟩ := ih (s.unmark clientid id)
    have hsame : (s.unmark clientid id).cleanup = s.cleanup := setDeletePending_cleanup ..
    rw [hsame] at hcleanup hmem
    refine ⟨hcleanup, fun y => (hmem y).trans ?_⟩
    rw [mem_unmark, List.mem_cons]
    tauto

theorem visitRefs_mark (refs : List Int) (s : MarkedImages) :
    visitRefs (visit c fuel true clientid) turns refs s =
      (Worklist.visited s.cleanup.db.getImageRefs turns refs).map fun ids =>
        (true, s.markAll clientid ids) := by
  induction turns generalizing refs s with
  | zero => cases refs <;> rfl
  | succ turns ih =>
    cases refs with
    | nil => rfl
    | cons ref refs =>
      rw [visitRefs, Worklist.visited, Option.map_map]
      change visitRefs _ turns _ (s.setDeletePending true ref clientid) = _
      rw [ih, setDeletePending_cleanup]
      rfl

theorem visitAssoc_mark (assoc : List Int) (s : MarkedImages) :
    visitAssoc (visit c fuel true clientid) assoc s = some (true, s.markAll clientid assoc) := by
  induction assoc generalizing s with
  | nil => rfl
  | cons a assoc ih =>
    change visitAssoc _ assoc (s.setDeletePending true a clientid) = _
    rw [ih]
    rfl

theorem unmarkRefs_eq (refs : List Int) (s : MarkedImages) :
    unmarkRefs clientid turns refs s =
      (Worklist.visited s.cleanup.db.getImageRefsReverse turns refs).map fun ids =>
        ids.foldl (unmark clientid) s := by
  induction turns generalizing refs s with
  | zero => cases refs <;> rfl
  | succ turns ih =>
    cases refs with
    | nil => rfl
    | cons ref refs =>
      have hsame : (s.unmark clientid ref).cleanup = s.cleanup := setDeletePending_cleanup ..
      rw [unmarkRefs, Worklist.visited, Option.map_map, ih, hsame]
      rfl

theorem deleteOrMarkImageBackup_mark {result : DeleteResult}
    (h : s.deleteOrMarkImageBackup c fuel backupid clientid true = some (result, s')) :
    s'.cleanup = s.cleanup ∧ (s' = s ∨
      (check c fuel backupid clientid true s.cleanup.db = some .ok ∧ ∀ y, y ∈ s'.deletePending ↔
        y ∈ s.deletePending ∨ s.cleanup.db.Marks clientid backupid y)) := by
  obtain ⟨checked, hcheck, h⟩ := Option.bind_eq_some_iff.mp h
  split at h
  · next hok =>
      subst hok
      obtain ⟨⟨b, s₁⟩, hall, h⟩ := Option.map_eq_some_iff.mp h
      cases h
      unfold visitAll at hall
      rw [visitRefs_mark, Option.bind_map] at hall
      obtain ⟨ids, hids, hall⟩ := Option.bind_eq_some_iff.mp hall
      obtain ⟨hcleanup, hmem⟩ := markAll_spec clientid ids s
      have hassoc := markAll_spec clientid (s.cleanup.db.getAssocImageBackups backupid)
        (s.markAll clientid ids)
      rw [hcleanup] at hassoc
      simp only [Function.comp_apply, if_true, visitAssoc_mark, Option.bind_some, hcleanup] at hall
      change some (true, setDeletePending _ true backupid clientid) = _ at hall
      cases hall
      refine ⟨(setDeletePending_cleanup ..).trans hassoc.1, .inr ⟨hcheck, fun y => ?_⟩⟩
      rw [mem_mark, hassoc.2, hmem, hassoc.1, Worklist.mem_visited hids]
      unfold Marks
      rw [Worklist.from_iff]
      have hsame (p r a e i : Prop) :
          (((p ∨ r ∧ i) ∨ a ∧ i) ∨ (e ∧ i)) ↔ p ∨ (i ∧ ((e ∨ r) ∨ a)) := by tauto
      exact hsame ..
  · cases h
    exact ⟨rfl, .inl rfl⟩

theorem unmarkImageBackup_spec (h : s.unmarkImageBackup fuel backupid clientid = some s') :
    s'.cleanup = s.cleanup ∧ (s' = s ∨
      (s.cleanup.db.getImageClientId backupid = clientid ∧ ∀ y, y ∈ s'.deletePending ↔
        y ∈ s.deletePending ∧ ¬ s.cleanup.db.Unmarks clientid backupid y)) := by
  unfold unmarkImageBackup at h
  dsimp only at h
  split at h
  · cases h
    exact ⟨rfl, .inl rfl⟩
  · next hclient =>
      rw [not_not] at hclient
      obtain ⟨hcleanup₁, hmem₁⟩ := unmarkAll_spec clientid
        (s.cleanup.db.getAssocImageBackups backupid) s
      generalize (s.cleanup.db.getAssocImageBackups backupid).foldl (unmark clientid) s = s₁ at *
      obtain ⟨hcleanup₂, hmem₂⟩ := unmarkAll_spec clientid
        (s.cleanup.db.getAssocImageBackupsReverse backupid) s₁
      generalize (s.cleanup.db.getAssocImageBackupsReverse backupid).foldl (unmark clientid) s₁ =
        s₂ at *
      rw [hcleanup₁] at hcleanup₂ hmem₂
      rw [unmarkRefs_eq, Option.map_map, hcleanup₂] at h
      obtain ⟨ids, hids, rfl⟩ := Option.map_eq_some_iff.mp h
      obtain ⟨hcleanup₃, hmem₃⟩ := unmarkAll_spec clientid ids s₂
      rw [hcleanup₂] at hcleanup₃ hmem₃
      refine ⟨(setDeletePending_cleanup ..).trans hcleanup₃, .inr ⟨hclient, fun y => ?_⟩⟩
      rw [Function.comp_apply, mem_unmark, hmem₃, hmem₂, hmem₁, hcleanup₃,
        Worklist.mem_visited hids]
      unfold Unmarks
      rw [Worklist.from_iff]
      have hsame (p r a a' e i : Prop) : ((((p ∧ ¬ (a ∧ i)) ∧ ¬ (a' ∧ i)) ∧ ¬ (r ∧ i)) ∧ ¬ (e ∧ i)) ↔
          p ∧ ¬ (i ∧ ((e ∨ r) ∨ a ∨ a')) := by tauto
      exact hsame ..

end Marks

section Closed

variable {c : ImageCleanup} {s s' : MarkedImages} {fuel : Nat} {call : PendingCall}

theorem hasId_of_hasImage {db : ImageDb} {clientid id : Int} (h : db.HasImage clientid id) :
    db.HasId id := by
  obtain ⟨image, himage, hid, -⟩ := h
  exact ⟨image, himage, hid⟩

theorem perform_cleanup (h : s.perform c fuel call = some s') : s'.cleanup = s.cleanup := by
  cases call with
  | mark backupid clientid =>
    obtain ⟨⟨result, s₁⟩, hcall, rfl⟩ := Option.map_eq_some_iff.mp h
    exact (deleteOrMarkImageBackup_mark hcall).1
  | unmark backupid clientid => exact (unmarkImageBackup_spec h).1

theorem MarksClosed.perform (h : s.MarksClosed) (hfits : s.Fits c call)
    (hcall : s.perform c fuel call = some s') : s'.MarksClosed := by
  cases call with
  | mark backupid clientid =>
    obtain ⟨⟨result, s₁⟩, hmark, hsame⟩ := Option.map_eq_some_iff.mp hcall
    cases hsame
    obtain ⟨hcleanup, rfl | ⟨hcheck, hmem⟩⟩ := deleteOrMarkImageBackup_mark hmark
    · exact h
    · have hneeds := hfits ⟨fuel, hcheck⟩
      dsimp only at hcleanup hmem ⊢
      constructor
      · intro id hid
        rw [hcleanup]
        rcases (hmem id).mp hid with hid | hid
        · exact h.exist id hid
        · exact hasId_of_hasImage hid.1
      · rw [hcleanup]
        intro id hid z hz y hy
        rw [hmem]
        rcases (hmem id).mp hid with hid | ⟨-, hid⟩
        · exact .inl (h.closed id hid z hz y hy)
        · apply hneeds z _ y hy
          rcases hid with hid | hid
          · exact (Relation.ReflTransGen.mono (fun _ _ => Or.inl) _ _ hid).trans hz
          · exact .head (.inr hid) hz
  | unmark backupid clientid =>
    obtain ⟨hcleanup, rfl | ⟨hclient, hmem⟩⟩ := unmarkImageBackup_spec hcall
    · exact h
    · have hneeds := hfits hclient
      constructor
      · intro id hid
        rw [hcleanup]
        exact h.exist id ((hmem id).mp hid).1
      · rw [hcleanup]
        intro id hid z hz y hy
        obtain ⟨hpending, hkept⟩ := (hmem id).mp hid
        exact (hmem y).mpr ⟨h.closed id hpending z hz y hy, hneeds id hpending hkept z hz y hy⟩

theorem hasId_of_ref {db : ImageDb} {a b : Int} (h : a ∈ db.getImageRefs b) : db.HasId a := by
  obtain ⟨image, himage, hid, -⟩ := CleanupState.mem_getImageRefs.mp h
  exact ⟨image, himage, hid⟩

theorem MarksClosed.needs (h : s.MarksClosed) {x z : Int}
    (hneeds : Relation.TransGen s.cleanup.db.Needs x z) (hz : z ∈ s.deletePending) :
    x ∈ s.deletePending := by
  induction hneeds using Relation.TransGen.head_induction_on with
  | single hone => exact h.closed _ hz _ .refl _ hone
  | head hone _ ih => exact h.closed _ ih _ .refl _ hone

theorem needs_of_based {db : ImageDb} {x y : Int}
    (h : Relation.TransGen (fun a b => a ∈ db.getImageRefs b) x y) (hy : db.HasId y) :
    Relation.TransGen db.Needs x y := by
  induction h using Relation.TransGen.head_induction_on with
  | single hone => exact .single ⟨hasId_of_ref hone, hy, .inl hone⟩
  | head hone hrest ih =>
    obtain ⟨b, hb, -⟩ := Relation.TransGen.head'_iff.mp hrest
    exact .head ⟨hasId_of_ref hone, hasId_of_ref hb, .inl hone⟩ ih

theorem MarksClosed.consistent (h : s.MarksClosed) : s.Consistent := by
  intro image himage hkept
  constructor
  · intro y hbased hpending
    exact hkept (h.needs (needs_of_based hbased (h.exist y hpending)) hpending)
  · intro y hassoc hpending
    exact hkept (h.closed y hpending y .refl image.id
      ⟨⟨image, himage, rfl⟩, h.exist y hpending, .inr hassoc⟩)

/-- What a cleanup of some pending images leaves. -/
structure RemovedPending (s : MarkedImages) (st : CleanupState) : Prop where
  assoc : st.db.assocImages ⊆ s.cleanup.db.assocImages
  images : ∀ image ∈ st.db.images, image ∈ s.cleanup.db.images
  ids : st.db.IdsUnique
  gone : ∀ image ∈ s.cleanup.db.images, image ∉ st.db.images →
    ∃ id ∈ s.deletePending, s.cleanup.db.Reaches id image.id

variable {st st' : CleanupState}

theorem RemovedPending.image (h : RemovedPending s st) {id : Int} (hid : id ∈ s.deletePending)
    (hcall : cleanupPendingImage c fuel id st = some st') : RemovedPending s st' := by
  unfold cleanupPendingImage at hcall
  split at hcall
  · cases hcall
    exact h
  obtain ⟨locked, -, hcall⟩ := Option.bind_eq_some_iff.mp hcall
  split at hcall
  · cases hcall
    exact h
  obtain ⟨uncomplete, -, hcall⟩ := Option.bind_eq_some_iff.mp hcall
  split at hcall
  · cases hcall
    exact h
  obtain ⟨archived, -, hcall⟩ := Option.bind_eq_some_iff.mp hcall
  split at hcall
  · cases hcall
    exact h
  obtain ⟨⟨ret, st₁⟩, hremove, rfl⟩ := Option.map_eq_some_iff.mp hcall
  have hbelow := ImageCleanup.removeImage_below h.ids hremove
  refine ⟨List.Subset.trans hbelow.assoc h.assoc,
    fun image himage => h.images image (hbelow.images image himage), hbelow.ids, fun image himage hgone => ?_⟩
  by_cases hstill : image ∈ st.db.images
  · exact ⟨id, hid, (hbelow.gone image hstill hgone).subset h.assoc h.images⟩
  · exact h.gone image himage hstill

theorem RemovedPending.images_all (h : RemovedPending s st) {ids : List Int}
    (hids : ∀ id ∈ ids, id ∈ s.deletePending)
    (hcall : cleanupPendingImages c fuel ids st = some st') : RemovedPending s st' := by
  induction ids generalizing st with
  | nil =>
    cases hcall
    exact h
  | cons id ids ih =>
    obtain ⟨st₁, hone, hrest⟩ := Option.bind_eq_some_iff.mp hcall
    exact ih (h.image (hids id List.mem_cons_self) hone)
      (fun id' hid' => hids id' (List.mem_cons_of_mem _ hid')) hrest

theorem MarksClosed.safe (h : s.MarksClosed) (hids : s.cleanup.db.IdsUnique) (c : ImageCleanup) :
    s.Safe c := by
  intro fuel st' hcleanup image himage hkept needed hneeded hneeds
  have hremoved : RemovedPending s st' := by
    apply RemovedPending.images_all _ _ hcleanup
    · exact ⟨List.Subset.refl _, fun _ h => h, hids, fun image himage hgone => absurd himage hgone⟩
    · intro id hid
      obtain ⟨other, hother, rfl⟩ := List.mem_map.mp hid
      exact (of_decide_eq_true (List.mem_filter.mp hother).2).1
  by_contra hgone
  obtain ⟨id, hid, hreaches⟩ := hremoved.gone needed hneeded hgone
  obtain ⟨w, hfirst, hlast⟩ := Relation.TransGen.tail'_iff.mp hneeds
  have hw := h.closed id hid needed.id hreaches w hlast
  rcases Relation.reflTransGen_iff_eq_or_transGen.mp hfirst with heq | hfirst
  · exact hkept (heq ▸ hw)
  · exact hkept (h.needs hfirst hw)

end Closed

section Ends

variable {c : ImageCleanup}

theorem le_sum_of_mem {l : List Nat} {n : Nat} (h : n ∈ l) : n ≤ l.sum :=
  List.le_sum_of_mem h

theorem refs_rank {db : ImageDb} (h : db.RefsAcyclic) :
    ∃ rank : Int → Nat, ∀ a, ∀ b ∈ db.getImageRefs a, rank b < rank a := by
  obtain ⟨rank, hrank⟩ := h
  let top := (db.images.map fun image => rank image.id).sum
  refine ⟨fun a => if ∃ image ∈ db.images, image.id = a then rank a else top + 1, ?_⟩
  intro a b hb
  obtain ⟨image, himage, rfl, -, hbase⟩ := CleanupState.mem_getImageRefs.mp hb
  dsimp only
  rw [if_pos ⟨image, himage, rfl⟩]
  split
  · next ha =>
      obtain ⟨base, hbaseImage, rfl⟩ := ha
      exact hrank image himage base hbaseImage hbase.symm
  · exact Nat.lt_succ_of_le (le_sum_of_mem (List.mem_map.mpr ⟨image, himage, rfl⟩))

theorem refsReverse_rank {db : ImageDb} (h : db.RefsAcyclic) :
    ∃ rank : Int → Nat, ∀ a, ∀ b ∈ db.getImageRefsReverse a, rank b < rank a := by
  obtain ⟨rank, hrank⟩ := h
  let top := (db.images.map fun image => rank image.id).sum
  refine ⟨fun a => top - rank a, ?_⟩
  intro a b hb
  obtain ⟨base, hbase, rfl⟩ := List.mem_map.mp hb
  obtain ⟨hbaseImage, hid⟩ := List.mem_filter.mp hbase
  obtain ⟨image, hfind, href⟩ := Option.map_eq_some_iff.mp (of_decide_eq_true hid).symm
  unfold findImage at hfind
  have hfound := List.find?_some hfind
  have hsame := of_decide_eq_true hfound
  have hless := hrank image (List.mem_of_find?_eq_some hfind) base hbaseImage href.symm
  rw [hsame] at hless
  have hle : rank base.id ≤ top := le_sum_of_mem (List.mem_map.mpr ⟨base, hbaseImage, rfl⟩)
  dsimp only
  omega

theorem findLoop_ends {bad : BackupImage → Bool} {find : Int → Option Bool}
    {refs : List BackupImage} (h : ∀ image ∈ refs, ∃ b, find image.id = some b) :
    ∃ b, findLoop bad find refs = some b := by
  induction refs with
  | nil => exact ⟨false, rfl⟩
  | cons image refs ih =>
    obtain ⟨found, hfound⟩ := h image List.mem_cons_self
    rw [findLoop, hfound, Option.bind_some]
    split
    · exact ⟨true, rfl⟩
    · split
      · exact ⟨true, rfl⟩
      · exact ih fun other hother => h other (List.mem_cons_of_mem _ hother)

theorem findImageRef_ends {db : ImageDb} {rank : Int → Nat}
    (hrank : ∀ a, ∀ b ∈ db.getImageRefs a, rank b < rank a) (here : Int → Bool)
    (bad : BackupImage → Bool) {fuel : Nat} {backupid : Int} (h : rank backupid < fuel) :
    ∃ b, db.findImageRef here bad fuel backupid = some b := by
  induction fuel generalizing backupid with
  | zero => exact absurd h (Nat.not_lt_zero _)
  | succ fuel ih =>
    rw [findImageRef]
    split
    · exact ⟨true, rfl⟩
    · apply findLoop_ends
      intro image himage
      have hless := hrank backupid image.id (List.mem_map.mpr ⟨image, himage, rfl⟩)
      exact ih (by omega)

theorem perform_ends (s : MarkedImages) (h : s.cleanup.db.RefsAcyclic) (call : PendingCall) :
    ∃ bound, ∀ fuel, bound ≤ fuel → ∃ s', s.perform c fuel call = some s' := by
  cases call with
  | mark backupid clientid =>
    obtain ⟨rank, hrank⟩ := refs_rank h
    obtain ⟨bound, hbound⟩ := Worklist.visited_ends hrank (s.cleanup.db.getImageRefs backupid)
    refine ⟨max bound (rank backupid + 1), fun fuel hfuel => ?_⟩
    obtain ⟨ids, hids⟩ := hbound fuel (le_trans (Nat.le_max_left _ _) hfuel)
    obtain ⟨archived, harchived⟩ := findImageRef_ends hrank
      (fun id => (s.cleanup.db.getAssocImageBackups id).any fun assoc =>
        s.cleanup.db.getImageArchived assoc = 1) (fun image => image.archived = 1)
      (le_trans (Nat.le_max_right _ _) hfuel)
    have hcheck : ∃ result, check c fuel backupid clientid true s.cleanup.db = some result := by
      unfold check findArchivedImageRef
      rw [harchived, Option.bind_some]
      split
      · exact ⟨_, rfl⟩
      · split
        · exact ⟨_, rfl⟩
        · exact ⟨_, rfl⟩
    have hall : ∃ s', visitAll (visit c fuel true clientid) fuel backupid s = some (true, s') := by
      unfold visitAll
      rw [visitRefs_mark, hids, Option.map_some, Option.bind_some]
      dsimp only
      rw [if_pos rfl, visitAssoc_mark, Option.bind_some]
      exact ⟨_, rfl⟩
    obtain ⟨result, hcheck⟩ := hcheck
    obtain ⟨s', hall⟩ := hall
    unfold MarkedImages.perform deleteOrMarkImageBackup
    dsimp only
    rw [hcheck, Option.bind_some]
    split
    · rw [hall]
      exact ⟨_, rfl⟩
    · exact ⟨_, rfl⟩
  | unmark backupid clientid =>
    obtain ⟨rank, hrank⟩ := refsReverse_rank h
    obtain ⟨bound, hbound⟩ :=
      Worklist.visited_ends hrank (s.cleanup.db.getImageRefsReverse backupid)
    refine ⟨bound, fun fuel hfuel => ?_⟩
    obtain ⟨ids, hids⟩ := hbound fuel hfuel
    unfold MarkedImages.perform unmarkImageBackup
    dsimp only
    split
    · exact ⟨_, rfl⟩
    · rw [unmarkRefs_eq, (unmarkAll_spec ..).1, (unmarkAll_spec ..).1, hids]
      exact ⟨_, rfl⟩

end Ends

section Calls

variable {c : ImageCleanup} {start : CleanupState} {s : MarkedImages}

theorem Called.closed (h : Called c start s) : s.cleanup = start ∧ s.MarksClosed := by
  induction h with
  | start => exact ⟨rfl, fun _ hid => absurd hid List.not_mem_nil, fun _ hid => absurd hid List.not_mem_nil⟩
  | call _ hfits hcall ih => exact ⟨(perform_cleanup hcall).trans ih.1, ih.2.perform hfits hcall⟩

/-- After any calls that fit, no image that stays needs one that is to be deleted, and every further
call ends. -/
theorem pending_images_are_not_needed (hids : start.db.IdsUnique) (hacyclic : start.db.RefsAcyclic)
    (h : Called c start s) : s.Consistent ∧ s.Safe c ∧
      ∀ call, ∃ bound, ∀ fuel, bound ≤ fuel → ∃ s', s.perform c fuel call = some s' := by
  obtain ⟨rfl, hclosed⟩ := h.closed
  exact ⟨hclosed.consistent, hclosed.safe hids c, s.perform_ends hacyclic⟩

/-- Two full images and an incremental one on each of them. The second ones are the system
partitions of the first ones. -/
def samplePartitions : CleanupState where
  db :=
    { images :=
        [⟨1, 1, "C:", 0, 0, 1, 0, "a", 5⟩, ⟨2, 1, "C:", 1, 1, 1, 0, "b", 5⟩,
          ⟨3, 1, "SYSVOL", 0, 0, 1, 0, "c", 5⟩, ⟨4, 1, "SYSVOL", 1, 3, 1, 0, "d", 5⟩]
      assocImages := [(1, 3), (2, 4)]
      clients := [⟨1, "pc", 12⟩]
      delStats := [] }
  calls := []

def samplePendingCleanup : ImageCleanup where
  minspace := 0
  cleanupOnlyOne := false
  maxImageFull := 10
  minImageFull := 1
  maxImageIncr := 10
  minImageIncr := -1
  locked _ := false
  backuptime _ := 0
  freeSpace _ := 0
  deleteImage _ _ _ := true

theorem samplePartitions_idsUnique : samplePartitions.db.IdsUnique := by
  unfold ImageDb.IdsUnique
  decide

theorem samplePartitions_refsAcyclic : samplePartitions.db.RefsAcyclic :=
  ⟨fun id => (4 - id).toNat, by decide⟩

theorem samplePartitions_reaches {z : Int} (h : samplePartitions.db.Reaches 2 z) : z = 2 ∨ z = 4 := by
  induction h with
  | refl => exact .inl rfl
  | tail _ hlast ih =>
    rcases ih with rfl | rfl
    · rcases hlast with hlast | hlast
      · exact absurd hlast List.not_mem_nil
      · exact .inr (List.mem_singleton.mp hlast)
    · rcases hlast with hlast | hlast
      · exact absurd hlast List.not_mem_nil
      · exact absurd hlast List.not_mem_nil

theorem samplePartitions_fits (c : ImageCleanup) :
    Fits c ⟨samplePartitions, []⟩ (.mark 2 1) := by
  rintro - z hz y ⟨⟨image, himage, rfl⟩, -, hneeds⟩
  have hall : ∀ image ∈ samplePartitions.db.images, ∀ z ∈ [(2 : Int), 4],
      image.id ∈ samplePartitions.db.getImageRefs z ∨
        z ∈ samplePartitions.db.getAssocImageBackups image.id → image.id = 2 := by
    decide
  rw [hall image himage z (by simpa using samplePartitions_reaches hz) hneeds]
  exact .inr ⟨by decide, .inl .refl⟩

theorem pending_images_are_not_needed_samplePartitions :
    Consistent ⟨samplePartitions, [2, 4]⟩ ∧
      Safe samplePendingCleanup ⟨samplePartitions, [2, 4]⟩ ∧
      ∀ call, ∃ bound, ∀ fuel, bound ≤ fuel → ∃ s',
        perform samplePendingCleanup fuel ⟨samplePartitions, [2, 4]⟩ call = some s' :=
  pending_images_are_not_needed samplePartitions_idsUnique samplePartitions_refsAcyclic
    (@Called.call _ _ _ _ _ 4 .start (samplePartitions_fits samplePendingCleanup) (by decide))

/-- The mark of the first image leaves out the incremental image on its system partition, which
goes with the next cleanup all the same. -/
theorem associated_images_are_marked_once :
    samplePartitions.db.IdsUnique ∧ samplePartitions.db.RefsAcyclic ∧
      (∀ image ∈ samplePartitions.db.images, image.clientid = 1) ∧
      (⟨samplePartitions, []⟩ : MarkedImages).perform samplePendingCleanup 4 (.mark 1 1) =
        some ⟨samplePartitions, [1, 3, 2]⟩ ∧
      ¬ Consistent ⟨samplePartitions, [1, 3, 2]⟩ ∧
      ¬ Safe samplePendingCleanup ⟨samplePartitions, [1, 3, 2]⟩ := by
  refine ⟨samplePartitions_idsUnique, samplePartitions_refsAcyclic, by decide, by decide, ?_, ?_⟩
  · intro h
    obtain ⟨hbased, -⟩ := h ⟨4, 1, "SYSVOL", 1, 3, 1, 0, "d", 5⟩ (by decide) (by decide)
    exact hbased 3 (.single (by decide)) (by decide)
  · intro h
    have hneeds : samplePartitions.db.Needs 4 3 :=
      ⟨⟨⟨4, 1, "SYSVOL", 1, 3, 1, 0, "d", 5⟩, by decide, rfl⟩,
        ⟨⟨3, 1, "SYSVOL", 0, 0, 1, 0, "c", 5⟩, by decide, rfl⟩, .inl (by decide)⟩
    have hkept := h 5 (Option.get _ (by decide +kernel)) (Option.some_get _).symm
      ⟨4, 1, "SYSVOL", 1, 3, 1, 0, "d", 5⟩ (by decide) (by decide)
      ⟨3, 1, "SYSVOL", 0, 0, 1, 0, "c", 5⟩ (by decide) (.single hneeds)
    exact absurd hkept (by decide +kernel)

end Calls

end MarkedImages

end UrBackup
