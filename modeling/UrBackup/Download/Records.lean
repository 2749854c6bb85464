import UrBackup.Download.DownloadThread

/-! What is known of every file when the download thread has ended. -/
namespace UrBackup

namespace SQueueItem.Role

/-- A file whose data is to be downloaded. -/
def IsData (r : Role) (id : Nat) : Prop :=
  r.id = id ∧ r.action = .fileclient ∧ r.isScript = false ∧ r.metadataOnly = false ∧
    r.scriptEnd = false

end SQueueItem.Role

namespace ServerDownloadThread

def roles (t : ServerDownloadThread) : List SQueueItem.Role := t.dlQueue.map SQueueItem.role

/-- The file was transferred, or it is noted that it was not. -/
def Recorded (t : ServerDownloadThread) (id : Nat) : Prop :=
  (id, true) ∈ t.hashed ∨ t.downloadNokIds.hasId id = true ∨ t.downloadPartialIds.hasId id = true

/-- The file is still to be worked on. -/
def Waiting (t : ServerDownloadThread) (id : Nat) : Prop :=
  (∃ r ∈ t.roles, r.IsData id) ∨ ∃ it, t.curr = some it ∧ it.role.IsData id

/-- What working on one item leaves alone. -/
structure Keeps (t t' : ServerDownloadThread) : Prop where
  hashed : t.hashed ⊆ t'.hashed
  nok : t.downloadNokIds.ids ⊆ t'.downloadNokIds.ids
  incomplete : t.downloadPartialIds.ids ⊆ t'.downloadPartialIds.ids
  queue : t.roles ⊆ t'.roles
  quit : ∀ r ∈ t'.roles, r.action = .quit → r ∈ t.roles
  added : t'.added = t.added
  stopQueued : t'.stopQueued = t.stopQueued
  ended : t'.ended = t.ended

theorem Keeps.refl (t : ServerDownloadThread) : Keeps t t :=
  ⟨List.Subset.refl _, List.Subset.refl _, List.Subset.refl _, List.Subset.refl _,
    fun _ hr _ => hr, rfl, rfl, rfl⟩

theorem Keeps.trans {t t' t'' : ServerDownloadThread} (h : Keeps t t') (h' : Keeps t' t'') :
    Keeps t t'' where
  hashed := List.Subset.trans h.hashed h'.hashed
  nok := List.Subset.trans h.nok h'.nok
  incomplete := List.Subset.trans h.incomplete h'.incomplete
  queue := List.Subset.trans h.queue h'.queue
  quit := fun r hr hquit => h.quit r (h'.quit r hr hquit) hquit
  added := h'.added.trans h.added
  stopQueued := h'.stopQueued.trans h.stopQueued
  ended := h'.ended.trans h.ended

theorem Keeps.recorded {t t' : ServerDownloadThread} (h : Keeps t t') {id : Nat}
    (hid : t.Recorded id) : t'.Recorded id := by
  obtain hhashed | hnok | hpartial := hid
  · exact Or.inl (h.hashed hhashed)
  · exact Or.inr (Or.inl (IdRange.hasId_iff.mpr (h.nok (IdRange.hasId_iff.mp hnok))))
  · exact Or.inr (Or.inr (IdRange.hasId_iff.mpr (h.incomplete (IdRange.hasId_iff.mp hpartial))))

section Parts

variable (t : ServerDownloadThread)

theorem keeps_addNok (id : Nat) : Keeps t (t.addNok id) :=
  { Keeps.refl t with nok := List.subset_append_left _ _ }

theorem keeps_addPartial (id : Nat) : Keeps t (t.addPartial id) :=
  { Keeps.refl t with incomplete := List.subset_append_left _ _ }

theorem keeps_hashFile (id : Nat) (transferred : Bool) : Keeps t (t.hashFile id transferred) :=
  { Keeps.refl t with hashed := List.subset_append_left _ _ }

theorem keeps_queue {queue : List SQueueItem} (its : List SQueueItem)
    (hperm : queue.Perm (its ++ t.dlQueue)) (hits : ∀ it ∈ its, it.action ≠ .quit) :
    Keeps t { t with dlQueue := queue } := by
  refine { Keeps.refl t with queue := ?_, quit := ?_ }
  · intro r hr
    refine ((hperm.map SQueueItem.role).mem_iff).mpr ?_
    rw [List.map_append]
    exact List.mem_append_right _ hr
  · intro r hr hquit
    have hmem := ((hperm.map SQueueItem.role).mem_iff).mp hr
    rw [List.map_append] at hmem
    cases List.mem_append.mp hmem with
    | inl hnew =>
      obtain ⟨it, hit, rfl⟩ := List.mem_map.mp hnew
      exact absurd hquit (hits it hit)
    | inr hold => exact hold

theorem keeps_queueScriptEnd (todl : SQueueItem) : Keeps t (t.queueScriptEnd todl) := by
  apply keeps_queue t [.scriptEndOf todl] (DlQueue.insertFullQueueEarliest_perm _ _ _)
  intro it hit
  cases List.mem_singleton.mp hit
  exact nofun

theorem keeps_addAtFront (todl : SQueueItem) : Keeps t (t.addAtFront todl) := by
  apply keeps_queue t [.fullOf todl] (addAtFront_perm t todl)
  intro it hit
  cases List.mem_singleton.mp hit
  exact nofun

theorem keeps_addTarFiles (files : List (Bool × QueueArgs)) : Keeps t (t.addTarFiles files) := by
  apply keeps_queue t _ List.perm_append_comm
  intro it hit
  obtain ⟨⟨chunked, a⟩, _, rfl⟩ := List.mem_map.mp hit
  cases chunked <;> exact nofun

theorem keeps_transferred (todl : SQueueItem) (o : ScriptOutput) :
    Keeps t (t.transferred todl o).1 := by
  unfold transferred
  dsimp only
  have hend : Keeps t (if todl.isScript then t.queueScriptEnd todl else t) := by
    split
    · exact keeps_queueScriptEnd t todl
    · exact Keeps.refl t
  generalize (if todl.isScript then t.queueScriptEnd todl else t) = t₁ at hend ⊢
  have htar : Keeps t₁ (if (todl.isScript && !todl.metadataOnly) = true then
      t₁.addTarFiles o.tarFiles else t₁) := by
    split
    · exact keeps_addTarFiles t₁ o.tarFiles
    · exact Keeps.refl t₁
  generalize (if (todl.isScript && !todl.metadataOnly) = true then
    t₁.addTarFiles o.tarFiles else t₁) = t₂ at htar ⊢
  have hmax : Keeps t₂ { t₂ with maxOkId := max t₂.maxOkId todl.id } := { Keeps.refl t₂ with }
  refine hend.trans (htar.trans (hmax.trans ?_))
  split
  · exact keeps_hashFile _ _ _
  · exact Keeps.refl _

theorem keeps_savedOrNot (id : Nat) (saved metadataOnly : Bool) :
    Keeps t (if saved then (t.addPartial id).hashFile id false
      else if !metadataOnly then t.addNok id else t) := by
  split
  · exact (keeps_addPartial t id).trans (keeps_hashFile _ id false)
  · split
    · exact keeps_addNok t id
    · exact Keeps.refl t

variable (saveIncompleteFile : Bool) (todl : SQueueItem) (o : TransferOutcome)

theorem keeps_loadFile : Keeps t (t.loadFile saveIncompleteFile todl o).1 := by
  unfold loadFile
  split
  · exact Keeps.refl t
  · dsimp only
    split
    · exact keeps_transferred t todl o.script
    · exact keeps_savedOrNot t todl.id _ _

theorem keeps_useOldFile : Keeps t (t.useOldFile todl o) := by
  unfold useOldFile linkOrCopyFile
  split
  next t' ok h =>
    have hlink : Keeps t t' := by
      split at h
      · cases h
        exact Keeps.refl t
      · split at h
        · cases h
          exact keeps_hashFile t todl.id false
        · cases h
          exact Keeps.refl t
    split
    · exact hlink.trans (keeps_addPartial t' todl.id)
    · exact hlink.trans (keeps_addNok t' todl.id)

theorem keeps_patchFailed (rc : ErrorCode) :
    Keeps t (t.patchFailed saveIncompleteFile todl o rc).1 := by
  unfold patchFailed
  dsimp only
  split
  · exact keeps_useOldFile t todl o
  · split
    · exact (keeps_addPartial t todl.id).trans (keeps_hashFile _ todl.id false)
    · exact keeps_addNok t todl.id

theorem keeps_loadPrepared (files : SPatchDownloadFiles) (fullDl : Bool) :
    Keeps t (t.loadPrepared saveIncompleteFile todl o files fullDl).1 := by
  unfold loadPrepared
  split
  · exact keeps_addAtFront t todl
  · split
    · exact Keeps.refl t
    · split
      · exact Keeps.refl t
      · unfold patchTransferred
        split
        · exact keeps_transferred t todl o.script
        · exact keeps_patchFailed t saveIncompleteFile todl o _

theorem keeps_loadFilePatch : Keeps t (t.loadFilePatch saveIncompleteFile todl o).1 := by
  unfold loadFilePatch
  split
  · exact keeps_loadPrepared t saveIncompleteFile todl o _ _
  · exact keeps_loadPrepared t saveIncompleteFile todl o _ _

theorem keeps_skipItem : Keeps t (t.skipItem todl o) := by
  unfold skipItem
  dsimp only
  split
  · exact keeps_useOldFile t todl o
  · split
    · exact keeps_addNok t todl.id
    · exact Keeps.refl t

theorem keeps_goOffline (ret : Bool) : Keeps t (t.goOffline ret) := by
  unfold goOffline
  split
  · exact Keeps.refl t
  · exact { Keeps.refl t with }

theorem keeps_processItem : Keeps t (t.processItem saveIncompleteFile todl o) := by
  unfold processItem
  split
  · exact keeps_skipItem t todl o
  · split
    · exact keeps_goOffline t o.shadowcopyOk
    · split
      · split
        · exact Keeps.refl t
        · exact (keeps_loadFile t saveIncompleteFile todl o).trans (keeps_goOffline _ _)
      · exact (keeps_loadFilePatch t saveIncompleteFile todl o).trans (keeps_goOffline _ _)

end Parts

section Recording

variable (t : ServerDownloadThread)

theorem recorded_addNok (id : Nat) : (t.addNok id).Recorded id :=
  Or.inr (Or.inl (IdRange.hasId_iff.mpr (List.mem_append_right _ List.mem_cons_self)))

theorem recorded_addPartial (id : Nat) : (t.addPartial id).Recorded id :=
  Or.inr (Or.inr (IdRange.hasId_iff.mpr (List.mem_append_right _ List.mem_cons_self)))

theorem recorded_hashFile (id : Nat) : (t.hashFile id true).Recorded id :=
  Or.inl (List.mem_append_right _ List.mem_cons_self)

variable {saveIncompleteFile : Bool} {todl : SQueueItem} {o : TransferOutcome} {id : Nat}

theorem recorded_transferred (o : ScriptOutput) (h : todl.role.IsData id) :
    (t.transferred todl o).1.Recorded id := by
  obtain ⟨rfl, _, hscript, hdata, _⟩ := h
  change todl.isScript = false at hscript
  change todl.metadataOnly = false at hdata
  unfold transferred
  simp only [hscript, hdata, Bool.false_and, Bool.not_false, Bool.true_or, Bool.and_self, if_true,
    Bool.false_eq_true, if_false]
  exact recorded_hashFile _ todl.id

/-- A transfer is recorded unless there is no file for its data. -/
theorem recorded_loadFile (h : todl.role.IsData id) (htemp : o.tempFile = true) :
    (t.loadFile saveIncompleteFile todl o).1.Recorded id := by
  unfold loadFile
  rw [htemp, Bool.not_true, Bool.and_false, if_neg Bool.false_ne_true]
  dsimp only
  split
  · exact recorded_transferred t o.script h
  · obtain ⟨rfl, _, _, hdata, _⟩ := h
    split
    · exact (keeps_hashFile _ _ _).recorded (recorded_addPartial t todl.id)
    · change todl.metadataOnly = false at hdata
      rw [hdata, Bool.not_false, if_pos rfl]
      exact recorded_addNok t todl.id

theorem recorded_useOldFile (todl : SQueueItem) (o : TransferOutcome) :
    (t.useOldFile todl o).Recorded todl.id := by
  unfold useOldFile
  dsimp only
  split
  · exact recorded_addPartial _ todl.id
  · exact recorded_addNok _ todl.id

theorem recorded_patchFailed (rc : ErrorCode) :
    (t.patchFailed saveIncompleteFile todl o rc).1.Recorded todl.id := by
  unfold patchFailed
  dsimp only
  split
  · exact recorded_useOldFile t todl o
  · split
    · exact (keeps_hashFile _ _ _).recorded (recorded_addPartial t todl.id)
    · exact recorded_addNok t todl.id

theorem retryPatch_ne_none {rc : Nat → ErrorCode} {tempFiles : Nat → Bool} {retries attempt : Nat}
    (h : ∀ i < retries, (∀ j ≤ i, rc (attempt + j) = .hash) → tempFiles (attempt + i) = true) :
    retryPatch rc tempFiles retries attempt ≠ none := by
  induction retries generalizing attempt with
  | zero => exact nofun
  | succ retries ih =>
    unfold retryPatch
    split
    next hhash =>
      rw [if_pos]
      · apply ih
        intro i hi hj
        rw [Nat.add_assoc, Nat.add_comm 1 i]
        apply h (i + 1) (Nat.succ_lt_succ hi)
        intro j hle
        cases j with
        | zero => exact hhash
        | succ j =>
          rw [Nat.add_comm j 1, ← Nat.add_assoc]
          exact hj j (Nat.le_of_succ_le_succ hle)
      · refine h 0 (Nat.zero_lt_succ retries) ?_
        intro j hj
        cases Nat.le_zero.mp hj
        exact hhash
    next => exact nofun

/-- A patch download is recorded or goes back into the queue unless its files cannot be made. -/
theorem recorded_loadPrepared {files : SPatchDownloadFiles} {fullDl : Bool}
    (h : todl.role.IsData id)
    (hfiles : (!files.origFile && fullDl) = false → files.prepareError = false ∧
      retryPatch o.rc o.retryTempFiles 5 0 ≠ none) :
    (t.loadPrepared saveIncompleteFile todl o files fullDl).1.Recorded id ∨
      ∃ r ∈ (t.loadPrepared saveIncompleteFile todl o files fullDl).1.roles, r.IsData id := by
  unfold loadPrepared
  split
  next =>
    refine Or.inr ⟨(SQueueItem.fullOf todl).role, ?_, h.1, rfl, h.2.2.1, h.2.2.2.1, rfl⟩
    exact (((addAtFront_perm t todl).map SQueueItem.role).mem_iff).mpr List.mem_cons_self
  next hfull =>
    obtain ⟨herror, hretry⟩ := hfiles (Bool.eq_false_iff.mpr hfull)
    rw [herror, if_neg Bool.false_ne_true]
    left
    split
    next hnone => exact absurd hnone hretry
    next rc _ =>
      unfold patchTransferred
      split
      · exact recorded_transferred t o.script h
      · exact h.1 ▸ recorded_patchFailed t _

theorem recorded_skipItem (h : todl.role.IsData id) : (t.skipItem todl o).Recorded id := by
  obtain ⟨rfl, _, _, hdata, _⟩ := h
  unfold skipItem
  dsimp only
  split
  · exact recorded_useOldFile t todl o
  · change todl.metadataOnly = false at hdata
    rw [hdata, Bool.not_false, if_pos rfl]
    exact recorded_addNok t todl.id

end Recording

/-- Every file that is asked for while an item is worked on can be made: the one for the data of a
whole download, those of a patch download, also when look-ahead asks for them, and those for a
repetition. -/
def FilesMade (t : ServerDownloadThread) (curr : SQueueItem) (o : TransferOutcome) : Prop :=
  t.isOffline = true ∨ t.skipping = true ∨
    match curr.fileclient with
    | .full => o.tempFile = true
    | .chunked => curr.patchDlFiles.prepareError = false ∧
        (curr.patchDlFiles.prepared = true ∨ o.prepare.fileOld = true →
          (curr.patchDlFiles.prepared = true ∨
            (o.prepare.pfd = true ∧ o.prepare.hashTmp = true ∧
              (o.prepare.hashfileOld = true ∨ o.prepare.hashfileTmp = true))) ∧
          ∀ i < 5, (∀ j ≤ i, o.rc j = .hash) → o.retryTempFiles i = true)

/-- The condition on the steps of a run. -/
def Recording (t : ServerDownloadThread) : Event → Prop
  | .process o => ∀ curr id, t.curr = some curr → curr.role.IsData id → t.FilesMade curr o
  | _ => True

theorem prepare_ok {o : PrepareOutcome}
    (hfull : (!(preparePatchDownloadFiles o).1.origFile && (preparePatchDownloadFiles o).2) = false)
    (hmade : o.fileOld = true → o.pfd = true ∧ o.hashTmp = true ∧
      (o.hashfileOld = true ∨ o.hashfileTmp = true)) :
    o.fileOld = true ∧ (preparePatchDownloadFiles o).1.prepareError = false := by
  unfold preparePatchDownloadFiles at hfull ⊢
  cases hold : o.fileOld with
  | false =>
    rw [hold] at hfull
    cases hfull
  | true =>
    obtain ⟨hpfd, htmp, hhash⟩ := hmade hold
    refine ⟨rfl, ?_⟩
    obtain h | h := hhash <;> simp [hpfd, htmp, h]

theorem recorded_processItem {t : ServerDownloadThread} {curr : SQueueItem} {o : TransferOutcome}
    {id : Nat} (saveIncompleteFile : Bool) (h : curr.role.IsData id)
    (hmade : t.FilesMade curr o) :
    (t.processItem saveIncompleteFile curr o).Recorded id ∨
      ∃ r ∈ (t.processItem saveIncompleteFile curr o).roles, r.IsData id := by
  have haction : curr.action = .fileclient := h.2.1
  have hend : curr.scriptEnd = false := h.2.2.2.2
  unfold processItem
  split
  next => exact Or.inl (recorded_skipItem t h)
  next hworks =>
    have hoffline : t.isOffline ≠ true := fun htrue => hworks (by rw [htrue]; rfl)
    have hskipping : t.skipping ≠ true := fun htrue => hworks (by rw [htrue, Bool.or_true])
    have hmade := (hmade.resolve_left hoffline).resolve_left hskipping
    rw [if_neg (by rw [haction]; decide)]
    cases hclient : curr.fileclient with
    | full =>
      rw [hclient] at hmade
      simp only [hend, Bool.false_eq_true, if_false]
      exact Or.inl ((keeps_goOffline _ _).recorded (recorded_loadFile t h hmade))
    | chunked =>
      rw [hclient] at hmade
      obtain ⟨herror, hmade⟩ := hmade
      have hloaded : (t.loadFilePatch saveIncompleteFile curr o).1.Recorded id ∨
          ∃ r ∈ (t.loadFilePatch saveIncompleteFile curr o).1.roles, r.IsData id := by
        unfold loadFilePatch
        rw [herror, if_neg Bool.false_ne_true]
        apply recorded_loadPrepared t h
        intro hfull
        unfold prepared at hfull ⊢
        split
        next hprepared =>
          refine ⟨herror, retryPatch_ne_none ?_⟩
          simpa using (hmade (Or.inl hprepared)).2
        next hprepared =>
          rw [if_neg hprepared] at hfull
          have hok := prepare_ok hfull fun hold =>
            (hmade (Or.inr hold)).1.resolve_left hprepared
          refine ⟨hok.2, retryPatch_ne_none ?_⟩
          simpa using (hmade (Or.inr hok.1)).2
      have hkeeps := keeps_goOffline (t.loadFilePatch saveIncompleteFile curr o).1
        (t.loadFilePatch saveIncompleteFile curr o).2
      obtain hrecorded | ⟨r, hr, hdata⟩ := hloaded
      · exact Or.inl (hkeeps.recorded hrecorded)
      · exact Or.inr ⟨r, hkeeps.queue hr, hdata⟩

/-- The invariant of the thread and of those who queue items. -/
structure Accounted (t : ServerDownloadThread) : Prop where
  items : ∀ it ∈ t.added, ∀ id, it.role.IsData id → t.Recorded id ∨ t.Waiting id
  quit : ∀ r ∈ t.roles, r.action = .quit → t.stopQueued = true
  ended : t.ended = true → t.stopQueued = true ∧ t.curr = none ∧
    ∀ r ∈ t.roles, r.action ≠ .fileclient

theorem accounted_initial : Accounted initial :=
  ⟨nofun, nofun, nofun⟩

section Steps

variable {t : ServerDownloadThread}

theorem Accounted.sameRoles (h : Accounted t) {queue : List SQueueItem}
    (hqueue : DlQueue.SameRoles t.dlQueue queue) : Accounted { t with dlQueue := queue } := by
  have hroles : ∀ r, r ∈ queue.map SQueueItem.role ↔ r ∈ t.roles := fun r => hqueue.symm.mem_iff
  refine ⟨?_, ?_, ?_⟩
  · intro it hit id hdata
    obtain hrecorded | ⟨r, hr, hid⟩ | hcurr := h.items it hit id hdata
    · exact Or.inl hrecorded
    · exact Or.inr (Or.inl ⟨r, (hroles r).mpr hr, hid⟩)
    · exact Or.inr (Or.inr hcurr)
  · intro r hr hquit
    exact h.quit r ((hroles r).mp hr) hquit
  · intro hended
    obtain ⟨hstop, hcurr, hqueue⟩ := h.ended hended
    exact ⟨hstop, hcurr, fun r hr => hqueue r ((hroles r).mp hr)⟩

theorem roles_of_perm {queue : List SQueueItem} {it : SQueueItem}
    (hperm : queue.Perm (it :: t.dlQueue)) {r : SQueueItem.Role} :
    r ∈ queue.map SQueueItem.role ↔ r = it.role ∨ r ∈ t.roles := by
  rw [(hperm.map SQueueItem.role).mem_iff, List.map_cons, List.mem_cons]
  rfl

theorem Accounted.addItem (h : Accounted t) {it : SQueueItem} {t' : ServerDownloadThread}
    (hit : it.action ≠ .quit) (hadd : t.addItem it = some t') : Accounted t' := by
  unfold ServerDownloadThread.addItem at hadd
  split at hadd
  next => cases hadd
  next hstop =>
    cases hadd
    have hroles := @roles_of_perm t _ it (List.perm_append_singleton it t.dlQueue)
    refine ⟨?_, ?_, ?_⟩
    · intro it' hit' id hdata
      cases List.mem_append.mp hit' with
      | inl hold =>
        obtain hrecorded | ⟨r, hr, hid⟩ | hcurr := h.items it' hold id hdata
        · exact Or.inl hrecorded
        · exact Or.inr (Or.inl ⟨r, hroles.mpr (Or.inr hr), hid⟩)
        · exact Or.inr (Or.inr hcurr)
      | inr hnew =>
        cases List.mem_singleton.mp hnew
        exact Or.inr (Or.inl ⟨it.role, hroles.mpr (Or.inl rfl), hdata⟩)
    · intro r hr hquit
      obtain rfl | hold := hroles.mp hr
      · exact absurd hquit hit
      · exact h.quit r hold hquit
    · exact fun hended => absurd (h.ended hended).1 hstop

theorem Accounted.control (h : Accounted t) {queue : List SQueueItem} {it : SQueueItem} {stop : Bool}
    (hperm : queue.Perm (it :: t.dlQueue)) (haction : it.action ≠ .fileclient)
    (hstop : it.action = .quit → stop = true) (hstopQueued : t.stopQueued = true → stop = true) :
    Accounted { t with dlQueue := queue, stopQueued := stop } := by
  have hroles := @roles_of_perm t _ it hperm
  refine ⟨?_, ?_, ?_⟩
  · intro it' hit' id hdata
    obtain hrecorded | ⟨r, hr, hid⟩ | hcurr := h.items it' hit' id hdata
    · exact Or.inl hrecorded
    · exact Or.inr (Or.inl ⟨r, hroles.mpr (Or.inr hr), hid⟩)
    · exact Or.inr (Or.inr hcurr)
  · intro r hr hquit
    obtain rfl | hold := hroles.mp hr
    · exact hstop hquit
    · exact hstopQueued (h.quit r hold hquit)
  · intro hended
    obtain ⟨hstopped, hcurr, hqueue⟩ := h.ended hended
    refine ⟨hstopQueued hstopped, hcurr, ?_⟩
    intro r hr
    obtain rfl | hold := hroles.mp hr
    · exact haction
    · exact hqueue r hold

theorem Accounted.take (h : Accounted t) {t' : ServerDownloadThread} (hcurr : t.curr = none)
    (hended : t.ended ≠ true) (htake : t.take = some t') : Accounted t' := by
  have hwaiting : ∀ it ∈ t.added, ∀ id, it.role.IsData id →
      t.Recorded id ∨ ∃ r ∈ t.roles, r.IsData id := by
    intro it hit id hdata
    obtain hrecorded | hqueue | ⟨it', hit', _⟩ := h.items it hit id hdata
    · exact Or.inl hrecorded
    · exact Or.inr hqueue
    · rw [hcurr] at hit'
      cases hit'
  unfold ServerDownloadThread.take at htake
  split at htake
  next => cases htake
  next curr rest hqueue =>
    have hroles : ∀ r, r ∈ t.roles ↔ r = curr.role ∨ r ∈ rest.map SQueueItem.role := by
      intro r
      rw [roles, hqueue, List.map_cons, List.mem_cons]
    split at htake
    next hquit =>
      have hstop := h.quit curr.role ((hroles _).mpr (Or.inl rfl)) hquit
      have hrest : ∀ id, (∃ r ∈ t.roles, r.IsData id) →
          ∃ r ∈ rest.map SQueueItem.role, r.IsData id := by
        rintro id ⟨r, hr, hid⟩
        obtain rfl | hold := (hroles r).mp hr
        · exact absurd (hquit.symm.trans hid.2.1) nofun
        · exact ⟨r, hold, hid⟩
      split at htake
      next hempty =>
        cases htake
        cases List.isEmpty_iff.mp hempty
        refine ⟨?_, nofun, fun _ => ⟨hstop, hcurr, nofun⟩⟩
        intro it hit id hdata
        obtain hrecorded | hqueue := hwaiting it hit id hdata
        · exact Or.inl hrecorded
        · obtain ⟨r, hr, _⟩ := hrest id hqueue
          cases hr
      next =>
        cases htake
        have hback : DlQueue.SameRoles t.dlQueue (rest ++ [curr]) := by
          rw [hqueue]
          exact (DlQueue.sameItems_of_perm (List.perm_append_singleton curr rest).symm).sameRoles
        exact h.sameRoles hback
    next hskip =>
      cases htake
      refine ⟨?_, ?_, fun htrue => absurd htrue hended⟩
      · intro it hit id hdata
        obtain hrecorded | ⟨r, hr, hid⟩ := hwaiting it hit id hdata
        · exact Or.inl hrecorded
        · obtain rfl | hold := (hroles r).mp hr
          · exact absurd (hskip.symm.trans hid.2.1) nofun
          · exact Or.inr (Or.inl ⟨r, hold, hid⟩)
      · intro r hr hquit
        exact h.quit r ((hroles r).mpr (Or.inr hr)) hquit
    all_goals
      cases htake
      refine ⟨?_, ?_, fun htrue => absurd htrue hended⟩
      · intro it hit id hdata
        obtain hrecorded | ⟨r, hr, hid⟩ := hwaiting it hit id hdata
        · exact Or.inl hrecorded
        · obtain rfl | hold := (hroles r).mp hr
          · exact Or.inr (Or.inr ⟨curr, rfl, hid⟩)
          · exact Or.inr (Or.inl ⟨r, hold, hid⟩)
      · intro r hr hquit
        exact h.quit r ((hroles r).mpr (Or.inr hr)) hquit

theorem Accounted.process (h : Accounted t) {curr : SQueueItem} {o : TransferOutcome}
    (saveIncompleteFile : Bool) (hcurr : t.curr = some curr)
    (hmade : ∀ id, curr.role.IsData id → t.FilesMade curr o) :
    Accounted { t.processItem saveIncompleteFile curr o with curr := none } := by
  have hkeeps := keeps_processItem t saveIncompleteFile curr o
  refine ⟨?_, ?_, ?_⟩
  · intro it hit id hdata
    rw [hkeeps.added] at hit
    obtain hrecorded | ⟨r, hr, hid⟩ | ⟨it', hit', hid⟩ := h.items it hit id hdata
    · exact Or.inl (hkeeps.recorded hrecorded)
    · exact Or.inr (Or.inl ⟨r, hkeeps.queue hr, hid⟩)
    · rw [hcurr] at hit'
      cases hit'
      obtain hrecorded | hqueue := recorded_processItem saveIncompleteFile hid (hmade id hid)
      · exact Or.inl hrecorded
      · exact Or.inr (Or.inl hqueue)
  · intro r hr hquit
    change (t.processItem saveIncompleteFile curr o).stopQueued = true
    rw [hkeeps.stopQueued]
    exact h.quit r (hkeeps.quit r hr hquit) hquit
  · intro hended
    change (t.processItem saveIncompleteFile curr o).ended = true at hended
    rw [hkeeps.ended] at hended
    rw [(h.ended hended).2.1] at hcurr
    cases hcurr

end Steps

theorem Accounted.step (cfg : SQueueItem.DlConfig) (saveIncompleteFile : Bool)
    (t : ServerDownloadThread) (e : Event) (t' : ServerDownloadThread) (h : Accounted t)
    (hrec : t.Recording e) (hstep : t.step cfg saveIncompleteFile e = some t') : Accounted t' := by
  cases e with
  | addToQueueFull a =>
    refine h.addItem ?_ hstep
    exact nofun
  | addToQueueChunked a =>
    refine h.addItem ?_ hstep
    exact nofun
  | addToQueueStartShadowcopy =>
    refine h.addItem ?_ hstep
    exact nofun
  | addToQueueStopShadowcopy =>
    refine h.addItem ?_ hstep
    exact nofun
  | queueStop =>
    cases hstep
    exact h.control (List.perm_append_singleton _ _) nofun (fun _ => rfl) (fun _ => rfl)
  | queueSkip =>
    cases hstep
    exact h.control (List.Perm.refl _) nofun nofun id
  | take =>
    simp only [ServerDownloadThread.step] at hstep
    split at hstep
    next => cases hstep
    next hidle =>
      rw [Bool.or_eq_true, not_or] at hidle
      exact h.take (Option.not_isSome_iff_eq_none.mp hidle.1) hidle.2 hstep
  | process o =>
    obtain ⟨curr, hcurr, rfl⟩ := Option.map_eq_some_iff.mp hstep
    exact h.process saveIncompleteFile hcurr fun id hid => hrec curr id hcurr hid
  | getQueuedFileFull prepare =>
    cases hstep
    exact h.sameRoles (DlQueue.getQueuedFileFull_sameItems prepare t.dlQueue).sameRoles
  | getQueuedFileChunked prepare =>
    cases hstep
    exact h.sameRoles (DlQueue.getQueuedFileChunked_sameItems prepare _ t.dlQueue).sameRoles
  | resetQueueFull =>
    cases hstep
    refine h.sameRoles (DlQueue.sameItems_map _ ?_ t.dlQueue).sameRoles
    intro it
    split <;> rfl
  | resetQueueChunked =>
    cases hstep
    refine h.sameRoles (DlQueue.sameItems_map _ ?_ t.dlQueue).sameRoles
    intro it
    split <;> rfl
  | unqueueFileFull fn finishScript =>
    cases hstep
    exact h.sameRoles (DlQueue.unqueue_sameItems _ t.dlQueue).sameRoles
  | unqueueFileChunked remotefn =>
    cases hstep
    exact h.sameRoles (DlQueue.unqueue_sameItems _ t.dlQueue).sameRoles

theorem recorded_of_ended (cfg : SQueueItem.DlConfig) (saveIncompleteFile : Bool)
    {es : List Event} {t : ServerDownloadThread}
    (hrec : TransitionSystem.Guarded (step cfg saveIncompleteFile) Recording initial es)
    (h : TransitionSystem.run (step cfg saveIncompleteFile) initial es = some t)
    (hended : t.ended = true) {it : SQueueItem} (hit : it ∈ t.added) {id : Nat}
    (hdata : it.role.IsData id) : t.Recorded id := by
  have haccounted := TransitionSystem.guarded_run_invariant (Accounted.step cfg saveIncompleteFile)
    accounted_initial hrec h
  obtain ⟨_, hcurr, hqueue⟩ := haccounted.ended hended
  obtain hrecorded | ⟨r, hr, hid⟩ | ⟨it', hit', _⟩ := haccounted.items it hit id hdata
  · exact hrecorded
  · exact absurd hid.2.1 (hqueue r hr)
  · rw [hcurr] at hit'
    cases hit'

end ServerDownloadThread

end UrBackup
