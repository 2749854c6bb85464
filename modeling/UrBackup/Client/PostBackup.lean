import UrBackup.Client.ClientLoop

/-! Every image is evaluated once, after its backup has ended: as long as no failed backup has the
loop evaluate an image whose backup still runs, and no row is added during an evaluation or after
the loop was left. -/
namespace UrBackup

namespace ClientLoop

def waitingIds (s : ClientLoop) : List Nat :=
  match s.pc with
  | .invoked _ => []
  | .outside | .dependencies _ | .waitFor _ | .leaving | .left => s.allBackupsInDatabase

/-- The ids that were passed are those of the calls, and those that wait. None waits when the
queue is empty or the loop was left. -/
structure EvaluatedOnce (s : ClientLoop) : Prop where
  once : s.calls.flatMap PostBackupCall.backupInfo ++ s.waitingIds = s.passed
  ended : ∀ call ∈ s.calls, ∀ id ∈ call.backupInfo, id ∈ call.endedImages
  idle : s.queue = [] → s.waitingIds = []
  left : s.pc = .leaving ∨ s.pc = .left → s.waitingIds = []

def failureEvaluates (s : ClientLoop) : Bool :=
  match s.pc with
  | .waitFor i => s.queue[i]?.any fun o =>
    (s.objects o).isFinished && (s.objects o).countAfter s.countImageBackupTry ≠ 0
  | .outside | .dependencies _ | .invoked _ | .leaving | .left => false

def collects (s : ClientLoop) : Bool :=
  match s.pc with
  | .outside | .dependencies _ | .waitFor _ => true
  | .invoked _ | .leaving | .left => false

/-- No running backup is evaluated, and every row is added while its id is collected. -/
def EvaluationOk (s : ClientLoop) : Event → Prop
  | .loop => s.failureEvaluates = true → ∀ id ∈ s.allBackupsInDatabase, id ∈ s.endedImages
  | .exit => s.allBackupsInDatabase = []
  | .addBackupToDatabase _ _ _ => s.collects = true
  | .queueBackup _ | .startBackup _ | .endPartition _ | .readShadowData _ _ | .endBackup _ _ _ =>
    True

instance (s : ClientLoop) (e : Event) : Decidable (EvaluationOk s e) :=
  match e with
  | .loop => inferInstanceAs (Decidable (_ → _))
  | .exit => inferInstanceAs (Decidable (_ = _))
  | .addBackupToDatabase _ _ _ => inferInstanceAs (Decidable (_ = _))
  | .queueBackup _ | .startBackup _ | .endPartition _ | .readShadowData _ _ | .endBackup _ _ _ =>
    .isTrue trivial

namespace PostBackup

structure Inv (s : ClientLoop) : Prop extends EvaluatedOnce s where
  below : ∀ o ∈ s.queue, o < s.created
  running : ∀ o, (s.objects o).isRunning = true → o ∈ s.queue
  known : ∀ id ∈ s.passed, id ∈ s.endedImages ∨ ∃ o, (s.objects o).currentImage = some id

variable {s s' : ClientLoop}

theorem initial_inv : Inv initial where
  once := rfl
  ended _ h := absurd h List.not_mem_nil
  idle _ := rfl
  left _ := rfl
  below _ h := absurd h List.not_mem_nil
  running _ h := absurd h Bool.false_ne_true
  known _ h := absurd h List.not_mem_nil

theorem isRunning_of_currentImage {b : BackupObject} {id : Nat} (h : b.currentImage = some id) :
    b.isRunning = true := by
  unfold BackupObject.currentImage at h
  unfold BackupObject.isRunning
  split at h
  next hphase => rw [hphase]
  next hphase => rw [hphase]
  all_goals cases h

theorem waitingIds_of_collects (h : s.collects = true) : s.waitingIds = s.allBackupsInDatabase := by
  unfold collects at h
  unfold waitingIds
  split at h
  next hpc => rw [hpc]
  next hpc => rw [hpc]
  next hpc => rw [hpc]
  all_goals cases h

theorem Inv.move (h : Inv s) {pc : LoopAt} {ledger : GroupLedger}
    (hwaiting : waitingIds { s with pc := pc } = s.waitingIds)
    (hleft : pc = .leaving ∨ pc = .left → s.waitingIds = []) :
    Inv { s with pc := pc, ledger := ledger } :=
  { h with
    once := (congrArg (s.calls.flatMap PostBackupCall.backupInfo ++ ·) hwaiting).trans h.once
    idle hqueue := hwaiting.trans (h.idle hqueue)
    left hpc := hwaiting.trans (hleft hpc) }

theorem Inv.setObject (h : Inv s) {o : Nat} {b : BackupObject} {ledger : GroupLedger}
    (hrunning : b.isRunning = true → o ∈ s.queue)
    (himage : ∀ id, (s.objects o).currentImage = some id → b.currentImage = some id) :
    Inv { s.setObject o b with ledger := ledger } :=
  { h with
    running := by
      intro x hx
      change (if x = o then b else s.objects x).isRunning = true at hx
      split at hx
      next heq =>
        rw [heq]
        exact hrunning hx
      next => exact h.running x hx
    known := by
      intro id hid
      cases h.known id hid with
      | inl hended => exact .inl hended
      | inr hcurrent =>
        obtain ⟨x, hx⟩ := hcurrent
        refine .inr ⟨x, ?_⟩
        change (if x = o then b else s.objects x).currentImage = some id
        split
        next heq =>
          rw [heq] at hx
          exact himage id hx
        next => exact hx }

theorem Inv.endImage (h : Inv s) {o : Nat} {b : BackupObject} {ledger : GroupLedger}
    (hrunning : (s.objects o).isRunning = true) :
    Inv { s.setObject o b with
      ledger := ledger
      endedImages := s.endedImages ++ (s.objects o).currentImage.toList } :=
  { h with
    running := by
      intro x hx
      change (if x = o then b else s.objects x).isRunning = true at hx
      split at hx
      next heq =>
        rw [heq]
        exact h.running o hrunning
      next => exact h.running x hx
    known := by
      intro id hid
      cases h.known id hid with
      | inl hended => exact .inl (List.mem_append_left _ hended)
      | inr hcurrent =>
        obtain ⟨x, hx⟩ := hcurrent
        by_cases heq : x = o
        · subst heq
          refine .inl (List.mem_append_right _ ?_)
          rw [hx]
          exact List.mem_singleton_self id
        · refine .inr ⟨x, ?_⟩
          change (if x = o then b else s.objects x).currentImage = some id
          rw [if_neg heq]
          exact hx }

theorem Inv.addObjects (h : Inv s) {objects : Nat → BackupObject} {n : Nat}
    (hobjects : ∀ x, objects x = s.objects x ∨ s.created ≤ x ∧ (objects x).isRunning = false) :
    Inv { s with
      objects := objects
      created := s.created + n
      queue := s.queue ++ List.range' s.created n } where
  once := h.once
  ended := h.ended
  idle hqueue := h.idle (List.append_eq_nil_iff.mp hqueue).1
  left := h.left
  below := by
    intro x hx
    cases List.mem_append.mp hx with
    | inl hold => exact Nat.lt_add_right n (h.below x hold)
    | inr hnew => exact (List.mem_range'_1.mp hnew).2
  running := by
    intro x hx
    refine List.mem_append_left _ (h.running x ?_)
    cases hobjects x with
    | inl hsame =>
      rw [← hsame]
      exact hx
    | inr hnew => exact absurd (hnew.2.symm.trans hx) Bool.false_ne_true
  known := by
    intro id hid
    cases h.known id hid with
    | inl hended => exact .inl hended
    | inr hcurrent =>
      obtain ⟨x, hx⟩ := hcurrent
      refine .inr ⟨x, ?_⟩
      cases hobjects x with
      | inl hsame => exact (congrArg BackupObject.currentImage hsame).trans hx
      | inr hnew =>
        have hold := h.below x (h.running x (isRunning_of_currentImage hx))
        exact absurd hold (Nat.not_lt.mpr hnew.1)

theorem Inv.queueBackup (h : Inv s) {isFileBackup : Bool}
    (hstep : s.queueBackup isFileBackup = some s') : Inv s' := by
  unfold ClientLoop.queueBackup at hstep
  split at hstep
  next hpc =>
    cases hstep
    apply @Inv.addObjects s h (s.setObject s.created (.make isFileBackup)).objects 1
    intro x
    by_cases hx : x = s.created
    · refine .inr ⟨Nat.le_of_eq hx.symm, ?_⟩
      exact congrArg BackupObject.isRunning (if_pos hx)
    · exact .inl (if_neg hx)
  next => cases hstep

theorem Inv.addImageBackups (h : Inv s) (n : Nat) : Inv (s.addImageBackups n) := by
  apply h.addObjects
  intro x
  by_cases hx : s.created ≤ x ∧ x < s.created + n
  · refine .inr ⟨hx.1, ?_⟩
    exact congrArg BackupObject.isRunning (if_pos hx)
  · exact .inl (if_neg hx)

theorem Inv.takeDependencies (h : Inv s) {i : Nat} (hpc : s.pc = .dependencies i) :
    Inv (s.takeDependencies i) := by
  have hwaiting : s.waitingIds = s.allBackupsInDatabase :=
    waitingIds_of_collects (by unfold collects; rw [hpc])
  unfold ClientLoop.takeDependencies
  split
  next => exact h.move hwaiting.symm (by simp)
  next o ho =>
    dsimp only
    split
    next => exact h.move hwaiting.symm (by simp)
    next =>
      split
      next => exact h.move hwaiting.symm (by simp)
      next =>
        have hset := @Inv.setObject s h o { s.objects o with dependencies := 0 } s.ledger
          (fun _ => List.mem_of_getElem? ho) fun _ => id
        have hmade := hset.addImageBackups (s.objects o).dependencies
        have hmoved := @Inv.move _ hmade (.waitFor i) (s.ledger.use o) hwaiting.symm (by simp)
        exact { hmoved with }

theorem Inv.startBackup (h : Inv s) {i : Nat} (hstep : s.startBackup i = some s') : Inv s' := by
  unfold ClientLoop.startBackup at hstep
  split at hstep
  next => cases hstep
  next o ho =>
    split at hstep
    next hphase =>
      cases hstep
      apply h.setObject fun _ => List.mem_of_getElem? ho
      intro id hid
      have hrunning := isRunning_of_currentImage hid
      unfold BackupObject.isRunning at hrunning
      rw [hphase.2] at hrunning
      cases hrunning
    next => cases hstep

theorem Inv.addBackupToDatabase (h : Inv s) {o id : Nat} {isPartition : Bool}
    (hok : s.collects = true) (hstep : s.addBackupToDatabase o isPartition id = some s') :
    Inv s' := by
  unfold ClientLoop.addBackupToDatabase at hstep
  dsimp only at hstep
  split at hstep
  next hphase =>
    have hrunning : (s.objects o).isRunning = true := by
      unfold BackupObject.isRunning
      rw [hphase.1]
    have hmem := h.running o hrunning
    have hset := @Inv.setObject s h o { s.objects o with
        phase := if isPartition then .partition id else .image id
        backupId := if isPartition then (s.objects o).backupId else id } (s.ledger.use o)
      (fun _ => hmem) (by
        intro id' hid
        unfold BackupObject.currentImage at hid
        rw [hphase.1] at hid
        cases hid)
    have hnew : ({ s.objects o with
        phase := if isPartition then .partition id else .image id
        backupId := if isPartition then (s.objects o).backupId else id } :
          BackupObject).currentImage = some id := by
      cases isPartition <;> rfl
    cases hstep
    exact
      { h with
        once := by
          have hold := h.once
          rw [waitingIds_of_collects hok] at hold
          refine (congrArg (_ ++ ·) (@waitingIds_of_collects { s with
            allBackupsInDatabase := s.allBackupsInDatabase ++ [id] } hok)).trans ?_
          exact (List.append_assoc _ _ _).symm.trans (congrArg (· ++ [id]) hold)
        idle := fun hqueue => absurd (hqueue ▸ hmem) List.not_mem_nil
        left := by
          intro hpc
          unfold collects at hok
          cases hpc with
          | inl hleaving =>
            change s.pc = .leaving at hleaving
            rw [hleaving] at hok
            cases hok
          | inr hleft =>
            change s.pc = .left at hleft
            rw [hleft] at hok
            cases hok
        running := hset.running
        known := by
          intro id' hid
          cases List.mem_append.mp hid with
          | inl hold => exact hset.known id' hold
          | inr heq =>
            rw [List.mem_singleton.mp heq]
            exact .inr ⟨o, (congrArg BackupObject.currentImage (if_pos rfl)).trans hnew⟩ }
  next => cases hstep

theorem Inv.endPartition (h : Inv s) {o : Nat} (hstep : s.endPartition o = some s') : Inv s' := by
  unfold ClientLoop.endPartition at hstep
  split at hstep
  next id hphase =>
    cases hstep
    have hrunning : (s.objects o).isRunning = true := by
      unfold BackupObject.isRunning
      rw [hphase]
    have hend := @Inv.endImage s h o { s.objects o with phase := .started } (s.ledger.use o)
      hrunning
    unfold BackupObject.currentImage at hend
    rw [hphase] at hend
    exact hend
  all_goals cases hstep

theorem Inv.readShadowData (h : Inv s) {o dependencies : Nat}
    (hstep : s.readShadowData o dependencies = some s') : Inv s' := by
  unfold ClientLoop.readShadowData at hstep
  dsimp only at hstep
  split at hstep
  next hrunning =>
    cases hstep
    exact h.setObject (fun _ => h.running o hrunning.1) fun _ => id
  next => cases hstep

theorem Inv.endBackup (h : Inv s) {o : Nat} {result shouldBackoff : Bool}
    (hstep : s.endBackup o result shouldBackoff = some s') : Inv s' := by
  unfold ClientLoop.endBackup at hstep
  dsimp only at hstep
  split at hstep
  next hphase =>
    cases hstep
    apply h.endImage
    unfold BackupObject.isRunning
    rw [hphase]
  next hphase =>
    cases hstep
    apply h.endImage
    unfold BackupObject.isRunning
    rw [hphase]
  all_goals cases hstep

/-- A finished backup is removed, and the images are evaluated if it was the last one or the
failure counter is not 0. -/
theorem Inv.waitFor (h : Inv s) {i : Nat} (hpc : s.pc = .waitFor i)
    (hok : s.failureEvaluates = true → ∀ id ∈ s.allBackupsInDatabase, id ∈ s.endedImages) :
    Inv (s.waitFor i) := by
  have hwaiting : s.waitingIds = s.allBackupsInDatabase :=
    waitingIds_of_collects (by unfold collects; rw [hpc])
  have honce := h.once
  rw [hwaiting] at honce
  unfold ClientLoop.waitFor
  split
  next => exact h.move hwaiting.symm (by simp)
  next o ho =>
    split
    next hfinished =>
      have hstopped := BackupObject.not_isRunning_of_isFinished hfinished
      have hrunning (x : Nat) (hx : (s.objects x).isRunning = true) :
          x ∈ s.queue.eraseIdx i := by
        obtain ⟨k, hk⟩ := List.mem_iff_getElem?.mp (h.running x hx)
        refine List.mem_eraseIdx_iff_getElem?.mpr ⟨k, ?_, hk⟩
        intro heq
        rw [heq, ho] at hk
        cases hk
        exact absurd (hstopped.symm.trans hx) Bool.false_ne_true
      have hbelow (x : Nat) (hx : x ∈ s.queue.eraseIdx i) : x < s.created :=
        h.below x (List.mem_of_mem_eraseIdx hx)
      unfold invokePostBackupScripts
      split
      next hcall =>
        have hended (id : Nat) (hid : id ∈ s.allBackupsInDatabase) : id ∈ s.endedImages := by
          cases hcall.1 with
          | inl hqueue =>
            have hpassed : id ∈ s.passed := honce ▸ List.mem_append_right _ hid
            refine (h.known id hpassed).resolve_right ?_
            rintro ⟨x, hx⟩
            have hmem := hrunning x (isRunning_of_currentImage hx)
            rw [show s.queue.eraseIdx i = [] from hqueue] at hmem
            exact List.not_mem_nil hmem
          | inr hcount =>
            refine hok ?_ id hid
            unfold failureEvaluates
            rw [hpc]
            dsimp only
            rw [ho, Option.any_some, hfinished, Bool.true_and]
            exact decide_eq_true hcount
        exact
          { once := by
              refine Eq.trans ?_ honce
              change (s.calls ++ [PostBackupCall.mk s.allBackupsInDatabase
                s.endedImages]).flatMap PostBackupCall.backupInfo ++ [] = _
              rw [List.append_nil, List.flatMap_append, List.flatMap_singleton]
            ended := by
              intro call hmem
              cases List.mem_append.mp hmem with
              | inl hold => exact h.ended call hold
              | inr hnew =>
                rw [List.mem_singleton.mp hnew]
                exact hended
            idle := fun _ => rfl
            left := by simp
            below := hbelow
            running := hrunning
            known := h.known }
      next hcall =>
        exact
          { h with
            once := honce
            idle := by
              intro hqueue
              by_contra hids
              exact hcall ⟨.inl hqueue, hids⟩
            left := by simp
            below := hbelow
            running := hrunning }
    next => exact h.move hwaiting.symm (by simp)

theorem Inv.clear (h : Inv s) {i : Nat} (hpc : s.pc = .invoked i) :
    Inv { s with pc := .dependencies i, allBackupsInDatabase := [] } := by
  have hwaiting : s.waitingIds = [] := by
    unfold waitingIds
    rw [hpc]
  have honce := h.once
  rw [hwaiting] at honce
  exact
    { h with
      once := honce
      idle := fun _ => rfl
      left := nofun }

theorem Inv.leave (h : Inv s) (hpc : s.pc = .leaving) (hstep : s.leave = some s') : Inv s' := by
  have hwaiting : s.waitingIds = s.allBackupsInDatabase := by
    unfold waitingIds
    rw [hpc]
  unfold ClientLoop.leave at hstep
  split at hstep
  next =>
    cases hstep
    exact h.move hwaiting.symm fun _ => h.left (.inl hpc)
  next o queue hqueue =>
    split at hstep
    next => cases hstep
    next hstopped =>
      cases hstep
      exact
        { h with
          idle := fun _ => h.left (.inl hpc)
          below := fun x hx => h.below x (hqueue ▸ List.mem_cons_of_mem o hx)
          running := by
            intro x hx
            have hmem := h.running x hx
            rw [hqueue] at hmem
            cases List.mem_cons.mp hmem with
            | inl heq =>
              rw [heq] at hx
              exact absurd hx hstopped
            | inr hmem => exact hmem }

theorem Inv.loop (h : Inv s) (hok : EvaluationOk s .loop) (hstep : s.loop = some s') :
    Inv s' := by
  unfold ClientLoop.loop at hstep
  split at hstep
  next hpc =>
    cases hstep
    have hwaiting : s.waitingIds = s.allBackupsInDatabase :=
      waitingIds_of_collects (by unfold collects; rw [hpc])
    exact h.move hwaiting.symm nofun
  next i hpc =>
    cases hstep
    exact h.takeDependencies hpc
  next i hpc =>
    cases hstep
    exact h.waitFor hpc hok
  next i hpc =>
    cases hstep
    exact h.clear hpc
  next hpc => exact h.leave hpc hstep
  next => cases hstep

theorem Inv.exit (h : Inv s) (hok : s.allBackupsInDatabase = []) (hstep : s.exit = some s') :
    Inv s' := by
  unfold ClientLoop.exit at hstep
  split at hstep
  next hpc =>
    cases hstep
    have hwaiting : s.waitingIds = s.allBackupsInDatabase :=
      waitingIds_of_collects (by unfold collects; rw [hpc])
    exact h.move hwaiting.symm fun _ => hwaiting.trans hok
  next => cases hstep

theorem Inv.step {e : Event} (h : Inv s) (hok : EvaluationOk s e) (hstep : step s e = some s') :
    Inv s' := by
  cases e with
  | queueBackup isFileBackup => exact h.queueBackup hstep
  | startBackup i => exact h.startBackup hstep
  | loop => exact h.loop hok hstep
  | exit => exact h.exit hok hstep
  | addBackupToDatabase o isPartition id => exact h.addBackupToDatabase hok hstep
  | endPartition o => exact h.endPartition hstep
  | readShadowData o dependencies => exact h.readShadowData hstep
  | endBackup o result shouldBackoff => exact h.endBackup hstep

end PostBackup

/-- Two images are backed up, the second one fails, and the first one is evaluated with it. -/
def failedLast : List Event :=
  [.queueBackup false, .queueBackup false, .startBackup 0, .startBackup 1,
    .addBackupToDatabase 0 false 7, .addBackupToDatabase 1 false 8,
    .endBackup 0 true true, .endBackup 1 false true, .loop, .loop, .loop, .loop, .loop]

def failedFirst : List Event :=
  [.queueBackup false, .queueBackup false, .startBackup 0, .startBackup 1,
    .addBackupToDatabase 0 false 7, .addBackupToDatabase 1 false 8,
    .endBackup 1 false true, .loop, .loop, .loop, .loop, .loop]

end ClientLoop

end UrBackup
