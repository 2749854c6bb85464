import UrBackup.Client.BackupSlots
import UrBackup.Lib.Counting

/-! The counters of backups and jobs are right in every interleaving, as long as no continuous
backup runs a full one, whose slot is given back twice, and no counter is lost with the status of a
client. -/
namespace UrBackup

namespace BackupSlots

open Counting

/-- Slots are neither exceeded nor leaked. -/
structure SlotsKept (clientmainname : Nat → Nat) (s : BackupSlots) : Prop where
  running : s.runningBackups = s.held
  runningFile : s.runningFileBackups = s.heldFile
  runningJobs : ∀ main, s.runningJobs main = s.jobs clientmainname main
  starts : ∀ start ∈ s.starts, start.held < start.maxSimBackups ∧ start.barrier = .none
  started : ∀ main, s.started clientmainname main ≤ s.maxJobs main
  asserted : s.assertionFailed = false

/-- A continuous backup does not run a full one, and the status of a client is made new while
nothing is counted in it. -/
def StatusOk (clientmainname : Nat → Nat) (s : BackupSlots) : Event → Prop
  | .queueBackup _ run => run ≠ .continuous true
  | .setOnline main | .removeStatus main =>
    ∀ b ∈ s.queue, clientmainname b.client = main → b.phase = .queued
  | .select _ _ | .leaveLoop _ | .addRunningJob _ | .checkJobs _ _ | .takeSlot _ _
  | .subRunningJob _ | .stopBackup _ | .endBackup _ | .removeBackup _ | .exit _ | .discardBackup _
  | .startBackupBarrier | .barrierReturns _ | .stopBackupBarrier => True

instance (clientmainname : Nat → Nat) (s : BackupSlots) (e : Event) :
    Decidable (StatusOk clientmainname s e) :=
  match e with
  | .queueBackup _ run => inferInstanceAs (Decidable (run ≠ .continuous true))
  | .setOnline main | .removeStatus main =>
    inferInstanceAs (Decidable (∀ b ∈ s.queue, clientmainname b.client = main →
      b.phase = .queued))
  | .select _ _ | .leaveLoop _ | .addRunningJob _ | .checkJobs _ _ | .takeSlot _ _
  | .subRunningJob _ | .stopBackup _ | .endBackup _ | .removeBackup _ | .exit _ | .discardBackup _
  | .startBackupBarrier | .barrierReturns _ | .stopBackupBarrier => .isTrue trivial

structure Inv (clientmainname : Nat → Nat) (s : BackupSlots) : Prop
    extends SlotsKept clientmainname s where
  runs : ∀ b ∈ s.queue, b.run ≠ .continuous true
  phases : ∀ b ∈ s.queue, ∀ calls, b.phase = .started calls → calls = b.run.calls ∨ calls = []
  allowed : s.runningBackupsAllowed = true → s.barrier = .none
  maxJobs : ∀ main, 0 ≤ s.maxJobs main

variable {clientmainname : Nat → Nat} {s s' : BackupSlots}

theorem initial_inv : Inv clientmainname initial where
  running := rfl
  runningFile := rfl
  runningJobs _ := rfl
  starts _ h := absurd h List.not_mem_nil
  started _ := Int.le_refl 0
  asserted := rfl
  runs _ h := absurd h List.not_mem_nil
  phases _ h := absurd h List.not_mem_nil
  allowed _ := rfl
  maxJobs _ := Int.le_refl 0

section Moves

variable {i : Nat} {b : QueuedBackup}

def jobOf (clientmainname : Nat → Nat) (main : Nat) (b : QueuedBackup) : Bool :=
  b.isJob && clientmainname b.client = main

def startedOf (clientmainname : Nat → Nat) (main : Nat) (b : QueuedBackup) : Bool :=
  b.isStarted && clientmainname b.client = main

section

variable (hb : s.queue[i]? = some b) (phase : BackupPhase)

include hb

theorem held_setPhase : (s.setPhase i b phase).held + weight QueuedBackup.holds b =
      s.held + weight QueuedBackup.holds { b with phase := phase } := countP_set hb _

theorem heldFile_setPhase : (s.setPhase i b phase).heldFile + weight QueuedBackup.holdsFile b =
      s.heldFile + weight QueuedBackup.holdsFile { b with phase := phase } := countP_set hb _

theorem jobs_setPhase (main : Nat) :
    (s.setPhase i b phase).jobs clientmainname main + weight (jobOf clientmainname main) b =
      s.jobs clientmainname main + weight (jobOf clientmainname main) { b with phase := phase } :=
  countP_set hb _

theorem started_setPhase (main : Nat) : (s.setPhase i b phase).started clientmainname main +
        weight (startedOf clientmainname main) b =
      s.started clientmainname main +
        weight (startedOf clientmainname main) { b with phase := phase } := countP_set hb _

end

theorem started_le_jobs (s : BackupSlots) (main : Nat) :
    s.started clientmainname main ≤ s.jobs clientmainname main := by
  apply List.countP_mono_left
  intro b _ h
  rw [Bool.and_eq_true] at h ⊢
  refine ⟨?_, h.2⟩
  unfold QueuedBackup.isStarted at h
  unfold QueuedBackup.isJob
  cases hphase : b.phase with
  | queued => rw [hphase] at h; exact absurd h.1 Bool.false_ne_true
  | counted => rfl
  | checked => rfl
  | refused => rfl
  | started calls => rfl
  | ended => rfl

theorem forall_set {P : QueuedBackup → Prop} (h : ∀ b ∈ s.queue, P b) (hb : s.queue[i]? = some b)
    {b' : QueuedBackup} (hnew : P b → P b') : ∀ b ∈ s.queue.set i b', P b := by
  intro b₁ hb₁
  cases List.mem_or_eq_of_mem_set hb₁ with
  | inl hold => exact h b₁ hold
  | inr heq =>
    rw [heq]
    exact hnew (h b (List.mem_of_getElem? hb))

theorem weight_jobOf (main : Nat) (b : QueuedBackup) :
    weight (jobOf clientmainname main) b =
      if clientmainname b.client = main then weight QueuedBackup.isJob b else 0 :=
  weight_and QueuedBackup.isJob (fun b : QueuedBackup => clientmainname b.client = main) b

theorem weight_startedOf (main : Nat) (b : QueuedBackup) :
    weight (startedOf clientmainname main) b =
      if clientmainname b.client = main then weight QueuedBackup.isStarted b else 0 :=
  weight_and QueuedBackup.isStarted (fun b : QueuedBackup => clientmainname b.client = main) b

theorem weight_holdsFile (b : QueuedBackup) :
    weight QueuedBackup.holdsFile b =
      if b.run.isFile then weight QueuedBackup.holds b else 0 := by
  unfold weight QueuedBackup.holdsFile
  cases b.run.isFile with
  | true => rw [Bool.and_true, if_pos rfl]
  | false => rw [Bool.and_false, if_neg Bool.false_ne_true, if_neg Bool.false_ne_true]

theorem held_same (hb : s.queue[i]? = some b) {phase : BackupPhase}
    (hholds : ({ b with phase := phase } : QueuedBackup).holds = b.holds) :
    (s.setPhase i b phase).held = s.held ∧ (s.setPhase i b phase).heldFile = s.heldFile := by
  have hheld := held_setPhase hb phase
  have hfile := heldFile_setPhase hb phase
  rw [weight_holdsFile, weight_holdsFile] at hfile
  unfold weight at hheld hfile
  rw [hholds] at hheld hfile
  exact ⟨Nat.add_right_cancel hheld, Nat.add_right_cancel hfile⟩

theorem started_less (hb : s.queue[i]? = some b) {phase : BackupPhase}
    (hstarted : ({ b with phase := phase } : QueuedBackup).isStarted = true → b.isStarted = true)
    (main : Nat) :
    (s.setPhase i b phase).started clientmainname main ≤ s.started clientmainname main := by
  have hset := @started_setPhase clientmainname _ _ _ hb phase main
  have hweight : weight (startedOf clientmainname main) { b with phase := phase } ≤
      weight (startedOf clientmainname main) b := by
    rw [weight_startedOf, weight_startedOf]
    split
    next => exact weight_le hstarted
    next => exact Nat.le_refl _
  omega

theorem Inv.setPhase (h : Inv clientmainname s) (hb : s.queue[i]? = some b) {phase : BackupPhase}
    (hholds : ({ b with phase := phase } : QueuedBackup).holds = b.holds)
    (hstarted : ({ b with phase := phase } : QueuedBackup).isStarted = true → b.isStarted = true)
    (hcalls : ∀ calls, phase = .started calls → calls = b.run.calls ∨ calls = []) {n : Int}
    (hjob : (weight QueuedBackup.isJob { b with phase := phase } : Int) =
      weight QueuedBackup.isJob b + n) :
    Inv clientmainname ((s.setPhase i b phase).addJobs (clientmainname b.client) n) := by
  obtain ⟨hheld, hfile⟩ := held_same hb hholds
  have hjobs (main : Nat) : ((s.setPhase i b phase).addJobs (clientmainname b.client) n).runningJobs
      main = (s.setPhase i b phase).jobs clientmainname main := by
    have hset := @jobs_setPhase clientmainname _ _ _ hb phase main
    have hold := h.runningJobs main
    rw [weight_jobOf, weight_jobOf] at hset
    change (if main = clientmainname b.client then s.runningJobs main + n else s.runningJobs main) =
      _
    by_cases hmain : clientmainname b.client = main
    · rw [if_pos hmain.symm]
      rw [if_pos hmain, if_pos hmain] at hset
      omega
    · rw [if_neg (Ne.symm hmain)]
      rw [if_neg hmain, if_neg hmain] at hset
      omega
  exact
    { h with
      running := h.running.trans hheld.symm
      runningFile := h.runningFile.trans hfile.symm
      runningJobs := hjobs
      started := by
        intro main
        have hless := @started_less clientmainname _ _ _ hb phase hstarted main
        have hold := h.started main
        change ((s.setPhase i b phase).started clientmainname main : Int) ≤ s.maxJobs main
        omega
      runs := forall_set h.runs hb id
      phases := forall_set h.phases hb fun _ => hcalls }

theorem addJobs_zero (s : BackupSlots) (main : Nat) : s.addJobs main 0 = s := by
  unfold addJobs
  congr 1
  funext m
  rw [Int.add_zero, ite_self]

theorem Inv.addRunningJob (h : Inv clientmainname s)
    (hstep : s.addRunningJob clientmainname i = some s') : Inv clientmainname s' := by
  unfold BackupSlots.addRunningJob at hstep
  split at hstep
  next => cases hstep
  next b hb =>
    split at hstep
    next hphase =>
      obtain ⟨client, run, phase⟩ := b
      cases hphase.1
      cases hstep
      exact { @Inv.setPhase clientmainname s i _ h hb .counted rfl nofun nofun 1 rfl with }
    next => cases hstep

theorem Inv.subRunningJob (h : Inv clientmainname s)
    (hstep : s.subRunningJob clientmainname i = some s') : Inv clientmainname s' := by
  unfold BackupSlots.subRunningJob at hstep
  split at hstep
  next => cases hstep
  next b hb =>
    split at hstep
    next hphase =>
      obtain ⟨client, run, phase⟩ := b
      cases hphase
      cases hstep
      exact @Inv.setPhase clientmainname s i _ h hb .queued rfl nofun nofun (-1) rfl
    next => cases hstep

theorem Inv.endBackup (h : Inv clientmainname s) (hstep : s.endBackup i = some s') :
    Inv clientmainname s' := by
  unfold BackupSlots.endBackup at hstep
  split at hstep
  next => cases hstep
  next b hb =>
    split at hstep
    next hphase =>
      obtain ⟨client, run, phase⟩ := b
      cases hphase
      cases hstep
      have hcalls := BackupRun.calls_eq (h.runs _ (List.mem_of_getElem? hb))
      have hend := @Inv.setPhase clientmainname s i _ h hb .ended ?_ (fun _ => rfl) nofun 0 rfl
      · rw [addJobs_zero] at hend
        exact hend
      · change false = decide ([] = run.calls)
        rw [hcalls]
        rfl
    next => cases hstep

theorem Inv.readMaxJobs (h : Inv clientmainname s) (main : Nat) (maxRunningJobsPerClient : Int) :
    Inv clientmainname (s.readMaxJobs main maxRunningJobsPerClient) := by
  have hmore (m : Nat) : s.maxJobs m ≤ (s.readMaxJobs main maxRunningJobsPerClient).maxJobs m := by
    change s.maxJobs m ≤ if m = main then max (s.maxJobs m) maxRunningJobsPerClient else s.maxJobs m
    split
    · exact Int.le_max_left _ _
    · exact Int.le_refl _
  exact
    { h with
      started := fun m => Int.le_trans (h.started m) (hmore m)
      maxJobs := fun m => Int.le_trans (h.maxJobs m) (hmore m) }

theorem Inv.pass (h : Inv clientmainname s) {client : Nat} {run : BackupRun}
    (hb : s.queue[i]? = some ⟨client, run, .counted⟩)
    (hle : s.runningJobs (clientmainname client) ≤ s.maxJobs (clientmainname client)) :
    Inv clientmainname (s.setPhase i ⟨client, run, .counted⟩ .checked) := by
  obtain ⟨hheld, hfile⟩ := @held_same s i _ hb .checked rfl
  have hjobs (main : Nat) : (s.setPhase i ⟨client, run, .counted⟩ .checked).jobs clientmainname main =
      s.jobs clientmainname main := by
    have hset := @jobs_setPhase clientmainname _ _ _ hb .checked main
    rw [weight_jobOf, weight_jobOf] at hset
    exact Nat.add_right_cancel hset
  have hstarted (main : Nat) :
      ((s.setPhase i ⟨client, run, .counted⟩ .checked).started clientmainname main : Int) ≤
        s.maxJobs main := by
    by_cases hmain : clientmainname client = main
    · subst hmain
      have hless := @started_le_jobs clientmainname (s.setPhase i ⟨client, run, .counted⟩ .checked)
        (clientmainname client)
      rw [hjobs] at hless
      have hcount := h.runningJobs (clientmainname client)
      omega
    · have hset := @started_setPhase clientmainname _ _ _ hb .checked main
      rw [weight_startedOf, weight_startedOf, if_neg hmain, if_neg hmain] at hset
      have hold := h.started main
      omega
  exact
    { h with
      running := h.running.trans hheld.symm
      runningFile := h.runningFile.trans hfile.symm
      runningJobs := fun main => by rw [hjobs main]; exact h.runningJobs main
      started := hstarted
      runs := forall_set h.runs hb id
      phases := forall_set h.phases hb fun _ => nofun }

theorem Inv.checkJobs (h : Inv clientmainname s) {maxRunningJobsPerClient : Int}
    (hstep : s.checkJobs clientmainname i maxRunningJobsPerClient = some s') :
    Inv clientmainname s' := by
  unfold BackupSlots.checkJobs at hstep
  split at hstep
  next => cases hstep
  next b hb =>
    split at hstep
    next hphase =>
      obtain ⟨client, run, phase⟩ := b
      cases hphase
      cases hstep
      have hread := h.readMaxJobs (clientmainname client) maxRunningJobsPerClient
      by_cases hle : s.runningJobs (clientmainname client) ≤ maxRunningJobsPerClient
      · dsimp only
        rw [if_pos hle]
        apply hread.pass hb
        change _ ≤ if clientmainname client = clientmainname client then _ else _
        rw [if_pos rfl]
        exact Int.le_trans hle (Int.le_max_right _ _)
      · dsimp only
        rw [if_neg hle]
        have hrefused := @Inv.setPhase clientmainname _ i _ hread hb .refused rfl nofun nofun 0
          rfl
        rw [addJobs_zero] at hrefused
        exact hrefused
    next => cases hstep

def occupy (s : BackupSlots) (file : Bool) : BackupSlots :=
  { s with
    runningBackups := s.runningBackups + 1
    runningFileBackups := if file then s.runningFileBackups + 1 else s.runningFileBackups }

theorem isBackupsRunningOkay_pos {file : Bool} {maxSimBackups : Int}
    (hslot : s.runningBackups < maxSimBackups) (hallowed : s.runningBackupsAllowed = true) :
    s.isBackupsRunningOkay file maxSimBackups = (true, s.occupy file) := by
  unfold isBackupsRunningOkay
  rw [if_pos hslot]
  exact Prod.ext hallowed (if_pos hallowed)

theorem isBackupsRunningOkay_neg {file : Bool} {maxSimBackups : Int}
    (h : s.runningBackups < maxSimBackups → s.runningBackupsAllowed = false) :
    s.isBackupsRunningOkay file maxSimBackups = (false, s) := by
  unfold isBackupsRunningOkay
  split
  next hslot => exact Prod.ext (h hslot) (if_neg (Bool.eq_false_iff.mp (h hslot)))
  next => rfl

/-- There was a slot, and no barrier, and the backup is started. -/
theorem Inv.start (h : Inv clientmainname s) {client : Nat} {run : BackupRun}
    (hb : s.queue[i]? = some ⟨client, run, .checked⟩) {maxSimBackups : Int}
    (hslot : s.runningBackups < maxSimBackups) (hallowed : s.runningBackupsAllowed = true) :
    Inv clientmainname
      { (s.occupy run.isFile).setPhase i ⟨client, run, .checked⟩ (.started run.calls) with
        starts := s.starts ++ [⟨s.held, maxSimBackups, s.barrier⟩] } := by
  have hholds : (⟨client, run, .started run.calls⟩ : QueuedBackup).holds = true :=
    decide_eq_true rfl
  have hjobs (main : Nat) : (s.setPhase i ⟨client, run, .checked⟩ (.started run.calls)).jobs
      clientmainname main = s.jobs clientmainname main := by
    have hset := @jobs_setPhase clientmainname _ _ _ hb (.started run.calls) main
    rw [weight_jobOf, weight_jobOf] at hset
    exact Nat.add_right_cancel hset
  exact
    { h with
      running := by
        have hset := held_setPhase hb (.started run.calls)
        rw [weight_pos hholds, weight_neg rfl] at hset
        have hold := h.running
        change s.runningBackups + 1 =
          (s.setPhase i ⟨client, run, .checked⟩ (.started run.calls)).held
        omega
      runningFile := by
        have hset := heldFile_setPhase hb (.started run.calls)
        rw [weight_holdsFile, weight_holdsFile, weight_pos hholds, weight_neg rfl, ite_self] at hset
        have hold := h.runningFile
        change (if run.isFile then s.runningFileBackups + 1 else s.runningFileBackups) =
          (s.setPhase i ⟨client, run, .checked⟩ (.started run.calls)).heldFile
        split at hset
        next htrue =>
          rw [if_pos htrue]
          omega
        next hfalse =>
          rw [if_neg hfalse]
          omega
      runningJobs := fun main => (h.runningJobs main).trans (congrArg _ (hjobs main).symm)
      starts := by
        intro start hstart
        cases List.mem_append.mp hstart with
        | inl hold => exact h.starts start hold
        | inr hnew =>
          cases List.mem_singleton.mp hnew
          refine ⟨?_, h.allowed hallowed⟩
          rw [← h.running]
          exact hslot
      started := by
        intro main
        have hless := @started_less clientmainname _ _ _ hb (.started run.calls) (fun _ => rfl) main
        have hold := h.started main
        change ((s.setPhase i ⟨client, run, .checked⟩ (.started run.calls)).started clientmainname
          main : Int) ≤ s.maxJobs main
        omega
      runs := forall_set h.runs hb id
      phases := by
        apply forall_set h.phases hb
        intro _ calls hcalls
        cases hcalls
        exact .inl rfl }

theorem Inv.takeSlot (h : Inv clientmainname s) {maxSimBackups : Int}
    (hstep : s.takeSlot i maxSimBackups = some s') : Inv clientmainname s' := by
  unfold BackupSlots.takeSlot at hstep
  split at hstep
  next => cases hstep
  next b hb =>
    split at hstep
    next hphase =>
      obtain ⟨client, run, phase⟩ := b
      cases hphase
      have hrefused := @Inv.setPhase clientmainname s i _ h hb .refused rfl nofun nofun 0 rfl
      rw [addJobs_zero] at hrefused
      by_cases hslot : s.runningBackups < maxSimBackups ∧ s.runningBackupsAllowed = true
      · dsimp only at hstep
        rw [isBackupsRunningOkay_pos hslot.1 hslot.2] at hstep
        cases hstep
        exact h.start hb hslot.1 hslot.2
      · dsimp only at hstep
        rw [isBackupsRunningOkay_neg fun hlt => Bool.eq_false_iff.mpr fun hallowed =>
          hslot ⟨hlt, hallowed⟩] at hstep
        cases hstep
        exact hrefused
    next => cases hstep

def vacate (s : BackupSlots) (file : Bool) : BackupSlots :=
  { s with
    runningBackups := s.runningBackups - 1
    runningFileBackups := if file then s.runningFileBackups - 1 else s.runningFileBackups }

theorem stopBackupRunning_pos {file : Bool} (h : 0 < s.runningBackups)
    (hfile : file = true → 0 < s.runningFileBackups) :
    s.stopBackupRunning file = s.vacate file := by
  unfold stopBackupRunning vacate
  rw [if_neg (Nat.pos_iff_ne_zero.mp h)]
  cases file with
  | true => exact if_neg (Nat.pos_iff_ne_zero.mp (hfile rfl))
  | false => rfl

theorem Inv.stop (h : Inv clientmainname s) {client : Nat} {run : BackupRun}
    (hcalls : run.calls = [run.isFile])
    (hb : s.queue[i]? = some ⟨client, run, .started [run.isFile]⟩) :
    Inv clientmainname ((s.stopBackupRunning run.isFile).setPhase i
      ⟨client, run, .started [run.isFile]⟩ (.started [])) := by
  have hholds : (⟨client, run, .started [run.isFile]⟩ : QueuedBackup).holds = true :=
    decide_eq_true hcalls.symm
  have hgone : (⟨client, run, .started []⟩ : QueuedBackup).holds = false := by
    change decide ([] = run.calls) = false
    rw [hcalls]
    rfl
  have hpos : 0 < s.runningBackups := by
    have hone := @weight_le_countP _ QueuedBackup.holds _ _ _ hb
    rw [weight_pos hholds] at hone
    rw [h.running]
    exact hone
  have hfilePos (htrue : run.isFile = true) : 0 < s.runningFileBackups := by
    have hone := @weight_le_countP _ QueuedBackup.holdsFile _ _ _ hb
    rw [weight_holdsFile, weight_pos hholds, if_pos htrue] at hone
    rw [h.runningFile]
    exact hone
  rw [stopBackupRunning_pos hpos hfilePos]
  have hjobs (main : Nat) : (s.setPhase i ⟨client, run, .started [run.isFile]⟩ (.started [])).jobs
      clientmainname main = s.jobs clientmainname main := by
    have hset := @jobs_setPhase clientmainname _ _ _ hb (.started []) main
    rw [weight_jobOf, weight_jobOf] at hset
    exact Nat.add_right_cancel hset
  exact
    { h with
      running := by
        have hset := held_setPhase hb (.started [])
        rw [weight_pos hholds, weight_neg hgone] at hset
        have hold := h.running
        change s.runningBackups - 1 =
          (s.setPhase i ⟨client, run, .started [run.isFile]⟩ (.started [])).held
        omega
      runningFile := by
        have hset := heldFile_setPhase hb (.started [])
        rw [weight_holdsFile, weight_holdsFile, weight_pos hholds, weight_neg hgone, ite_self]
          at hset
        have hold := h.runningFile
        change (if run.isFile then s.runningFileBackups - 1 else s.runningFileBackups) =
          (s.setPhase i ⟨client, run, .started [run.isFile]⟩ (.started [])).heldFile
        split at hset
        next htrue =>
          rw [if_pos htrue]
          omega
        next hfalse =>
          rw [if_neg hfalse]
          omega
      runningJobs := fun main => (h.runningJobs main).trans (congrArg _ (hjobs main).symm)
      started := by
        intro main
        have hless := @started_less clientmainname _ _ _ hb (.started []) (fun _ => rfl) main
        have hold := h.started main
        change ((s.setPhase i ⟨client, run, .started [run.isFile]⟩ (.started [])).started
          clientmainname main : Int) ≤ s.maxJobs main
        omega
      runs := forall_set h.runs hb id
      phases := by
        apply forall_set h.phases hb
        intro _ calls hnil
        cases hnil
        exact .inr rfl }

theorem Inv.stopBackup (h : Inv clientmainname s) (hstep : s.stopBackup i = some s') :
    Inv clientmainname s' := by
  unfold BackupSlots.stopBackup at hstep
  split at hstep
  next => cases hstep
  next b hb =>
    split at hstep
    next file calls hphase =>
      obtain ⟨client, run, phase⟩ := b
      cases hphase
      have hmem := List.mem_of_getElem? hb
      have hcalls : run.calls = [run.isFile] := BackupRun.calls_eq (h.runs _ hmem)
      have hown : file :: calls = run.calls :=
        (h.phases _ hmem _ rfl).resolve_right (List.cons_ne_nil _ _)
      rw [hcalls] at hown
      obtain ⟨hfile, hnil⟩ := List.cons.inj hown
      subst hfile hnil
      cases hstep
      exact h.stop hcalls hb
    all_goals cases hstep

theorem Inv.erase (h : Inv clientmainname s) (hb : s.queue[i]? = some b) (hholds : b.holds = false)
    {n : Int} (hjob : (weight QueuedBackup.isJob b : Int) + n = 0) :
    Inv clientmainname
      ({ s with queue := s.queue.eraseIdx i }.addJobs (clientmainname b.client) n) := by
  have hless {b' : QueuedBackup} (hb' : b' ∈ s.queue.eraseIdx i) : b' ∈ s.queue :=
    List.mem_of_mem_eraseIdx hb'
  exact
    { h with
      running := by
        have herase := @countP_eraseIdx _ QueuedBackup.holds _ _ _ hb
        rw [weight_neg hholds] at herase
        exact h.running.trans herase.symm
      runningFile := by
        have herase := @countP_eraseIdx _ QueuedBackup.holdsFile _ _ _ hb
        rw [weight_holdsFile, weight_neg hholds, ite_self] at herase
        exact h.runningFile.trans herase.symm
      runningJobs := by
        intro main
        have herase := @countP_eraseIdx _ (jobOf clientmainname main) _ _ _ hb
        rw [weight_jobOf] at herase
        have hold : s.runningJobs main = (s.queue.countP (jobOf clientmainname main) : Nat) :=
          h.runningJobs main
        change (if main = clientmainname b.client then s.runningJobs main + n
          else s.runningJobs main) = ((s.queue.eraseIdx i).countP (jobOf clientmainname main) : Nat)
        by_cases hmain : clientmainname b.client = main
        · rw [if_pos hmain.symm]
          rw [if_pos hmain] at herase
          omega
        · rw [if_neg (Ne.symm hmain)]
          rw [if_neg hmain] at herase
          omega
      started := by
        intro main
        have herase := @countP_eraseIdx _ (startedOf clientmainname main) _ _ _ hb
        have hold : ((s.queue.countP (startedOf clientmainname main) : Nat) : Int) ≤
            s.maxJobs main := h.started main
        change (((s.queue.eraseIdx i).countP (startedOf clientmainname main) : Nat) : Int) ≤
          s.maxJobs main
        omega
      runs := fun b' hb' => h.runs b' (hless hb')
      phases := fun b' hb' => h.phases b' (hless hb') }

theorem Inv.removeBackup (h : Inv clientmainname s)
    (hstep : s.removeBackup clientmainname i = some s') : Inv clientmainname s' := by
  unfold BackupSlots.removeBackup at hstep
  split at hstep
  next => cases hstep
  next b hb =>
    split at hstep
    next hphase =>
      obtain ⟨client, run, phase⟩ := b
      cases hphase
      cases hstep
      exact h.erase hb rfl rfl
    next => cases hstep

theorem Inv.discardBackup (h : Inv clientmainname s) (hstep : s.discardBackup i = some s') :
    Inv clientmainname s' := by
  unfold BackupSlots.discardBackup at hstep
  split at hstep
  next => cases hstep
  next b hb =>
    split at hstep
    next hphase =>
      obtain ⟨client, run, phase⟩ := b
      cases hphase.1
      cases hstep
      have herase := @Inv.erase clientmainname s i _ h hb rfl 0 rfl
      rw [addJobs_zero] at herase
      exact herase
    next => cases hstep

end Moves

theorem Inv.queueBackup (h : Inv clientmainname s) (client : Nat) {run : BackupRun}
    (hrun : run ≠ .continuous true) :
    Inv clientmainname { s with queue := s.queue ++ [⟨client, run, .queued⟩] } := by
  have hsame (p : QueuedBackup → Bool) (hp : p ⟨client, run, .queued⟩ = false) :
      (s.queue ++ [(⟨client, run, .queued⟩ : QueuedBackup)]).countP p = s.queue.countP p := by
    rw [countP_concat, weight_neg hp, Nat.add_zero]
  have hmem {P : QueuedBackup → Prop} (hold : ∀ b ∈ s.queue, P b) (hnew : P ⟨client, run, .queued⟩)
      (b : QueuedBackup) (hb : b ∈ s.queue ++ [(⟨client, run, .queued⟩ : QueuedBackup)]) : P b := by
    cases List.mem_append.mp hb with
    | inl hb => exact hold b hb
    | inr hb => rw [List.mem_singleton.mp hb]; exact hnew
  exact
    { h with
      running := h.running.trans (hsame QueuedBackup.holds rfl).symm
      runningFile := h.runningFile.trans (hsame QueuedBackup.holdsFile rfl).symm
      runningJobs := fun main => (h.runningJobs main).trans
        (congrArg Int.ofNat (hsame (jobOf clientmainname main) rfl).symm)
      started := fun main => Int.le_trans
        (Int.ofNat_le.mpr (Nat.le_of_eq (hsame (startedOf clientmainname main) rfl)))
        (h.started main)
      runs := hmem h.runs hrun
      phases := hmem h.phases nofun }

theorem Inv.resetStatus (h : Inv clientmainname s) {main : Nat}
    (hidle : ∀ b ∈ s.queue, clientmainname b.client = main → b.phase = .queued) :
    Inv clientmainname (s.resetStatus main) := by
  have hzero : s.jobs clientmainname main = 0 := by
    apply List.countP_eq_zero.mpr
    intro b hb hjob
    rw [Bool.and_eq_true, decide_eq_true_iff] at hjob
    have hqueued := hidle b hb hjob.2
    unfold QueuedBackup.isJob at hjob
    exact of_decide_eq_true hjob.1 hqueued
  refine { h with runningJobs := ?_ }
  intro m
  change (if m = main then 0 else s.runningJobs m) = _
  by_cases hm : m = main
  · rw [if_pos hm, hm]
    exact (congrArg Int.ofNat hzero).symm
  · rw [if_neg hm]
    exact h.runningJobs m

theorem Inv.barrierReturns (h : Inv clientmainname s) {timedOut : Bool}
    (hstep : s.barrierReturns timedOut = some s') : Inv clientmainname s' := by
  unfold BackupSlots.barrierReturns at hstep
  split at hstep
  next hwaiting =>
    have hclosed (hallowed : s.runningBackupsAllowed = true) : False := by
      have hnone := h.allowed hallowed
      rw [hwaiting] at hnone
      cases hnone
    split at hstep
    next =>
      cases hstep
      exact { h with allowed := fun hallowed => (hclosed hallowed).elim }
    next =>
      split at hstep
      next =>
        cases hstep
        exact { h with allowed := fun _ => rfl }
      next => cases hstep
  next => cases hstep

theorem Inv.step {e : Event} (h : Inv clientmainname s) (hok : StatusOk clientmainname s e)
    (hstep : step clientmainname s e = some s') : Inv clientmainname s' := by
  cases e with
  | queueBackup client run =>
    cases hstep
    exact h.queueBackup client hok
  | select client maxRunningJobsPerClient =>
    change s.select clientmainname client maxRunningJobsPerClient = some s' at hstep
    unfold BackupSlots.select at hstep
    split at hstep
    next =>
      cases hstep
      exact { h with }
    next => cases hstep
  | leaveLoop client =>
    cases hstep
    exact { h with }
  | addRunningJob i => exact h.addRunningJob hstep
  | checkJobs i maxRunningJobsPerClient => exact h.checkJobs hstep
  | takeSlot i maxSimBackups => exact h.takeSlot hstep
  | subRunningJob i => exact h.subRunningJob hstep
  | stopBackup i => exact h.stopBackup hstep
  | endBackup i => exact h.endBackup hstep
  | removeBackup i => exact h.removeBackup hstep
  | exit client =>
    cases hstep
    exact { h with }
  | discardBackup i => exact h.discardBackup hstep
  | startBackupBarrier =>
    dsimp only [BackupSlots.step] at hstep
    split at hstep
    next => cases hstep
    next =>
      cases hstep
      exact { h with allowed := nofun }
  | barrierReturns timedOut => exact h.barrierReturns hstep
  | stopBackupBarrier =>
    dsimp only [BackupSlots.step] at hstep
    split at hstep
    next => cases hstep
    next =>
      cases hstep
      exact { h with allowed := fun _ => rfl }
  | setOnline client =>
    cases hstep
    exact { h.resetStatus hok with }
  | removeStatus client =>
    cases hstep
    exact h.resetStatus hok

/-- In every interleaving the slots are neither exceeded nor leaked. -/
theorem slotsKept_of_run (clientmainname : Nat → Nat) {es : List Event} {s : BackupSlots}
    (hok : TransitionSystem.Guarded (step clientmainname) (StatusOk clientmainname) initial es)
    (h : TransitionSystem.run (step clientmainname) initial es = some s) :
    SlotsKept clientmainname s :=
  (TransitionSystem.guarded_run_invariant (fun _ _ _ hs hok hstep => Inv.step hs hok hstep)
    initial_inv hok h).toSlotsKept

def startedRun : List Event :=
  [.queueBackup 0 (.incr true), .select 0 1, .addRunningJob 0, .checkJobs 0 1, .takeSlot 0 10]

theorem slotsKept_of_run_started :
    ∃ s, TransitionSystem.run (step id) initial startedRun = some s ∧ s.held = 1 ∧
      SlotsKept id s := by
  have hok : TransitionSystem.Guarded (step id) (StatusOk id) initial startedRun := by
    decide +kernel
  have hheld : (TransitionSystem.run (step id) initial startedRun).map held = some 1 := by
    decide +kernel
  obtain ⟨s, hrun, hone⟩ := Option.map_eq_some_iff.mp hheld
  exact ⟨s, hrun, hone, slotsKept_of_run id hok hrun⟩

/-- A continuous backup runs a full one, while an image backup of another client runs. -/
def continuousRun : List Event :=
  [.queueBackup 0 (.image 0), .select 0 1, .addRunningJob 0, .checkJobs 0 1, .takeSlot 0 10,
    .queueBackup 1 (.continuous true), .select 1 1, .addRunningJob 1, .checkJobs 1 1,
    .takeSlot 1 10, .stopBackup 1, .stopBackup 1]

/-- The slot of the image backup is given back by the continuous one. -/
theorem continuous_gives_back_twice :
    ∃ s, TransitionSystem.run (step id) initial continuousRun = some s ∧ s.runningBackups = 0 ∧
      s.held = 1 ∧ s.assertionFailed = true ∧ ¬ SlotsKept id s := by
  have hlast : (TransitionSystem.run (step id) initial continuousRun).map
      (fun s => (s.runningBackups, s.held, s.assertionFailed)) = some (0, 1, true) := by
    decide +kernel
  obtain ⟨s, hrun, hs⟩ := Option.map_eq_some_iff.mp hlast
  obtain ⟨hrunning, hrest⟩ := Prod.mk.inj hs
  obtain ⟨hheld, hasserted⟩ := Prod.mk.inj hrest
  refine ⟨s, hrun, hrunning, hheld, hasserted, ?_⟩
  intro hkept
  exact absurd (hkept.asserted.symm.trans hasserted) Bool.false_ne_true

end BackupSlots

end UrBackup
