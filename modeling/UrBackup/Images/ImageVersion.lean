import UrBackup.Lib.Run

/-! The version number under which the images of a client are stored and looked up. The settings
may change at any time, so what a read of them returns comes with the events. -/
namespace UrBackup

/-- The setting for the format of image files. -/
inductive ImageFileFormat where
  | default
  | vhd
  | vhdz
  | cowraw
  | other (name : String)
  deriving DecidableEq

/-- `getImageFileFormatInt` -/
def ImageFileFormat.resolve (imageSnapshotsEnabled : Bool) : ImageFileFormat → ImageFileFormat
  | .default => if imageSnapshotsEnabled then .cowraw else .default
  | format => format

def ImageFileFormat.isCowraw (format : ImageFileFormat) : Bool := format = .cowraw

/-- A row of `backup_images`, with the format that the image was created in. -/
structure ImageRow where
  id : Nat
  letter : List UInt8
  path : List UInt8
  incremental : Nat
  incrementalRef : Nat
  complete : Nat
  version : UInt32
  backuptime : Int
  format : ImageFileFormat
  deriving DecidableEq

/-- Where `doBackup` is: before it looks for a parent, with what it found, in `doImage` before the
row is added, and behind that. -/
inductive ImageStage where
  | start
  | last (image : Option ImageRow)
  | image (parent : Option ImageRow) (incremental incrementalRef : Nat) (format : ImageFileFormat)
  | running (id : Nat)
  deriving DecidableEq

/-- A running image backup. -/
structure ImageJob where
  letter : List UInt8
  rIncremental : Bool
  syntheticFull : Bool
  cowrawFormat : Bool
  stage : ImageStage
  deriving DecidableEq

def ImageJob.foundLast (job : ImageJob) : Option ImageRow :=
  match job.stage with
  | .last image => image
  | .start | .image _ _ _ _ | .running _ => none

def ImageJob.newFormat (job : ImageJob) : Option ImageFileFormat :=
  match job.stage with
  | .image _ _ _ format => some format
  | .start | .last _ | .running _ => none

/-- The client thread with its image backups and their rows. Beside that are kept: whether each
evaluation of the setting since the thread was started saw the raw copy-on-write format, the
versions that were used with the kind of format of the backup, and the parents that were passed to
`doImage` with the format of the new image. -/
structure ImageBackups where
  imageSnapshotsEnabled : Bool
  currImageVersion : UInt32
  rows : List ImageRow
  nextId : Nat
  jobs : List ImageJob
  evaluated : List Bool
  used : List (UInt32 × Bool)
  based : List (ImageRow × ImageFileFormat)

namespace ImageBackups

def imageCowrawBit : UInt32 := 1024

/-- `ESP` -/
def esp : List UInt8 := [69, 83, 80]

/-- `SYSVOL` -/
def sysvol : List UInt8 := [83, 89, 83, 86, 79, 76]

def initial : ImageBackups where
  imageSnapshotsEnabled := false
  currImageVersion := 1
  rows := []
  nextId := 1
  jobs := []
  evaluated := []
  used := []
  based := []

section Functions

variable (s : ImageBackups)

/-- The setting, as `getImageFileFormat` returns it. -/
def isCowraw (format : ImageFileFormat) : Bool :=
  (format.resolve s.imageSnapshotsEnabled).isCowraw

/-- The update of the version, at the start of the thread and when the settings have changed. -/
def updateImageVersion (format : ImageFileFormat) : ImageBackups :=
  let cowraw := s.isCowraw format
  { s with
    currImageVersion :=
      if cowraw then s.currImageVersion &&& imageCowrawBit
      else s.currImageVersion &&& ~~~imageCowrawBit
    evaluated := s.evaluated ++ [cowraw] }

def startClient (imageSnapshotsEnabled : Bool) (format : ImageFileFormat) : ImageBackups :=
  updateImageVersion
    { s with
      imageSnapshotsEnabled := imageSnapshotsEnabled
      currImageVersion := 1
      jobs := []
      evaluated := [] }
    format

/-- The beginning of `doBackup`, with the setting for full images. -/
def doBackup (letter : List UInt8) (rIncremental : Bool) (format : ImageFileFormat)
    (styleSynthetic : Bool) : ImageBackups :=
  let cowrawFormat := s.isCowraw format
  let job : ImageJob :=
    { letter := letter
      rIncremental := rIncremental
      syntheticFull := !rIncremental && (cowrawFormat || styleSynthetic)
        && !(letter = esp || letter = sysvol)
      cowrawFormat := cowrawFormat
      stage := .start }
  { s with jobs := s.jobs ++ [job] }

/-- The rows that the queries for the last image and for the last full image look at. -/
def Candidate (letter : List UInt8) (incr : Bool) (row : ImageRow) : Prop :=
  row.complete = 1 ∧ row.version = s.currImageVersion ∧ row.letter = letter ∧
    (incr = true ∨ row.incremental = 0)

instance (letter : List UInt8) (incr : Bool) (row : ImageRow) :
    Decidable (s.Candidate letter incr row) :=
  inferInstanceAs (Decidable (_ ∧ _ ∧ _ ∧ _))

/-- What `getLastImage` may return. Which of two images of the same time it returns is open. -/
def LastImage (letter : List UInt8) (incr : Bool) : Option ImageRow → Prop
  | none => ∀ row ∈ s.rows, ¬ s.Candidate letter incr row
  | some last => last ∈ s.rows ∧ s.Candidate letter incr last ∧
      ∀ row ∈ s.rows, s.Candidate letter incr row → row.backuptime ≤ last.backuptime

instance (letter : List UInt8) (incr : Bool) (last : Option ImageRow) :
    Decidable (s.LastImage letter incr last) :=
  match last with
  | none => inferInstanceAs (Decidable (∀ row ∈ s.rows, ¬ s.Candidate letter incr row))
  | some last => inferInstanceAs (Decidable (last ∈ s.rows ∧ s.Candidate letter incr last ∧
      ∀ row ∈ s.rows, s.Candidate letter incr row → row.backuptime ≤ last.backuptime))

def setJob (i : Nat) (job : ImageJob) : ImageBackups := { s with jobs := s.jobs.set i job }

/-- The parent of an incremental or synthetic image, with the setting for incremental images. -/
def getLastImage (i : Nat) (styleToLast : Bool) (last : Option ImageRow) : Option ImageBackups :=
  match s.jobs[i]? with
  | none => none
  | some job =>
    if job.stage = .start ∧ (job.rIncremental || job.syntheticFull) = true ∧
        s.LastImage job.letter (job.syntheticFull || job.cowrawFormat || styleToLast) last then
      some { s.setJob i { job with stage := .last last } with
        used := s.used ++ [(s.currImageVersion, job.cowrawFormat)] }
    else none

/-- `doImage` is called, with the setting as it is then. -/
def doImage (i : Nat) (format : ImageFileFormat) : Option ImageBackups :=
  let format := format.resolve s.imageSnapshotsEnabled
  match s.jobs[i]? with
  | none => none
  | some job =>
    match job.stage with
    | .start =>
      if job.rIncremental || job.syntheticFull then none
      else some (s.setJob i { job with stage := .image none 0 0 format })
    | .last none =>
      some (s.setJob i { job with syntheticFull := false, stage := .image none 0 0 format })
    | .last (some last) =>
      let incrementalRef := if job.cowrawFormat then 0 else last.id
      some { s.setJob i { job with
          stage := .image (some last) (last.incremental + 1) incrementalRef format } with
        based := s.based ++ [(last, format)] }
    | .image _ _ _ _ | .running _ => none

/-- `addBackupToDatabase` -/
def addBackupToDatabase (i : Nat) (path : List UInt8) (backuptime : Int) : Option ImageBackups :=
  match s.jobs[i]? with
  | none => none
  | some job =>
    match job.stage with
    | .image parent incremental incrementalRef format =>
      let row : ImageRow :=
        { id := s.nextId
          letter := job.letter
          path := path
          incremental := if parent.isNone || job.syntheticFull then 0 else incremental
          incrementalRef := if parent.isNone then 0 else incrementalRef
          complete := 0
          version := s.currImageVersion
          backuptime := backuptime
          format := format }
      some { s.setJob i { job with stage := .running s.nextId } with
        rows := s.rows ++ [row]
        nextId := s.nextId + 1
        used := s.used ++ [(s.currImageVersion, format.isCowraw)] }
    | .start | .last _ | .running _ => none

def setComplete (id complete : Nat) : ImageBackups :=
  { s with
    rows := s.rows.map fun row => if row.id = id then { row with complete := complete } else row }

def removeImage (id : Nat) : ImageBackups := { s with rows := s.rows.filter fun row => row.id ≠ id }

end Functions

inductive Event where
  | startClient (imageSnapshotsEnabled : Bool) (format : ImageFileFormat)
  | updateSettings (format : ImageFileFormat)
  | doBackup (letter : List UInt8) (rIncremental : Bool) (format : ImageFileFormat)
      (styleSynthetic : Bool)
  | getLastImage (i : Nat) (styleToLast : Bool) (last : Option ImageRow)
  | doImage (i : Nat) (format : ImageFileFormat)
  | addBackupToDatabase (i : Nat) (path : List UInt8) (backuptime : Int)
  | endBackup (i : Nat)
  | setComplete (id complete : Nat)
  | removeImage (id : Nat)

def step (s : ImageBackups) : Event → Option ImageBackups
  | .startClient imageSnapshotsEnabled format => some (s.startClient imageSnapshotsEnabled format)
  | .updateSettings format => some (s.updateImageVersion format)
  | .doBackup letter rIncremental format styleSynthetic =>
    some (s.doBackup letter rIncremental format styleSynthetic)
  | .getLastImage i styleToLast last => s.getLastImage i styleToLast last
  | .doImage i format => s.doImage i format
  | .addBackupToDatabase i path backuptime => s.addBackupToDatabase i path backuptime
  | .endBackup i => some { s with jobs := s.jobs.eraseIdx i }
  | .setComplete id complete => some (s.setComplete id complete)
  | .removeImage id => some (s.removeImage id)

/-- Images are based on images of the same kind of format, and the two kinds never use the same
version. -/
structure FamiliesApart (s : ImageBackups) : Prop where
  parents : ∀ p ∈ s.based, p.1.format.isCowraw = p.2.isCowraw
  versions : ∀ u ∈ s.used, ∀ u' ∈ s.used, u.1 = u'.1 → u.2 = u'.2

/-- The setting was the raw copy-on-write format at some evaluation since the thread was started. -/
def sawCowraw (s : ImageBackups) : Bool := s.evaluated.any id

/-- A backup that looks for a parent or adds its row does so in a format of the kind that was seen
since the thread was started, and it is still in the format that it began with when it has found a
parent. -/
def SeenFormat (s : ImageBackups) : Event → Prop
  | .getLastImage i _ _ => ∀ job ∈ s.jobs[i]?, job.cowrawFormat = s.sawCowraw
  | .doImage i format => ∀ job ∈ s.jobs[i]?, ∀ _ ∈ job.foundLast,
      s.isCowraw format = job.cowrawFormat
  | .addBackupToDatabase i _ _ => ∀ job ∈ s.jobs[i]?, ∀ format ∈ job.newFormat,
      format.isCowraw = s.sawCowraw
  | .startClient _ _ | .updateSettings _ | .doBackup _ _ _ _ | .endBackup _ | .setComplete _ _
  | .removeImage _ => True

instance (s : ImageBackups) (e : Event) : Decidable (SeenFormat s e) :=
  match e with
  | .getLastImage i _ _ => inferInstanceAs (Decidable (∀ job ∈ s.jobs[i]?,
      job.cowrawFormat = s.sawCowraw))
  | .doImage i format => inferInstanceAs (Decidable (∀ job ∈ s.jobs[i]?,
      ∀ _ ∈ job.foundLast, s.isCowraw format = job.cowrawFormat))
  | .addBackupToDatabase i _ _ => inferInstanceAs (Decidable (∀ job ∈ s.jobs[i]?,
      ∀ format ∈ job.newFormat, format.isCowraw = s.sawCowraw))
  | .startClient _ _ | .updateSettings _ | .doBackup _ _ _ _ | .endBackup _ | .setComplete _ _
  | .removeImage _ => .isTrue trivial

def versionOf (cowraw : Bool) : UInt32 := if cowraw then 0 else 1

structure Inv (s : ImageBackups) : Prop where
  version : s.currImageVersion = versionOf s.sawCowraw
  used : ∀ u ∈ s.used, u.1 = versionOf u.2
  rows : ∀ row ∈ s.rows, row.version = versionOf row.format.isCowraw
  lasts : ∀ job ∈ s.jobs, ∀ last ∈ job.foundLast, last.format.isCowraw = job.cowrawFormat
  based : ∀ p ∈ s.based, p.1.format.isCowraw = p.2.isCowraw

theorem versionOf_inj {cowraw cowraw' : Bool} (h : versionOf cowraw = versionOf cowraw') :
    cowraw = cowraw' := by
  cases cowraw <;> cases cowraw' <;> first | rfl | cases h

variable {s s' : ImageBackups}

theorem Inv.familiesApart (h : Inv s) : FamiliesApart s where
  parents := h.based
  versions u hu u' hu' heq := by
    apply versionOf_inj
    rw [← h.used u hu, ← h.used u' hu', heq]

theorem initial_inv : Inv initial where
  version := rfl
  used := by simp [initial]
  rows := by simp [initial]
  lasts := by simp [initial]
  based := by simp [initial]

theorem masked_version (saw cowraw : Bool) :
    (if cowraw then versionOf saw &&& imageCowrawBit else versionOf saw &&& ~~~imageCowrawBit) =
      versionOf (saw || cowraw) := by
  cases saw <;> cases cowraw <;> decide

theorem Inv.updateImageVersion (h : Inv s) (format : ImageFileFormat) :
    Inv (s.updateImageVersion format) :=
  { h with
    version := by
      change (if s.isCowraw format then _ else _) = versionOf ((s.evaluated ++ [_]).any id)
      rw [h.version, masked_version, List.any_append]
      simp [sawCowraw] }

theorem Inv.startClient (h : Inv s) (imageSnapshotsEnabled : Bool) (format : ImageFileFormat) :
    Inv (s.startClient imageSnapshotsEnabled format) := by
  apply Inv.updateImageVersion
  exact
    { h with
      version := rfl
      lasts := by simp }

theorem Inv.setJob (h : Inv s) (i : Nat) {job : ImageJob}
    (hjob : ∀ last ∈ job.foundLast, last.format.isCowraw = job.cowrawFormat) :
    Inv (s.setJob i job) :=
  { h with
    lasts job' hjob' := by
      cases List.mem_or_eq_of_mem_set hjob' with
      | inl hold => exact h.lasts job' hold
      | inr hnew =>
        rw [hnew]
        exact hjob }

theorem Inv.doBackup (h : Inv s) (letter : List UInt8) (rIncremental : Bool)
    (format : ImageFileFormat) (styleSynthetic : Bool) :
    Inv (s.doBackup letter rIncremental format styleSynthetic) :=
  { h with
    lasts job hjob last hlast := by
      cases List.mem_append.mp hjob with
      | inl hold => exact h.lasts job hold last hlast
      | inr hnew =>
        rw [List.mem_singleton.mp hnew] at hlast
        cases hlast }

theorem Inv.getLastImage (h : Inv s) {i : Nat} {styleToLast : Bool} {last : Option ImageRow}
    (hok : SeenFormat s (.getLastImage i styleToLast last))
    (hstep : s.getLastImage i styleToLast last = some s') : Inv s' := by
  unfold ImageBackups.getLastImage at hstep
  split at hstep
  next => cases hstep
  next job hjob =>
    split at hstep
    next hlast =>
      have hseen : job.cowrawFormat = s.sawCowraw := hok job hjob
      have hset : Inv (s.setJob i { job with stage := .last last }) := by
        apply h.setJob
        intro found hfound
        cases hfound
        obtain ⟨hmem, hcandidate, _⟩ := hlast.2.2
        apply versionOf_inj
        rw [← h.rows found hmem, hcandidate.2.1, h.version, hseen]
      cases hstep
      refine ⟨hset.version, ?_, hset.rows, hset.lasts, hset.based⟩
      intro u hu
      cases List.mem_append.mp hu with
      | inl hold => exact h.used u hold
      | inr hnew =>
        rw [List.mem_singleton.mp hnew, hseen]
        exact h.version
    next => cases hstep

theorem Inv.doImage (h : Inv s) {i : Nat} {format : ImageFileFormat}
    (hok : SeenFormat s (.doImage i format)) (hstep : s.doImage i format = some s') : Inv s' := by
  unfold ImageBackups.doImage at hstep
  dsimp only at hstep
  split at hstep
  next => cases hstep
  next job hjob =>
    split at hstep
    · split at hstep
      · cases hstep
      · cases hstep
        exact h.setJob i (by simp [ImageJob.foundLast])
    · cases hstep
      exact h.setJob i (by simp [ImageJob.foundLast])
    next last hlast =>
      have hset : Inv (s.setJob i { job with
          stage := .image (some last) (last.incremental + 1)
            (if job.cowrawFormat then 0 else last.id)
            (format.resolve s.imageSnapshotsEnabled) }) := h.setJob i (by simp [ImageJob.foundLast])
      cases hstep
      refine ⟨hset.version, hset.used, hset.rows, hset.lasts, ?_⟩
      intro p hp
      cases List.mem_append.mp hp with
      | inl hold => exact h.based p hold
      | inr hnew =>
        rw [List.mem_singleton.mp hnew]
        have hfound : last ∈ job.foundLast := by
          unfold ImageJob.foundLast
          rw [hlast]
          rfl
        exact (h.lasts job (List.mem_of_getElem? hjob) last hfound).trans
          (hok job hjob last hfound).symm
    · cases hstep
    · cases hstep

theorem Inv.addBackupToDatabase (h : Inv s) {i : Nat} {path : List UInt8} {backuptime : Int}
    (hok : SeenFormat s (.addBackupToDatabase i path backuptime))
    (hstep : s.addBackupToDatabase i path backuptime = some s') : Inv s' := by
  unfold ImageBackups.addBackupToDatabase at hstep
  split at hstep
  next => cases hstep
  next job hjob =>
    split at hstep
    next parent incremental incrementalRef format hstage =>
      have hversion : s.currImageVersion = versionOf format.isCowraw := by
        have hformat : format ∈ job.newFormat := by
          unfold ImageJob.newFormat
          rw [hstage]
          rfl
        rw [hok job hjob format hformat]
        exact h.version
      have hset : Inv (s.setJob i { job with stage := .running s.nextId }) :=
        h.setJob i (by simp [ImageJob.foundLast])
      cases hstep
      refine ⟨hset.version, ?_, ?_, hset.lasts, hset.based⟩
      · intro u hu
        cases List.mem_append.mp hu with
        | inl hold => exact h.used u hold
        | inr hnew =>
          rw [List.mem_singleton.mp hnew]
          exact hversion
      · intro row hrow
        cases List.mem_append.mp hrow with
        | inl hold => exact h.rows row hold
        | inr hnew =>
          rw [List.mem_singleton.mp hnew]
          exact hversion
    · cases hstep
    · cases hstep
    · cases hstep

theorem Inv.step {e : Event} (h : Inv s) (hok : SeenFormat s e) (hstep : s.step e = some s') :
    Inv s' := by
  cases e with
  | startClient imageSnapshotsEnabled format =>
    cases hstep
    exact h.startClient imageSnapshotsEnabled format
  | updateSettings format =>
    cases hstep
    exact h.updateImageVersion format
  | doBackup letter rIncremental format styleSynthetic =>
    cases hstep
    exact h.doBackup letter rIncremental format styleSynthetic
  | getLastImage i styleToLast last => exact h.getLastImage hok hstep
  | doImage i format => exact h.doImage hok hstep
  | addBackupToDatabase i path backuptime => exact h.addBackupToDatabase hok hstep
  | endBackup i =>
    cases hstep
    exact ⟨h.version, h.used, h.rows, fun job hjob => h.lasts job (List.mem_of_mem_eraseIdx hjob),
      h.based⟩
  | setComplete id complete =>
    cases hstep
    refine ⟨h.version, h.used, ?_, h.lasts, h.based⟩
    intro row hrow
    obtain ⟨old, hold, rfl⟩ := List.mem_map.mp hrow
    split
    · exact h.rows old hold
    · exact h.rows old hold
  | removeImage id =>
    cases hstep
    exact ⟨h.version, h.used, fun row hrow => h.rows row (List.mem_filter.mp hrow).1, h.lasts,
      h.based⟩

open TransitionSystem

/-- The kinds of format stay apart as long as no backup is in one that is not of the kind that the
client thread has seen since it was started. -/
theorem familiesApart_of_run {es : List Event} (hok : Guarded step SeenFormat initial es)
    (hrun : run step initial es = some s) : FamiliesApart s := by
  have hinv : Inv s := by
    apply guarded_run_invariant ?_ initial_inv hok hrun
    intro s e s' hs hok hstep
    exact hs.step hok hstep
  exact hinv.familiesApart

section Switched

/-- `C:` -/
def volumeC : List UInt8 := [67, 58]

def fullImage (format : ImageFileFormat) (id : Nat) (backuptime : Int) : List Event :=
  [.doBackup volumeC false format false, .getLastImage 0 false none, .doImage 0 format,
    .addBackupToDatabase 0 [] backuptime, .setComplete id 1, .endBackup 0]

def cowrawRow : ImageRow where
  id := 1
  letter := volumeC
  path := []
  incremental := 0
  incrementalRef := 0
  complete := 1
  version := 0
  backuptime := 1
  format := .cowraw

def switchedEvents : List Event :=
  .startClient false .cowraw :: (fullImage .cowraw 1 1 ++
    [.updateSettings .vhd, .doBackup volumeC true .vhd false, .getLastImage 0 false (some cowrawRow),
      .doImage 0 .vhd])

theorem families_mixed_after_switch :
    ∃ s, run step initial switchedEvents = some s ∧ ¬ FamiliesApart s := by
  have hbased : (run step initial switchedEvents).any
      (fun s => s.based = [(cowrawRow, .vhd)]) = true := by
    decide +kernel
  obtain ⟨s, hrun, hbased⟩ := (Option.any_eq_true _ _).mp hbased
  refine ⟨s, hrun, ?_⟩
  intro h
  have hsame := h.parents (cowrawRow, .vhd) (by rw [of_decide_eq_true hbased]; simp)
  exact absurd hsame (by decide)

def restartedEvents : List Event :=
  .startClient false .cowraw :: (fullImage .cowraw 1 1 ++
    [.startClient false .vhd, .doBackup volumeC true .vhd false, .getLastImage 0 false none,
      .doImage 0 .vhd, .addBackupToDatabase 0 [] 2, .updateSettings .cowraw,
      .doBackup volumeC false .cowraw false, .getLastImage 1 false (some cowrawRow),
      .doImage 1 .cowraw])

theorem familiesApart_of_run_restarted :
    ∃ s, run step initial restartedEvents = some s ∧ s.based = [(cowrawRow, .cowraw)] ∧
      FamiliesApart s := by
  have hbased : (run step initial restartedEvents).any
      (fun s => s.based = [(cowrawRow, .cowraw)]) = true := by
    decide +kernel
  obtain ⟨s, hrun, hbased⟩ := (Option.any_eq_true _ _).mp hbased
  exact ⟨s, hrun, of_decide_eq_true hbased, familiesApart_of_run (by decide +kernel) hrun⟩

end Switched

end ImageBackups

end UrBackup
