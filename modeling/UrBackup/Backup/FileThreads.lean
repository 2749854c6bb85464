import Mathlib
import UrBackup.Lib.Run

/-! The thread that prepares hashes, the thread that hashes, and the wait for both of them.
Every event is one access of one thread to a pipe or to a `working` flag, so a run is one
interleaving. -/
namespace UrBackup

/-- What is written into the pipes of the two threads. -/
inductive PipeElement (File : Type*) where
  | file (f : File)
  | flush
  | exit
  deriving DecidableEq, Repr

/-- Where `BackupServerPrepareHash` stands. At the top of the loop its flag is still that of
the turn before. -/
inductive PreparePc (File : Type*) where
  | top (working : Bool)
  | reading
  | taken (e : PipeElement File)
  | processing (f : File)
  | finished
  deriving DecidableEq, Repr

/-- Where `BackupServerHash` stands. -/
inductive HashPc (File : Type*) where
  | top (working : Bool)
  | reading
  | taken (e : PipeElement File)
  | processing (e : PipeElement File)
  | finished
  deriving DecidableEq, Repr

/-- Where `waitForFileThreads` stands, with what it has read in this round. -/
inductive WaitPc where
  | start
  | flushed
  | hashNum
  | hashWorking (num : Nat)
  | prepareNum (hashqueuesize : Nat)
  | prepareWorking (hashqueuesize num : Nat)
  | lastWait
  | returned
  deriving DecidableEq, Repr

section Files

variable {File : Type*}

def PipeElement.files : PipeElement File → List File
  | .file f => [f]
  | _ => []

def PreparePc.files : PreparePc File → List File
  | .taken e => e.files
  | .processing f => [f]
  | _ => []

def HashPc.files : HashPc File → List File
  | .taken e => e.files
  | .processing e => e.files
  | _ => []

def PreparePc.isWorking : PreparePc File → Bool
  | .top working => working
  | .processing _ => true
  | _ => false

def HashPc.isWorking : HashPc File → Bool
  | .top working => working
  | .processing _ => true
  | .finished => true
  | _ => false

end Files

/-- The files whose processing is over are kept beside the state of the program. -/
structure FileThreads (File : Type*) where
  hashpipePrepare : List (PipeElement File)
  hashpipe : List (PipeElement File)
  bshPrepare : PreparePc File
  bsh : HashPc File
  wait : WaitPc
  processed : List File
  deriving DecidableEq, Repr

inductive FileThreadsEvent where
  /-- Whether the temporary file and the old file can be opened matters to one step only. -/
  | prepareStep (opens : Bool)
  | hashStep
  | waitStep
  deriving DecidableEq, Repr

namespace FileThreads

variable {File : Type*}

def prepareStep (s : FileThreads File) (opens : Bool) : Option (FileThreads File) :=
  match s.bshPrepare with
  | .top _ => some { s with bshPrepare := .reading }
  | .reading =>
    match s.hashpipePrepare with
    | [] => none
    | e :: rest => some { s with hashpipePrepare := rest, bshPrepare := .taken e }
  | .taken .exit => some { s with hashpipe := s.hashpipe ++ [.exit], bshPrepare := .finished }
  | .taken .flush => some { s with bshPrepare := .top false }
  | .taken (.file f) => some { s with bshPrepare := .processing f }
  | .processing f =>
    if opens then some { s with hashpipe := s.hashpipe ++ [.file f], bshPrepare := .top true }
    else some { s with bshPrepare := .top true }
  | .finished => none

def hashStep (s : FileThreads File) : Option (FileThreads File) :=
  match s.bsh with
  | .top _ => some { s with bsh := .reading }
  | .reading =>
    match s.hashpipe with
    | [] => some { s with bsh := .top false }
    | e :: rest => some { s with hashpipe := rest, bsh := .taken e }
  | .taken e => some { s with bsh := .processing e }
  | .processing .exit => some { s with bsh := .finished }
  | .processing .flush => some { s with bsh := .top true }
  | .processing (.file f) => some { s with bsh := .top true, processed := s.processed ++ [f] }
  | .finished => none

/-- The reads of one round come in the order of the program, and the sums are `_u32`. -/
def waitStep (s : FileThreads File) : Option (FileThreads File) :=
  match s.wait with
  | .start => some { s with hashpipe := s.hashpipe ++ [.flush], wait := .flushed }
  | .flushed => some { s with hashpipePrepare := s.hashpipePrepare ++ [.flush], wait := .hashNum }
  | .hashNum => some { s with wait := .hashWorking (s.hashpipe.length % 2 ^ 32) }
  | .hashWorking num =>
    some { s with wait := .prepareNum ((num + s.bsh.isWorking.toNat) % 2 ^ 32) }
  | .prepareNum hashqueuesize =>
    some { s with wait := .prepareWorking hashqueuesize (s.hashpipePrepare.length % 2 ^ 32) }
  | .prepareWorking hashqueuesize num =>
    if 0 < hashqueuesize ∨ 0 < (num + s.bshPrepare.isWorking.toNat) % 2 ^ 32 then
      some { s with wait := .hashNum }
    else some { s with wait := .lastWait }
  | .lastWait => if s.bsh.isWorking then some s else some { s with wait := .returned }
  | .returned => none

def step (s : FileThreads File) : FileThreadsEvent → Option (FileThreads File)
  | .prepareStep opens => s.prepareStep opens
  | .hashStep => s.hashStep
  | .waitStep => s.waitStep

def files (s : FileThreads File) : List File :=
  s.processed ++ s.bsh.files ++ s.hashpipe.flatMap PipeElement.files ++ s.bshPrepare.files ++
    s.hashpipePrepare.flatMap PipeElement.files

/-- The pipes are empty, and every file that was under way has been processed. -/
def Done (s₀ s : FileThreads File) : Prop :=
  s.hashpipePrepare = [] ∧ s.hashpipe = [] ∧ s.processed = s₀.files

/-- The counts fit in `_u32`. The files can be opened, and none of them reaches the hash pipe
after it was counted as empty and before the prepare pipe is counted. The flag of the hash
thread is not read between the read of a file from the pipe that was counted as empty and
the set of the flag. -/
def OutsideWindow (s : FileThreads File) : FileThreadsEvent → Prop
  | .prepareStep opens =>
    match s.bshPrepare with
    | .processing _ => opens = true ∧ s.wait ≠ .hashWorking 0 ∧ s.wait ≠ .prepareNum 0
    | _ => True
  | .hashStep => True
  | .waitStep =>
    match s.wait with
    | .hashNum => s.hashpipe.length < 2 ^ 32 - 1
    | .hashWorking 0 => ∀ f, s.bsh ≠ .taken (.file f)
    | .prepareNum _ => s.hashpipePrepare.length < 2 ^ 32 - 1
    | _ => True

/-- The prepare thread ended in front of what is in its pipe. -/
def Stuck (s : FileThreads File) : Prop := s.bshPrepare = .finished ∧ s.hashpipePrepare ≠ []

/-- The prepare thread has read the last element, which was no file. -/
def Drained (s : FileThreads File) : Prop :=
  s.hashpipePrepare = [] ∧
    (s.bshPrepare = .taken .flush ∨ (∃ working, s.bshPrepare = .top working) ∨
      s.bshPrepare = .reading)

/-- The flush of the wait is the last element of the prepare pipe or has been read. -/
def Flushing (s : FileThreads File) : Prop :=
  (∃ l, s.hashpipePrepare = l ++ [.flush]) ∨ s.Drained

def HashIdle (s : FileThreads File) : Prop := s.hashpipe = [] ∧ s.bsh.files = []

/-- What the reads of the round so far say. -/
def Knows (s : FileThreads File) : Prop :=
  match s.wait with
  | .start => True
  | .flushed => True
  | .hashNum => s.Flushing
  | .hashWorking num =>
    s.Flushing ∧ num < 2 ^ 32 - 1 ∧ (num = 0 → s.hashpipe = [] ∨ s.Stuck)
  | .prepareNum hashqueuesize => s.Flushing ∧ (hashqueuesize = 0 → s.HashIdle ∨ s.Stuck)
  | .prepareWorking hashqueuesize num =>
    s.Flushing ∧ num < 2 ^ 32 - 1 ∧ (num = 0 → s.Drained ∧ (hashqueuesize = 0 → s.HashIdle))
  | .lastWait => s.Drained ∧ s.HashIdle
  | .returned => s.Drained ∧ s.HashIdle

section Steps

variable {s s' : FileThreads File}

theorem files_prepareStep {opens : Bool} (hok : s.OutsideWindow (.prepareStep opens))
    (h : s.prepareStep opens = some s') : s'.files = s.files := by
  unfold prepareStep at h
  unfold OutsideWindow at hok
  cases hpc : s.bshPrepare with
  | top working =>
    simp only [hpc] at h
    cases h
    simp only [files, hpc, PreparePc.files]
  | reading =>
    simp only [hpc] at h
    cases hpipe : s.hashpipePrepare with
    | nil => simp only [hpipe] at h; cases h
    | cons e rest =>
      simp only [hpipe] at h
      cases h
      simp only [files, hpc, hpipe, PreparePc.files, List.flatMap_cons, List.append_nil,
        List.append_assoc]
  | taken e =>
    cases e <;> simp only [hpc] at h <;> cases h <;>
      simp only [files, hpc, PreparePc.files, PipeElement.files, List.flatMap_append,
        List.flatMap_singleton, List.append_nil]
  | processing f =>
    simp only [hpc] at h hok
    rw [if_pos hok.1] at h
    cases h
    simp only [files, hpc, PreparePc.files, PipeElement.files, List.flatMap_append,
      List.flatMap_singleton, List.append_nil, List.append_assoc]
  | finished => simp only [hpc] at h; cases h

theorem files_hashStep (h : s.hashStep = some s') : s'.files = s.files := by
  unfold hashStep at h
  cases hpc : s.bsh with
  | top working =>
    simp only [hpc] at h
    cases h
    simp only [files, hpc, HashPc.files]
  | reading =>
    simp only [hpc] at h
    cases hpipe : s.hashpipe with
    | nil =>
      simp only [hpipe] at h
      cases h
      simp only [files, hpc, hpipe, HashPc.files]
    | cons e rest =>
      simp only [hpipe] at h
      cases h
      simp only [files, hpc, hpipe, HashPc.files, List.flatMap_cons, List.append_nil,
        List.append_assoc]
  | taken e =>
    simp only [hpc] at h
    cases h
    simp only [files, hpc, HashPc.files]
  | processing e =>
    cases e <;> simp only [hpc] at h <;> cases h <;>
      simp only [files, hpc, HashPc.files, PipeElement.files, List.append_nil, List.append_assoc]
  | finished => simp only [hpc] at h; cases h

theorem files_waitStep (h : s.waitStep = some s') : s'.files = s.files := by
  unfold waitStep at h
  cases hpc : s.wait with
  | start =>
    simp only [hpc] at h
    cases h
    simp only [files, List.flatMap_append, List.flatMap_singleton, PipeElement.files,
      List.append_nil]
  | flushed =>
    simp only [hpc] at h
    cases h
    simp only [files, List.flatMap_append, List.flatMap_singleton, PipeElement.files,
      List.append_nil]
  | prepareWorking hashqueuesize num =>
    simp only [hpc] at h
    split at h <;> cases h <;> rfl
  | lastWait =>
    simp only [hpc] at h
    split at h <;> cases h <;> rfl
  | returned => simp only [hpc] at h; cases h
  | _ => simp only [hpc] at h; cases h; rfl

theorem prepareStep_drained {opens : Bool} (hdrained : s.Drained)
    (h : s.prepareStep opens = some s') :
    s'.Drained ∧ s'.hashpipe = s.hashpipe ∧ s'.bsh = s.bsh ∧ s'.wait = s.wait := by
  obtain ⟨hpipe, hpc | ⟨working, hpc⟩ | hpc⟩ := hdrained
  · simp only [prepareStep, hpc] at h
    cases h
    exact ⟨⟨hpipe, .inr (.inl ⟨_, rfl⟩)⟩, rfl, rfl, rfl⟩
  · simp only [prepareStep, hpc] at h
    cases h
    exact ⟨⟨hpipe, .inr (.inr rfl)⟩, rfl, rfl, rfl⟩
  · simp only [prepareStep, hpc, hpipe] at h
    cases h

theorem prepareStep_flushing {opens : Bool} (hflushing : s.Flushing)
    (h : s.prepareStep opens = some s') : s'.Flushing := by
  cases hflushing with
  | inr hdrained => exact .inr (prepareStep_drained hdrained h).1
  | inl hlast =>
    obtain ⟨l, hlast⟩ := hlast
    unfold prepareStep at h
    split at h
    case h_2 hpc =>
      cases l with
      | nil =>
        simp only [hlast, List.nil_append] at h
        cases h
        exact .inr ⟨rfl, .inl rfl⟩
      | cons e l =>
        simp only [hlast, List.cons_append] at h
        cases h
        exact .inl ⟨l, rfl⟩
    case h_6 =>
      split at h <;> cases h <;> exact .inl ⟨l, hlast⟩
    all_goals
      cases h
      try exact .inl ⟨l, hlast⟩

/-- Outside of the window nothing is put into a hash pipe that was empty, or the prepare thread
is at its end. -/
theorem prepareStep_empty {opens : Bool} (hflushing : s.Flushing)
    (hwindow : ∀ f, s.bshPrepare ≠ .processing f) (h : s.prepareStep opens = some s') :
    s'.hashpipe = s.hashpipe ∨ s'.Stuck := by
  unfold prepareStep at h
  split at h
  case h_2 =>
    split at h
    · cases h
    · cases h
      exact .inl rfl
  case h_3 hpc =>
    cases h
    cases hflushing with
    | inl hlast =>
      obtain ⟨l, hlast⟩ := hlast
      refine .inr ⟨rfl, ?_⟩
      simp only [hlast]
      exact List.append_ne_nil_of_right_ne_nil l (List.cons_ne_nil _ _)
    | inr hdrained =>
      obtain ⟨-, htaken | ⟨working, htop⟩ | hreading⟩ := hdrained <;> simp_all
  case h_6 f hpc => exact absurd hpc (hwindow f)
  all_goals
    cases h
    try exact .inl rfl

theorem prepareStep_frame {opens : Bool} (h : s.prepareStep opens = some s') :
    s'.wait = s.wait ∧ s'.bsh = s.bsh := by
  unfold prepareStep at h
  split at h
  case h_2 =>
    split at h
    · cases h
    · cases h
      exact ⟨rfl, rfl⟩
  case h_6 => split at h <;> cases h <;> exact ⟨rfl, rfl⟩
  all_goals
    cases h
    try exact ⟨rfl, rfl⟩

theorem prepareStep_stuck {opens : Bool} (hstuck : s.Stuck) : s.prepareStep opens = none := by
  simp only [prepareStep, hstuck.1]

theorem hashStep_frame (h : s.hashStep = some s') : s'.wait = s.wait ∧
    s'.bshPrepare = s.bshPrepare ∧ s'.hashpipePrepare = s.hashpipePrepare ∧
    (s.hashpipe = [] → s'.hashpipe = []) ∧ (s.HashIdle → s'.HashIdle) := by
  unfold hashStep at h
  split at h
  case h_2 =>
    split at h
    · cases h
      exact ⟨rfl, rfl, rfl, id, fun hidle => ⟨hidle.1, rfl⟩⟩
    · rename_i hpipe
      cases h
      refine ⟨rfl, rfl, rfl, fun hempty => ?_, fun hidle => ?_⟩
      · rw [hpipe] at hempty; cases hempty
      · rw [HashIdle, hpipe] at hidle; cases hidle.1
  case h_6 hpc =>
    cases h
    refine ⟨rfl, rfl, rfl, id, fun hidle => ?_⟩
    rw [HashIdle, hpc] at hidle
    cases hidle.2
  case h_3 hpc =>
    cases h
    refine ⟨rfl, rfl, rfl, id, fun hidle => ⟨hidle.1, ?_⟩⟩
    rw [HashIdle, hpc] at hidle
    exact hidle.2
  all_goals
    cases h
    try exact ⟨rfl, rfl, rfl, id, fun hidle => ⟨hidle.1, rfl⟩⟩

theorem knows_prepareStep {opens : Bool} (hok : s.OutsideWindow (.prepareStep opens))
    (hknows : s.Knows) (h : s.prepareStep opens = some s') : s'.Knows := by
  obtain ⟨hwait, hbsh⟩ := prepareStep_frame h
  have hnotStuck : ¬ s.Stuck := by
    intro hstuck
    rw [prepareStep_stuck hstuck] at h
    cases h
  have hempty : s.wait = .hashWorking 0 ∨ s.wait = .prepareNum 0 → s.Flushing →
      s'.hashpipe = s.hashpipe ∨ s'.Stuck := by
    intro hin hflushing
    apply prepareStep_empty hflushing _ h
    intro f hpc
    simp only [OutsideWindow, hpc] at hok
    exact hin.elim hok.2.1 hok.2.2
  unfold Knows at hknows ⊢
  rw [hwait]
  cases hpc : s.wait with
  | start => trivial
  | flushed => trivial
  | hashNum =>
    rw [hpc] at hknows
    exact prepareStep_flushing hknows h
  | hashWorking num =>
    rw [hpc] at hknows hempty
    refine ⟨prepareStep_flushing hknows.1 h, hknows.2.1, ?_⟩
    rintro rfl
    have hpipe := (hknows.2.2 rfl).resolve_right hnotStuck
    exact (hempty (.inl rfl) hknows.1).imp_left fun heq => heq.trans hpipe
  | prepareNum hashqueuesize =>
    rw [hpc] at hknows hempty
    refine ⟨prepareStep_flushing hknows.1 h, ?_⟩
    rintro rfl
    have hidle := (hknows.2 rfl).resolve_right hnotStuck
    refine (hempty (.inr rfl) hknows.1).imp_left fun heq => ⟨heq.trans hidle.1, ?_⟩
    rw [hbsh]
    exact hidle.2
  | prepareWorking hashqueuesize num =>
    rw [hpc] at hknows
    refine ⟨prepareStep_flushing hknows.1 h, hknows.2.1, fun hnum => ?_⟩
    obtain ⟨hdrained, hidle⟩ := hknows.2.2 hnum
    obtain ⟨hdrained', hpipe, -⟩ := prepareStep_drained hdrained h
    refine ⟨hdrained', fun hsize => ?_⟩
    rw [HashIdle, hpipe, hbsh]
    exact hidle hsize
  | lastWait =>
    rw [hpc] at hknows
    obtain ⟨hdrained', hpipe, -⟩ := prepareStep_drained hknows.1 h
    refine ⟨hdrained', ?_⟩
    rw [HashIdle, hpipe, hbsh]
    exact hknows.2
  | returned =>
    rw [hpc] at hknows
    obtain ⟨hdrained', hpipe, -⟩ := prepareStep_drained hknows.1 h
    refine ⟨hdrained', ?_⟩
    rw [HashIdle, hpipe, hbsh]
    exact hknows.2

theorem knows_hashStep (hknows : s.Knows) (h : s.hashStep = some s') : s'.Knows := by
  obtain ⟨hwait, hprepare, hpipe, hempty, hidle⟩ := hashStep_frame h
  unfold Knows Flushing Drained Stuck at hknows ⊢
  rw [hwait, hprepare, hpipe]
  cases hpc : s.wait with
  | hashWorking num =>
    rw [hpc] at hknows
    exact ⟨hknows.1, hknows.2.1, fun hnum => (hknows.2.2 hnum).imp_left hempty⟩
  | prepareNum hashqueuesize =>
    rw [hpc] at hknows
    exact ⟨hknows.1, fun hsize => (hknows.2 hsize).imp_left hidle⟩
  | prepareWorking hashqueuesize num =>
    rw [hpc] at hknows
    refine ⟨hknows.1, hknows.2.1, fun hnum => ?_⟩
    obtain ⟨hdrained, hhash⟩ := hknows.2.2 hnum
    exact ⟨hdrained, fun hsize => hidle (hhash hsize)⟩
  | lastWait =>
    rw [hpc] at hknows
    exact ⟨hknows.1, hidle hknows.2⟩
  | returned =>
    rw [hpc] at hknows
    exact ⟨hknows.1, hidle hknows.2⟩
  | _ =>
    rw [hpc] at hknows
    exact hknows

theorem eq_nil_of_count {pipe : List (PipeElement File)} (hsmall : pipe.length < 2 ^ 32 - 1)
    (hcount : pipe.length % 2 ^ 32 = 0) : pipe = [] := by
  apply List.length_eq_zero_iff.mp
  omega

theorem sum_eq_zero {num : Nat} {working : Bool} (hsmall : num < 2 ^ 32 - 1)
    (hsum : (num + working.toNat) % 2 ^ 32 = 0) : num = 0 ∧ working = false := by
  cases working with
  | false => exact ⟨by simp only [Bool.toNat_false] at hsum; omega, rfl⟩
  | true => simp only [Bool.toNat_true] at hsum; omega

theorem files_of_not_working {pc : HashPc File} (hworking : pc.isWorking = false)
    (htaken : ∀ f, pc ≠ .taken (.file f)) : pc.files = [] := by
  cases pc with
  | taken e =>
    cases e with
    | file f => exact absurd rfl (htaken f)
    | _ => rfl
  | processing e => cases hworking
  | _ => rfl

theorem knows_waitStep (hok : s.OutsideWindow .waitStep) (hknows : s.Knows)
    (h : s.waitStep = some s') : s'.Knows := by
  unfold waitStep at h
  unfold Knows at hknows
  unfold OutsideWindow at hok
  cases hpc : s.wait with
  | start =>
    simp only [hpc] at h
    cases h
    trivial
  | flushed =>
    simp only [hpc] at h
    cases h
    exact .inl ⟨_, rfl⟩
  | hashNum =>
    simp only [hpc] at h hok hknows
    cases h
    refine ⟨hknows, ?_, fun hcount => .inl (eq_nil_of_count hok hcount)⟩
    exact Nat.lt_of_le_of_lt (Nat.mod_le _ _) hok
  | hashWorking num =>
    simp only [hpc] at h hknows
    cases h
    obtain ⟨hflushing, hsmall, hempty⟩ := hknows
    refine ⟨hflushing, fun hsum => ?_⟩
    obtain ⟨rfl, hworking⟩ := sum_eq_zero hsmall hsum
    have hfiles : s.bsh.files = [] := by
      simp only [hpc] at hok
      exact files_of_not_working hworking hok
    exact (hempty rfl).imp_left fun hpipe => ⟨hpipe, hfiles⟩
  | prepareNum hashqueuesize =>
    simp only [hpc] at h hknows hok
    cases h
    obtain ⟨hflushing, hidle⟩ := hknows
    refine ⟨hflushing, Nat.lt_of_le_of_lt (Nat.mod_le _ _) hok, fun hcount => ?_⟩
    have hpipe := eq_nil_of_count hok hcount
    constructor
    · refine hflushing.resolve_left ?_
      rintro ⟨l, hlast⟩
      rw [hpipe] at hlast
      exact List.append_ne_nil_of_right_ne_nil l (List.cons_ne_nil _ _) hlast.symm
    · intro hsize
      exact (hidle hsize).resolve_right fun hstuck => hstuck.2 hpipe
  | prepareWorking hashqueuesize num =>
    simp only [hpc] at h hknows
    obtain ⟨hflushing, hsmall, hempty⟩ := hknows
    split at h
    · cases h
      exact hflushing
    · rename_i hzero
      cases h
      obtain ⟨hsize, hsum⟩ := not_or.mp hzero
      obtain ⟨rfl, -⟩ := sum_eq_zero hsmall (Nat.eq_zero_of_not_pos hsum)
      exact ⟨(hempty rfl).1, (hempty rfl).2 (Nat.eq_zero_of_not_pos hsize)⟩
  | lastWait =>
    simp only [hpc] at h hknows
    split at h <;> cases h
    · simp only [Knows, hpc]
      exact hknows
    · exact hknows
  | returned => simp only [hpc] at h; cases h

theorem knows_step {e : FileThreadsEvent} (hok : s.OutsideWindow e) (hknows : s.Knows)
    (h : s.step e = some s') : s'.Knows ∧ s'.files = s.files := by
  cases e with
  | prepareStep opens => exact ⟨knows_prepareStep hok hknows h, files_prepareStep hok h⟩
  | hashStep => exact ⟨knows_hashStep hknows h, files_hashStep h⟩
  | waitStep => exact ⟨knows_waitStep hok hknows h, files_waitStep h⟩

end Steps

/-- Where no step is in the window, the wait is a barrier. -/
theorem waitForFileThreads_barrier {s₀ s : FileThreads File} {es : List FileThreadsEvent}
    (hstart : s₀.wait = .start) (hok : TransitionSystem.Guarded step OutsideWindow s₀ es)
    (h : TransitionSystem.run step s₀ es = some s) (hreturned : s.wait = .returned) :
    Done s₀ s := by
  have hinitial : s₀.Knows ∧ s₀.files = s₀.files := by
    refine ⟨?_, rfl⟩
    unfold Knows
    rw [hstart]
    trivial
  obtain ⟨hknows, hfiles⟩ := TransitionSystem.guarded_run_invariant
    (I := fun s => s.Knows ∧ s.files = s₀.files) (fun s e s' hI hok hs =>
      ⟨(knows_step hok hI.1 hs).1, (knows_step hok hI.1 hs).2.trans hI.2⟩) hinitial hok h
  unfold Knows at hknows
  rw [hreturned] at hknows
  obtain ⟨⟨hprepare, hpc⟩, hpipe, hhash⟩ := hknows
  have hdrained : s.bshPrepare.files = [] := by
    obtain htaken | ⟨working, htop⟩ | hreading := hpc
    · rw [htaken]; rfl
    · rw [htop]; rfl
    · rw [hreading]; rfl
  refine ⟨hprepare, hpipe, ?_⟩
  rw [← hfiles, files, hprepare, hpipe, hdrained, hhash]
  simp only [List.flatMap_nil, List.append_nil]

section Example

def onePrepared : FileThreads Nat := ⟨[], [], .processing 7, .reading, .start, []⟩

def patientRun : List FileThreadsEvent :=
  [.prepareStep true, .waitStep, .waitStep] ++
    List.replicate 3 (.prepareStep true) ++ List.replicate 8 .hashStep ++
      List.replicate 5 .waitStep

theorem waitForFileThreads_barrier_onePrepared : ∃ s,
    TransitionSystem.run step onePrepared patientRun = some s ∧ Done onePrepared s := by
  have hok : TransitionSystem.Guarded step OutsideWindow onePrepared patientRun := by
    refine TransitionSystem.guarded_cons rfl ⟨rfl, nofun, nofun⟩ ?_
    iterate 13 refine TransitionSystem.guarded_cons rfl trivial ?_
    refine TransitionSystem.guarded_cons rfl (by decide : 0 < 2 ^ 32 - 1) ?_
    refine TransitionSystem.guarded_cons rfl nofun ?_
    refine TransitionSystem.guarded_cons rfl (by decide : 0 < 2 ^ 32 - 1) ?_
    iterate 2 refine TransitionSystem.guarded_cons rfl trivial ?_
    exact trivial
  exact ⟨_, rfl, waitForFileThreads_barrier rfl hok rfl rfl⟩

/-- The file is put into the hash pipe after this was counted as empty. -/
theorem waitForFileThreads_returns_early : ¬ ∀ (s₀ s : FileThreads Nat)
    (es : List FileThreadsEvent), s₀.wait = .start → .prepareStep false ∉ es →
    TransitionSystem.run step s₀ es = some s → s.wait = .returned → Done s₀ s := by
  intro h
  have hdone := h onePrepared _
    ([.waitStep, .waitStep] ++ List.replicate 5 .hashStep ++ [.waitStep, .waitStep] ++
      List.replicate 4 (.prepareStep true) ++ List.replicate 3 .waitStep) rfl (by decide) rfl rfl
  exact absurd hdone.2.1 (by decide)

end Example

end FileThreads

end UrBackup
