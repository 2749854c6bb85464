import Mathlib
import UrBackup.Lib.Run

/-! The marks that tell whether a file is stored before its metadata is applied, and the threads
that move them. An event is one call of one thread, so a run is one interleaving. -/
namespace UrBackup

/-- `std::string::npos`, the largest value of `size_t`. -/
abbrev npos : Nat := 2 ^ 64 - 1

structure MaxFileId where
  maxDownloaded : Nat
  maxPreprocessed : Nat
  minDownloaded : Nat
  deriving DecidableEq, Repr

namespace MaxFileId

def initial : MaxFileId := ⟨npos, 0, 0⟩

def setMinDownloaded (m : MaxFileId) (id : Nat) : MaxFileId :=
  { m with
    maxDownloaded := if m.maxDownloaded > id then id else m.maxDownloaded
    minDownloaded := (id + 1) % 2 ^ 64 }

def setMaxDownloaded (m : MaxFileId) (id : Nat) : MaxFileId :=
  { m with maxDownloaded :=
      if (id + 1) % 2 ^ 64 ≥ m.minDownloaded then npos else (id + 1) % 2 ^ 64 }

def setMaxPreProcessed (m : MaxFileId) (id : Nat) : MaxFileId :=
  { m with maxPreprocessed := (id + 1) % 2 ^ 64 }

def isFinished (m : MaxFileId) (id : Nat) : Bool :=
  decide ((id + 1) % 2 ^ 64 ≤ m.maxDownloaded ∧ (id + 1) % 2 ^ 64 ≤ m.maxPreprocessed)

end MaxFileId

/-- What the queue of the download thread keeps of an item. -/
structure DownloadItem where
  id : Nat
  metadataOnly : Bool
  deriving DecidableEq, Repr

/-- The files that `setMinDownloaded` was called for as downloads or copies, those that could not
be transferred or prepared, and those that the hash thread has stored are kept beside the state of
the program. -/
structure FileOrder where
  line : Nat
  maxFileId : MaxFileId
  dlQueue : List DownloadItem
  hashpipePrepare : List Nat
  hashpipe : List Nat
  /-- The file in the hash thread, and whether it is stored. -/
  hashing : Option (Nat × Bool)
  registered : List Nat
  failed : List Nat
  processed : List Nat
  deriving DecidableEq, Repr

inductive FileOrderEvent where
  /-- The backup thread queues the file of the line. -/
  | addToQueue
  | addMetadataToQueue
  | copyFile
  /-- Lines below a directory that is skipped as a whole are not marked. -/
  | nextLine (preprocessed : Bool)
  /-- A chunked item becomes a full one and is put behind later items. -/
  | postpone (i j : Nat)
  | transfer (ok : Bool)
  | prepare (ok : Bool)
  | hashTake
  | hashStore
  | hashDone
  deriving DecidableEq, Repr

namespace FileOrder

def initial : FileOrder := ⟨0, .initial, [], [], [], none, [], [], []⟩

/-- The call of `setMinDownloaded` for a queued item. The id 0 also stands for no line. -/
def register (s : FileOrder) : MaxFileId :=
  if s.line ≠ 0 then s.maxFileId.setMinDownloaded s.line else s.maxFileId

def addToQueue (s : FileOrder) : FileOrder :=
  { s with
    maxFileId := s.register
    dlQueue := s.dlQueue ++ [⟨s.line, false⟩]
    registered := if s.line ≠ 0 then s.line :: s.registered else s.registered }

def addMetadataToQueue (s : FileOrder) : FileOrder :=
  { s with maxFileId := s.register, dlQueue := s.dlQueue ++ [⟨s.line, true⟩] }

def copyFile (s : FileOrder) : FileOrder :=
  { s with
    maxFileId := s.maxFileId.setMinDownloaded s.line
    hashpipe := s.hashpipe ++ [s.line]
    registered := s.line :: s.registered }

def nextLine (s : FileOrder) (preprocessed : Bool) : FileOrder :=
  { s with
    line := s.line + 1
    maxFileId := if preprocessed then s.maxFileId.setMaxPreProcessed s.line else s.maxFileId }

def postpone (s : FileOrder) (i j : Nat) : Option FileOrder :=
  match s.dlQueue[i]? with
  | none => none
  | some item =>
    if i ≤ j then some { s with dlQueue := (s.dlQueue.eraseIdx i).insertIdx j item } else none

def transfer (s : FileOrder) (ok : Bool) : Option FileOrder :=
  match s.dlQueue with
  | [] => none
  | item :: rest =>
    if item.metadataOnly then some { s with dlQueue := rest }
    else if ok then
      some { s with dlQueue := rest, hashpipePrepare := s.hashpipePrepare ++ [item.id] }
    else some { s with dlQueue := rest, failed := item.id :: s.failed }

def prepare (s : FileOrder) (ok : Bool) : Option FileOrder :=
  match s.hashpipePrepare with
  | [] => none
  | id :: rest =>
    if ok then some { s with hashpipePrepare := rest, hashpipe := s.hashpipe ++ [id] }
    else some { s with hashpipePrepare := rest, failed := id :: s.failed }

def hashTake (s : FileOrder) : Option FileOrder :=
  match s.hashing, s.hashpipe with
  | none, id :: rest => some { s with hashing := some (id, false), hashpipe := rest }
  | _, _ => none

def hashStore (s : FileOrder) : Option FileOrder :=
  match s.hashing with
  | some (id, false) => some { s with hashing := some (id, true), processed := id :: s.processed }
  | _ => none

def hashDone (s : FileOrder) : Option FileOrder :=
  match s.hashing with
  | some (id, true) =>
    some { s with hashing := none, maxFileId := s.maxFileId.setMaxDownloaded id }
  | _ => none

def step (s : FileOrder) : FileOrderEvent → Option FileOrder
  | .addToQueue => some s.addToQueue
  | .addMetadataToQueue => some s.addMetadataToQueue
  | .copyFile => some s.copyFile
  | .nextLine preprocessed => some (s.nextLine preprocessed)
  | .postpone i j => s.postpone i j
  | .transfer ok => s.transfer ok
  | .prepare ok => s.prepare ok
  | .hashTake => s.hashTake
  | .hashStore => s.hashStore
  | .hashDone => s.hashDone

/-- A download or copy that is neither stored nor given up. -/
def Pending (s : FileOrder) (id : Nat) : Prop :=
  id ∈ s.registered ∧ id ∉ s.failed ∧ id ∉ s.processed

/-- What `isFinished` says of a file that is stored before its metadata. -/
def FinishedStored (s : FileOrder) : Prop :=
  ∀ id, s.maxFileId.isFinished id = true → id ∈ s.registered → id ∉ s.failed → id ∈ s.processed

/-- `setMaxDownloaded` is called while all files that are pending come later. The lines that are
registered have a successor in `size_t`. -/
def InOrder (s : FileOrder) : FileOrderEvent → Prop
  | .addToQueue => s.line + 1 < 2 ^ 64
  | .addMetadataToQueue => s.line + 1 < 2 ^ 64
  | .copyFile => s.line + 1 < 2 ^ 64
  | .hashDone => ∀ id, s.hashing = some (id, true) → ∀ p, s.Pending p → id < p
  | _ => True

/-- The mark is in front of all pending files. -/
structure MarkBelow (s : FileOrder) : Prop where
  mark : ∀ p, s.Pending p → s.maxFileId.maxDownloaded ≤ p
  lines : ∀ p, p ∈ s.registered → p ≤ s.line ∧ p < s.maxFileId.minDownloaded ∧ p + 1 < 2 ^ 64

theorem MarkBelow.finishedStored {s : FileOrder} (h : s.MarkBelow) : s.FinishedStored := by
  intro id hfinished hregistered hfailed
  by_contra hprocessed
  have hmark := h.mark id ⟨hregistered, hfailed, hprocessed⟩
  have hsmall := (h.lines id hregistered).2.2
  have hle := (of_decide_eq_true hfinished).1
  rw [Nat.mod_eq_of_lt hsmall] at hle
  omega

section Steps

variable {s s' : FileOrder}

/-- What leaves the marks and the registered files alone keeps the invariant. -/
theorem MarkBelow.keep (h : s.MarkBelow) (hmarks : s'.maxFileId = s.maxFileId)
    (hline : s.line ≤ s'.line) (hregistered : s'.registered = s.registered)
    (hfailed : s.failed ⊆ s'.failed) (hprocessed : s.processed ⊆ s'.processed) :
    s'.MarkBelow := by
  constructor
  · intro p hp
    rw [hmarks]
    apply h.mark p
    refine ⟨hregistered ▸ hp.1, fun hmem => hp.2.1 (hfailed hmem), fun hmem => hp.2.2 (hprocessed hmem)⟩
  · intro p hp
    rw [hregistered] at hp
    rw [hmarks]
    obtain ⟨hle, hlt⟩ := h.lines p hp
    exact ⟨Nat.le_trans hle hline, hlt⟩

theorem MarkBelow.setMinDownloaded (h : s.MarkBelow) (hsmall : s.line + 1 < 2 ^ 64)
    (hmarks : s'.maxFileId = s.maxFileId.setMinDownloaded s.line) (hline : s'.line = s.line)
    (hregistered : s'.registered ⊆ s.line :: s.registered) (hfailed : s'.failed = s.failed)
    (hprocessed : s'.processed = s.processed) : s'.MarkBelow := by
  have hle : s'.maxFileId.maxDownloaded ≤ s.line ∧
      s'.maxFileId.maxDownloaded ≤ s.maxFileId.maxDownloaded := by
    rw [hmarks, MaxFileId.setMinDownloaded]
    simp only
    split <;> omega
  have hmin : s'.maxFileId.minDownloaded = s.line + 1 := by
    rw [hmarks, MaxFileId.setMinDownloaded]
    exact Nat.mod_eq_of_lt hsmall
  constructor
  · intro p hp
    cases List.mem_cons.mp (hregistered hp.1) with
    | inl heq => exact heq ▸ hle.1
    | inr hold =>
      rw [Pending, hfailed, hprocessed] at hp
      exact Nat.le_trans hle.2 (h.mark p ⟨hold, hp.2⟩)
  · intro p hp
    rw [hline, hmin]
    cases List.mem_cons.mp (hregistered hp) with
    | inl heq =>
      subst heq
      exact ⟨Nat.le_refl _, Nat.lt_succ_self _, hsmall⟩
    | inr hold =>
      obtain ⟨hbelow, -, hnext⟩ := h.lines p hold
      exact ⟨hbelow, Nat.lt_succ_of_le hbelow, hnext⟩

theorem markBelow_register (h : s.MarkBelow) (hsmall : s.line + 1 < 2 ^ 64)
    (hmarks : s'.maxFileId = s.register) (hline : s'.line = s.line)
    (hregistered : s'.registered ⊆ if s.line ≠ 0 then s.line :: s.registered else s.registered)
    (hfailed : s'.failed = s.failed) (hprocessed : s'.processed = s.processed) :
    s'.MarkBelow := by
  by_cases hzero : s.line ≠ 0
  · rw [register, if_pos hzero] at hmarks
    rw [if_pos hzero] at hregistered
    exact h.setMinDownloaded hsmall hmarks hline hregistered hfailed hprocessed
  · rw [register, if_neg hzero] at hmarks
    rw [if_neg hzero] at hregistered
    constructor
    · intro p hp
      rw [Pending, hfailed, hprocessed] at hp
      rw [hmarks]
      exact h.mark p ⟨hregistered hp.1, hp.2⟩
    · intro p hp
      rw [hmarks, hline]
      exact h.lines p (hregistered hp)

theorem markBelow_hashDone (h : s.MarkBelow) (hok : s.InOrder .hashDone)
    (hs : s.hashDone = some s') : s'.MarkBelow := by
  unfold hashDone at hs
  split at hs
  · rename_i id hhashing
    cases hs
    constructor
    · intro p hp
      have hlater : id < p := hok id hhashing p hp
      have hmin := (h.lines p hp.1).2.1
      simp only [MaxFileId.setMaxDownloaded]
      have hmod : (id + 1) % 2 ^ 64 ≤ id + 1 := Nat.mod_le _ _
      -- Had the mark reached `min_downloaded`, nothing would be pending.
      rw [if_neg (by omega)]
      omega
    · exact h.lines
  · cases hs

theorem markBelow_step {e : FileOrderEvent} (h : s.MarkBelow) (hok : s.InOrder e)
    (hs : s.step e = some s') : s'.MarkBelow := by
  cases e with
  | addToQueue =>
    cases hs
    exact markBelow_register h hok rfl rfl (List.Subset.refl _) rfl rfl
  | addMetadataToQueue =>
    cases hs
    refine markBelow_register h hok rfl rfl ?_ rfl rfl
    split
    · exact List.subset_cons_self _ _
    · exact List.Subset.refl _
  | copyFile =>
    cases hs
    exact h.setMinDownloaded hok rfl rfl (List.Subset.refl _) rfl rfl
  | nextLine preprocessed =>
    cases hs
    cases preprocessed with
    | false =>
      exact h.keep rfl (Nat.le_succ _) rfl (List.Subset.refl _) (List.Subset.refl _)
    | true =>
      refine ⟨h.mark, fun p hp => ?_⟩
      obtain ⟨hle, hlt⟩ := h.lines p hp
      exact ⟨Nat.le_succ_of_le hle, hlt⟩
  | postpone i j =>
    simp only [step, postpone] at hs
    split at hs
    · cases hs
    · split at hs
      · cases hs
        exact h.keep rfl (Nat.le_refl _) rfl (List.Subset.refl _) (List.Subset.refl _)
      · cases hs
  | transfer ok =>
    simp only [step, transfer] at hs
    split at hs
    · cases hs
    · split at hs
      · cases hs
        exact h.keep rfl (Nat.le_refl _) rfl (List.Subset.refl _) (List.Subset.refl _)
      · split at hs
        · cases hs
          exact h.keep rfl (Nat.le_refl _) rfl (List.Subset.refl _) (List.Subset.refl _)
        · cases hs
          exact h.keep rfl (Nat.le_refl _) rfl (List.subset_cons_self _ _) (List.Subset.refl _)
  | prepare ok =>
    simp only [step, prepare] at hs
    split at hs
    · cases hs
    · split at hs
      · cases hs
        exact h.keep rfl (Nat.le_refl _) rfl (List.Subset.refl _) (List.Subset.refl _)
      · cases hs
        exact h.keep rfl (Nat.le_refl _) rfl (List.subset_cons_self _ _) (List.Subset.refl _)
  | hashTake =>
    simp only [step, hashTake] at hs
    split at hs
    · cases hs
      exact h.keep rfl (Nat.le_refl _) rfl (List.Subset.refl _) (List.Subset.refl _)
    · cases hs
  | hashStore =>
    simp only [step, hashStore] at hs
    split at hs
    · cases hs
      exact h.keep rfl (Nat.le_refl _) rfl (List.Subset.refl _) (List.subset_cons_self _ _)
    · cases hs
  | hashDone => exact markBelow_hashDone h hok hs

end Steps

theorem markBelow_initial : initial.MarkBelow := by
  constructor
  · intro p hp
    cases hp.1
  · intro p hp
    cases hp

/-- Where the hash thread never finishes a file in front of which another one is pending,
`isFinished` holds of stored files only. -/
theorem isFinished_stored {s : FileOrder} {es : List FileOrderEvent}
    (hok : TransitionSystem.Guarded step InOrder initial es)
    (h : TransitionSystem.run step initial es = some s) : s.FinishedStored :=
  (TransitionSystem.guarded_run_invariant (fun _ _ _ hI hok hs => markBelow_step hI hok hs)
    markBelow_initial hok h).finishedStored

section Example

/-- Line 1 is downloaded, line 2 is copied, and the files are stored in this order. -/
def orderedRun : List FileOrderEvent :=
  [.nextLine true, .addToQueue, .nextLine true, .transfer true, .prepare true, .hashTake, .hashStore,
    .hashDone, .copyFile, .nextLine true]

theorem isFinished_stored_orderedRun : ∃ s,
    TransitionSystem.run step initial orderedRun = some s ∧ s.maxFileId.isFinished 1 = true ∧
      s.FinishedStored := by
  have hok : TransitionSystem.Guarded step InOrder initial orderedRun := by
    refine TransitionSystem.guarded_cons rfl trivial ?_
    refine TransitionSystem.guarded_cons rfl (by decide : 1 + 1 < 2 ^ 64) ?_
    iterate 5 refine TransitionSystem.guarded_cons rfl trivial ?_
    refine TransitionSystem.guarded_cons rfl ?_ ?_
    · intro id _ p hp
      exact absurd hp.1 (fun hmem => hp.2.2 hmem)
    refine TransitionSystem.guarded_cons rfl (by decide : 2 + 1 < 2 ^ 64) ?_
    refine TransitionSystem.guarded_cons rfl trivial ?_
    exact trivial
  exact ⟨_, rfl, by decide, isFinished_stored hok rfl⟩

/-- The copy is stored while the download waits in its queue. -/
theorem isFinished_passes_download : ¬ ∀ (s : FileOrder) (es : List FileOrderEvent),
    TransitionSystem.run step initial es = some s → s.FinishedStored := by
  intro h
  have hstored := h _ [.nextLine true, .addToQueue, .nextLine true, .copyFile, .nextLine true,
    .hashTake, .hashStore, .hashDone] rfl 1 (by decide) (by decide) (by decide)
  exact absurd hstored (by decide)

end Example

end FileOrder

end UrBackup
