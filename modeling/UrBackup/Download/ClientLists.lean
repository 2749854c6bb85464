import UrBackup.Download.Records
import UrBackup.FileList.FileListUtils

/-! The lists that the backups write for the next one. A file that is in a list with the time it
has on the client counts as backed up. -/
namespace UrBackup

/-- An entry of the list from the client, with the parameters that make it no regular file. -/
structure ListedFile where
  cf : SFile
  symTarget : Bool
  special : Bool

def touched (cf : SFile) (random : UInt32) : SFile :=
  { cf with
    lastModified := (if cf.lastModified = 0 then 1 else cf.lastModified) * Int64.ofNat random.toNat }

/-- What the incremental backup knows of a file: whether it or a directory above it was changed,
and what came of linking it. -/
structure IncrContext where
  indirchange : Bool
  fileChanged : Bool
  useSnapshots : Bool
  linked : Bool
  hardlinked : Bool
  offline : Bool
  modifiedInplace : Bool

/-- Whether an incremental backup queues a file, and if so whether for its metadata only. -/
def incrQueued (e : ListedFile) (c : IncrContext) : Option Bool :=
  let isNew := c.indirchange || c.fileChanged || !c.useSnapshots
  if e.symTarget && isNew then some true
  else if e.special && isNew then some true
  else if c.indirchange || c.fileChanged then
    if c.linked then some true
    else if !c.offline || c.modifiedInplace then some false
    else none
  else if !c.useSnapshots then
    if c.hardlinked then none
    else if c.linked then some true
    else some false
  else none

namespace ServerDownloadThread

/-- The item that `FullFileBackup` writes for a file. `maxOkId` is that of the files which it made
itself. -/
def fullListItem (t : ServerDownloadThread) (maxOkId line : Nat) (metadataMissing : Bool)
    (random : UInt32) (cf : SFile) : Option SFile :=
  if line ≤ max t.maxOkId maxOkId && t.isDownloadOk line then
    some (if t.isDownloadPartial line || metadataMissing then touched cf random else cf)
  else none

/-- The item that `IncrFileBackup` writes for a file. -/
def incrListItem (t : ServerDownloadThread) (downloadNokIds : IdRange) (line : Nat)
    (metadataMissing : Bool) (random : UInt32) (e : ListedFile) : Option SFile :=
  if e.special || e.symTarget || (t.isDownloadOk line && !downloadNokIds.hasId line) then
    some (if metadataMissing || t.isDownloadPartial line then touched e.cf random else e.cf)
  else none

theorem regular_of_incrQueued {e : ListedFile} {c : IncrContext} (h : incrQueued e c = some false) :
    e.special = false ∧ e.symTarget = false := by
  obtain ⟨cf, symTarget, special⟩ := e
  obtain ⟨indirchange, fileChanged, useSnapshots, linked, hardlinked, offline, inplace⟩ := c
  unfold incrQueued at h
  cases symTarget <;> cases special <;> cases indirchange <;> cases fileChanged <;>
    cases useSnapshots <;> first | exact ⟨rfl, rfl⟩ | cases h

theorem transferred_of_listed {t : ServerDownloadThread} {id : Nat} {metadataMissing : Bool}
    {random : UInt32} {cf cf' : SFile} (hrecorded : t.Recorded id) (hok : t.isDownloadOk id = true)
    (hcf : cf' = if t.isDownloadPartial id || metadataMissing then touched cf random else cf)
    (hrandom : (touched cf random).lastModified ≠ cf.lastModified)
    (htime : cf'.lastModified = cf.lastModified) : (id, true) ∈ t.hashed := by
  obtain hhashed | hnok | hpartial := hrecorded
  · exact hhashed
  · rw [isDownloadOk, hnok] at hok
    cases hok
  · rw [isDownloadPartial, hpartial, Bool.true_or, if_pos rfl] at hcf
    rw [hcf] at htime
    exact absurd htime hrandom

/-- While the files that are asked for can be made, every queued file was transferred when the
thread ends or it is noted that it was not. So neither list has a file with its time, chance
apart, that was not transferred. -/
theorem clientLists_transferred (cfg : SQueueItem.DlConfig) (saveIncompleteFile : Bool)
    {es : List Event} {t : ServerDownloadThread}
    (hrec : TransitionSystem.Guarded (step cfg saveIncompleteFile) Recording initial es)
    (h : TransitionSystem.run (step cfg saveIncompleteFile) initial es = some t)
    (hended : t.ended = true) {it : SQueueItem} (hit : it ∈ t.added) {id : Nat}
    (hdata : it.role.IsData id) :
    ((id, true) ∈ t.hashed ∨ t.downloadNokIds.hasId id = true ∨
        t.downloadPartialIds.hasId id = true) ∧
      (∀ maxOkId metadataMissing random cf cf',
        t.fullListItem maxOkId id metadataMissing random cf = some cf' →
        (touched cf random).lastModified ≠ cf.lastModified →
        cf'.lastModified = cf.lastModified → (id, true) ∈ t.hashed) ∧
      ∀ downloadNokIds metadataMissing random e c cf', incrQueued e c = some false →
        t.incrListItem downloadNokIds id metadataMissing random e = some cf' →
        (touched e.cf random).lastModified ≠ e.cf.lastModified →
        cf'.lastModified = e.cf.lastModified → (id, true) ∈ t.hashed := by
  have hrecorded := recorded_of_ended cfg saveIncompleteFile hrec h hended hit hdata
  refine ⟨hrecorded, ?_, ?_⟩
  · intro maxOkId metadataMissing random cf cf' hitem hrandom htime
    unfold fullListItem at hitem
    split at hitem
    next hlisted =>
      cases hitem
      exact transferred_of_listed hrecorded (Bool.and_eq_true_iff.mp hlisted).2 rfl hrandom htime
    next => cases hitem
  · intro downloadNokIds metadataMissing random e c cf' hqueued hitem hrandom htime
    obtain ⟨hspecial, hsym⟩ := regular_of_incrQueued hqueued
    unfold incrListItem at hitem
    rw [hspecial, hsym, Bool.false_or, Bool.false_or] at hitem
    split at hitem
    next hlisted =>
      cases hitem
      rw [Bool.or_comm] at htime
      exact transferred_of_listed hrecorded (Bool.and_eq_true_iff.mp hlisted).1 rfl hrandom htime
    next => cases hitem

section Runs

def sampleConfig : SQueueItem.DlConfig := ⟨0, [], true⟩

def sampleArgs : QueueArgs := ⟨1, [102], [47, 97], false, false, 0, 0⟩

def sampleOutcome (tempFile : Bool) : TransferOutcome where
  tempFile := tempFile
  prepare := ⟨true, true, true, true, true⟩
  rc := fun _ => .success
  retryTempFiles := fun _ => true
  received := true
  readingFailed := false
  linked := false
  copied := false
  shadowcopyOk := true
  script := ⟨true, true, []⟩

def sampleEvents (tempFile : Bool) : List Event :=
  [.addToQueueFull sampleArgs, .queueStop, .take, .process (sampleOutcome tempFile), .take]

theorem sampleEvents_recording :
    TransitionSystem.Guarded (step sampleConfig true) Recording initial (sampleEvents true) := by
  refine TransitionSystem.guarded_cons rfl trivial (TransitionSystem.guarded_cons rfl trivial
    (TransitionSystem.guarded_cons rfl trivial ⟨?_, fun _ _ => ⟨trivial, fun _ _ => trivial⟩⟩))
  intro curr id hcurr _
  cases hcurr
  exact Or.inr (Or.inr rfl)

def sampleFile : SFile := ⟨[102], 5, 7, false⟩

theorem clientLists_transferred_sampleEvents :
    ∃ t, TransitionSystem.run (step sampleConfig true) initial (sampleEvents true) = some t ∧
      ((1, true) ∈ t.hashed ∨ t.downloadNokIds.hasId 1 = true ∨
        t.downloadPartialIds.hasId 1 = true) ∧
      t.fullListItem 0 1 false 3 sampleFile = some sampleFile :=
  ⟨_, rfl, (clientLists_transferred sampleConfig true sampleEvents_recording rfl rfl
    List.mem_cons_self ⟨rfl, rfl, rfl, rfl, rfl⟩).1, by decide⟩

/-- Without a file for the data nothing is noted. -/
theorem clientLists_lists_missing :
    ¬∀ (cfg : SQueueItem.DlConfig) (saveIncompleteFile : Bool) (es : List Event)
      (t : ServerDownloadThread),
      TransitionSystem.run (step cfg saveIncompleteFile) initial es = some t → t.ended = true →
      ∀ it ∈ t.added, ∀ id, it.role.IsData id →
        ((id, true) ∈ t.hashed ∨ t.downloadNokIds.hasId id = true ∨
          t.downloadPartialIds.hasId id = true) := by
  intro h
  have hrun := h sampleConfig true (sampleEvents false) _ rfl rfl (.ofFullArgs sampleArgs)
    List.mem_cons_self 1 ⟨rfl, rfl, rfl, rfl, rfl⟩
  exact absurd hrun (by decide)

/-- The next incremental backup takes the missing file for an unchanged one. -/
example : ∃ t, TransitionSystem.run (step sampleConfig true) initial (sampleEvents false) = some t ∧
    t.hashed = [] ∧ t.incrListItem .empty 1 false 3 ⟨sampleFile, false, false⟩ = some sampleFile :=
  ⟨_, rfl, rfl, by decide⟩

end Runs

end ServerDownloadThread

end UrBackup
