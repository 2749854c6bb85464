import UrBackup.Download.DownloadThread
import UrBackup.Download.QueueOrder

/-! The download queue while a backup queues its shares, each between the start and the stop of its
shadow copy, and the download thread works them off. Which share a path is in is a parameter. -/
namespace UrBackup

/-- The thread, with what the other side did: the share whose files come now, the shares so far, and
all items that were queued. The full items that were requested and wait are kept in the order of the
requests. -/
structure SnapshotWindows where
  thread : ServerDownloadThread
  opened : Option (List UInt8)
  shares : List (List UInt8)
  queuedItems : List SQueueItem
  asked : List SQueueItem
  finished : List SQueueItem

namespace SnapshotWindows

open SQueueItem DlQueue
open ServerDownloadThread (prepared)

def initial : SnapshotWindows := ⟨.initial, none, [], [], [], []⟩

inductive Event where
  | addToQueueStartShadowcopy (fn : List UInt8)
  | addToQueueFull (a : QueueArgs)
  | addToQueueChunked (a : QueueArgs)
  | addToQueueStopShadowcopy (fn : List UInt8)
  | queueStop
  | queueSkip
  | take
  | process (o : TransferOutcome)
  | getQueuedFileFull (prepare : SQueueItem → PrepareOutcome)
  | getQueuedFileChunked (prepare : SQueueItem → PrepareOutcome)
  | resetQueueFull
  | resetQueueChunked
  | unqueueFileFull (fn : List UInt8) (finishScript : Bool)
  | unqueueFileChunked (remotefn : List UInt8)

def startItem (fn : List UInt8) : SQueueItem := { ofAction .startShadowcopy with fn := fn }

def stopItem (fn : List UInt8) : SQueueItem := { ofAction .stopShadowcopy with fn := fn }

def withQueue (s : SnapshotWindows) (queue : List SQueueItem) : SnapshotWindows :=
  { s with thread := { s.thread with dlQueue := queue } }

def add (s : SnapshotWindows) (it : SQueueItem) : Option SnapshotWindows :=
  (s.thread.addItem it).map fun thread =>
    { s with thread := thread, queuedItems := s.queuedItems ++ [it] }

/-- Without an old file a patch download is put back to be downloaded as a whole. -/
def requeued (t : ServerDownloadThread) (curr : SQueueItem) (o : TransferOutcome) : Bool :=
  !(t.isOffline || t.skipping) && curr.isChunked && !curr.patchDlFiles.prepareError &&
    !(prepared curr o).1.origFile && (prepared curr o).2

def takenAway (it : SQueueItem) (rest : List SQueueItem) : Bool :=
  it.action = .skip || it.action = .quit && rest.isEmpty

def take (s : SnapshotWindows) : Option SnapshotWindows :=
  match s.thread.dlQueue with
  | [] => none
  | it :: rest => s.thread.take.map fun thread =>
    { s with
      thread := thread
      asked := if isMarked it then s.asked.tail else s.asked
      finished := if takenAway it rest then s.finished ++ [it] else s.finished }

def fullNamed (cfg : DlConfig) (fn : List UInt8) (finishScript : Bool) (it : SQueueItem) : Bool :=
  it.isFull && it.scriptEnd = finishScript && it.getDLPath cfg = fn

/-- A share is queued once, with its files between the start and the stop of its shadow copy.
Scripts have no share with a shadow copy. The latest request only is taken back. -/
def step (shareOf : List UInt8 → List UInt8 → List UInt8) (cfg : DlConfig)
    (saveIncompleteFile : Bool) (s : SnapshotWindows) : Event → Option SnapshotWindows
  | .addToQueueStartShadowcopy fn =>
    if s.opened = none ∧ fn ∉ s.shares then
      (s.add (startItem fn)).map fun s => { s with opened := some fn, shares := fn :: s.shares }
    else none
  | .addToQueueFull a =>
    if a.isScript = false ∧ s.opened = some (shareOf a.currPath a.fn) then s.add (.ofFullArgs a)
    else none
  | .addToQueueChunked a =>
    if a.isScript = false ∧ s.opened = some (shareOf a.currPath a.fn) then
      s.add (.ofChunkedArgs a)
    else none
  | .addToQueueStopShadowcopy fn =>
    if s.opened = some fn then (s.add (stopItem fn)).map fun s => { s with opened := none }
    else none
  | .queueStop =>
    some { s with
      thread := { s.thread.pushBack (.ofAction .quit) with stopQueued := true }
      queuedItems := s.queuedItems ++ [.ofAction .quit] }
  | .queueSkip =>
    some { s.withQueue (.ofAction .skip :: s.thread.dlQueue) with
      queuedItems := s.queuedItems ++ [.ofAction .skip] }
  | .take => if s.thread.curr.isSome || s.thread.ended then none else s.take
  | .process o => s.thread.curr.map fun curr =>
    { s with
      thread := { s.thread.processItem saveIncompleteFile curr o with curr := none }
      finished := if requeued s.thread curr o then s.finished else s.finished ++ [curr] }
  | .getQueuedFileFull prepare =>
    some { s.withQueue (DlQueue.getQueuedFileFull prepare s.thread.dlQueue).2 with
      asked := s.asked ++ (DlQueue.getQueuedFileFull prepare s.thread.dlQueue).1.toList }
  | .getQueuedFileChunked prepare =>
    some (s.withQueue
      (DlQueue.getQueuedFileChunked prepare (s.thread.dlQueue.length + 1) s.thread.dlQueue))
  | .resetQueueFull =>
    some { s.withQueue (DlQueue.resetQueueFull s.thread.dlQueue) with asked := [] }
  | .resetQueueChunked => some (s.withQueue (DlQueue.resetQueueChunked s.thread.dlQueue))
  | .unqueueFileFull fn finishScript =>
    if s.asked.dropLast.any (fullNamed cfg fn finishScript) then none
    else
      some { s.withQueue (DlQueue.unqueueFileFull cfg fn finishScript s.thread.dlQueue) with
        asked := undoLatest (fullNamed cfg fn finishScript) s.asked }
  | .unqueueFileChunked remotefn =>
    some (s.withQueue (DlQueue.unqueueFileChunked cfg remotefn s.thread.dlQueue))

section Items

variable {shareOf : List UInt8 → List UInt8 → List UInt8} {shares : List (List UInt8)}
  {opened : Option (List UInt8)} {it it' : SQueueItem}

/-- An item of a share that was queued. The stop of a shadow copy is of a share that is over. -/
structure Fits (shareOf : List UInt8 → List UInt8 → List UInt8) (shares : List (List UInt8))
    (opened : Option (List UInt8)) (it : SQueueItem) : Prop where
  script : it.isScript = false ∧ it.scriptEnd = false
  file : it.action = .fileclient → shareOfItem shareOf it ∈ shares
  start : it.action = .startShadowcopy → it.fn ∈ shares
  stop : it.action = .stopShadowcopy → it.fn ∈ shares ∧ opened ≠ some it.fn

/-- A file in hand whose shadow copy is not to be started any more. -/
def Started (shareOf : List UInt8 → List UInt8 → List UInt8) (queue : List SQueueItem)
    (it : SQueueItem) : Prop :=
  it.action = .fileclient → ∀ y ∈ queue, y.action = .startShadowcopy → shareOfItem shareOf it ≠ y.fn

theorem Fits.congr (h : Fits shareOf shares opened it) (hlasting : it.lasting = it'.lasting) :
    Fits shareOf shares opened it' := by
  simp only [lasting, SQueueItem.mk.injEq] at hlasting
  obtain ⟨-, hfn, hcurrPath, -, -, haction, -, hisScript, -, -, hscriptEnd, -, -⟩ := hlasting
  have hshare : shareOfItem shareOf it = shareOfItem shareOf it' := by
    rw [shareOfItem, shareOfItem, hfn, hcurrPath]
  obtain ⟨hscript, hfile, hstart, hstop⟩ := h
  rw [hisScript, hscriptEnd] at hscript
  rw [haction, hshare] at hfile
  rw [haction, hfn] at hstart hstop
  exact ⟨hscript, hfile, hstart, hstop⟩

theorem Fits.open (h : Fits shareOf shares none it) {fn : List UInt8} (hfn : fn ∉ shares) :
    Fits shareOf (fn :: shares) (some fn) it where
  script := h.script
  file haction := List.mem_cons_of_mem fn (h.file haction)
  start haction := List.mem_cons_of_mem fn (h.start haction)
  stop haction := by
    refine ⟨List.mem_cons_of_mem fn (h.stop haction).1, fun heq => hfn ?_⟩
    rw [Option.some.inj heq]
    exact (h.stop haction).1

theorem Fits.close (h : Fits shareOf shares opened it) : Fits shareOf shares none it :=
  ⟨h.script, h.file, h.start, fun haction => ⟨(h.stop haction).1, by simp⟩⟩

theorem fits_control {action : EQueueAction} (haction : action = .quit ∨ action = .skip) :
    Fits shareOf shares opened (ofAction action) := by
  rcases haction with rfl | rfl <;> constructor <;> simp [ofAction]

theorem exists_of_sameItems {queue queue' : List SQueueItem} (h : SameItems queue queue')
    (hit : it' ∈ queue') : ∃ it ∈ queue, it.lasting = it'.lasting :=
  List.mem_map.mp (h.mem_iff.mpr (List.mem_map_of_mem hit))

theorem Started.sameItems {queue queue' : List SQueueItem} (h : Started shareOf queue it)
    (hsame : SameItems queue queue') : Started shareOf queue' it := by
  intro haction y hy hstart
  obtain ⟨x, hx, hlasting⟩ := exists_of_sameItems hsame hy
  have hfn : x.fn = y.fn := (congrArg SQueueItem.fn hlasting :)
  have hxaction : x.action = y.action := (congrArg SQueueItem.action hlasting :)
  rw [← hfn]
  exact h haction x hx (hxaction.trans hstart)

end Items

section Processing

variable {t : ServerDownloadThread} {curr : SQueueItem} {o : TransferOutcome}

theorem transferred_dlQueue (hscript : curr.isScript = false) (script : ScriptOutput) :
    (t.transferred curr script).1.dlQueue = t.dlQueue := by
  unfold ServerDownloadThread.transferred
  simp only [hscript, Bool.false_and, Bool.false_eq_true, if_false]
  split <;> rfl

theorem loadPrepared_dlQueue (saveIncompleteFile : Bool) (hscript : curr.isScript = false)
    (files : SPatchDownloadFiles) (fullDl : Bool) :
    (t.loadPrepared saveIncompleteFile curr o files fullDl).1.dlQueue =
      if !files.origFile && fullDl then (t.addAtFront curr).dlQueue else t.dlQueue := by
  unfold ServerDownloadThread.loadPrepared
  split
  · rfl
  · split
    · rfl
    · cases ServerDownloadThread.retryPatch o.rc o.retryTempFiles 5 0 with
      | none => rfl
      | some rc =>
        dsimp only
        unfold ServerDownloadThread.patchTransferred
        split
        · exact transferred_dlQueue hscript o.script
        · exact ServerDownloadThread.patchFailed_dlQueue _ _ _ _

theorem loadFilePatch_dlQueue (saveIncompleteFile : Bool) (hscript : curr.isScript = false) :
    (t.loadFilePatch saveIncompleteFile curr o).1.dlQueue =
      if !curr.patchDlFiles.prepareError && !(prepared curr o).1.origFile && (prepared curr o).2 then
        (t.addAtFront curr).dlQueue
      else t.dlQueue := by
  unfold ServerDownloadThread.loadFilePatch
  split
  next herror => simp [loadPrepared_dlQueue, hscript, herror]
  next herror => simp [loadPrepared_dlQueue, hscript, herror]

theorem processItem_dlQueue (saveIncompleteFile : Bool) (hscript : curr.isScript = false)
    (haction : curr.action ≠ .quit ∧ curr.action ≠ .skip) :
    (t.processItem saveIncompleteFile curr o).dlQueue =
      if requeued t curr o then (t.addAtFront curr).dlQueue else t.dlQueue := by
  unfold ServerDownloadThread.processItem requeued
  split
  next hoff => simp [ServerDownloadThread.skipItem_dlQueue, hoff]
  next hoff =>
    rw [Bool.not_eq_true] at hoff
    split
    next hshadow =>
      have hchunked : curr.isChunked = false := by
        simp only [Bool.or_eq_true, decide_eq_true_eq] at hshadow
        unfold isChunked
        rcases hshadow with h | h <;> simp [h]
      simp [ServerDownloadThread.goOffline_dlQueue, hchunked]
    next hshadow =>
      simp only [Bool.or_eq_true, decide_eq_true_eq, not_or] at hshadow
      have hfile : curr.action = .fileclient := by
        cases h : curr.action <;> simp [h] at hshadow haction ⊢
      cases hclient : curr.fileclient with
      | full =>
        have hchunked : curr.isChunked = false := by simp [isChunked, hclient]
        simp only [hchunked, Bool.and_false, Bool.false_and, Bool.false_eq_true, if_false]
        split
        · rfl
        · rw [ServerDownloadThread.goOffline_dlQueue]
          unfold ServerDownloadThread.loadFile
          split
          · rfl
          · dsimp only
            split
            · exact transferred_dlQueue hscript o.script
            · split
              · rfl
              · split <;> rfl
      | chunked =>
        have hchunked : curr.isChunked = true := by simp [isChunked, hclient, hfile]
        dsimp only
        rw [ServerDownloadThread.goOffline_dlQueue, loadFilePatch_dlQueue _ hscript, hoff,
          hchunked]
        rfl

end Processing

section Runs

variable {shareOf : List UInt8 → List UInt8 → List UInt8} {cfg : DlConfig}
  {saveIncompleteFile : Bool} {s s' : SnapshotWindows}

/-- The items of the queue stand in order, those that were requested in the order of the requests,
and every item that was queued is done, in hand or in the queue. -/
structure Windows (shareOf : List UInt8 → List UInt8 → List UInt8) (s : SnapshotWindows) :
    Prop where
  order : InOrder shareOf s.thread.dlQueue
  marks : s.thread.dlQueue.filter isMarked = s.asked
  items : (s.queuedItems.map lasting).Perm
    ((s.finished ++ (s.thread.curr.toList ++ s.thread.dlQueue)).map lasting)
  fits : ∀ it ∈ s.thread.dlQueue, Fits shareOf s.shares s.opened it
  opened : ∀ fn, s.opened = some fn → fn ∈ s.shares
  curr : ∀ it, s.thread.curr = some it → Fits shareOf s.shares none it ∧
    (it.action ≠ .quit ∧ it.action ≠ .skip) ∧ Started shareOf s.thread.dlQueue it

theorem initial_windows : Windows shareOf initial where
  order := List.Pairwise.nil
  marks := rfl
  items := List.Perm.refl _
  fits it hit := absurd hit List.not_mem_nil
  opened fn hfn := by cases hfn
  curr it hit := by cases hit

theorem Windows.withQueue (h : Windows shareOf s) {queue asked : List SQueueItem}
    (hsame : SameItems s.thread.dlQueue queue) (horder : InOrder shareOf queue)
    (hmarks : queue.filter isMarked = asked) :
    Windows shareOf { s.withQueue queue with asked := asked } where
  order := horder
  marks := hmarks
  items := by
    refine h.items.trans ?_
    simp only [SnapshotWindows.withQueue, List.map_append]
    exact (hsame.append_left _).append_left _
  fits it hit := by
    obtain ⟨it', hit', hlasting⟩ := exists_of_sameItems hsame hit
    exact (h.fits it' hit').congr hlasting
  opened := h.opened
  curr it hit := by
    obtain ⟨hfits, haction, hstarted⟩ := h.curr it hit
    exact ⟨hfits, haction, hstarted.sameItems hsame⟩

theorem Windows.push (h : Windows shareOf s) {it : SQueueItem} {thread : ServerDownloadThread}
    {shares : List (List UInt8)} {opened : Option (List UInt8)}
    (hqueue : thread.dlQueue = s.thread.dlQueue ++ [it]) (hcurr : thread.curr = s.thread.curr)
    (hbefore : ∀ x ∈ s.thread.dlQueue, Before shareOf x it) (hmarked : isMarked it = false)
    (hfits : Fits shareOf shares opened it)
    (hkept : ∀ x, Fits shareOf s.shares s.opened x → Fits shareOf shares opened x)
    (hinHand : ∀ x, Fits shareOf s.shares none x → Fits shareOf shares none x)
    (hopened : ∀ fn, opened = some fn → fn ∈ shares)
    (hstart : ∀ x, s.thread.curr = some x → x.action = .fileclient → it.action = .startShadowcopy →
      shareOfItem shareOf x ≠ it.fn) :
    Windows shareOf ⟨thread, opened, shares, s.queuedItems ++ [it], s.asked, s.finished⟩ where
  order := by
    rw [hqueue]
    exact h.order.snoc hbefore
  marks := by
    rw [hqueue, List.filter_append, List.filter_cons_of_neg (by simp [hmarked]), List.filter_nil,
      List.append_nil]
    exact h.marks
  items := by
    rw [hqueue, hcurr, ← List.append_assoc, ← List.append_assoc, List.append_assoc s.finished,
      List.map_append, List.map_append]
    exact h.items.append_right _
  fits x hx := by
    rw [hqueue] at hx
    rcases List.mem_append.mp hx with hx | hx
    · exact hkept x (h.fits x hx)
    · cases List.mem_singleton.mp hx
      exact hfits
  opened := hopened
  curr x hx := by
    rw [hcurr] at hx
    obtain ⟨hfits', haction, hstarted⟩ := h.curr x hx
    refine ⟨hinHand x hfits', haction, fun hfile y hy hystart => ?_⟩
    rw [hqueue] at hy
    rcases List.mem_append.mp hy with hy | hy
    · exact hstarted hfile y hy hystart
    · cases List.mem_singleton.mp hy
      exact hstart x hx hfile hystart

theorem add_eq_some {it : SQueueItem} (h : s.add it = some s') : ∃ thread,
    thread.dlQueue = s.thread.dlQueue ++ [it] ∧ thread.curr = s.thread.curr ∧
      s' = ⟨thread, s.opened, s.shares, s.queuedItems ++ [it], s.asked, s.finished⟩ := by
  obtain ⟨thread, hadd, rfl⟩ := Option.map_eq_some_iff.mp h
  unfold ServerDownloadThread.addItem at hadd
  split at hadd
  · cases hadd
  · cases hadd
    refine ⟨_, ?_, ?_, rfl⟩ <;> rfl

theorem Windows.addStart (h : Windows shareOf s) {fn : List UInt8} (hclosed : s.opened = none)
    (hfn : fn ∉ s.shares) (hadd : s.add (startItem fn) = some s') :
    Windows shareOf { s' with opened := some fn, shares := fn :: s'.shares } := by
  obtain ⟨thread, hqueue, hcurr, rfl⟩ := add_eq_some hadd
  have hnot {x : SQueueItem} {opened : Option (List UInt8)} (hx : Fits shareOf s.shares opened x)
      (hfile : x.action = .fileclient) : shareOfItem shareOf x ≠ fn := by
    intro heq
    rw [← heq] at hfn
    exact hfn (hx.file hfile)
  refine h.push hqueue hcurr ?_ rfl ?_ ?_ ?_ ?_ ?_
  · intro x hx
    exact ⟨fun hfile _ => hnot (h.fits x hx) hfile, (fun _ hfile => by cases hfile),
      fun hmarks => Bool.false_ne_true hmarks.2⟩
  · exact ⟨⟨rfl, rfl⟩, (fun hfile => by cases hfile), fun _ => List.mem_cons_self,
      (fun hstop => by cases hstop)⟩
  · intro x hx
    rw [hclosed] at hx
    exact hx.open hfn
  · intro x hx
    exact (hx.open hfn).close
  · rintro fn' ⟨⟩
    exact List.mem_cons_self
  · exact fun x hx hfile _ => hnot (h.curr x hx).1 hfile

theorem Windows.addFile (h : Windows shareOf s) {it : SQueueItem} (hfile : it.action = .fileclient)
    (hscript : it.isScript = false ∧ it.scriptEnd = false) (hqueued : it.queued = false)
    (hopened : s.opened = some (shareOfItem shareOf it)) (hadd : s.add it = some s') :
    Windows shareOf s' := by
  obtain ⟨thread, hqueue, hcurr, rfl⟩ := add_eq_some hadd
  have hmarked : isMarked it = false := by simp [isMarked, hqueued]
  refine h.push hqueue hcurr ?_ hmarked ?_ (fun _ hx => hx) (fun _ hx => hx) h.opened ?_
  · intro x hx
    refine ⟨fun _ hstart => ?_, fun hstop _ heq => ?_, by simp [hmarked]⟩
    · rw [hfile] at hstart
      cases hstart
    · rw [heq] at hopened
      exact ((h.fits x hx).stop hstop).2 hopened
  · exact ⟨hscript, fun _ => h.opened _ hopened, by simp [hfile], by simp [hfile]⟩
  · simp [hfile]

theorem Windows.addStop (h : Windows shareOf s) {fn : List UInt8} (hopened : s.opened = some fn)
    (hadd : s.add (stopItem fn) = some s') : Windows shareOf { s' with opened := none } := by
  obtain ⟨thread, hqueue, hcurr, rfl⟩ := add_eq_some hadd
  refine h.push hqueue hcurr (fun x _ => before_quitOrStop x rfl) rfl ?_ (fun _ hx => hx.close)
    (fun _ hx => hx) (fun _ hnone => by cases hnone) fun _ _ _ hstart => by cases hstart
  exact ⟨⟨rfl, rfl⟩, (fun hfile => by cases hfile), (fun hstart => by cases hstart),
    fun _ => ⟨h.opened fn hopened, by simp⟩⟩

theorem Windows.queueStop (h : Windows shareOf s) : Windows shareOf { s with
    thread := { s.thread.pushBack (.ofAction .quit) with stopQueued := true }
    queuedItems := s.queuedItems ++ [.ofAction .quit] } :=
  h.push rfl rfl (fun x _ => before_quitOrStop x rfl) rfl (fits_control (.inl rfl)) (fun _ hx => hx)
    (fun _ hx => hx) h.opened fun _ _ _ hstart => by cases hstart

theorem Windows.queueSkip (h : Windows shareOf s) : Windows shareOf
    { s.withQueue (.ofAction .skip :: s.thread.dlQueue) with
      queuedItems := s.queuedItems ++ [.ofAction .skip] } where
  order := List.pairwise_cons.mpr ⟨fun y _ =>
    ⟨(fun hfile => by cases hfile), (fun hstop => by cases hstop),
      fun hmarks => Bool.false_ne_true hmarks.1⟩, h.order⟩
  marks := h.marks
  items := by
    simp only [SnapshotWindows.withQueue, List.map_append, List.map_cons, List.map_nil]
    refine (List.perm_append_singleton _ _).trans ?_
    refine ((h.items.trans (by rw [List.map_append, List.map_append])).cons _).trans ?_
    rw [← List.append_assoc, ← List.append_assoc]
    exact List.perm_middle.symm
  fits it hit := by
    rcases List.mem_cons.mp hit with rfl | hit
    · exact fits_control (.inr rfl)
    · exact h.fits it hit
  opened := h.opened
  curr it hit := by
    obtain ⟨hfits, haction, hstarted⟩ := h.curr it hit
    refine ⟨hfits, haction, fun hfile y hy hstart => ?_⟩
    rcases List.mem_cons.mp hy with rfl | hy
    · cases hstart
    · exact hstarted hfile y hy hstart

theorem Windows.take (h : Windows shareOf s) (hcurr : s.thread.curr = none)
    (htake : s.take = some s') : Windows shareOf s' := by
  unfold SnapshotWindows.take at htake
  cases hqueue : s.thread.dlQueue with
  | nil =>
    rw [hqueue] at htake
    cases htake
  | cons it rest =>
    rw [hqueue] at htake
    obtain ⟨thread, hthread, rfl⟩ := Option.map_eq_some_iff.mp htake
    have horder := h.order
    have hmarks := h.marks
    have hitems := h.items
    have hfits := h.fits
    rw [hqueue] at horder hmarks hfits
    rw [hqueue, hcurr, Option.toList_none, List.nil_append] at hitems
    obtain ⟨hfirst, hrest⟩ := List.pairwise_cons.mp horder
    have hasked : rest.filter isMarked = if isMarked it then s.asked.tail else s.asked := by
      rw [← hmarks]
      split
      next hmarked => rw [List.filter_cons_of_pos hmarked, List.tail_cons]
      next hmarked => rw [List.filter_cons_of_neg hmarked]
    -- an item that only ends something
    have hgone (thread : ServerDownloadThread) (hdlQueue : thread.dlQueue = rest)
        (hthreadCurr : thread.curr = none) : Windows shareOf { s with
          thread := thread
          asked := if isMarked it then s.asked.tail else s.asked
          finished := s.finished ++ [it] } :=
      { order := by
          rw [hdlQueue]
          exact hrest
        marks := by
          rw [hdlQueue]
          exact hasked
        items := by
          rw [hdlQueue, hthreadCurr, Option.toList_none, List.nil_append, List.append_assoc,
            List.singleton_append]
          exact hitems
        fits := fun x hx => hfits x (List.mem_cons_of_mem it (hdlQueue ▸ hx))
        opened := h.opened
        curr := by
          intro x hx
          rw [hthreadCurr] at hx
          cases hx }
    -- an item that is worked on
    have hworked (thread : ServerDownloadThread) (hdlQueue : thread.dlQueue = rest)
        (hthreadCurr : thread.curr = some it) (haction : it.action ≠ .quit ∧ it.action ≠ .skip) :
        Windows shareOf { s with
          thread := thread
          asked := if isMarked it then s.asked.tail else s.asked } :=
      { order := by
          rw [hdlQueue]
          exact hrest
        marks := by
          rw [hdlQueue]
          exact hasked
        items := by
          rw [hdlQueue, hthreadCurr, Option.toList_some, List.singleton_append]
          exact hitems
        fits := fun x hx => hfits x (List.mem_cons_of_mem it (hdlQueue ▸ hx))
        opened := h.opened
        curr := by
          intro x hx
          rw [hthreadCurr] at hx
          cases hx
          rw [hdlQueue]
          exact ⟨(hfits it List.mem_cons_self).close, haction, fun hfile y hy =>
            (hfirst y hy).start hfile⟩ }
    unfold ServerDownloadThread.take at hthread
    rw [hqueue] at hthread
    cases haction : it.action with
    | quit =>
      have hmarked : isMarked it = false := by simp [isMarked, isFull, haction]
      simp only [haction] at hthread
      split at hthread
      next hempty =>
        cases hthread
        have hnil := List.isEmpty_iff.mp hempty
        have hgone' := hgone { s.thread with dlQueue := [], ended := true } hnil.symm hcurr
        simpa [takenAway, haction, hempty] using hgone'
      next hmore =>
        cases hthread
        have hperm : (it :: rest).Perm (rest ++ [it]) :=
          (List.perm_append_singleton it rest).symm
        have hbehind : InOrder shareOf (rest ++ [it]) :=
          InOrder.snoc hrest fun x _ => before_quitOrStop x (by simp [isQuitOrStop, haction])
        have hmoved : Windows shareOf { s.withQueue (rest ++ [it]) with asked := s.asked } := by
          apply h.withQueue (hqueue ▸ sameItems_of_perm hperm) hbehind
          rw [List.filter_append, hasked, List.filter_cons_of_neg (by simp [hmarked])]
          simp [hmarked]
        simpa [takenAway, haction, hmore, hmarked, SnapshotWindows.withQueue] using hmoved
    | skip =>
      simp only [haction] at hthread
      cases hthread
      simpa [takenAway, haction] using
        hgone { s.thread with dlQueue := rest, skipping := true } rfl hcurr
    | fileclient | startShadowcopy | stopShadowcopy =>
      simp only [haction] at hthread
      cases hthread
      have hworked' := hworked { s.thread with dlQueue := rest, curr := some it } rfl rfl
        (by simp [haction])
      simpa [takenAway, haction] using hworked'

theorem Windows.process (h : Windows shareOf s) {curr : SQueueItem} {o : TransferOutcome}
    (hcurr : s.thread.curr = some curr) : Windows shareOf { s with
      thread := { s.thread.processItem saveIncompleteFile curr o with curr := none }
      finished := if requeued s.thread curr o then s.finished else s.finished ++ [curr] } := by
  obtain ⟨hfits, haction, hstarted⟩ := h.curr curr hcurr
  have hdlQueue := processItem_dlQueue (o := o) (t := s.thread) saveIncompleteFile hfits.script.1
    haction
  have hitems := h.items
  rw [hcurr, Option.toList_some, List.singleton_append] at hitems
  cases hrequeued : requeued s.thread curr o with
  | false =>
    rw [hrequeued, if_neg Bool.false_ne_true] at hdlQueue
    exact
      { order := hdlQueue ▸ h.order
        marks := hdlQueue ▸ h.marks
        items := by
          dsimp only
          rw [hdlQueue, if_neg Bool.false_ne_true, Option.toList_none, List.nil_append,
            List.append_assoc, List.singleton_append]
          exact hitems
        fits := fun x hx => h.fits x (hdlQueue ▸ hx)
        opened := h.opened
        curr := fun x hx => by cases hx }
  | true =>
    rw [hrequeued, if_pos rfl] at hdlQueue
    have hchunked : curr.isChunked = true := by
      simp only [requeued, Bool.and_eq_true] at hrequeued
      exact hrequeued.1.1.1.2
    have hfile := action_of_chunked hchunked
    have hlasting : (fullOf curr).lasting = curr.lasting := by
      simp [lasting, fullOf, ofAction, hfile, hfits.script.2]
    have hinserted : Inserted s.thread.dlQueue (fullOf curr) (s.thread.addAtFront curr).dlQueue :=
      insert_parts h.order rfl
    have hperm := s.thread.addAtFront_perm curr
    exact
      { order := by
          dsimp only
          rw [hdlQueue]
          exact hinserted.inOrder h.order rfl rfl fun front back hparts _ y hy =>
            hstarted hfile y (hparts ▸ List.mem_append_right front hy)
        marks := by
          dsimp only
          rw [hdlQueue]
          exact (hinserted.marked rfl).trans h.marks
        items := by
          dsimp only
          rw [hdlQueue, if_pos rfl, Option.toList_none, List.nil_append]
          refine hitems.trans ?_
          rw [List.map_append, List.map_append]
          refine List.Perm.append_left _ ?_
          rw [List.map_cons, ← hlasting, ← List.map_cons]
          exact (hperm.map lasting).symm
        fits := by
          intro x hx
          dsimp only at hx
          rw [hdlQueue] at hx
          rcases List.mem_cons.mp (hperm.mem_iff.mp hx) with rfl | hx
          · have hfull := hfits.congr hlasting.symm
            exact ⟨hfull.script, hfull.file, hfull.start, fun hstop => by cases hstop⟩
          · exact h.fits x hx
        opened := h.opened
        curr := fun x hx => by cases hx }

theorem Windows.step {e : Event} (h : Windows shareOf s)
    (hstep : s.step shareOf cfg saveIncompleteFile e = some s') : Windows shareOf s' := by
  cases e with
  | addToQueueStartShadowcopy fn =>
    simp only [SnapshotWindows.step] at hstep
    split at hstep
    next hopen =>
      obtain ⟨s₁, hadd, rfl⟩ := Option.map_eq_some_iff.mp hstep
      exact h.addStart hopen.1 hopen.2 hadd
    next => cases hstep
  | addToQueueFull a =>
    simp only [SnapshotWindows.step] at hstep
    split at hstep
    next hfile =>
      exact @Windows.addFile shareOf s s' h (ofFullArgs a) rfl ⟨hfile.1, rfl⟩ rfl hfile.2 hstep
    next => cases hstep
  | addToQueueChunked a =>
    simp only [SnapshotWindows.step] at hstep
    split at hstep
    next hfile =>
      exact @Windows.addFile shareOf s s' h (ofChunkedArgs a) rfl ⟨hfile.1, rfl⟩ rfl hfile.2 hstep
    next => cases hstep
  | addToQueueStopShadowcopy fn =>
    simp only [SnapshotWindows.step] at hstep
    split at hstep
    next hopened =>
      obtain ⟨s₁, hadd, rfl⟩ := Option.map_eq_some_iff.mp hstep
      exact h.addStop hopened hadd
    next => cases hstep
  | queueStop =>
    cases hstep
    exact h.queueStop
  | queueSkip =>
    cases hstep
    exact h.queueSkip
  | take =>
    simp only [SnapshotWindows.step] at hstep
    split at hstep
    · cases hstep
    next hidle =>
      refine h.take ?_ hstep
      simp only [Bool.or_eq_true, not_or] at hidle
      exact Option.not_isSome_iff_eq_none.mp hidle.1
  | process o =>
    obtain ⟨curr, hcurr, rfl⟩ := Option.map_eq_some_iff.mp hstep
    exact h.process hcurr
  | getQueuedFileFull prepare =>
    cases hstep
    obtain ⟨horder, hmarks⟩ := getQueuedFileFull_inOrder prepare h.order
    rw [h.marks] at hmarks
    exact h.withQueue (getQueuedFileFull_sameItems prepare _) horder hmarks
  | getQueuedFileChunked prepare =>
    cases hstep
    obtain ⟨horder, hmarks⟩ :=
      getQueuedFileChunked_inOrder prepare (s.thread.dlQueue.length + 1) h.order
    exact h.withQueue (getQueuedFileChunked_sameItems prepare _ _) horder (hmarks.trans h.marks)
  | resetQueueFull =>
    cases hstep
    obtain ⟨horder, hmarks⟩ := resetQueueFull_inOrder h.order
    refine h.withQueue (sameItems_map _ (fun it => ?_) _) horder hmarks
    split <;> rfl
  | resetQueueChunked =>
    cases hstep
    obtain ⟨horder, hmarks⟩ := resetQueueChunked_inOrder h.order
    refine h.withQueue (sameItems_map _ (fun it => ?_) _) horder (hmarks.trans h.marks)
    split <;> rfl
  | unqueueFileFull fn finishScript =>
    simp only [SnapshotWindows.step] at hstep
    split at hstep
    · cases hstep
    next hlatest =>
      cases hstep
      obtain ⟨horder, hmarks⟩ := @unqueueFull_inOrder shareOf (fullNamed cfg fn finishScript) _
        h.order (fun it hit => by simp only [fullNamed, Bool.and_eq_true] at hit; exact hit.1.1)
        (fun it hit => by
          rw [h.marks] at hit
          exact Bool.eq_false_iff.mpr fun hcond => hlatest (List.any_eq_true.mpr ⟨it, hit, hcond⟩))
      rw [h.marks] at hmarks
      exact h.withQueue (unqueue_sameItems _ _) horder hmarks
  | unqueueFileChunked remotefn =>
    cases hstep
    obtain ⟨horder, hmarks⟩ := @unqueueChunked_inOrder shareOf
      (fun it => it.isChunked && it.getDLPath cfg = remotefn) _ h.order
      (fun it hit => by simp only [Bool.and_eq_true] at hit; exact hit.1)
    exact h.withQueue (unqueue_sameItems _ _) horder (hmarks.trans h.marks)

theorem windows_of_run {es : List Event}
    (hrun : TransitionSystem.run (step shareOf cfg saveIncompleteFile) initial es = some s) :
    Windows shareOf s :=
  TransitionSystem.run_invariant (fun _ _ _ h hstep => Windows.step h hstep) initial_windows hrun

theorem Windows.next (h : Windows shareOf s) {it : SQueueItem} {later : List SQueueItem}
    (hasked : s.asked = it :: later) : s.thread.dlQueue.find? (·.isFull) = some it := by
  have hmarks := h.marks
  rw [hasked] at hmarks
  obtain ⟨before, after, hqueue, hbefore, hit, -⟩ := List.filter_eq_cons_iff.mp hmarks
  refine List.find?_eq_some_iff_append.mpr
    ⟨(Bool.and_eq_true_iff.mp hit).1, before, after, hqueue, fun x hx => ?_⟩
  have horder := h.order
  rw [hqueue] at horder
  have hpair := (List.pairwise_append.mp horder).2.2 x hx it List.mem_cons_self
  have hmarked := hbefore x hx
  have hunmarked : isUnmarked x = false :=
    Bool.eq_false_iff.mpr fun hunmarked => hpair.marks ⟨hunmarked, hit⟩
  cases hfull : x.isFull with
  | false => rfl
  | true =>
    cases hqueued : x.queued with
    | false => simp [isUnmarked, hfull, hqueued] at hunmarked
    | true => simp [isMarked, hfull, hqueued] at hmarked

/-- At all times each file stands behind the start of the shadow copy of its share and in front of
the stop, the full item that is taken next is the one that was requested first, and no item is lost
or there twice. -/
theorem files_inside_windows {es : List Event}
    (hrun : TransitionSystem.run (step shareOf cfg saveIncompleteFile) initial es = some s) :
    (∀ before it after, s.thread.dlQueue = before ++ it :: after → it.action = .fileclient →
      (∀ y ∈ after, y.action = .startShadowcopy → y.fn ≠ shareOf it.currPath it.fn) ∧
      (∀ y ∈ before, y.action = .stopShadowcopy → y.fn ≠ shareOf it.currPath it.fn)) ∧
    (∀ before it after, s.thread.dlQueue = before ++ it :: after → it.isFull = true →
      it.queued = true → ∀ x ∈ before, x.isFull = true → x.queued = true) ∧
    s.thread.dlQueue.filter (fun it => it.isFull && it.queued) = s.asked ∧
    (∀ it later, s.asked = it :: later → s.thread.dlQueue.find? (·.isFull) = some it) ∧
    (s.queuedItems.map lasting).Perm
      ((s.finished ++ (s.thread.curr.toList ++ s.thread.dlQueue)).map lasting) := by
  have h := windows_of_run hrun
  refine ⟨?_, ?_, h.marks, fun it later hasked => h.next hasked, h.items⟩
  · intro before it after hqueue hfile
    have horder := h.order
    rw [hqueue] at horder
    obtain ⟨-, hlast, hacross⟩ := List.pairwise_append.mp horder
    constructor
    · exact fun y hy hstart => (((List.pairwise_cons.mp hlast).1 y hy).start hfile hstart).symm
    · exact fun y hy hstop => ((hacross y hy it List.mem_cons_self).stop hstop hfile).symm
  · intro before it after hqueue hfull hqueued x hx hxfull
    have horder := h.order
    rw [hqueue] at horder
    have hpair := (List.pairwise_append.mp horder).2.2 x hx it List.mem_cons_self
    by_contra hnot
    rw [Bool.not_eq_true] at hnot
    exact hpair.marks ⟨by simp [isUnmarked, hxfull, hnot], by simp [isMarked, hfull, hqueued]⟩

def firstFolder (currPath fn : List UInt8) : List UInt8 :=
  ((currPath ++ slash :: fn).dropWhile (· = slash)).takeWhile (· ≠ slash)

def nothingOld : TransferOutcome where
  tempFile := true
  prepare := ⟨false, false, false, false, false⟩
  rc := fun _ => .success
  retryTempFiles := fun _ => true
  received := true
  readingFailed := false
  linked := false
  copied := false
  shadowcopyOk := true
  script := ⟨true, true, []⟩

/-- A patch download in hand is put back as a whole one in front of the stop. -/
def requeueEvents : List Event :=
  [.addToQueueStartShadowcopy [97], .addToQueueChunked ⟨1, [98], [47, 97], false, false, 0, 0⟩,
    .addToQueueFull ⟨2, [99], [47, 97], false, false, 0, 0⟩, .addToQueueStopShadowcopy [97], .queueStop,
    .take, .process nothingOld, .take, .getQueuedFileFull (fun _ => nothingOld.prepare),
    .process nothingOld]

theorem files_inside_windows_requeue : ∃ s,
    TransitionSystem.run (step firstFolder ⟨0, [], false⟩ false) initial requeueEvents = some s ∧
    (∀ before it after, s.thread.dlQueue = before ++ it :: after → it.action = .fileclient →
      (∀ y ∈ after, y.action = .startShadowcopy → y.fn ≠ firstFolder it.currPath it.fn) ∧
      (∀ y ∈ before, y.action = .stopShadowcopy → y.fn ≠ firstFolder it.currPath it.fn)) ∧
    (∀ before it after, s.thread.dlQueue = before ++ it :: after → it.isFull = true →
      it.queued = true → ∀ x ∈ before, x.isFull = true → x.queued = true) ∧
    s.thread.dlQueue.filter (fun it => it.isFull && it.queued) = s.asked ∧
    (∀ it later, s.asked = it :: later → s.thread.dlQueue.find? (·.isFull) = some it) ∧
    (s.queuedItems.map lasting).Perm
      ((s.finished ++ (s.thread.curr.toList ++ s.thread.dlQueue)).map lasting) := by
  have hsome : (TransitionSystem.run (step firstFolder ⟨0, [], false⟩ false) initial
    requeueEvents).isSome = true := rfl
  obtain ⟨s, hrun⟩ := Option.isSome_iff_exists.mp hsome
  exact ⟨s, hrun, files_inside_windows hrun⟩

example : (TransitionSystem.run (step firstFolder ⟨0, [], false⟩ false) initial requeueEvents).map
    (fun s => s.thread.dlQueue.map fun it => (it.action, it.id)) =
      some [(.fileclient, 2), (.fileclient, 1), (.stopShadowcopy, 2 ^ 64 - 1),
        (.quit, 2 ^ 64 - 1)] := by
  decide

end Runs

end SnapshotWindows

end UrBackup
