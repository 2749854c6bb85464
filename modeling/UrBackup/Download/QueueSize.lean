import UrBackup.Download.DownloadThread

/-! The weight of the download queue, which is kept in a counter of its own. Each function here says
what the source function of that name does to the counter. -/
namespace UrBackup

structure WeighedQueue where
  thread : ServerDownloadThread
  queueSize : Nat

namespace WeighedQueue

open ServerDownloadThread (Event retryHash retryPatch prepared)
open SQueueItem

def maxQueueSize : Nat := 500
def queueItemsFull : Nat := 1
def queueItemsChunked : Nat := 4

section Counter

/-- The counter is of type `size_t`. -/
def grow (size k : Nat) : Nat := (size + k) % 2 ^ 64

def shrink (size k : Nat) : Nat := (size + (2 ^ 64 - k)) % 2 ^ 64

def takeItem (curr : SQueueItem) (size : Nat) : Nat :=
  if curr.action = .fileclient then
    match curr.fileclient with
    | .full => shrink size queueItemsFull
    | .chunked => shrink size queueItemsChunked
  else size

def addToQueue (chunked : Bool) (size : Nat) : Nat :=
  grow size (if chunked then queueItemsChunked else queueItemsFull)

def switchItem (size : Nat) : Nat := shrink size (queueItemsChunked - queueItemsFull)

/-- The files that a script announces are queued. Its end is queued without a word to the
counter. -/
def transferred (todl : SQueueItem) (o : ScriptOutput) (size : Nat) : Nat :=
  if todl.isScript && !todl.metadataOnly then
    o.tarFiles.foldl (fun size file => addToQueue file.1 size) size
  else size

def loadFile (todl : SQueueItem) (o : TransferOutcome) (size : Nat) : Nat :=
  if !todl.metadataOnly && !o.tempFile then size
  else if retryHash o.rc 5 0 = .success then transferred todl o.script size
  else size

def loadPrepared (todl : SQueueItem) (o : TransferOutcome) (files : SPatchDownloadFiles)
    (fullDl : Bool) (size : Nat) : Nat :=
  if !files.origFile && fullDl then addToQueue false size
  else if files.prepareError then size
  else
    match retryPatch o.rc o.retryTempFiles 5 0 with
    | none => size
    | some rc => if rc = .success then transferred todl o.script size else size

def loadFilePatch (todl : SQueueItem) (o : TransferOutcome) (size : Nat) : Nat :=
  if todl.patchDlFiles.prepareError then loadPrepared todl o todl.patchDlFiles false size
  else loadPrepared todl o (prepared todl o).1 (prepared todl o).2 size

def processItem (t : ServerDownloadThread) (curr : SQueueItem) (o : TransferOutcome) (size : Nat) :
    Nat :=
  if t.isOffline || t.skipping then size
  else if curr.action = .startShadowcopy || curr.action = .stopShadowcopy then size
  else
    match curr.fileclient with
    | .full => if curr.scriptEnd then size else loadFile curr o size
    | .chunked => loadFilePatch curr o size

def fullPass (prepare : SQueueItem → PrepareOutcome) : Nat → List SQueueItem → Nat → Nat
  | _, [], size => size
  | maxPrepare, it :: rest, size =>
    if it.isChunked && !it.queued && maxPrepare > 0 then
      if it.patchDlFiles.prepareError || it.patchDlFiles.prepared then
        fullPass prepare maxPrepare rest size
      else
        let (files, fullDl) := preparePatchDownloadFiles (prepare it)
        if !files.origFile && fullDl then switchItem size
        else fullPass prepare (maxPrepare - 1) rest size
    else if it.isFull && !it.queued then size
    else fullPass prepare maxPrepare rest size

def getQueuedFileFull (prepare : SQueueItem → PrepareOutcome) (queue : List SQueueItem)
    (size : Nat) : Nat :=
  match DlQueue.fullPass prepare 1 [] queue with
  | .found _ _ | .nothing _ => fullPass prepare 1 queue size
  | .retry queue' => fullPass prepare 0 queue' (fullPass prepare 1 queue size)

def chunkedPass (prepare : SQueueItem → PrepareOutcome) : List SQueueItem → Nat → Nat
  | [], size => size
  | it :: rest, size =>
    if it.isChunked && !it.queued && !it.patchDlFiles.prepareError then
      if it.patchDlFiles.prepared then size
      else
        let (files, fullDl) := preparePatchDownloadFiles (prepare it)
        let item := { it with patchDlFiles := files }
        if !files.origFile && fullDl then
          if DlQueue.hasFullQueuedAfter (item :: rest) then switchItem size
          else chunkedPass prepare rest (switchItem size)
        else if files.prepared then size
        else chunkedPass prepare rest size
    else chunkedPass prepare rest size

def getQueuedFileChunked (prepare : SQueueItem → PrepareOutcome) :
    Nat → List SQueueItem → Nat → Nat
  | 0, _, size => size
  | passes + 1, queue, size =>
    match DlQueue.chunkedPass prepare [] queue with
    | .found _ _ | .nothing _ => chunkedPass prepare queue size
    | .retry queue' =>
      getQueuedFileChunked prepare passes queue' (chunkedPass prepare queue size)

end Counter

def sizeAfter (s : WeighedQueue) : Event → Nat
  | .addToQueueFull _ => addToQueue false s.queueSize
  | .addToQueueChunked _ => addToQueue true s.queueSize
  | .take =>
    match s.thread.dlQueue with
    | [] => s.queueSize
    | curr :: _ => takeItem curr s.queueSize
  | .process o =>
    match s.thread.curr with
    | none => s.queueSize
    | some curr => processItem s.thread curr o s.queueSize
  | .getQueuedFileFull prepare => getQueuedFileFull prepare s.thread.dlQueue s.queueSize
  | .getQueuedFileChunked prepare =>
    getQueuedFileChunked prepare (s.thread.dlQueue.length + 1) s.thread.dlQueue s.queueSize
  | .addToQueueStartShadowcopy | .addToQueueStopShadowcopy | .queueStop | .queueSkip
  | .resetQueueFull | .resetQueueChunked | .unqueueFileFull _ _ | .unqueueFileChunked _ =>
    s.queueSize

def step (cfg : DlConfig) (saveIncompleteFile : Bool) (s : WeighedQueue) (e : Event) :
    Option WeighedQueue :=
  (s.thread.step cfg saveIncompleteFile e).map fun thread => ⟨thread, s.sizeAfter e⟩

def initial : WeighedQueue := ⟨.initial, 0⟩

def sleepQueue (s : WeighedQueue) : Bool := s.queueSize > maxQueueSize

def queueWeight (queue : List SQueueItem) : Nat :=
  queueItemsFull * queue.countP (·.isFull) + queueItemsChunked * queue.countP (·.isChunked)

/-- The counter has the weight of the queue, and does not hold anyone up when the queue is empty. -/
def Weighed (s : WeighedQueue) : Prop :=
  s.queueSize = queueWeight s.thread.dlQueue % 2 ^ 64 ∧
    (s.thread.dlQueue = [] → s.sleepQueue = false)

/-- An item is a script whose output arrives, so that the end of the script is queued. -/
def ScriptLoaded (t : ServerDownloadThread) (curr : SQueueItem) (o : TransferOutcome) : Prop :=
  curr.isScript = true ∧ t.isOffline = false ∧ t.skipping = false ∧
    curr.action ≠ .startShadowcopy ∧ curr.action ≠ .stopShadowcopy ∧
    match curr.fileclient with
    | .full => curr.scriptEnd = false ∧ (curr.metadataOnly = true ∨ o.tempFile = true) ∧
        retryHash o.rc 5 0 = .success
    | .chunked => curr.patchDlFiles.prepareError = false ∧
        (prepared curr o).1.prepareError = false ∧
        ¬ ((prepared curr o).1.origFile = false ∧ (prepared curr o).2 = true) ∧
        retryPatch o.rc o.retryTempFiles 5 0 = some .success

/-- The step queues the end of a script. -/
def QueuesScriptEnd (s : WeighedQueue) : Event → Prop
  | .process o => ∃ curr, s.thread.curr = some curr ∧ ScriptLoaded s.thread curr o
  | _ => False

section Weights

theorem queueWeight_append (queue queue' : List SQueueItem) :
    queueWeight (queue ++ queue') = queueWeight queue + queueWeight queue' := by
  simp only [queueWeight, List.countP_append, Nat.mul_add]
  omega

theorem queueWeight_cons (it : SQueueItem) (queue : List SQueueItem) :
    queueWeight (it :: queue) = queueWeight [it] + queueWeight queue :=
  queueWeight_append [it] queue

theorem queueWeight_perm {queue queue' : List SQueueItem} (h : queue.Perm queue') :
    queueWeight queue = queueWeight queue' := by
  rw [queueWeight, queueWeight, h.countP_eq, h.countP_eq]

theorem weight_full {it : SQueueItem} (haction : it.action = .fileclient)
    (hfull : it.fileclient = .full) : queueWeight [it] = queueItemsFull := by
  simp [queueWeight, isFull, isChunked, haction, hfull]

theorem weight_chunked {it : SQueueItem} (haction : it.action = .fileclient)
    (hchunked : it.fileclient = .chunked) : queueWeight [it] = queueItemsChunked := by
  simp [queueWeight, isFull, isChunked, haction, hchunked]

theorem weight_action {it : SQueueItem} (haction : it.action ≠ .fileclient) :
    queueWeight [it] = 0 := by
  simp [queueWeight, isFull, isChunked, haction]

theorem weight_congr {it it' : SQueueItem} (haction : it'.action = it.action)
    (hclient : it'.fileclient = it.fileclient) : queueWeight [it'] = queueWeight [it] := by
  simp [queueWeight, isFull, isChunked, haction, hclient]

theorem queueWeight_middle (before rest : List SQueueItem) {it it' : SQueueItem}
    (h : queueWeight [it'] = queueWeight [it]) :
    queueWeight (before ++ it' :: rest) = queueWeight (before ++ it :: rest) := by
  rw [queueWeight_append, queueWeight_append, queueWeight_cons, queueWeight_cons it, h]

/-- The counter lacks some weight of a queue. -/
def Tracks (lacking size : Nat) (queue : List SQueueItem) : Prop :=
  size < 2 ^ 64 ∧ (size + lacking) % 2 ^ 64 = queueWeight queue % 2 ^ 64

variable {lacking size : Nat} {queue queue' : List SQueueItem}

theorem Tracks.congr (h : Tracks lacking size queue) (hweight : queueWeight queue' = queueWeight queue) :
    Tracks lacking size queue' := ⟨h.1, hweight ▸ h.2⟩

theorem Tracks.grow (h : Tracks lacking size queue) {k : Nat}
    (hweight : queueWeight queue' = queueWeight queue + k) :
    Tracks lacking (grow size k) queue' := by
  obtain ⟨hlt, heq⟩ := h
  refine ⟨Nat.mod_lt _ (Nat.two_pow_pos 64), ?_⟩
  rw [hweight, WeighedQueue.grow]
  omega

theorem Tracks.shrink (h : Tracks lacking size queue) {k : Nat} (hk : k ≤ 2 ^ 64)
    (hweight : queueWeight queue = queueWeight queue' + k) :
    Tracks lacking (shrink size k) queue' := by
  obtain ⟨hlt, heq⟩ := h
  refine ⟨Nat.mod_lt _ (Nat.two_pow_pos 64), ?_⟩
  rw [hweight] at heq
  rw [WeighedQueue.shrink]
  omega

theorem Tracks.lack (h : Tracks lacking size queue) {k : Nat}
    (hweight : queueWeight queue' = queueWeight queue + k) : Tracks (lacking + k) size queue' := by
  obtain ⟨hlt, heq⟩ := h
  refine ⟨hlt, ?_⟩
  rw [hweight]
  omega

theorem Tracks.addToQueue (h : Tracks lacking size queue) (chunked : Bool)
    (hweight : queueWeight queue' =
      queueWeight queue + if chunked then queueItemsChunked else queueItemsFull) :
    Tracks lacking (addToQueue chunked size) queue' := h.grow hweight

theorem Tracks.switchItem (h : Tracks lacking size queue)
    (hweight : queueWeight queue = queueWeight queue' + 3) :
    Tracks lacking (switchItem size) queue' := h.shrink (by decide) hweight

/-- The counter follows a queue, save for the end of a script. -/
def Follows (scriptEnd : Prop) (size : Nat) (queue : List SQueueItem) : Prop :=
  (scriptEnd → Tracks 1 size queue) ∧ (¬ scriptEnd → Tracks 0 size queue)

theorem Follows.tracks_iff {scriptEnd : Prop} (h : Follows scriptEnd size queue) :
    Tracks 0 size queue ↔ ¬ scriptEnd := by
  refine ⟨fun htracks hscript => ?_, h.2⟩
  obtain ⟨-, heq⟩ := htracks
  obtain ⟨hlt, heq'⟩ := h.1 hscript
  omega

theorem Tracks.follows {scriptEnd : Prop} (h : Tracks 0 size queue) (hscript : ¬ scriptEnd) :
    Follows scriptEnd size queue := ⟨fun h => absurd h hscript, fun _ => h⟩

theorem Follows.iff {scriptEnd scriptEnd' : Prop} (h : Follows scriptEnd size queue)
    (hiff : scriptEnd' ↔ scriptEnd) : Follows scriptEnd' size queue :=
  ⟨fun hscript => h.1 (hiff.mp hscript), fun hscript => h.2 fun h' => hscript (hiff.mpr h')⟩

end Weights

section Passes

variable {lacking size : Nat}

theorem switched_weight {it it' : SQueueItem} (hit : it.isChunked = true)
    (haction : it'.action = it.action) (hclient : it'.fileclient = .full) :
    queueWeight [it] = queueWeight [it'] + 3 := by
  simp only [isChunked, Bool.and_eq_true, decide_eq_true_eq] at hit
  rw [weight_chunked hit.1 hit.2, weight_full (haction.trans hit.1) hclient]
  rfl

theorem switched_middle (before rest : List SQueueItem) {it it' : SQueueItem}
    (hit : it.isChunked = true) (haction : it'.action = it.action)
    (hclient : it'.fileclient = .full) :
    queueWeight (before ++ it :: rest) = queueWeight (before ++ it' :: rest) + 3 := by
  have hweight := switched_weight hit haction hclient
  rw [queueWeight_append, queueWeight_append, queueWeight_cons, queueWeight_cons it']
  omega

theorem switchToFull_weight (before rest : List SQueueItem) {it it' : SQueueItem}
    (hit : it.isChunked = true) (haction : it'.action = it.action) :
    queueWeight (before ++ it :: rest) =
      queueWeight (DlQueue.switchToFull before it' rest) + 3 := by
  have hperm : (DlQueue.switchToFull before it' rest).Perm
      (before ++ { it' with fileclient := .full, switched := true } :: rest) :=
    ((DlQueue.postponeQuitStop_perm _ _).trans
      (DlQueue.insertFullQueueEarliest_perm _ _ _)).trans List.perm_middle.symm
  rw [queueWeight_perm hperm]
  exact switched_middle before rest hit haction rfl

/-- Induction on what is left of the queue. -/
theorem fullPass_tracks (prepare : SQueueItem → PrepareOutcome) (maxPrepare : Nat)
    (before rest : List SQueueItem) (h : Tracks lacking size (before ++ rest)) :
    Tracks lacking (fullPass prepare maxPrepare rest size)
      (DlQueue.fullPass prepare maxPrepare before rest).queue := by
  induction rest generalizing maxPrepare before with
  | nil =>
    rw [List.append_nil] at h
    unfold DlQueue.fullPass fullPass
    exact h
  | cons it rest ih =>
    have hpass : ∀ maxPrepare it', queueWeight [it'] = queueWeight [it] →
        Tracks lacking (fullPass prepare maxPrepare rest size)
          (DlQueue.fullPass prepare maxPrepare (before ++ [it']) rest).queue := by
      intro maxPrepare it' hweight
      apply ih
      rw [List.append_assoc]
      exact h.congr (queueWeight_middle before rest hweight)
    unfold DlQueue.fullPass fullPass
    split
    next hchunked =>
      have hit : it.isChunked = true := by
        simp only [Bool.and_eq_true] at hchunked
        exact hchunked.1.1
      split
      · exact hpass _ it rfl
      · dsimp only
        split
        · split
          · exact h.switchItem (switchToFull_weight before rest hit rfl)
          · exact h.switchItem (switched_middle before rest hit rfl rfl)
        · exact hpass _ _ (weight_congr rfl rfl)
    next =>
      split
      · exact h.congr (queueWeight_middle before rest (weight_congr rfl rfl))
      · exact hpass _ it rfl

theorem getQueuedFileFull_tracks (prepare : SQueueItem → PrepareOutcome)
    {queue : List SQueueItem} (h : Tracks lacking size queue) :
    Tracks lacking (getQueuedFileFull prepare queue size)
      (DlQueue.getQueuedFileFull prepare queue).2 := by
  have hfirst := fullPass_tracks prepare 1 [] queue h
  unfold DlQueue.getQueuedFileFull getQueuedFileFull
  cases hpass : DlQueue.fullPass prepare 1 [] queue with
  | found it queue' =>
    rw [hpass] at hfirst
    exact hfirst
  | nothing queue' =>
    rw [hpass] at hfirst
    exact hfirst
  | retry queue' =>
    rw [hpass] at hfirst
    have hsecond := fullPass_tracks prepare 0 [] queue' hfirst
    dsimp only
    cases hpass' : DlQueue.fullPass prepare 0 [] queue' <;>
      · rw [hpass'] at hsecond
        exact hsecond

/-- Induction on what is left of the queue. -/
theorem chunkedPass_tracks (prepare : SQueueItem → PrepareOutcome)
    (before rest : List SQueueItem) (h : Tracks lacking size (before ++ rest)) :
    Tracks lacking (chunkedPass prepare rest size)
      (DlQueue.chunkedPass prepare before rest).queue := by
  induction rest generalizing before size with
  | nil =>
    rw [List.append_nil] at h
    exact h
  | cons it rest ih =>
    have hpass : ∀ it', queueWeight [it'] = queueWeight [it] →
        Tracks lacking (chunkedPass prepare rest size)
          (DlQueue.chunkedPass prepare (before ++ [it']) rest).queue := by
      intro it' hweight
      apply ih
      rw [List.append_assoc]
      exact h.congr (queueWeight_middle before rest hweight)
    unfold DlQueue.chunkedPass chunkedPass
    split
    next hchunked =>
      have hit : it.isChunked = true := by
        simp only [Bool.and_eq_true] at hchunked
        exact hchunked.1.1
      split
      · exact h.congr (queueWeight_middle before rest (weight_congr rfl rfl))
      · dsimp only
        split
        · split
          · exact h.switchItem (switchToFull_weight before rest hit rfl)
          · apply ih
            rw [List.append_assoc]
            exact h.switchItem (switched_middle before rest hit rfl rfl)
        · split
          · exact h.congr (queueWeight_middle before rest (weight_congr rfl rfl))
          · exact hpass _ (weight_congr rfl rfl)
    next => exact hpass it rfl

/-- Induction on the number of passes. -/
theorem getQueuedFileChunked_tracks (prepare : SQueueItem → PrepareOutcome) (passes : Nat)
    {queue : List SQueueItem} (h : Tracks lacking size queue) :
    Tracks lacking (getQueuedFileChunked prepare passes queue size)
      (DlQueue.getQueuedFileChunked prepare passes queue) := by
  induction passes generalizing queue size with
  | zero => exact h
  | succ passes ih =>
    have hpass := chunkedPass_tracks prepare [] queue h
    unfold DlQueue.getQueuedFileChunked getQueuedFileChunked
    cases heq : DlQueue.chunkedPass prepare [] queue with
    | found it queue' =>
      rw [heq] at hpass
      exact hpass
    | nothing queue' =>
      rw [heq] at hpass
      exact hpass
    | retry queue' =>
      rw [heq] at hpass
      exact ih hpass

theorem map_weight (f : SQueueItem → SQueueItem) (haction : ∀ it, (f it).action = it.action)
    (hclient : ∀ it, (f it).fileclient = it.fileclient) (queue : List SQueueItem) :
    queueWeight (queue.map f) = queueWeight queue := by
  induction queue with
  | nil => rfl
  | cons it queue ih =>
    rw [List.map_cons, queueWeight_cons, queueWeight_cons it, ih,
      weight_congr (haction it) (hclient it)]

theorem unqueue_weight (cond : SQueueItem → Bool) (queue : List SQueueItem) :
    queueWeight (DlQueue.unqueue cond queue) = queueWeight queue := by
  induction queue with
  | nil => rfl
  | cons it rest ih =>
    unfold DlQueue.unqueue
    split
    · exact queueWeight_middle [] rest (weight_congr rfl rfl)
    · rw [queueWeight_cons, ih, ← queueWeight_cons]

end Passes

section Steps

variable {size : Nat} {t : ServerDownloadThread}

theorem tarFiles_tracks (files : List (Bool × QueueArgs)) {lacking : Nat}
    {queue : List SQueueItem} (h : Tracks lacking size queue) :
    Tracks lacking (files.foldl (fun size file => addToQueue file.1 size) size)
      (queue ++ files.map fun (chunked, a) => ServerDownloadThread.tarItem chunked a) := by
  induction files generalizing size queue with
  | nil =>
    rw [List.map_nil, List.append_nil]
    exact h
  | cons file files ih =>
    obtain ⟨chunked, a⟩ := file
    have hfirst : Tracks lacking (addToQueue chunked size)
        (queue ++ [ServerDownloadThread.tarItem chunked a]) := by
      apply h.addToQueue
      rw [queueWeight_append]
      cases chunked <;> rfl
    have hrest := ih hfirst
    rw [List.append_assoc] at hrest
    exact hrest

theorem queueScriptEnd_weight (todl : SQueueItem) :
    queueWeight (t.queueScriptEnd todl).dlQueue = queueWeight t.dlQueue + 1 := by
  change queueWeight (DlQueue.insertFullQueueEarliest t.dlQueue (scriptEndOf todl) false).2 = _
  rw [queueWeight_perm (DlQueue.insertFullQueueEarliest_perm _ _ _), queueWeight_cons,
    Nat.add_comm]
  rfl

theorem transferred_follows (h : Tracks 0 size t.dlQueue) (todl : SQueueItem) (o : ScriptOutput) :
    Follows (todl.isScript = true) (transferred todl o size)
      (t.transferred todl o).1.dlQueue := by
  have hqueue : (t.transferred todl o).1.dlQueue =
      (if todl.isScript && !todl.metadataOnly then
        ((if todl.isScript then t.queueScriptEnd todl else t).addTarFiles o.tarFiles)
      else if todl.isScript then t.queueScriptEnd todl else t).dlQueue := by
    simp only [ServerDownloadThread.transferred]
    split <;> rfl
  rw [hqueue, transferred]
  cases hscript : todl.isScript with
  | false => exact h.follows Bool.false_ne_true
  | true =>
    refine ⟨fun _ => ?_, fun hnot => absurd rfl hnot⟩
    have hlack : Tracks 1 size (t.queueScriptEnd todl).dlQueue :=
      h.lack (queueScriptEnd_weight todl)
    simp only [Bool.true_and, if_true]
    split
    · exact tarFiles_tracks o.tarFiles hlack
    · exact hlack

section

variable (h : Tracks 0 size t.dlQueue) (saveIncompleteFile : Bool) (todl : SQueueItem)
  (o : TransferOutcome)

include h

theorem loadFile_follows :
    Follows (todl.isScript = true ∧ (todl.metadataOnly = true ∨ o.tempFile = true) ∧
        retryHash o.rc 5 0 = .success)
      (loadFile todl o size) (t.loadFile saveIncompleteFile todl o).1.dlQueue := by
  unfold loadFile ServerDownloadThread.loadFile
  split
  next hfail =>
    apply h.follows
    rintro ⟨-, htemp, -⟩
    simp only [Bool.and_eq_true, Bool.not_eq_true'] at hfail
    rcases htemp with hmeta | htemp
    · exact Bool.false_ne_true (hfail.1.symm.trans hmeta)
    · exact Bool.false_ne_true (hfail.2.symm.trans htemp)
  next htemp =>
    dsimp only
    split
    next hsuccess =>
      refine (transferred_follows h todl o.script).iff ?_
      simp only [Bool.and_eq_true, Bool.not_eq_true', not_and, Bool.not_eq_false] at htemp
      refine ⟨And.left, fun hscript => ⟨hscript, ?_, hsuccess⟩⟩
      cases hmeta : todl.metadataOnly with
      | true => exact .inl rfl
      | false => exact .inr (htemp hmeta)
    next hfailed =>
      apply Tracks.follows
      · split
        · exact h
        · split <;> exact h
      · exact fun hloaded => hfailed hloaded.2.2

theorem loadPrepared_follows (files : SPatchDownloadFiles) (fullDl : Bool) :
    Follows (todl.isScript = true ∧ files.prepareError = false ∧
        ¬ (files.origFile = false ∧ fullDl = true) ∧
        retryPatch o.rc o.retryTempFiles 5 0 = some .success)
      (loadPrepared todl o files fullDl size)
      (t.loadPrepared saveIncompleteFile todl o files fullDl).1.dlQueue := by
  unfold loadPrepared ServerDownloadThread.loadPrepared
  split
  next hfull =>
    simp only [Bool.and_eq_true, Bool.not_eq_true'] at hfull
    apply Tracks.follows
    · apply h.addToQueue
      change queueWeight (t.addAtFront todl).dlQueue = _
      rw [queueWeight_perm (t.addAtFront_perm todl), queueWeight_append, Nat.add_comm]
      rfl
    · exact fun hloaded => hloaded.2.2.1 hfull
  next hfull =>
    simp only [Bool.and_eq_true, Bool.not_eq_true'] at hfull
    split
    next herror => exact h.follows fun hloaded => by simp [herror] at hloaded
    next herror =>
      cases hrc : retryPatch o.rc o.retryTempFiles 5 0 with
      | none => exact h.follows fun hloaded => by simp at hloaded
      | some rc =>
        simp only [ServerDownloadThread.patchTransferred]
        by_cases hsuccess : rc = .success
        · simp only [if_pos hsuccess]
          refine (transferred_follows h todl o.script).iff ?_
          rw [Bool.not_eq_true] at herror
          exact ⟨And.left, fun hscript => ⟨hscript, herror, hfull, congrArg some hsuccess⟩⟩
        · simp only [if_neg hsuccess]
          apply Tracks.follows
          · rw [ServerDownloadThread.patchFailed_dlQueue]
            exact h
          · exact fun hloaded => hsuccess (Option.some.inj hloaded.2.2.2)

theorem loadFilePatch_follows :
    Follows (todl.isScript = true ∧ todl.patchDlFiles.prepareError = false ∧
        (prepared todl o).1.prepareError = false ∧
        ¬ ((prepared todl o).1.origFile = false ∧ (prepared todl o).2 = true) ∧
        retryPatch o.rc o.retryTempFiles 5 0 = some .success)
      (loadFilePatch todl o size) (t.loadFilePatch saveIncompleteFile todl o).1.dlQueue := by
  unfold loadFilePatch ServerDownloadThread.loadFilePatch
  split
  next herror =>
    refine (loadPrepared_follows h saveIncompleteFile todl o todl.patchDlFiles false).iff ?_
    simp [herror]
  next herror =>
    refine (loadPrepared_follows h saveIncompleteFile todl o _ _).iff ?_
    rw [Bool.not_eq_true] at herror
    simp [herror]

end

theorem processItem_follows (h : Tracks 0 size t.dlQueue) (saveIncompleteFile : Bool)
    (curr : SQueueItem) (o : TransferOutcome) :
    Follows (ScriptLoaded t curr o) (processItem t curr o size)
      (t.processItem saveIncompleteFile curr o).dlQueue := by
  unfold processItem ServerDownloadThread.processItem ScriptLoaded
  by_cases hoff : (t.isOffline || t.skipping) = true
  · rw [if_pos hoff, if_pos hoff, ServerDownloadThread.skipItem_dlQueue]
    apply h.follows
    rintro ⟨-, honline, hworking, -⟩
    simp [honline, hworking] at hoff
  rw [if_neg hoff, if_neg hoff]
  simp only [Bool.or_eq_true, not_or, Bool.not_eq_true] at hoff
  by_cases hshadow : (decide (curr.action = .startShadowcopy) ||
      decide (curr.action = .stopShadowcopy)) = true
  · rw [if_pos hshadow, if_pos hshadow, ServerDownloadThread.goOffline_dlQueue]
    apply h.follows
    rintro ⟨-, -, -, hstart, hstop, -⟩
    simp [hstart, hstop] at hshadow
  rw [if_neg hshadow, if_neg hshadow]
  simp only [Bool.or_eq_true, decide_eq_true_eq, not_or] at hshadow
  cases curr.fileclient with
  | full =>
    dsimp only
    split
    next hend => exact h.follows fun hloaded => by simp [hend] at hloaded
    next hend =>
      rw [ServerDownloadThread.goOffline_dlQueue]
      refine (loadFile_follows h saveIncompleteFile curr o).iff ?_
      rw [Bool.not_eq_true] at hend
      simp [hoff, hshadow, hend]
  | chunked =>
    dsimp only
    rw [ServerDownloadThread.goOffline_dlQueue]
    refine (loadFilePatch_follows h saveIncompleteFile curr o).iff ?_
    simp [hoff, hshadow]

theorem takeItem_of_action {curr : SQueueItem} (haction : curr.action ≠ .fileclient) :
    takeItem curr size = size := if_neg haction

theorem takeItem_of_fileclient {curr : SQueueItem} (haction : curr.action = .fileclient) :
    takeItem curr size = shrink size (queueWeight [curr]) := by
  rw [takeItem, if_pos haction]
  cases hclient : curr.fileclient with
  | full => rw [weight_full haction hclient]
  | chunked => rw [weight_chunked haction hclient]

theorem queueWeight_singleton_le (it : SQueueItem) : queueWeight [it] ≤ 5 := by
  have hfull := @List.countP_le_length _ (fun x : SQueueItem => x.isFull) [it]
  have hchunked := @List.countP_le_length _ (fun x : SQueueItem => x.isChunked) [it]
  simp only [List.length_singleton] at hfull hchunked
  simp only [queueWeight, queueItemsFull, queueItemsChunked]
  omega

theorem takeItem_tracks {curr : SQueueItem} {rest : List SQueueItem}
    (h : Tracks 0 size (curr :: rest)) : Tracks 0 (takeItem curr size) rest := by
  have hweight := queueWeight_cons curr rest
  by_cases haction : curr.action = .fileclient
  · rw [takeItem_of_fileclient haction]
    apply h.shrink
    · exact (queueWeight_singleton_le curr).trans (by norm_num)
    · rw [hweight, Nat.add_comm]
  · rw [takeItem_of_action haction]
    apply h.congr
    rw [hweight, weight_action haction, Nat.zero_add]

theorem take_tracks {t' : ServerDownloadThread} {curr : SQueueItem} {rest : List SQueueItem}
    (hqueue : t.dlQueue = curr :: rest) (h : Tracks 0 size t.dlQueue) (htake : t.take = some t') :
    Tracks 0 (takeItem curr size) t'.dlQueue := by
  unfold ServerDownloadThread.take at htake
  rw [hqueue] at h htake
  cases haction : curr.action with
  | fileclient | skip | startShadowcopy | stopShadowcopy =>
    simp only [haction, Option.some.injEq] at htake
    subst htake
    exact takeItem_tracks h
  | quit =>
    simp only [haction] at htake
    split at htake
    next hempty =>
      cases htake
      rw [List.isEmpty_iff.mp hempty] at h
      exact takeItem_tracks h
    next =>
      cases htake
      rw [takeItem_of_action (by rw [haction]; exact nofun)]
      exact h.congr (queueWeight_perm (List.perm_append_singleton curr rest))

end Steps

section Runs

variable {cfg : DlConfig} {saveIncompleteFile : Bool} {s s' : WeighedQueue}

theorem weighed_iff : Weighed s ↔ Tracks 0 s.queueSize s.thread.dlQueue := by
  constructor
  · rintro ⟨hsize, -⟩
    rw [Tracks, Nat.add_zero, hsize, Nat.mod_mod]
    exact ⟨Nat.mod_lt _ (Nat.two_pow_pos 64), rfl⟩
  · rintro ⟨hlt, heq⟩
    rw [Nat.add_zero, Nat.mod_eq_of_lt hlt] at heq
    refine ⟨heq, fun hempty => ?_⟩
    rw [hempty] at heq
    rw [sleepQueue, heq]
    rfl

theorem addItem_dlQueue {t t' : ServerDownloadThread} {it : SQueueItem}
    (h : t.addItem it = some t') : t'.dlQueue = t.dlQueue ++ [it] := by
  unfold ServerDownloadThread.addItem at h
  split at h
  · cases h
  · cases h
    rfl

theorem addItem_tracks {t t' : ServerDownloadThread} {size : Nat} {action : EQueueAction}
    (haction : action ≠ .fileclient) (h : Tracks 0 size t.dlQueue)
    (hadd : t.addItem (.ofAction action) = some t') : Tracks 0 size t'.dlQueue := by
  rw [addItem_dlQueue hadd]
  apply h.congr
  rw [queueWeight_append, weight_action haction, Nat.add_zero]

theorem step_follows {e : Event} (h : Tracks 0 s.queueSize s.thread.dlQueue)
    (hstep : s.step cfg saveIncompleteFile e = some s') :
    Follows (s.QueuesScriptEnd e) s'.queueSize s'.thread.dlQueue := by
  obtain ⟨t, ht, rfl⟩ := Option.map_eq_some_iff.mp hstep
  cases e with
  | addToQueueFull a =>
    apply Tracks.follows _ id
    apply h.addToQueue
    rw [addItem_dlQueue ht, queueWeight_append]
    rfl
  | addToQueueChunked a =>
    apply Tracks.follows _ id
    apply h.addToQueue
    rw [addItem_dlQueue ht, queueWeight_append]
    rfl
  | addToQueueStartShadowcopy => exact (addItem_tracks (by decide) h ht).follows id
  | addToQueueStopShadowcopy => exact (addItem_tracks (by decide) h ht).follows id
  | queueStop =>
    cases ht
    apply Tracks.follows _ id
    apply h.congr
    change queueWeight (s.thread.dlQueue ++ [ofAction .quit]) = _
    rw [queueWeight_append]
    rfl
  | queueSkip =>
    cases ht
    apply Tracks.follows _ id
    apply h.congr
    change queueWeight (ofAction .skip :: s.thread.dlQueue) = _
    rw [queueWeight_cons, weight_action (by decide), Nat.zero_add]
  | take =>
    apply Tracks.follows _ id
    simp only [ServerDownloadThread.step] at ht
    split at ht
    · cases ht
    · simp only [sizeAfter]
      cases hqueue : s.thread.dlQueue with
      | nil => simp [ServerDownloadThread.take, hqueue] at ht
      | cons curr rest => exact take_tracks hqueue h ht
  | process o =>
    obtain ⟨curr, hcurr, rfl⟩ := Option.map_eq_some_iff.mp ht
    have hitem := processItem_follows h saveIncompleteFile curr o
    simp only [sizeAfter, hcurr]
    refine hitem.iff ?_
    simp [QueuesScriptEnd, hcurr]
  | getQueuedFileFull prepare =>
    cases ht
    exact (getQueuedFileFull_tracks prepare h).follows id
  | getQueuedFileChunked prepare =>
    cases ht
    exact (getQueuedFileChunked_tracks prepare _ h).follows id
  | resetQueueFull =>
    cases ht
    refine (h.congr (map_weight _ ?_ ?_ _)).follows id <;>
      · intro it
        split <;> rfl
  | resetQueueChunked =>
    cases ht
    refine (h.congr (map_weight _ ?_ ?_ _)).follows id <;>
      · intro it
        split <;> rfl
  | unqueueFileFull fn finishScript =>
    cases ht
    exact (h.congr (unqueue_weight _ _)).follows id
  | unqueueFileChunked remotefn =>
    cases ht
    exact (h.congr (unqueue_weight _ _)).follows id

/-- The counter has the weight of the queue in all states of a run exactly if the run never queues
the end of a script. -/
theorem weighed_iff_no_script_end {es : List Event} {t : WeighedQueue}
    (hrun : TransitionSystem.run (step cfg saveIncompleteFile) initial es = some t) :
    (∀ before after s, es = before ++ after →
        TransitionSystem.run (step cfg saveIncompleteFile) initial before = some s → Weighed s) ↔
      TransitionSystem.Guarded (step cfg saveIncompleteFile) (fun s e => ¬ s.QueuesScriptEnd e)
        initial es := by
  have hzero : Tracks 0 initial.queueSize initial.thread.dlQueue := ⟨by decide, rfl⟩
  refine TransitionSystem.guarded_iff_always (I := fun _ => True) ?_ trivial
    (weighed_iff.mpr hzero) hrun
  intro s e s' _ hweighed hstep
  refine ⟨trivial, ?_⟩
  rw [weighed_iff]
  exact (step_follows (weighed_iff.mp hweighed) hstep).tracks_iff

def scriptEvents : List Event :=
  [.addToQueueFull ⟨1, [97], [47, 99], true, false, 0, 7⟩, .take, .process
    { tempFile := true
      prepare := ⟨false, false, false, false, false⟩
      rc := fun _ => .success
      retryTempFiles := fun _ => true
      received := true
      readingFailed := false
      linked := false
      copied := false
      shadowcopyOk := true
      script := ⟨true, true, []⟩ }, .take]

theorem weighed_iff_no_script_end_script : ∃ t,
    TransitionSystem.run (step ⟨0, [], false⟩ false) initial scriptEvents = some t ∧
      ((∀ before after s, scriptEvents = before ++ after →
          TransitionSystem.run (step ⟨0, [], false⟩ false) initial before = some s → Weighed s) ↔
        TransitionSystem.Guarded (step ⟨0, [], false⟩ false) (fun s e => ¬ s.QueuesScriptEnd e)
          initial scriptEvents) := by
  have hsome : (TransitionSystem.run (step ⟨0, [], false⟩ false) initial scriptEvents).isSome =
    true := rfl
  obtain ⟨t, hrun⟩ := Option.isSome_iff_exists.mp hsome
  exact ⟨t, hrun, weighed_iff_no_script_end hrun⟩

/-- When the end of the script has been taken the queue is empty, and the backup waits for it. -/
theorem script_end_wraps : ∃ t,
    TransitionSystem.run (step ⟨0, [], false⟩ false) initial scriptEvents = some t ∧
      t.thread.dlQueue = [] ∧ t.queueSize = 2 ^ 64 - 1 ∧ t.sleepQueue = true :=
  ⟨_, rfl, rfl, rfl, rfl⟩

end Runs

end WeighedQueue

end UrBackup
