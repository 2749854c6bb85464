import UrBackup.Lib.Run

/-! The pool of threads. An event is one hold of the mutex, so a run is any interleaving of the
callers of `execute` with the threads. -/
namespace UrBackup

structure SNewTask (ρ : Type) where
  runnable : ρ
  ticket : UInt32
  deriving DecidableEq

/-- The threads that execute nothing are awake, or wait for the condition. Beside that are kept the
tasks that were submitted and those that were handed out. -/
structure CThreadPool (ρ : Type) where
  toexecute : List (SNewTask ρ)
  running : List UInt32
  nRunning : Nat
  nThreads : Nat
  currticket : UInt32
  awake : Nat
  waiting : Nat
  executing : List (SNewTask ρ)
  submitted : List (SNewTask ρ)
  started : List (SNewTask ρ)
  deriving DecidableEq

namespace CThreadPool

inductive Event (ρ : Type) where
  | execute (runnable : ρ)
  | turn
  | finish (task : SNewTask ρ)
  | spuriousWake

variable {ρ : Type} (max_threads max_waiting_threads : Nat)

def init : CThreadPool ρ := ⟨[], [], 0, 0, 0, 0, 0, [], [], []⟩

/-- The search for a ticket. It has none after all of them, where the source does not end. -/
def nextTicket (running : List UInt32) : Nat → UInt32 → Option UInt32
  | 0, _ => none
  | fuel + 1, t =>
    if t + 1 ∈ running ∨ t + 1 = 0 then nextTicket running fuel (t + 1) else some (t + 1)

/-- The loop that creates threads: one that was created ends it. -/
def createThread (p : CThreadPool ρ) : CThreadPool ρ :=
  if p.nThreads ≥ p.nRunning ∧ p.nThreads - p.nRunning = 0 ∧ p.nThreads < max_threads then
    { p with nThreads := p.nThreads + 1, awake := p.awake + 1 }
  else p

def notify_one (p : CThreadPool ρ) : CThreadPool ρ :=
  if p.waiting = 0 then p else { p with waiting := p.waiting - 1, awake := p.awake + 1 }

def submit (p : CThreadPool ρ) (task : SNewTask ρ) : CThreadPool ρ :=
  notify_one { p with
    toexecute := p.toexecute ++ [task]
    running := task.ticket :: p.running
    nRunning := p.nRunning + 1
    currticket := task.ticket
    submitted := p.submitted ++ [task] }

def execute (p : CThreadPool ρ) (runnable : ρ) : Option (CThreadPool ρ) :=
  let p := createThread max_threads p
  (nextTicket p.running UInt32.size p.currticket).map fun t => p.submit ⟨runnable, t⟩

/-- A turn of the loop of `getRunnable`, by a thread that is not counted as awake. -/
def getRunnable (p : CThreadPool ρ) : CThreadPool ρ :=
  match p.toexecute with
  | [] =>
    if p.nThreads ≥ p.nRunning ∧ p.nThreads - p.nRunning > max_waiting_threads then
      { p with nThreads := p.nThreads - 1 }
    else { p with waiting := p.waiting + 1 }
  | task :: rest =>
    { p with
      toexecute := rest, executing := task :: p.executing, started := p.started ++ [task] }

def isRunning (p : CThreadPool ρ) (ticket : UInt32) : Bool := ticket ∈ p.running

/-- Whether the loop of `waitFor` ends. -/
def waitFor (p : CThreadPool ρ) (tickets : List UInt32) : Bool := !tickets.any p.isRunning

/-- Each ticket in use is that of one task, no wake-up is lost, and the pool has grown as far as it
has to or may. -/
structure Valid (p : CThreadPool ρ) : Prop where
  order : p.submitted = p.started ++ p.toexecute
  tickets : p.running.Perm ((p.toexecute ++ p.executing).map SNewTask.ticket)
  nodup : p.running.Nodup
  count : p.nRunning = p.toexecute.length + p.executing.length
  threads : p.nThreads = p.awake + p.waiting + p.executing.length
  most : p.nThreads ≤ max_threads
  grown : p.nRunning ≤ p.nThreads ∨ p.nThreads = max_threads
  woken : p.toexecute.length ≤ p.awake ∨ p.waiting = 0

variable {max_threads max_waiting_threads} {p p' : CThreadPool ρ}

theorem nextTicket_free {running : List UInt32} {fuel : Nat} {t t' : UInt32}
    (h : nextTicket running fuel t = some t') : t' ∉ running := by
  induction fuel generalizing t with
  | zero => cases h
  | succ fuel ih => grind [nextTicket]

theorem notify_one_valid (h : p.Valid max_threads) : p.notify_one.Valid max_threads := by
  unfold notify_one
  split
  · exact h
  · exact ⟨h.order, h.tickets, h.nodup, h.count, by grind [h.threads], h.most, h.grown,
      by grind [h.woken]⟩

theorem createThread_valid (h : p.Valid max_threads) :
    let p' := createThread max_threads p
    p'.Valid max_threads ∧ (p'.nRunning < p'.nThreads ∨ p'.nThreads = max_threads) := by
  obtain ⟨horder, htickets, hnodup, hcount, hthreads, hmost, hgrown, hwoken⟩ := h
  unfold createThread
  split
  · exact ⟨⟨horder, htickets, hnodup, hcount, by grind, by grind, by grind, by grind⟩, by grind⟩
  · exact ⟨⟨horder, htickets, hnodup, hcount, hthreads, hmost, hgrown, hwoken⟩, by omega⟩

theorem submit_valid {task : SNewTask ρ} (h : p.Valid max_threads)
    (hgrown : p.nRunning < p.nThreads ∨ p.nThreads = max_threads)
    (hfree : task.ticket ∉ p.running) : (p.submit task).Valid max_threads := by
  obtain ⟨horder, htickets, hnodup, hcount, hthreads, hmost, -, hwoken⟩ := h
  have hadded : (task.ticket :: p.running).Perm
      ((p.toexecute ++ [task] ++ p.executing).map SNewTask.ticket) := by
    simpa using (htickets.cons task.ticket).trans (by simpa using List.perm_middle.symm)
  have hall : p.submitted ++ [task] = p.started ++ (p.toexecute ++ [task]) := by
    rw [horder, List.append_assoc]
  have hnodup' := List.nodup_cons.mpr ⟨hfree, hnodup⟩
  unfold submit notify_one
  split <;> exact ⟨hall, hadded, hnodup', by grind, by grind, hmost, by grind, by grind⟩

theorem getRunnable_valid (h : Valid max_threads { p with awake := p.awake + 1 }) :
    (getRunnable max_waiting_threads p).Valid max_threads := by
  obtain ⟨horder, htickets, hnodup, hcount, hthreads, hmost, hgrown, hwoken⟩ := h
  unfold getRunnable
  split
  · split <;> exact ⟨horder, htickets, hnodup, hcount, by grind, by grind, by grind, by grind⟩
  · rename_i task rest hqueue
    dsimp only at horder htickets
    rw [hqueue] at horder htickets
    exact ⟨by simpa using horder, htickets.trans (List.perm_middle.symm.map _), hnodup, by grind,
      by grind, hmost, hgrown, by grind⟩

variable [DecidableEq ρ]

/-- What `getRunnable` does first where it has a ticket to delete. -/
def delete (p : CThreadPool ρ) (task : SNewTask ρ) : CThreadPool ρ :=
  { p with
    nRunning := p.nRunning - 1
    running := p.running.erase task.ticket
    executing := p.executing.erase task }

variable (max_threads max_waiting_threads) in
def step (p : CThreadPool ρ) : Event ρ → Option (CThreadPool ρ)
  | .execute runnable => execute max_threads p runnable
  | .turn =>
    if p.awake = 0 then none
    else some (getRunnable max_waiting_threads { p with awake := p.awake - 1 })
  | .finish task =>
    if task ∈ p.executing then some (getRunnable max_waiting_threads (p.delete task)) else none
  | .spuriousWake => some p.notify_one

theorem delete_valid {task : SNewTask ρ} (h : p.Valid max_threads) (hexec : task ∈ p.executing) :
    Valid max_threads { p.delete task with awake := p.awake + 1 } := by
  have hmoved := ((List.perm_cons_erase hexec).append_left p.toexecute).trans List.perm_middle
  have herased := (h.tickets.trans (hmoved.map SNewTask.ticket)).erase task.ticket
  rw [List.map_cons, List.erase_cons_head] at herased
  have hlength := List.length_erase_of_mem hexec
  have hpos := List.length_pos_of_mem hexec
  obtain ⟨horder, -, hnodup, hcount, hthreads, hmost, hgrown, hwoken⟩ := h
  exact ⟨horder, herased, hnodup.erase _, by grind [delete], by grind [delete], hmost,
    by grind [delete], by grind [delete]⟩

theorem step_valid (p : CThreadPool ρ) (e : Event ρ) (p' : CThreadPool ρ) (h : p.Valid max_threads)
    (hstep : step max_threads max_waiting_threads p e = some p') : p'.Valid max_threads := by
  cases e with
  | execute runnable =>
    obtain ⟨t, ht, rfl⟩ := Option.map_eq_some_iff.mp hstep
    obtain ⟨hvalid, hgrown⟩ := createThread_valid h
    exact submit_valid hvalid hgrown (nextTicket_free ht)
  | turn =>
    rw [step] at hstep
    split at hstep
    · cases hstep
    · rename_i hawake
      cases hstep
      apply getRunnable_valid
      rwa [show p.awake - 1 + 1 = p.awake by omega]
  | finish task =>
    rw [step] at hstep
    split at hstep
    · rename_i hexec
      cases hstep
      exact getRunnable_valid (delete_valid h hexec)
    · cases hstep
  | spuriousWake =>
    cases hstep
    exact notify_one_valid h

section Runs

variable {es : List (Event ρ)}
  (h : TransitionSystem.run (step max_threads max_waiting_threads) init es = some p)

include h

theorem valid_of_run : p.Valid max_threads := by
  have hinit : (init : CThreadPool ρ).Valid max_threads :=
    ⟨rfl, .nil, List.nodup_nil, rfl, rfl, Nat.zero_le _, by simp [init], by simp [init]⟩
  exact TransitionSystem.run_invariant step_valid hinit h

end Runs

/-- For a queued task a thread is awake, or as many as there may be execute others. -/
theorem queued_task_staffed {es : List (Event ρ)}
    (h : TransitionSystem.run (step max_threads max_waiting_threads) init es = some p)
    (hqueue : p.toexecute ≠ []) :
    p.nThreads ≤ max_threads ∧ (0 < p.awake ∨ p.executing.length = max_threads) := by
  have hvalid := valid_of_run h
  have hlength := List.length_pos_iff.mpr hqueue
  refine ⟨hvalid.most, ?_⟩
  grind [hvalid.count, hvalid.threads, hvalid.grown, hvalid.woken]

theorem queued_task_staffed_one : 0 < 0 ∨ [(⟨7, 1⟩ : SNewTask Nat)].length = 1 := by
  have hrun : TransitionSystem.run (step 1 0) init [.execute 7, .turn, .execute 8] =
      some (⟨[⟨8, 2⟩], [2, 1], 2, 1, 2, 0, 0, [⟨7, 1⟩], [⟨7, 1⟩, ⟨8, 2⟩], [⟨7, 1⟩]⟩ :
        CThreadPool Nat) := by decide +kernel
  exact (queued_task_staffed hrun (List.cons_ne_nil _ _)).2

end CThreadPool

end UrBackup
