import UrBackup.FileIndex.Lookup
import UrBackup.Lib.Run
import Mathlib.Logic.Function.Basic

/-! The writer thread of the index and the threads that put into it. Every event is
one critical section of a thread or one step of the writer outside the mutex, so a
run is one interleaving. A log of the completed puts, newest first, and the length
of the log at each open call of `flush` are kept beside the state of the program. -/
namespace UrBackup

abbrev ThreadId := Nat

abbrev maxBufferSize : Nat := 100000

abbrev minSizeNoWait : Nat := 10000

/-- Where the writer stands. Between the swap and the clear its `local_buf` is the
buffer that is not active. -/
inductive WriterPc where
  | start
  | waiting
  | writing (todo : List (SIndexKey × Int)) (txn : Table)
  | committed
  | finished
  deriving DecidableEq

structure WriterState where
  index : FileIndex
  doShutdown : Bool
  doFlush : Bool
  doAccept : Bool
  pc : WriterPc
  log : List (SIndexKey × Int)
  flushing : ThreadId → Option Nat

inductive WriterEvent where
  | putDelayed (key : SIndexKey) (value : Int)
  | stopAccept
  | shutdown
  | flushCall (t : ThreadId)
  | flushReturn (t : ThreadId)
  | writerWake (timeout : Bool)
  | writerWrite
  | writerCommit
  | writerClear

namespace FileIndex

def swap (ix : FileIndex) : FileIndex := { ix with activeBuffer := ix.activeBuffer.other }

def clearOther (ix : FileIndex) : FileIndex := ix.setBuffer ix.activeBuffer.other .empty

/-- `put` or `del` of one entry inside the transaction. -/
def writeEntry (txn : Table) (e : SIndexKey × Int) : Table :=
  if e.2 ≠ 0 then txn.insert e.1 e.2 else txn.erase e.1

@[simp] theorem activeCacheBuffer_swap (ix : FileIndex) :
    ix.swap.activeCacheBuffer = ix.otherCacheBuffer := by
  cases ix with
  | mk _ _ b _ => cases b <;> rfl

@[simp] theorem otherCacheBuffer_swap (ix : FileIndex) :
    ix.swap.otherCacheBuffer = ix.activeCacheBuffer := by
  cases ix with
  | mk _ _ b _ => cases b <;> rfl

@[simp] theorem activeCacheBuffer_clearOther (ix : FileIndex) :
    ix.clearOther.activeCacheBuffer = ix.activeCacheBuffer := by
  simp [clearOther, activeCacheBuffer]

@[simp] theorem otherCacheBuffer_clearOther (ix : FileIndex) :
    ix.clearOther.otherCacheBuffer = .empty := by
  simp [clearOther, otherCacheBuffer]

@[simp] theorem table_clearOther (ix : FileIndex) : ix.clearOther.table = ix.table := by
  simp [clearOther]

theorem get_writeEntry (txn : Table) (e : SIndexKey × Int) (key : SIndexKey) :
    get (writeEntry txn e) key = if e.1 = key then e.2 else get txn key := by
  by_cases hdel : e.2 = 0
  · simp only [writeEntry, hdel, ne_eq, not_true_eq_false, if_false, get, OrderedMap.find?_erase]
    split <;> rfl
  · simp only [writeEntry, hdel, ne_eq, not_false_eq_true, if_true, get, OrderedMap.find?_insert]
    split <;> rfl

theorem get_foldl_writeEntry {es : List (SIndexKey × Int)}
    (h : es.Pairwise fun a b => a.1 ≠ b.1) (txn : Table) (key : SIndexKey) :
    get (es.foldl writeEntry txn) key = (OrderedMap.findEntry key es).getD (get txn key) := by
  induction es generalizing txn with
  | nil => rfl
  | cons e es ih =>
    obtain ⟨hhead, htail⟩ := List.pairwise_cons.mp h
    rw [List.foldl_cons, ih htail, get_writeEntry, OrderedMap.findEntry]
    by_cases hk : e.1 = key
    · rw [if_pos hk, if_pos hk,
        OrderedMap.findEntry_none fun e' he' heq => hhead e' he' (hk.trans heq.symm)]
      rfl
    · rw [if_neg hk, if_neg hk]

end FileIndex

/-- The value of the last put for a key, 0 after a delete or without a put. -/
def lastPut (key : SIndexKey) (log : List (SIndexKey × Int)) : Int :=
  (OrderedMap.findEntry key log).getD 0

theorem lastPut_append (key : SIndexKey) (l₁ l₂ : List (SIndexKey × Int)) :
    lastPut key (l₁ ++ l₂) = (OrderedMap.findEntry key l₁).getD (lastPut key l₂) := by
  induction l₁ with
  | nil => rfl
  | cons e l₁ ih =>
    unfold lastPut at ih ⊢
    rw [List.cons_append, OrderedMap.findEntry, OrderedMap.findEntry]
    split
    · rfl
    · exact ih

namespace WriterState

def initial : WriterState := ⟨.empty, false, false, true, .start, [], fun _ => none⟩

/-- `put_delayed` returns once the buffer has room and puts are accepted. -/
def putDelayed (s : WriterState) (key : SIndexKey) (value : Int) : Option WriterState :=
  if s.index.activeCacheBuffer.size < maxBufferSize ∧ s.doAccept = true then
    some { s with index := s.index.putDelayed key value, log := (key, value) :: s.log }
  else none

def flushCall (s : WriterState) (t : ThreadId) : WriterState :=
  { s with doFlush := true, flushing := Function.update s.flushing t (some s.log.length) }

def flushReturn (s : WriterState) (t : ThreadId) : Option WriterState :=
  if s.doFlush = true ∨ s.flushing t = none then none
  else some { s with flushing := Function.update s.flushing t none }

/-- The swap under the mutex and `start_transaction`. -/
def swapBuffers (s : WriterState) : WriterState :=
  { s with
    index := s.index.swap
    pc := .writing s.index.activeCacheBuffer.entries s.index.table }

/-- The head of the outer wait loop, up to `cond->wait` or the swap. -/
def waitLoop (s : WriterState) : WriterState :=
  if s.index.activeCacheBuffer.isEmpty ∧ s.doShutdown = false then
    { s with doFlush := false, pc := .waiting }
  else s.swapBuffers

/-- The writer takes the mutex, at the top of its loop or out of `cond->wait`. -/
def writerWake (s : WriterState) (timeout : Bool) : Option WriterState :=
  match s.pc with
  | .start =>
    if s.doShutdown = true ∧ s.index.cacheBuffer1.isEmpty ∧ s.index.cacheBuffer2.isEmpty then
      some { s with pc := .finished }
    else some s.waitLoop
  | .waiting =>
    if s.index.activeCacheBuffer.size < minSizeNoWait ∧ timeout = false ∧
        s.doShutdown = false ∧ s.doFlush = false then some s
    else some s.waitLoop
  | _ => none

def writerWrite (s : WriterState) : Option WriterState :=
  match s.pc with
  | .writing (e :: todo) txn => some { s with pc := .writing todo (FileIndex.writeEntry txn e) }
  | _ => none

def writerCommit (s : WriterState) : Option WriterState :=
  match s.pc with
  | .writing [] txn => some { s with index := { s.index with table := txn }, pc := .committed }
  | _ => none

def writerClear (s : WriterState) : Option WriterState :=
  match s.pc with
  | .committed => some { s with index := s.index.clearOther, doFlush := false, pc := .start }
  | _ => none

def step (s : WriterState) : WriterEvent → Option WriterState
  | .putDelayed key value => s.putDelayed key value
  | .stopAccept => some { s with doAccept := false }
  | .shutdown => some { s with doShutdown := true }
  | .flushCall t => if s.flushing t = none then some (s.flushCall t) else none
  | .flushReturn t => s.flushReturn t
  | .writerWake timeout => s.writerWake timeout
  | .writerWrite => s.writerWrite
  | .writerCommit => s.writerCommit
  | .writerClear => s.writerClear

/-- The log cut into the puts of the active buffer, of the other buffer and of the table. -/
structure LogParts where
  active : List (SIndexKey × Int)
  other : List (SIndexKey × Int)
  written : List (SIndexKey × Int)

def LogParts.inTable (p : LogParts) : WriterPc → List (SIndexKey × Int)
  | .committed => p.other ++ p.written
  | _ => p.written

/-- The puts that will be in the table when the writer next clears the flag. -/
def LogParts.nextInTable (p : LogParts) : WriterPc → List (SIndexKey × Int)
  | .writing _ _ => p.other ++ p.written
  | .committed => p.other ++ p.written
  | _ => p.active ++ (p.other ++ p.written)

/-- What the writer still has to do for the puts of the other buffer. -/
def OtherBufferPhase (p : LogParts) : WriterPc → Prop
  | .writing todo txn => ∀ key,
      FileIndex.get (todo.foldl FileIndex.writeEntry txn) key = lastPut key (p.other ++ p.written)
  | .committed => True
  | _ => p.other = []

structure Splits (s : WriterState) (p : LogParts) : Prop where
  log_eq : s.log = p.active ++ (p.other ++ p.written)
  active : ∀ key, s.index.activeCacheBuffer.find? key = OrderedMap.findEntry key p.active
  other : ∀ key, s.index.otherCacheBuffer.find? key = OrderedMap.findEntry key p.other
  table : ∀ key, FileIndex.get s.index.table key = lastPut key (p.inTable s.pc)
  phase : OtherBufferPhase p s.pc

/-- An open `flush` waits for puts the next clear commits, and the flag stays set
until they are in the table. -/
def Barrier (s : WriterState) (p : LogParts) : Prop :=
  ∀ t n, s.flushing t = some n → n ≤ (p.nextInTable s.pc).length ∧
    (s.doFlush = false → n ≤ (p.inTable s.pc).length)

/-- `flush` is called while no swapped buffer is under way, or nothing was put since
the swap. -/
def FlushOutsideCommit (s : WriterState) : WriterEvent → Prop
  | .flushCall _ =>
    match s.pc with
    | .writing _ _ => s.index.activeCacheBuffer.isEmpty = true
    | .committed => s.index.activeCacheBuffer.isEmpty = true
    | _ => True
  | _ => True

theorem findEntry_eq_none_nil {l : List (SIndexKey × Int)}
    (h : ∀ key, OrderedMap.findEntry key l = none) : l = [] := by
  cases l with
  | nil => rfl
  | cons e l =>
    have he := h e.1
    rw [OrderedMap.findEntry, if_pos rfl] at he
    cases he

theorem Splits.active_nil {s : WriterState} {p : LogParts} (h : Splits s p)
    (hempty : s.index.activeCacheBuffer.isEmpty = true) : p.active = [] := by
  apply findEntry_eq_none_nil
  intro key
  rw [← h.active key]
  exact OrderedMap.find?_of_isEmpty hempty key

theorem splits_initial : Splits initial ⟨[], [], []⟩ :=
  ⟨rfl, fun _ => rfl, fun _ => rfl, fun _ => rfl, rfl⟩

theorem barrier_initial (p : LogParts) : Barrier initial p := by
  intro t n h
  cases h

section Steps

variable {s s' : WriterState} {p : LogParts}

theorem splits_putDelayed {key : SIndexKey} {value : Int} (h : Splits s p)
    (hs : s.putDelayed key value = some s') :
    Splits s' { p with active := (key, value) :: p.active } ∧
      (Barrier s p → Barrier s' { p with active := (key, value) :: p.active }) := by
  unfold putDelayed at hs
  split at hs
  · cases hs
    refine ⟨⟨?_, ?_, ?_, ?_, ?_⟩, ?_⟩
    · simp only [h.log_eq, List.cons_append]
    · intro key'
      rw [FileIndex.activeCacheBuffer_putDelayed, OrderedMap.find?_insert,
        OrderedMap.findEntry, h.active]
    · intro key'
      rw [FileIndex.otherCacheBuffer_putDelayed]
      exact h.other key'
    · intro key'
      rw [FileIndex.table_putDelayed, h.table]
      cases s.pc <;> rfl
    · have hphase := h.phase
      revert hphase
      cases s.pc <;> exact id
    · intro hb t n ht
      obtain ⟨hnext, hin⟩ := hb t n ht
      revert hnext hin
      cases s.pc <;> simp only [LogParts.nextInTable, LogParts.inTable, List.length_append,
        List.length_cons] <;> intro hnext hin <;> exact ⟨by omega, hin⟩
  · cases hs

theorem splits_swapBuffers (h : Splits s p) (hidle : p.other = [])
    (hin : p.inTable s.pc = p.written) (hnext : p.nextInTable s.pc = p.active ++ p.written) :
    Splits s.swapBuffers ⟨[], p.active, p.written⟩ ∧
      (Barrier s p → Barrier s.swapBuffers ⟨[], p.active, p.written⟩) := by
  refine ⟨⟨?_, ?_, ?_, ?_, ?_⟩, ?_⟩
  · simp only [swapBuffers, h.log_eq, hidle, List.nil_append]
  · intro key
    simp only [swapBuffers, FileIndex.activeCacheBuffer_swap]
    rw [h.other, hidle]
  · intro key
    simp only [swapBuffers, FileIndex.otherCacheBuffer_swap]
    exact h.active key
  · intro key
    have htable := h.table key
    rw [hin] at htable
    exact htable
  · intro key
    have htable := h.table key
    rw [hin] at htable
    have hactive : OrderedMap.findEntry key s.index.activeCacheBuffer.entries =
        OrderedMap.findEntry key p.active := h.active key
    rw [FileIndex.get_foldl_writeEntry (OrderedMap.entries_keys_ne _), hactive, htable]
    exact (lastPut_append key p.active p.written).symm
  · intro hb t n ht
    obtain ⟨hle, hflag⟩ := hb t n ht
    rw [hnext] at hle
    rw [hin] at hflag
    exact ⟨hle, hflag⟩

theorem splits_waitLoop (h : Splits s p) (hidle : p.other = [])
    (hin : p.inTable s.pc = p.written) (hnext : p.nextInTable s.pc = p.active ++ p.written) :
    ∃ p', Splits s.waitLoop p' ∧ (Barrier s p → Barrier s.waitLoop p') := by
  unfold waitLoop
  split
  · rename_i hwait
    have hactive := h.active_nil hwait.1
    refine ⟨p, ⟨h.log_eq, h.active, h.other, ?_, hidle⟩, ?_⟩
    · intro key
      have htable := h.table key
      rw [hin] at htable
      exact htable
    · intro hb t n ht
      obtain ⟨hle, -⟩ := hb t n ht
      rw [hnext, hactive, List.nil_append] at hle
      refine ⟨?_, fun _ => hle⟩
      simp only [LogParts.nextInTable, List.length_append]
      omega
  · exact ⟨_, splits_swapBuffers h hidle hin hnext⟩

theorem splits_writerWake {timeout : Bool} (h : Splits s p)
    (hs : s.writerWake timeout = some s') :
    ∃ p', Splits s' p' ∧ (Barrier s p → Barrier s' p') := by
  have hphase := h.phase
  have htable := h.table
  unfold writerWake at hs
  cases hpc : s.pc with
  | start =>
    rw [hpc] at hs hphase htable
    simp only at hs
    have hidle : p.other = [] := hphase
    split at hs
    · cases hs
      refine ⟨p, ⟨h.log_eq, h.active, h.other, htable, hidle⟩, ?_⟩
      intro hb t n ht
      have hopen := hb t n ht
      rw [hpc] at hopen
      exact hopen
    · cases hs
      apply splits_waitLoop h hidle
      · rw [hpc]; rfl
      · rw [hpc]; simp only [LogParts.nextInTable, hidle, List.nil_append]
  | waiting =>
    rw [hpc] at hs hphase
    simp only at hs
    have hidle : p.other = [] := hphase
    split at hs
    · cases hs
      exact ⟨p, h, id⟩
    · cases hs
      apply splits_waitLoop h hidle
      · rw [hpc]; rfl
      · rw [hpc]; simp only [LogParts.nextInTable, hidle, List.nil_append]
  | writing todo txn => rw [hpc] at hs; cases hs
  | committed => rw [hpc] at hs; cases hs
  | finished => rw [hpc] at hs; cases hs

theorem splits_writerWrite (h : Splits s p) (hs : s.writerWrite = some s') :
    Splits s' p ∧ (Barrier s p → Barrier s' p) := by
  have hphase := h.phase
  have htable := h.table
  unfold writerWrite at hs
  split at hs
  · rename_i e todo txn hpc
    cases hs
    rw [hpc] at hphase htable
    refine ⟨⟨h.log_eq, h.active, h.other, htable, hphase⟩, ?_⟩
    intro hb t n ht
    have hopen := hb t n ht
    rw [hpc] at hopen
    exact hopen
  · cases hs

theorem splits_writerCommit (h : Splits s p) (hs : s.writerCommit = some s') :
    Splits s' p ∧ (Barrier s p → Barrier s' p) := by
  have hphase := h.phase
  unfold writerCommit at hs
  split at hs
  · rename_i txn hpc
    cases hs
    rw [hpc] at hphase
    refine ⟨⟨h.log_eq, h.active, h.other, hphase, trivial⟩, ?_⟩
    intro hb t n ht
    have hopen := hb t n ht
    rw [hpc] at hopen
    exact ⟨hopen.1, fun _ => hopen.1⟩
  · cases hs

theorem splits_writerClear (h : Splits s p) (hs : s.writerClear = some s') :
    Splits s' ⟨p.active, [], p.other ++ p.written⟩ ∧
      (Barrier s p → Barrier s' ⟨p.active, [], p.other ++ p.written⟩) := by
  have htable := h.table
  unfold writerClear at hs
  split at hs
  · rename_i hpc
    cases hs
    rw [hpc] at htable
    refine ⟨⟨h.log_eq, ?_, ?_, ?_, rfl⟩, ?_⟩
    · intro key
      rw [FileIndex.activeCacheBuffer_clearOther]
      exact h.active key
    · intro key
      rw [FileIndex.otherCacheBuffer_clearOther]
      rfl
    · intro key
      rw [FileIndex.table_clearOther]
      exact htable key
    · intro hb t n ht
      obtain ⟨hle, -⟩ := hb t n ht
      rw [hpc, LogParts.nextInTable] at hle
      refine ⟨?_, fun _ => hle⟩
      simp only [LogParts.nextInTable, List.nil_append, List.length_append] at hle ⊢
      omega
  · cases hs

theorem barrier_flushCall {t : ThreadId} (h : Splits s p)
    (hok : FlushOutsideCommit s (.flushCall t)) (hb : Barrier s p) :
    Barrier (s.flushCall t) p := by
  have hall : s.log.length ≤ (p.nextInTable s.pc).length := by
    have hempty := h.active_nil
    rw [h.log_eq]
    unfold FlushOutsideCommit at hok
    revert hok
    cases s.pc with
    | writing todo txn =>
      intro hok
      simp only [hempty hok, LogParts.nextInTable, List.nil_append, le_refl]
    | committed =>
      intro hok
      simp only [hempty hok, LogParts.nextInTable, List.nil_append, le_refl]
    | start => intro _; exact le_rfl
    | waiting => intro _; exact le_rfl
    | finished => intro _; exact le_rfl
  intro t' n ht
  simp only [flushCall, Function.update_apply] at ht
  split at ht
  · cases ht
    exact ⟨hall, fun hflag => Bool.noConfusion hflag⟩
  · exact ⟨(hb t' n ht).1, fun hflag => Bool.noConfusion hflag⟩

theorem barrier_flushReturn {t : ThreadId} (hs : s.flushReturn t = some s') (h : Splits s p) :
    Splits s' p ∧ (Barrier s p → Barrier s' p) := by
  unfold flushReturn at hs
  split at hs
  · cases hs
  · cases hs
    refine ⟨⟨h.log_eq, h.active, h.other, h.table, h.phase⟩, ?_⟩
    intro hb t' n ht
    simp only [Function.update_apply] at ht
    split at ht
    · cases ht
    · exact hb t' n ht

theorem splits_step {e : WriterEvent} (h : Splits s p) (hs : s.step e = some s') :
    ∃ p', Splits s' p' ∧ (FlushOutsideCommit s e → Barrier s p → Barrier s' p') := by
  cases e with
  | putDelayed key value =>
    obtain ⟨hsplit, hbar⟩ := splits_putDelayed h hs
    exact ⟨_, hsplit, fun _ => hbar⟩
  | stopAccept =>
    cases hs
    exact ⟨p, ⟨h.log_eq, h.active, h.other, h.table, h.phase⟩, fun _ hb => hb⟩
  | shutdown =>
    cases hs
    exact ⟨p, ⟨h.log_eq, h.active, h.other, h.table, h.phase⟩, fun _ hb => hb⟩
  | flushCall t =>
    simp only [step] at hs
    split at hs
    · cases hs
      exact ⟨p, ⟨h.log_eq, h.active, h.other, h.table, h.phase⟩, barrier_flushCall h⟩
    · cases hs
  | flushReturn t =>
    obtain ⟨hsplit, hbar⟩ := barrier_flushReturn hs h
    exact ⟨p, hsplit, fun _ => hbar⟩
  | writerWake timeout =>
    obtain ⟨p', hsplit, hbar⟩ := splits_writerWake h hs
    exact ⟨p', hsplit, fun _ => hbar⟩
  | writerWrite =>
    obtain ⟨hsplit, hbar⟩ := splits_writerWrite h hs
    exact ⟨p, hsplit, fun _ => hbar⟩
  | writerCommit =>
    obtain ⟨hsplit, hbar⟩ := splits_writerCommit h hs
    exact ⟨p, hsplit, fun _ => hbar⟩
  | writerClear =>
    obtain ⟨hsplit, hbar⟩ := splits_writerClear h hs
    exact ⟨_, hsplit, fun _ => hbar⟩

end Steps

theorem splits_run {es : List WriterEvent} {s : WriterState}
    (h : TransitionSystem.run step initial es = some s) : ∃ p, Splits s p := by
  refine TransitionSystem.run_invariant (I := fun s => ∃ p, Splits s p) ?_
    ⟨_, splits_initial⟩ h
  intro s e s' hinv hs
  obtain ⟨p, hsplit⟩ := hinv
  obtain ⟨p', hsplit', -⟩ := splits_step hsplit hs
  exact ⟨p', hsplit'⟩

theorem barrier_run {es : List WriterEvent} {s : WriterState}
    (h : TransitionSystem.run step initial es = some s)
    (hok : TransitionSystem.Guarded step FlushOutsideCommit initial es) :
    ∃ p, Splits s p ∧ Barrier s p := by
  refine TransitionSystem.guarded_run_invariant (I := fun s => ∃ p, Splits s p ∧ Barrier s p) ?_
    ⟨_, splits_initial, barrier_initial _⟩ hok h
  intro s e s' hinv hguard hs
  obtain ⟨p, hsplit, hbar⟩ := hinv
  obtain ⟨p', hsplit', hbar'⟩ := splits_step hsplit hs
  exact ⟨p', hsplit', hbar' hguard hbar⟩

theorem logical_eq_lastPut {s : WriterState} {p : LogParts} (h : Splits s p) (key : SIndexKey) :
    s.index.logical key = lastPut key s.log := by
  have htable := h.table key
  have hphase := h.phase
  rw [FileIndex.logical, FileIndex.layered, h.log_eq, lastPut_append, lastPut_append, h.active,
    h.other]
  rw [FileIndex.get] at htable
  cases OrderedMap.findEntry key p.active with
  | some v => rfl
  | none =>
    cases hother : OrderedMap.findEntry key p.other with
    | some v => rfl
    | none =>
      simp only [Option.none_or, Option.getD_none]
      rw [htable]
      cases s.pc with
      | committed => simp only [LogParts.inTable, lastPut_append, hother, Option.getD_none]
      | start => rfl
      | waiting => rfl
      | writing todo txn => rfl
      | finished => rfl

/-- Lookups see the last put of every key, whatever the writer is doing. -/
theorem reads_see_last_put {es : List WriterEvent} {s : WriterState}
    (h : TransitionSystem.run step initial es = some s) :
    (∀ key, s.index.getWithCacheExact key = lastPut key s.log) ∧
      ∀ key : SIndexKey, key.clientid = 0 → ∀ c,
        (s.index.getAllClientsWithCache key false).find? c =
          if lastPut (key.withClient c) s.log = 0 then none
          else some (lastPut (key.withClient c) s.log) := by
  obtain ⟨p, hsplit⟩ := splits_run h
  refine ⟨?_, ?_⟩
  · intro key
    rw [FileIndex.getWithCacheExact_eq_logical, logical_eq_lastPut hsplit]
  · intro key hkey c
    rw [FileIndex.find?_getAllClientsWithCache _ hkey, logical_eq_lastPut hsplit]

/-- The table has the effect of the oldest puts of the log, at least `n` of them. -/
def Committed (s : WriterState) (n : Nat) : Prop :=
  ∃ recent old, s.log = recent ++ old ∧ n ≤ old.length ∧
    ∀ key, FileIndex.get s.index.table key = lastPut key old

theorem flush_commits {es : List WriterEvent} {s s' : WriterState} {t : ThreadId} {n : Nat}
    (hrun : TransitionSystem.run step initial es = some s)
    (hok : TransitionSystem.Guarded step FlushOutsideCommit initial es)
    (hcall : s.flushing t = some n) (hret : s.step (.flushReturn t) = some s') :
    s.Committed n := by
  obtain ⟨p, hsplit, hbar⟩ := barrier_run hrun hok
  have hflag : s.doFlush = false := by
    cases hflush : s.doFlush with
    | false => rfl
    | true => simp [step, flushReturn, hflush] at hret
  have hle := (hbar t n hcall).2 hflag
  have htable := hsplit.table
  have hlog := hsplit.log_eq
  cases hpc : s.pc with
  | committed =>
    rw [hpc] at hle htable
    exact ⟨p.active, p.other ++ p.written, hlog, hle, htable⟩
  | start =>
    rw [hpc] at hle htable
    exact ⟨p.active ++ p.other, p.written, by rw [hlog, List.append_assoc], hle, htable⟩
  | waiting =>
    rw [hpc] at hle htable
    exact ⟨p.active ++ p.other, p.written, by rw [hlog, List.append_assoc], hle, htable⟩
  | writing todo txn =>
    rw [hpc] at hle htable
    exact ⟨p.active ++ p.other, p.written, by rw [hlog, List.append_assoc], hle, htable⟩
  | finished =>
    rw [hpc] at hle htable
    exact ⟨p.active ++ p.other, p.written, by rw [hlog, List.append_assoc], hle, htable⟩

/-- A crash at any time leaves the effect of the oldest puts, and a shutdown that of all. -/
theorem crash_keeps_oldest_puts {es : List WriterEvent} {s : WriterState}
    (hrun : TransitionSystem.run step initial es = some s) :
    s.Committed 0 ∧ ∀ timeout s', s.step (.writerWake timeout) = some s' → s'.pc = .finished →
      s'.Committed s'.log.length := by
  obtain ⟨p, hsplit⟩ := splits_run hrun
  have htable := hsplit.table
  have hlog := hsplit.log_eq
  constructor
  · obtain ⟨recent, hrecent⟩ : p.inTable s.pc <:+ s.log := by
      rw [hlog]
      unfold LogParts.inTable
      split
      · exact List.suffix_append _ _
      · exact (List.suffix_append _ _).trans (List.suffix_append _ _)
    exact ⟨recent, _, hrecent.symm, Nat.zero_le _, htable⟩
  · intro timeout s' hstep hfinished
    have hloop : s.waitLoop.pc ≠ .finished := by grind [waitLoop, swapBuffers]
    obtain ⟨hpc, hempty, rfl⟩ : s.pc = .start ∧ (s.index.cacheBuffer1.isEmpty = true ∧
        s.index.cacheBuffer2.isEmpty = true) ∧ s' = { s with pc := .finished } := by
      grind [step, writerWake]
    have hactive : s.index.activeCacheBuffer.isEmpty = true := by
      unfold FileIndex.activeCacheBuffer
      cases s.index.activeBuffer with
      | one => exact hempty.1
      | two => exact hempty.2
    have hphase := hsplit.phase
    rw [hpc] at htable hphase
    rw [hsplit.active_nil hactive, show p.other = [] from hphase] at hlog
    exact ⟨[], s.log, rfl, Nat.le_refl _, fun key => hlog ▸ htable key⟩

def flushedRun (key : SIndexKey) : List WriterEvent :=
  [.putDelayed key 5, .flushCall 0, .writerWake false, .writerWrite, .writerCommit, .writerClear]

def keyOf (b : UInt8) : SIndexKey := ⟨Vector.replicate 16 b, 4096, 1⟩

theorem flush_commits_flushedRun :
    ∃ s s', TransitionSystem.run step initial (flushedRun (keyOf 1)) = some s ∧
      s.step (.flushReturn 0) = some s' ∧ s.Committed 1 := by
  have hok : TransitionSystem.Guarded step FlushOutsideCommit initial (flushedRun (keyOf 1)) := by
    iterate 6 refine TransitionSystem.guarded_cons rfl trivial ?_
    exact trivial
  exact ⟨_, _, rfl, rfl, @flush_commits _ _ _ 0 1 rfl hok rfl rfl⟩

theorem crash_keeps_oldest_puts_flushedRun : ∃ s,
    TransitionSystem.run step initial (flushedRun (keyOf 1)) = some s ∧ s.Committed 0 :=
  ⟨_, rfl, (@crash_keeps_oldest_puts (flushedRun (keyOf 1)) _ rfl).1⟩

/-- The second key is put and flushed while the buffer with the first one is written.
Clearing that buffer resets the flag of the flush. -/
def lostFlushRun : List WriterEvent :=
  [.putDelayed (keyOf 1) 5, .writerWake false, .putDelayed (keyOf 2) 6, .flushCall 0,
    .writerWrite, .writerCommit, .writerClear]

theorem flush_returns_before_commit :
    ¬ ∀ (es : List WriterEvent) (s s' : WriterState) (t : ThreadId) (n : Nat),
      TransitionSystem.run step initial es = some s → s.flushing t = some n →
      s.step (.flushReturn t) = some s' → s.Committed n := by
  intro hclaim
  obtain ⟨recent, old, hlog, hle, htable⟩ := hclaim lostFlushRun _ _ 0 2 rfl rfl rfl
  have hrecent : recent = [] := by
    have hlen := congrArg List.length hlog
    rw [List.length_append] at hlen
    have htwo : 2 = recent.length + old.length := hlen
    exact List.eq_nil_of_length_eq_zero (by omega)
  rw [hrecent, List.nil_append] at hlog
  have hkey := htable (keyOf 2)
  rw [← hlog] at hkey
  revert hkey
  decide

theorem reads_see_last_put_lostFlushRun :
    ∃ s, TransitionSystem.run step initial lostFlushRun = some s ∧
      s.index.getWithCacheExact (keyOf 2) = 6 ∧
      (s.index.getAllClientsWithCache ((keyOf 2).withClient 0) false).find? 1 = some 6 :=
  ⟨_, rfl, (@reads_see_last_put lostFlushRun _ rfl).1 (keyOf 2),
    (@reads_see_last_put lostFlushRun _ rfl).2 ((keyOf 2).withClient 0) rfl 1⟩

end WriterState

end UrBackup
