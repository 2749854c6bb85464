import UrBackup.FileIndex.Iteration

/-! Writing to the table in a transaction. The memory map may be full, or the transaction bad, at
any put, delete or commit: then the map is made larger and what was logged is written again. -/
namespace UrBackup

inductive PutFlags where
  | none
  | append
  deriving DecidableEq

/-- The value 0 stands for a deletion. -/
structure TransactionLogItem where
  key : SIndexKey
  value : Int
  flags : PutFlags
  deriving DecidableEq

/-- The errors that are handled. Both leave no usable transaction. -/
inductive MapFault where
  | mapFull
  | badTxn
  deriving DecidableEq

/-- `env` is what is committed, `txn` what the open transaction has made of it. -/
structure LMDBFileIndex where
  env : Table
  txn : Option Table
  mapSize : Nat
  hasError : Bool
  transactionLog : List TransactionLogItem
  deriving DecidableEq

namespace LMDBFileIndex

def idle (env : Table) (mapSize : Nat) : LMDBFileIndex := ⟨env, none, mapSize, false, []⟩

def startTransaction (s : LMDBFileIndex) : LMDBFileIndex := { s with txn := some s.env }

def txnAbort (s : LMDBFileIndex) : LMDBFileIndex := { s with txn := none }

def growMap (s : LMDBFileIndex) : LMDBFileIndex := { s with mapSize := s.mapSize * 2 }

def log (s : LMDBFileIndex) (item : TransactionLogItem) : LMDBFileIndex :=
  { s with transactionLog := s.transactionLog ++ [item] }

/-- `mdb_put` with room in the map: with `MDB_APPEND` the key has to be the last one. -/
def mdbPut (t : Table) (key : SIndexKey) (value : Int) : PutFlags → Option Table
  | .none => some (t.insert key value)
  | .append => if ∀ e ∈ t.entries, e.1 < key then some (t.insert key value) else none

def putDone (s : LMDBFileIndex) (key : SIndexKey) (value : Int) (flags : PutFlags) :
    LMDBFileIndex :=
  match s.txn.bind fun t => mdbPut t key value flags with
  | some t => { s with txn := some t }
  | none => { s with hasError := true }

/-- A delete that is not met by a fault. It is no error if the key is not there. -/
def delDone (s : LMDBFileIndex) (key : SIndexKey) : LMDBFileIndex :=
  match s.txn with
  | some t => { s with txn := some (t.erase key) }
  | none => { s with hasError := true }

def replayItem (s : LMDBFileIndex) (item : TransactionLogItem) : LMDBFileIndex :=
  if item.value ≠ 0 then s.putDone item.key item.value item.flags else s.delDone item.key

def replayTransactionLog (s : LMDBFileIndex) : LMDBFileIndex :=
  s.transactionLog.foldl replayItem s

def recover (s : LMDBFileIndex) : MapFault → LMDBFileIndex
  | .mapFull => s.growMap.startTransaction.replayTransactionLog
  | .badTxn => s.startTransaction.replayTransactionLog

/-- `put_internal`, with the faults that its tries meet. -/
def putInternal : List MapFault → SIndexKey → Int → PutFlags → Bool → Bool → LMDBFileIndex →
    LMDBFileIndex
  | [], key, value, flags, log, _, s =>
    let s := s.putDone key value flags
    if s.hasError = false ∧ log then s.log ⟨key, value, flags⟩ else s
  | fault :: faults, key, value, flags, log, handleEnosp, s =>
    if handleEnosp then
      if s.hasError then s.txnAbort.startTransaction
      else
        let s := putInternal faults key value flags false (fault = .mapFull)
          (s.txnAbort.recover fault)
        if s.hasError = false ∧ log then s.log ⟨key, value, flags⟩ else s
    else { s.txnAbort with hasError := true }

/-- `del_internal`. What is deleted again is logged there, and again here. -/
def delInternal : List MapFault → SIndexKey → Bool → Bool → LMDBFileIndex → LMDBFileIndex
  | [], key, log, _, s =>
    let s := s.delDone key
    if log then s.log ⟨key, 0, .none⟩ else s
  | fault :: faults, key, log, handleEnosp, s =>
    if handleEnosp ∧ s.hasError then s.txnAbort.startTransaction
    else
      let s :=
        if handleEnosp then
          delInternal faults key true (fault = .mapFull) (s.txnAbort.recover fault)
        else { s.txnAbort with hasError := true }
      if log then s.log ⟨key, 0, .none⟩ else s

/-- `mdb_txn_commit` without a fault. -/
def commitDone (s : LMDBFileIndex) : LMDBFileIndex :=
  match s.txn with
  | some t => { s with env := t, txn := none }
  | none => { s with hasError := true }

/-- `commit_transaction_internal`. A commit that fails leaves no transaction. -/
def commitTransactionInternal : List MapFault → Bool → LMDBFileIndex → LMDBFileIndex
  | [], _, s => { s.commitDone with transactionLog := [] }
  | fault :: faults, handleEnosp, s =>
    if handleEnosp then
      if s.hasError then s.txnAbort.startTransaction
      else { commitTransactionInternal faults false (s.txnAbort.recover fault) with
        transactionLog := [] }
    else { s.txnAbort with hasError := true, transactionLog := [] }

def put (s : LMDBFileIndex) (faults : List MapFault) (key : SIndexKey) (value : Int) :
    LMDBFileIndex :=
  putInternal faults key value .none true true s

def del (s : LMDBFileIndex) (faults : List MapFault) (key : SIndexKey) : LMDBFileIndex :=
  delInternal faults key true true s

def commitTransaction (s : LMDBFileIndex) (faults : List MapFault) : LMDBFileIndex :=
  commitTransactionInternal faults true s

inductive Operation where
  | put (key : SIndexKey) (value : Int)
  | del (key : SIndexKey)

/-- An operation of the transaction, and the fault that it meets if there is one. -/
abbrev Tried := Operation × Option MapFault

def Operation.run (s : LMDBFileIndex) : Tried → LMDBFileIndex
  | (.put key value, fault) => s.put fault.toList key value
  | (.del key, fault) => s.del fault.toList key

def runTransaction (s : LMDBFileIndex) (ops : List Tried) (commitFault : Option MapFault) :
    LMDBFileIndex :=
  (ops.foldl Operation.run s.startTransaction).commitTransaction commitFault.toList

def Operation.apply (t : Table) : Operation → Table
  | .put key value => t.insert key value
  | .del key => t.erase key

/-- What is made of an operation that is written again: a put of 0 is logged as a deletion. -/
def Operation.replayed : Operation → Operation
  | .put key value => if value = 0 then .del key else .put key value
  | .del key => .del key

/-- A fault is still to come. -/
def Faulty (ops : List Tried) (commitFault : Option MapFault) : Prop :=
  commitFault ≠ none ∨ ∃ o ∈ ops, o.2 ≠ none

instance (ops : List Tried) (commitFault : Option MapFault) :
    Decidable (Faulty ops commitFault) :=
  inferInstanceAs (Decidable (_ ∨ _))

/-- The operations, in their order; those in front of a fault as they are logged. -/
def applied : List Tried → Option MapFault → List Operation
  | [], _ => []
  | o :: ops, commitFault =>
    (if Faulty ops commitFault then o.1.replayed else o.1) :: applied ops commitFault

section Transaction

variable {old eff rep : Table} {s : LMDBFileIndex}

def redo (t : Table) (item : TransactionLogItem) : Table :=
  if item.value ≠ 0 then t.insert item.key item.value else t.erase item.key

/-- The table of an open transaction, and the one that the log makes of what is committed. -/
structure InTransaction (old eff rep : Table) (s : LMDBFileIndex) : Prop where
  env : s.env = old
  txn : s.txn = some eff
  noError : s.hasError = false
  flags : ∀ item ∈ s.transactionLog, item.flags = .none
  log : s.transactionLog.foldl redo old = rep

theorem inTransaction_start (t : Table) (mapSize : Nat) :
    InTransaction t t t (idle t mapSize).startTransaction :=
  ⟨rfl, rfl, rfl, fun _ h => absurd h List.not_mem_nil, rfl⟩

theorem replay_spec (items : List TransactionLogItem) (h : ∀ item ∈ items, item.flags = .none)
    (s : LMDBFileIndex) {t : Table} (ht : s.txn = some t) :
    items.foldl replayItem s = { s with txn := some (items.foldl redo t) } := by
  induction items generalizing s t with
  | nil =>
    cases s
    simp_all
  | cons item items ih =>
    have hitem : replayItem s item = { s with txn := some (redo t item) } := by
      unfold replayItem redo putDone delDone
      rw [ht, h item List.mem_cons_self]
      split <;> rfl
    rw [List.foldl_cons, List.foldl_cons, hitem,
      ih (fun i hi => h i (List.mem_cons_of_mem _ hi)) _ rfl]

theorem InTransaction.recover (h : InTransaction old eff rep s) (fault : MapFault) :
    InTransaction old rep rep (s.txnAbort.recover fault) := by
  have hreplay : ∀ s' : LMDBFileIndex, s'.env = old → s'.hasError = false →
      s'.transactionLog = s.transactionLog →
      InTransaction old rep rep s'.startTransaction.replayTransactionLog := by
    intro s' henv herror hlog
    have hspec := replay_spec s.transactionLog h.flags s'.startTransaction rfl
    have hrun : s'.startTransaction.replayTransactionLog =
        s.transactionLog.foldl replayItem s'.startTransaction :=
      congrArg (fun items => List.foldl replayItem s'.startTransaction items) hlog
    rw [hrun, hspec, henv, h.log]
    exact ⟨henv, rfl, herror, hlog ▸ h.flags, (congrArg _ hlog).trans h.log⟩
  cases fault with
  | mapFull => exact hreplay s.txnAbort.growMap h.env h.noError rfl
  | badTxn => exact hreplay s.txnAbort h.env h.noError rfl

theorem InTransaction.log_item (h : InTransaction old eff rep s) (key : SIndexKey) (value : Int) :
    InTransaction old eff (redo rep ⟨key, value, .none⟩)
      (s.log ⟨key, value, .none⟩) := by
  refine ⟨h.env, h.txn, h.noError, ?_, ?_⟩
  · intro item hitem
    rcases List.mem_append.mp hitem with hitem | hitem
    · exact h.flags item hitem
    · rw [List.mem_singleton.mp hitem]
  · change (s.transactionLog ++ _).foldl _ _ = _
    rw [List.foldl_append, h.log]
    rfl

theorem InTransaction.putDone (h : InTransaction old eff rep s) (key : SIndexKey) (value : Int) :
    InTransaction old (eff.insert key value) rep (s.putDone key value .none) := by
  have hrun : s.putDone key value .none = { s with txn := some (eff.insert key value) } := by
    unfold LMDBFileIndex.putDone
    rw [h.txn]
    rfl
  rw [hrun]
  exact ⟨h.env, rfl, h.noError, h.flags, h.log⟩

theorem InTransaction.delDone (h : InTransaction old eff rep s) (key : SIndexKey) :
    InTransaction old (eff.erase key) rep (s.delDone key) := by
  have hrun : s.delDone key = { s with txn := some (eff.erase key) } := by
    unfold LMDBFileIndex.delDone
    rw [h.txn]
  rw [hrun]
  exact ⟨h.env, rfl, h.noError, h.flags, h.log⟩

theorem InTransaction.put (h : InTransaction old eff rep s) (fault : Option MapFault)
    (key : SIndexKey) (value : Int) :
    InTransaction old ((if fault = none then eff else rep).insert key value)
      (redo rep ⟨key, value, .none⟩) (s.put fault.toList key value) := by
  cases fault with
  | none =>
    have hdone := h.putDone key value
    change InTransaction _ _ _ (putInternal [] key value .none true true s)
    rw [if_pos rfl, putInternal, if_pos ⟨hdone.noError, rfl⟩]
    exact hdone.log_item key value
  | some fault =>
    have hdone := (h.recover fault).putDone key value
    change InTransaction _ _ _ (putInternal [fault] key value .none true true s)
    have hclear : ¬ s.hasError = true := Bool.eq_false_iff.mp h.noError
    rw [if_neg (Option.some_ne_none fault), putInternal, if_pos rfl, if_neg hclear, putInternal]
    simp only [Bool.false_eq_true, and_false, if_false]
    rw [if_pos ⟨hdone.noError, trivial⟩]
    exact hdone.log_item key value

theorem erase_erase (t : Table) (key : SIndexKey) : (t.erase key).erase key = t.erase key := by
  apply OrderedMap.ext
  intro k
  rw [OrderedMap.find?_erase, OrderedMap.find?_erase]
  split <;> rfl

theorem InTransaction.del (h : InTransaction old eff rep s) (fault : Option MapFault)
    (key : SIndexKey) :
    InTransaction old ((if fault = none then eff else rep).erase key) (rep.erase key)
      (s.del fault.toList key) := by
  cases fault with
  | none =>
    change InTransaction _ _ _ (delInternal [] key true true s)
    rw [delInternal]
    exact (h.delDone key).log_item key 0
  | some fault =>
    change InTransaction _ _ _ (delInternal [fault] key true true s)
    have hclear : ¬ (true = true ∧ s.hasError = true) := fun hand =>
      Bool.eq_false_iff.mp h.noError hand.2
    rw [if_neg (Option.some_ne_none fault), delInternal, if_neg hclear, delInternal]
    have htwice := (((h.recover fault).delDone key).log_item key 0).log_item key 0
    have hrep : redo (redo rep ⟨key, 0, .none⟩)
        ⟨key, 0, .none⟩ = rep.erase key := erase_erase rep key
    rw [hrep] at htwice
    exact htwice

/-- One operation: the table of the transaction is the one before it or, after a fault, the one of
the log. -/
theorem InTransaction.run (h : InTransaction old eff rep s) (o : Tried) :
    InTransaction old (Operation.apply (if o.2 = none then eff else rep) o.1)
      (Operation.apply rep o.1.replayed) (Operation.run s o) := by
  obtain ⟨op, fault⟩ := o
  cases op with
  | put key value =>
    have hput := h.put fault key value
    have hrep : Operation.apply rep (Operation.put key value).replayed =
        redo rep ⟨key, value, .none⟩ := by
      unfold redo Operation.replayed
      by_cases hvalue : value = 0 <;> simp [hvalue, Operation.apply]
    rw [← hrep] at hput
    exact hput
  | del key => exact h.del fault key

theorem InTransaction.commit (h : InTransaction old eff rep s) (commitFault : Option MapFault) :
    ∃ mapSize, s.commitTransaction commitFault.toList =
      idle (if commitFault = none then eff else rep) mapSize := by
  have hdone : ∀ {t : Table} {s' : LMDBFileIndex}, InTransaction old t rep s' →
      { s'.commitDone with transactionLog := [] } = idle t s'.mapSize := by
    intro t s' h'
    unfold commitDone idle
    rw [h'.txn]
    simp only [h'.noError]
  cases commitFault with
  | none => exact ⟨_, hdone h⟩
  | some fault =>
    have hclear : ¬ s.hasError = true := Bool.eq_false_iff.mp h.noError
    refine ⟨(s.txnAbort.recover fault).mapSize, ?_⟩
    change commitTransactionInternal [fault] true s = _
    rw [commitTransactionInternal, if_pos rfl, if_neg hclear]
    exact hdone (h.recover fault)

theorem InTransaction.finish (h : InTransaction old eff rep s) (ops : List Tried)
    (commitFault : Option MapFault) : ∃ mapSize,
      (ops.foldl Operation.run s).commitTransaction commitFault.toList =
        idle ((applied ops commitFault).foldl Operation.apply
          (if Faulty ops commitFault then rep else eff)) mapSize := by
  induction ops generalizing s eff rep with
  | nil =>
    obtain ⟨mapSize, hcommit⟩ := h.commit commitFault
    refine ⟨mapSize, hcommit.trans ?_⟩
    cases commitFault <;> simp [applied, Faulty]
  | cons o ops ih =>
    obtain ⟨mapSize, hrest⟩ := ih (h.run o)
    refine ⟨mapSize, hrest.trans ?_⟩
    rw [applied, List.foldl_cons]
    by_cases hlater : Faulty ops commitFault
    · have hfaulty : Faulty (o :: ops) commitFault :=
        hlater.imp_right fun ⟨o', ho', hfault⟩ => ⟨o', List.mem_cons_of_mem _ ho', hfault⟩
      rw [if_pos hlater, if_pos hlater, if_pos hfaulty]
    · have hfaulty : Faulty (o :: ops) commitFault ↔ o.2 ≠ none := by
        unfold Faulty at hlater ⊢
        simp only [List.mem_cons, exists_eq_or_imp]
        constructor
        · rintro (hcommit | hhere | hrest)
          · exact absurd (.inl hcommit) hlater
          · exact hhere
          · exact absurd (.inr hrest) hlater
        · exact fun hhere => .inr (.inl hhere)
      rw [if_neg hlater, if_neg hlater]
      by_cases hfault : o.2 = none
      · rw [if_pos hfault, if_neg fun hf => hfaulty.mp hf hfault]
      · rw [if_neg hfault, if_pos (hfaulty.mpr hfault)]

end Transaction

/-- Growing the map loses no operation. A put of 0 in front of a fault is made a deletion, which is
what the value stands for in the index. -/
theorem growth_loses_no_operation (env : Table) (mapSize : Nat) (ops : List Tried)
    (commitFault : Option MapFault) :
    (runTransaction (idle env mapSize) ops commitFault).env =
      (applied ops commitFault).foldl Operation.apply env ∧
    (runTransaction (idle env mapSize) ops commitFault).hasError = false ∧
    (runTransaction (idle env mapSize) ops commitFault).transactionLog = [] := by
  obtain ⟨mapSize', hrun⟩ := (inTransaction_start env mapSize).finish ops commitFault
  rw [ite_self] at hrun
  refine ⟨?_, ?_, ?_⟩
  · exact congrArg LMDBFileIndex.env hrun
  · exact congrArg LMDBFileIndex.hasError hrun
  · exact congrArg LMDBFileIndex.transactionLog hrun

/-- A value of 0 is lost when the commit finds the map full. -/
theorem put_of_zero_is_lost : ¬ ∀ (env : Table) (mapSize : Nat) (ops : List Tried)
    (commitFault : Option MapFault),
    (runTransaction (idle env mapSize) ops commitFault).env =
      (ops.map Prod.fst).foldl Operation.apply env ∧
    (runTransaction (idle env mapSize) ops commitFault).hasError = false ∧
    (runTransaction (idle env mapSize) ops commitFault).transactionLog = [] := by
  intro h
  have henv := (h .empty 1 [(.put .zero 0, none)] (some .mapFull)).1
  have hlost : (runTransaction (idle .empty 1) [(.put .zero 0, none)] (some .mapFull)).env =
      .empty := rfl
  rw [hlost] at henv
  have hentries := congrArg OrderedMap.entries henv
  exact absurd hentries (by decide)

end LMDBFileIndex

end UrBackup
