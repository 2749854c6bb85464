import UrBackup.FileIndex.Key

/-! The file entry index: two write buffers in front of an LMDB table, and the
lookups that combine the three. The value 0 marks a deletion. -/
namespace UrBackup

abbrev CacheBuffer := OrderedMap SIndexKey Int

abbrev Table := OrderedMap SIndexKey Int

inductive CacheBufferId where
  | one
  | two
  deriving DecidableEq, Repr

def CacheBufferId.other : CacheBufferId → CacheBufferId
  | .one => .two
  | .two => .one

structure FileIndex where
  cacheBuffer1 : CacheBuffer
  cacheBuffer2 : CacheBuffer
  activeBuffer : CacheBufferId
  table : Table
  deriving DecidableEq

namespace FileIndex

def buffer (ix : FileIndex) : CacheBufferId → CacheBuffer
  | .one => ix.cacheBuffer1
  | .two => ix.cacheBuffer2

def setBuffer (ix : FileIndex) (b : CacheBufferId) (m : CacheBuffer) : FileIndex :=
  match b with
  | .one => { ix with cacheBuffer1 := m }
  | .two => { ix with cacheBuffer2 := m }

def activeCacheBuffer (ix : FileIndex) : CacheBuffer := ix.buffer ix.activeBuffer

def otherCacheBuffer (ix : FileIndex) : CacheBuffer := ix.buffer ix.activeBuffer.other

def empty : FileIndex := ⟨.empty, .empty, .one, .empty⟩

def putDelayed (ix : FileIndex) (key : SIndexKey) (value : Int) : FileIndex :=
  ix.setBuffer ix.activeBuffer (ix.activeCacheBuffer.insert key value)

section Cache

def getFromCacheExact (key : SIndexKey) (cache : CacheBuffer) : Option Int := cache.find? key

def getFromCachePreferClient (key : SIndexKey) (cache : CacheBuffer) : Option Int :=
  match cache.lowerBound key with
  | [] => none
  | (startKey, value) :: _ =>
    if startKey.isEqualWithoutClientid key then some value
    else
      -- one step back, unless the iterator is at the beginning
      match (cache.before key).getLast? with
      | none => none
      | some (prevKey, prevValue) =>
        if prevKey.isEqualWithoutClientid key then some prevValue else none

def getFromCacheAllClients (key : SIndexKey) (cache : CacheBuffer)
    (ret : OrderedMap ClientId Int) : OrderedMap ClientId Int :=
  ret.insertAll (((cache.lowerBound key).takeWhile fun e => e.1.isEqualWithoutClientid key).map
    fun e => (e.1.clientid, e.2))

end Cache

section Table

/-- A cursor stands on an entry; the entries it passed are listed nearest first. -/
structure Cursor where
  passed : List (SIndexKey × Int)
  current : SIndexKey × Int
  rest : List (SIndexKey × Int)

/-- `MDB_SET_RANGE`: the first entry whose key is not smaller. -/
def Cursor.setRange (t : Table) (key : SIndexKey) : Option Cursor :=
  match t.lowerBound key with
  | [] => none
  | e :: es => some ⟨(t.before key).reverse, e, es⟩

/-- `MDB_PREV` -/
def Cursor.prev (c : Cursor) : Option Cursor :=
  match c.passed with
  | [] => none
  | e :: es => some ⟨es, e, c.current :: c.rest⟩

def get (t : Table) (key : SIndexKey) : Int := (t.find? key).getD 0

/-- The loop of `get_prefer_client`; `none` is the code `MDB_NOTFOUND`. -/
def preferClientLoop (origKey : SIndexKey) : Nat → Option Cursor → Int
  | 0, _ => 0
  | _ + 1, none => 0
  | retryPrev + 1, some c =>
    if c.current.1.isEqualWithoutClientid origKey then c.current.2
    else preferClientLoop origKey retryPrev c.prev

def getPreferClient (t : Table) (key : SIndexKey) : Int :=
  preferClientLoop key 2 (Cursor.setRange t key)

/-- The loop of `get_all_clients` over the entries from the cursor on. -/
def allClientsLoop (origKey : SIndexKey) :
    OrderedMap ClientId Int → List (SIndexKey × Int) → OrderedMap ClientId Int
  | ret, [] => ret
  | ret, e :: es =>
    if origKey.isEqualWithoutClientid e.1 then
      allClientsLoop origKey (ret.insert e.1.clientid e.2) es
    else ret

def getAllClients (t : Table) (key : SIndexKey) : OrderedMap ClientId Int :=
  match Cursor.setRange t key with
  | none => .empty
  | some c => allClientsLoop key .empty (c.current :: c.rest)

end Table

def getWithCacheExact (ix : FileIndex) (key : SIndexKey) : Int :=
  match getFromCacheExact key ix.activeCacheBuffer with
  | some ret => ret
  | none =>
    match getFromCacheExact key ix.otherCacheBuffer with
    | some ret => ret
    | none => get ix.table key

def getWithCachePreferClient (ix : FileIndex) (key : SIndexKey) : Int :=
  match getFromCachePreferClient key ix.activeCacheBuffer with
  | some ret => ret
  | none =>
    match getFromCachePreferClient key ix.otherCacheBuffer with
    | some ret => ret
    | none => getPreferClient ix.table key

def getAllClientsWithCache (ix : FileIndex) (key : SIndexKey) (withDel : Bool) :
    OrderedMap ClientId Int :=
  let retCache := getFromCacheAllClients key ix.activeCacheBuffer
    (getFromCacheAllClients key ix.otherCacheBuffer .empty)
  let ret := (getAllClients ix.table key).insertAll retCache.entries
  if withDel then ret else ret.filterValues fun value => value ≠ 0

def layered (ix : FileIndex) (key : SIndexKey) : Option Int :=
  (ix.activeCacheBuffer.find? key).or
    ((ix.otherCacheBuffer.find? key).or (ix.table.find? key))

def logical (ix : FileIndex) (key : SIndexKey) : Int := (ix.layered key).getD 0

theorem getWithCacheExact_eq_logical (ix : FileIndex) (key : SIndexKey) :
    ix.getWithCacheExact key = ix.logical key := by
  unfold getWithCacheExact getFromCacheExact logical layered get
  cases ix.activeCacheBuffer.find? key with
  | some v => rfl
  | none =>
    cases ix.otherCacheBuffer.find? key with
    | some v => rfl
    | none => rfl

section

variable (ix : FileIndex) (b : CacheBufferId) (m : CacheBuffer)

@[simp] theorem buffer_setBuffer_self : (ix.setBuffer b m).buffer b = m := by cases b <;> rfl

@[simp] theorem buffer_setBuffer_other :
    (ix.setBuffer b m).buffer b.other = ix.buffer b.other := by cases b <;> rfl

@[simp] theorem buffer_other_setBuffer :
    (ix.setBuffer b.other m).buffer b = ix.buffer b := by cases b <;> rfl

@[simp] theorem activeBuffer_setBuffer :
    (ix.setBuffer b m).activeBuffer = ix.activeBuffer := by cases b <;> rfl

@[simp] theorem table_setBuffer : (ix.setBuffer b m).table = ix.table := by cases b <;> rfl

end

@[simp] theorem activeCacheBuffer_putDelayed (ix : FileIndex) (key : SIndexKey) (value : Int) :
    (ix.putDelayed key value).activeCacheBuffer = ix.activeCacheBuffer.insert key value := by
  simp [putDelayed, activeCacheBuffer]

@[simp] theorem otherCacheBuffer_putDelayed (ix : FileIndex) (key : SIndexKey) (value : Int) :
    (ix.putDelayed key value).otherCacheBuffer = ix.otherCacheBuffer := by
  simp [putDelayed, otherCacheBuffer]

@[simp] theorem table_putDelayed (ix : FileIndex) (key : SIndexKey) (value : Int) :
    (ix.putDelayed key value).table = ix.table := by simp [putDelayed]

theorem layered_putDelayed (ix : FileIndex) (key key' : SIndexKey) (value : Int) :
    (ix.putDelayed key value).layered key' =
      if key = key' then some value else ix.layered key' := by
  unfold layered
  simp only [activeCacheBuffer_putDelayed, otherCacheBuffer_putDelayed, table_putDelayed,
    OrderedMap.find?_insert]
  split <;> rfl

theorem logical_putDelayed (ix : FileIndex) (key key' : SIndexKey) (value : Int) :
    (ix.putDelayed key value).logical key' = if key = key' then value else ix.logical key' := by
  rw [logical, layered_putDelayed]
  split <;> rfl

section AllClients

theorem findEntry_group {m : OrderedMap SIndexKey Int} {key : SIndexKey} (hkey : key.clientid = 0)
    (c : ClientId) :
    OrderedMap.findEntry (key.withClient c)
      ((m.lowerBound key).takeWhile fun e => e.1.isEqualWithoutClientid key) =
      m.find? (key.withClient c) := by
  have hconvex : (m.lowerBound key).Pairwise fun a b =>
      b.1.isEqualWithoutClientid key = true → a.1.isEqualWithoutClientid key = true := by
    refine (List.Pairwise.and_mem.mp (m.lowerBound_sorted key)).imp fun {a b} h hb => ?_
    obtain ⟨ha, -, hlt⟩ := h
    have hab := SIndexKey.isEqualWithoutClientid_of_le_of_le
      (by rw [SIndexKey.isEqualWithoutClientid_comm]; exact hb)
      (OrderedMap.le_of_mem_lowerBound ha) hlt.le
    rw [SIndexKey.isEqualWithoutClientid_iff] at hab hb ⊢
    exact ⟨hab.1.trans hb.1, hab.2.trans hb.2⟩
  have hfilter := OrderedMap.findEntry_filter (fun k => k.isEqualWithoutClientid key)
    (key.withClient c) (m.lowerBound key)
  rw [OrderedMap.takeWhile_eq_filter hconvex, hfilter,
    if_pos (SIndexKey.isEqualWithoutClientid_withClient key c)]
  ext v
  rw [OrderedMap.findEntry_eq_some (m.lowerBound_sorted key), OrderedMap.find?_eq_some_iff,
    OrderedMap.mem_lowerBound_iff, and_iff_left_iff_imp]
  intro _
  refine SIndexKey.clientZero_le ?_ hkey
  rw [SIndexKey.isEqualWithoutClientid_comm]
  exact SIndexKey.isEqualWithoutClientid_withClient key c

theorem findEntry_clients {es : List (SIndexKey × Int)} {key : SIndexKey} (c : ClientId)
    (h : ∀ e ∈ es, e.1.isEqualWithoutClientid key = true) :
    OrderedMap.findEntry c (es.map fun e => (e.1.clientid, e.2)) =
      OrderedMap.findEntry (key.withClient c) es := by
  refine OrderedMap.findEntry_map SIndexKey.clientid (key.withClient c) es fun e he hc => ?_
  rw [SIndexKey.eq_withClient (h e he), hc]
  rfl

theorem clients_ne {es : List (SIndexKey × Int)} {key : SIndexKey}
    (hsorted : es.Pairwise fun a b => a.1 < b.1)
    (h : ∀ e ∈ es, e.1.isEqualWithoutClientid key = true) :
    (es.map fun e => (e.1.clientid, e.2)).Pairwise fun a b => a.1 ≠ b.1 := by
  rw [List.pairwise_map]
  refine (List.Pairwise.and_mem.mp hsorted).imp fun {a b} hab hc => ?_
  obtain ⟨ha, hb, hlt⟩ := hab
  have hclient : a.1.clientid = b.1.clientid := hc
  rw [SIndexKey.eq_withClient (h a ha), SIndexKey.eq_withClient (h b hb), hclient] at hlt
  exact lt_irrefl _ hlt

theorem find?_getFromCacheAllClients {key : SIndexKey} (hkey : key.clientid = 0)
    (cache : CacheBuffer) (ret : OrderedMap ClientId Int) (c : ClientId) :
    (getFromCacheAllClients key cache ret).find? c =
      (cache.find? (key.withClient c)).or (ret.find? c) := by
  have hgroup : ∀ e ∈ (cache.lowerBound key).takeWhile fun e => e.1.isEqualWithoutClientid key,
      e.1.isEqualWithoutClientid key = true := fun e he =>
    List.mem_takeWhile_imp (p := fun e : SIndexKey × Int => e.1.isEqualWithoutClientid key) he
  have hsorted := (cache.lowerBound_sorted key).sublist (List.takeWhile_sublist
    fun e => e.1.isEqualWithoutClientid key)
  unfold getFromCacheAllClients
  rw [OrderedMap.find?_insertAll _ (clients_ne hsorted hgroup), findEntry_clients c hgroup,
    findEntry_group hkey]

theorem allClientsLoop_eq (origKey : SIndexKey) (ret : OrderedMap ClientId Int)
    (es : List (SIndexKey × Int)) :
    allClientsLoop origKey ret es =
      ret.insertAll ((es.takeWhile fun e => e.1.isEqualWithoutClientid origKey).map
        fun e => (e.1.clientid, e.2)) := by
  induction es generalizing ret with
  | nil => rfl
  | cons e es ih =>
    rw [allClientsLoop, SIndexKey.isEqualWithoutClientid_comm]
    by_cases h : e.1.isEqualWithoutClientid origKey = true
    · rw [if_pos h, ih, List.takeWhile_cons_of_pos (by exact h)]
      rfl
    · rw [if_neg h, List.takeWhile_cons_of_neg (by exact h)]
      rfl

theorem getAllClients_eq (t : Table) (key : SIndexKey) :
    getAllClients t key = getFromCacheAllClients key t .empty := by
  unfold getAllClients Cursor.setRange getFromCacheAllClients
  cases hlb : t.lowerBound key with
  | nil => rfl
  | cons e es => exact allClientsLoop_eq key .empty (e :: es)

theorem find?_getAllClientsWithCache_withDel (ix : FileIndex) {key : SIndexKey}
    (hkey : key.clientid = 0) (c : ClientId) :
    (ix.getAllClientsWithCache key true).find? c = ix.layered (key.withClient c) := by
  simp only [getAllClientsWithCache, if_true]
  rw [OrderedMap.find?_insertAll _ (OrderedMap.entries_keys_ne _), getAllClients_eq,
    find?_getFromCacheAllClients hkey]
  have hcache : ∀ m : OrderedMap ClientId Int, OrderedMap.findEntry c m.entries = m.find? c :=
    fun _ => rfl
  rw [hcache, find?_getFromCacheAllClients hkey, find?_getFromCacheAllClients hkey, layered]
  simp [Option.or_assoc]

theorem find?_getAllClientsWithCache (ix : FileIndex) {key : SIndexKey}
    (hkey : key.clientid = 0) (c : ClientId) :
    (ix.getAllClientsWithCache key false).find? c =
      if ix.logical (key.withClient c) = 0 then none else some (ix.logical (key.withClient c)) := by
  have hdel := ix.find?_getAllClientsWithCache_withDel hkey c
  simp only [getAllClientsWithCache, if_true] at hdel
  simp only [getAllClientsWithCache, Bool.false_eq_true, if_false]
  rw [OrderedMap.find?_filterValues, hdel, logical]
  cases ix.layered (key.withClient c) with
  | none => rfl
  | some v => by_cases hv : v = 0 <;> simp [hv]

end AllClients

end FileIndex

end UrBackup
