import Mathlib.Data.List.Basic
import Mathlib.Data.List.Range

/-! Bytes by their place: buffers, and files that keep what is written to them. -/

abbrev ByteStore := Nat → UInt8

namespace ByteStore

def write (f : ByteStore) (pos : Nat) (data : List UInt8) : ByteStore := fun i =>
  if pos ≤ i then (data[i - pos]?).getD (f i) else f i

def read (f : ByteStore) (pos n : Nat) : List UInt8 := (List.range' pos n).map f

/-- The bytes from `start` to `stop` become zero. -/
def clear (f : ByteStore) (start stop : Nat) : ByteStore := fun i =>
  if start ≤ i ∧ i < stop then 0 else f i

variable {f g : ByteStore} {pos pos' n i : Nat} {data : List UInt8}

theorem write_of_lt (h : i < pos) : f.write pos data i = f i :=
  if_neg (Nat.not_le.mpr h)

theorem write_of_le (h : pos + data.length ≤ i) : f.write pos data i = f i := by
  unfold write
  rw [if_pos (by omega), List.getElem?_eq_none (by omega), Option.getD_none]

theorem write_of_mem (h : pos ≤ i) (h' : i - pos < data.length) :
    f.write pos data i = data[i - pos] := by
  unfold write
  rw [if_pos h, List.getElem?_eq_getElem h', Option.getD_some]

theorem write_of_not_mem (h : ¬ (pos ≤ i ∧ i < pos + data.length)) : f.write pos data i = f i := by
  by_cases hlt : i < pos
  · exact write_of_lt hlt
  · exact write_of_le (by omega)

@[simp] theorem write_nil (f : ByteStore) (pos : Nat) : f.write pos [] = f := by
  funext i
  exact write_of_not_mem (by simp)

theorem write_append (f : ByteStore) (pos : Nat) (data data' : List UInt8) :
    f.write pos (data ++ data') = (f.write pos data).write (pos + data.length) data' := by
  funext i
  by_cases hfirst : i < pos + data.length
  · rw [write_of_lt hfirst]
    by_cases hlt : i < pos
    · rw [write_of_lt hlt, write_of_lt hlt]
    · rw [write_of_mem (by omega) (by rw [List.length_append]; omega),
        write_of_mem (by omega) (by omega), List.getElem_append_left]
  · by_cases hlast : i < pos + data.length + data'.length
    · rw [write_of_mem (by omega) (by rw [List.length_append]; omega),
        write_of_mem (by omega) (by omega), List.getElem_append_right (by omega)]
      congr 1
      omega
    · rw [write_of_le (by rw [List.length_append]; omega), write_of_le (by omega),
        write_of_le (by omega)]

@[simp] theorem read_length (f : ByteStore) (pos n : Nat) : (f.read pos n).length = n := by
  rw [read, List.length_map, List.length_range']

@[simp] theorem read_zero (f : ByteStore) (pos : Nat) : f.read pos 0 = [] := rfl

theorem read_congr (h : ∀ i, pos ≤ i → i < pos + n → f i = g i) : f.read pos n = g.read pos n := by
  apply List.map_congr_left
  intro i hi
  rw [List.mem_range'_1] at hi
  exact h i hi.1 hi.2

theorem read_zeros (h : ∀ i, pos ≤ i → i < pos + n → f i = 0) :
    f.read pos n = List.replicate n 0 := by
  apply List.eq_replicate_iff.mpr
  refine ⟨f.read_length pos n, fun x hx => ?_⟩
  obtain ⟨i, hi, rfl⟩ := List.mem_map.mp hx
  rw [List.mem_range'_1] at hi
  exact h i hi.1 hi.2

theorem read_add (f : ByteStore) (pos m n : Nat) :
    f.read pos (m + n) = f.read pos m ++ f.read (pos + m) n := by
  rw [read, read, read, ← List.map_append, List.range'_append_1]

theorem getElem_read (h : i < (f.read pos n).length) : (f.read pos n)[i] = f (pos + i) := by
  simp [read]

theorem read_write (f : ByteStore) (pos : Nat) (data : List UInt8) :
    (f.write pos data).read pos data.length = data := by
  apply List.ext_getElem
  · rw [read_length]
  · intro i hi hi'
    rw [getElem_read, write_of_mem (by omega) (by omega)]
    congr 1
    omega

theorem read_write_drop (f : ByteStore) (pos k : Nat) (h : k + n ≤ data.length) :
    (f.write pos data).read (pos + k) n = (data.drop k).take n := by
  apply List.ext_getElem
  · rw [read_length, List.length_take, List.length_drop]
    omega
  · intro i hi hi'
    rw [read_length] at hi
    rw [getElem_read, write_of_mem (by omega) (by omega), List.getElem_take, List.getElem_drop]
    congr 1
    omega

theorem read_write_take (f : ByteStore) (pos : Nat) (h : n ≤ data.length) :
    (f.write pos data).read pos n = data.take n := by
  have hdrop := @read_write_drop n data f pos 0 (by omega)
  exact hdrop

theorem write_last (f : ByteStore) (pos : Nat) (data : List UInt8) (x : UInt8) :
    f.write pos (data ++ [x]) (pos + data.length) = x := by
  rw [write_of_mem (by omega) (by simp)]
  simp

theorem read_write_of_disjoint (h : pos' + n ≤ pos ∨ pos + data.length ≤ pos') :
    (f.write pos data).read pos' n = f.read pos' n := by
  apply read_congr
  intro i hi hi'
  exact write_of_not_mem (by omega)

end ByteStore

/-- A file that grows where it is written to; what was never written is zero. -/
structure StoredFile where
  bytes : ByteStore
  size : Nat

namespace StoredFile

def empty : StoredFile := ⟨fun _ => 0, 0⟩

def write (f : StoredFile) (pos : Nat) (data : List UInt8) : StoredFile :=
  ⟨f.bytes.write pos data, if data = [] then f.size else max f.size (pos + data.length)⟩

def resize (f : StoredFile) (size : Nat) : StoredFile :=
  ⟨fun i => if i < size then f.bytes i else 0, size⟩

/-- A part of the file reads as zeros. The file does not end somewhere else. -/
def punchHole (f : StoredFile) (offset size : Nat) : StoredFile :=
  { f with bytes := f.bytes.clear offset (offset + size) }

/-- Nothing is kept behind the end. -/
def Ended (f : StoredFile) : Prop := ∀ i, f.size ≤ i → f.bytes i = 0

def read (f : StoredFile) (pos n : Nat) : List UInt8 := f.bytes.read pos (min n (f.size - pos))

variable {f : StoredFile} {pos pos' n : Nat} {data : List UInt8}

theorem read_length (f : StoredFile) (pos n : Nat) :
    (f.read pos n).length = min n (f.size - pos) := by
  rw [read, ByteStore.read_length]

theorem read_of_le (h : pos + n ≤ f.size) : f.read pos n = f.bytes.read pos n := by
  rw [read, Nat.min_eq_left (by omega)]

theorem getElem_read {i : Nat} (h : i < (f.read pos n).length) : (f.read pos n)[i] = f.bytes (pos + i) :=
  ByteStore.getElem_read h

theorem size_le_write (f : StoredFile) (pos : Nat) (data : List UInt8) :
    f.size ≤ (f.write pos data).size := by
  unfold write
  dsimp only
  split
  · exact Nat.le_refl _
  · exact Nat.le_max_left _ _

theorem le_size_write (f : StoredFile) (pos : Nat) (hdata : data ≠ []) :
    pos + data.length ≤ (f.write pos data).size := by
  unfold write
  dsimp only
  rw [if_neg hdata]
  exact Nat.le_max_right _ _

theorem read_write (f : StoredFile) (pos : Nat) (data : List UInt8) :
    (f.write pos data).read pos data.length = data := by
  by_cases hdata : data = []
  · subst hdata
    rw [List.length_nil, read, Nat.zero_min]
    rfl
  · rw [read_of_le (le_size_write f pos hdata)]
    exact ByteStore.read_write f.bytes pos data

theorem read_write_take (f : StoredFile) (pos : Nat) (h : n ≤ data.length) :
    (f.write pos data).read pos n = data.take n := by
  by_cases hdata : data = []
  · subst hdata
    rw [List.take_nil, read, Nat.le_zero.mp h, Nat.zero_min]
    rfl
  · have hsize := le_size_write f pos hdata
    rw [read_of_le (by omega)]
    exact ByteStore.read_write_take f.bytes pos h

theorem read_write_of_disjoint (hin : pos' + n ≤ f.size)
    (h : pos' + n ≤ pos ∨ pos + data.length ≤ pos') :
    (f.write pos data).read pos' n = f.read pos' n := by
  have hsize := size_le_write f pos data
  rw [read_of_le (by omega), read_of_le hin]
  exact ByteStore.read_write_of_disjoint h

@[simp] theorem write_nil (f : StoredFile) (pos : Nat) : f.write pos [] = f := by
  simp only [write, ByteStore.write_nil, if_true]

theorem write_append (f : StoredFile) (pos : Nat) (h : data ≠ []) (data' : List UInt8) :
    (f.write pos data).write (pos + data.length) data' = f.write pos (data ++ data') := by
  by_cases hdata' : data' = []
  · rw [hdata', write_nil, List.append_nil]
  · have hboth : data ++ data' ≠ [] := fun hnil => h (List.append_eq_nil_iff.mp hnil).1
    have hsize : max (max f.size (pos + data.length)) (pos + data.length + data'.length) =
        max f.size (pos + (data ++ data').length) := by
      rw [List.length_append]
      omega
    simp only [write, ByteStore.write_append, if_neg h, if_neg hdata', if_neg hboth, hsize]

theorem Ended.write (h : f.Ended) (pos : Nat) (data : List UInt8) : (f.write pos data).Ended := by
  intro i hi
  have hsize := size_le_write f pos data
  by_cases hdata : data = []
  · subst hdata
    exact (congrFun (ByteStore.write_nil f.bytes pos) i).trans (h i (hsize.trans hi))
  · have hend := le_size_write f pos hdata
    exact (ByteStore.write_of_le (hend.trans hi)).trans (h i (hsize.trans hi))

theorem Ended.punchHole (h : f.Ended) (offset size : Nat) : (f.punchHole offset size).Ended := by
  intro i hi
  change f.bytes.clear offset (offset + size) i = 0
  unfold ByteStore.clear
  split
  · rfl
  · exact h i hi

end StoredFile
