import Mathlib.Data.List.Basic

/-! A file that is read and written through a handle with a position. Reading behind the end gives
nothing. -/

structure ReadFile where
  content : List UInt8
  pos : Nat

namespace ReadFile

def size (f : ReadFile) : Nat := f.content.length

def seek (f : ReadFile) (pos : Nat) : ReadFile := { f with pos }

/-- What the next read of up to `n` bytes gives. -/
def next (f : ReadFile) (n : Nat) : List UInt8 := (f.content.drop f.pos).take n

def advance (f : ReadFile) (n : Nat) : ReadFile := { f with pos := f.pos + (f.next n).length }

/-- Bytes are written over what is there; a gap in front of them is filled with zeros. -/
def write (f : ReadFile) (buf : List UInt8) : ReadFile where
  content := f.content.take f.pos ++ List.replicate (f.pos - f.content.length) 0 ++ buf ++
    f.content.drop (f.pos + buf.length)
  pos := f.pos + buf.length

variable {f : ReadFile} {n : Nat}

@[simp] theorem seek_content (pos : Nat) : (f.seek pos).content = f.content := rfl

@[simp] theorem seek_pos (pos : Nat) : (f.seek pos).pos = pos := rfl

@[simp] theorem advance_content : (f.advance n).content = f.content := rfl

theorem advance_pos : (f.advance n).pos = f.pos + (f.next n).length := rfl

theorem next_length : (f.next n).length = min n (f.content.length - f.pos) := by
  rw [next, List.length_take, List.length_drop]

theorem getElem_next {i : Nat} (h : i < (f.next n).length) :
    (f.next n)[i] = f.content.getD (f.pos + i) 0 := by
  have hlength := @next_length f n
  rw [List.getD_eq_getElem?_getD, List.getElem?_eq_getElem (by omega), Option.getD_some]
  simp only [next, List.getElem_take, List.getElem_drop]

theorem next_of_drop {as bs : List UInt8} (h : f.content.drop f.pos = as ++ bs)
    (hn : n = as.length) : f.next n = as := by
  rw [next, h, hn, List.take_left']
  rfl

theorem next_succ_of_drop {as bs : List UInt8} (h : f.content.drop f.pos = as ++ bs)
    (hn : n = as.length + 1) : f.next n = as ++ bs.take 1 := by
  rw [next, h, hn, List.take_length_add_append]

theorem drop_advance {as bs : List UInt8} (h : f.content.drop f.pos = as ++ bs)
    (hn : n = as.length) : (f.advance n).content.drop (f.advance n).pos = bs := by
  rw [advance_pos, advance_content, next_of_drop h hn, ← List.drop_drop, h, List.drop_left']
  rfl

@[simp] theorem write_pos (buf : List UInt8) : (f.write buf).pos = f.pos + buf.length := rfl

theorem write_over {as old bs buf : List UInt8} (h : f.content = as ++ (old ++ bs))
    (hpos : f.pos = as.length) (hlength : buf.length = old.length) :
    (f.write buf).content = as ++ (buf ++ bs) := by
  simp [write, h, hpos, hlength]

theorem write_content {as bs buf : List UInt8} (h : f.content = as ++ bs)
    (hpos : f.pos = as.length) : (f.write buf).content = as ++ (buf ++ bs.drop buf.length) := by
  simp [write, h, hpos]

theorem write_write {as bs buf buf' : List UInt8} (h : f.content = as ++ bs)
    (hpos : f.pos = as.length) :
    ((f.write buf).write buf').content = as ++ (buf ++ buf' ++ bs.drop (buf ++ buf').length) := by
  have hfirst := @write_content f as bs buf h hpos
  rw [← List.append_assoc] at hfirst
  rw [write_content hfirst (by rw [write_pos, hpos, List.length_append]), List.drop_drop,
    List.length_append]
  simp only [List.append_assoc]

theorem write_at_end {buf : List UInt8} (h : f.pos = f.content.length) :
    (f.write buf).content = f.content ++ buf := by
  simp [write, h]

end ReadFile
