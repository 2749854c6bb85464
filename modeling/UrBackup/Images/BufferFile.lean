import UrBackup.Internet.Connector
import UrBackup.Lib.ByteOrder
import UrBackup.Lib.ByteStore
import UrBackup.Lib.ReadFile

/-! Image data in a buffer file: a header in front of each piece, and the loop that reads the pieces
back, in which the end of one read is the type of the next piece. -/
namespace UrBackup

open ByteOrder

/-- What `writeBuffer` is called with, and what `writeVHD` is called with. A trim has no buffer. -/
structure BufferVHDItem where
  pos : UInt64
  buf : Option Bytes
  bsize : UInt32
deriving DecidableEq

/-- The size is that of the buffer. A buffer was allocated together with the header in front of it,
and the size of both is an `unsigned int`. -/
def BufferVHDItem.Fits (item : BufferVHDItem) : Prop :=
  ∀ buf, item.buf = some buf → buf.length = item.bsize.toNat ∧ item.bsize.toNat + 24 < 2 ^ 32

structure FileBufferVHDItem where
  type : UInt8
  pos : UInt64
  bsize : UInt32

/-- The bytes between and behind the members of a header. Nobody sets them. -/
structure Padding where
  front : Bytes
  back : Bytes
  front_length : front.length = 7
  back_length : back.length = 4

namespace FileBufferVHDItem

def size : Nat := 24

def bytes (fbi : FileBufferVHDItem) (padding : Padding) : Bytes :=
  fbi.type :: (padding.front ++ (littleEndian 8 fbi.pos.toNat ++
    (littleEndian 4 fbi.bsize.toNat ++ padding.back)))

def ofBytes (mem : Bytes) : FileBufferVHDItem where
  type := mem.headD 0
  pos := UInt64.ofNat (ofLittleEndian ((mem.drop 8).take 8))
  bsize := UInt32.ofNat (ofLittleEndian ((mem.drop 16).take 4))

def ofItem (item : BufferVHDItem) : FileBufferVHDItem where
  type := if item.buf.isSome then 0 else 1
  pos := item.pos
  bsize := item.bsize

end FileBufferVHDItem

def BufferVHDItem.record (item : BufferVHDItem) (padding : Padding) : Bytes :=
  (FileBufferVHDItem.ofItem item).bytes padding ++ item.buf.getD []

/-- The memory into which pieces are read. -/
structure BlockBuf where
  mem : ByteStore
  size : UInt32

namespace BlockBuf

/-- The memory for blocks of some size. What it holds at first is not known. -/
def new (mem : ByteStore) (blocksize : UInt32) : BlockBuf :=
  ⟨mem, UInt32.ofNat (blocksize.toNat + FileBufferVHDItem.size + 1)⟩

def enlarge (b : BlockBuf) (fresh : ByteStore) (tw : UInt32) : BlockBuf :=
  if b.size < tw + 1 then ⟨fresh, UInt32.ofNat ((tw + 1).toNat + FileBufferVHDItem.size)⟩ else b

end BlockBuf

/-- The loop over a buffer file. -/
structure Reading where
  tmp : ReadFile
  tpos : Nat
  nextType : UInt8

namespace Reading

/-- No type is known, `-1` as a `char`. -/
def noType : UInt8 := 255

def start (content : Bytes) : Reading := ⟨⟨content, 0⟩, 0, noType⟩

variable (fresh : ByteStore) (b : BlockBuf) (r : Reading)

def readData (item : FileBufferVHDItem) (tmp : ReadFile) (tpos : Nat) :
    Option (BufferVHDItem × BlockBuf × Reading) :=
  let tw := item.bsize.toNat
  if tmp.size < tpos + tw then none
  else
    let b := b.enlarge fresh item.bsize
    let n := (item.bsize + 1).toNat
    let read := tmp.next n
    let b := { b with mem := b.mem.write 0 read }
    if read.length < tw then none
    else
      let nextType := if read.length = n then b.mem tw else noType
      some (⟨item.pos, some (b.mem.read 0 tw), item.bsize⟩, b,
        ⟨tmp.advance n, tpos + tw, nextType⟩)

/-- A piece is read with its header first. There is no result where the file is not what it
should be. -/
def oldMethod : Option (BufferVHDItem × BlockBuf × Reading) :=
  let tmp := r.tmp.seek r.tpos
  let header := tmp.next FileBufferVHDItem.size
  if header.length ≠ FileBufferVHDItem.size then none
  else
    let item := FileBufferVHDItem.ofBytes header
    let tmp := tmp.advance FileBufferVHDItem.size
    let tpos := r.tpos + FileBufferVHDItem.size
    if item.type = 1 then some (⟨item.pos, none, item.bsize⟩, b, ⟨tmp, tpos, noType⟩)
    else if item.type = 0 then readData fresh b item tmp tpos
    else none

/-- One turn of the loop. If the piece has a buffer and the memory is of its size, one read gives
the rest of its header, its data and the type of the next piece. -/
def turn : Option (BufferVHDItem × BlockBuf × Reading) :=
  if r.nextType ≠ 0 then oldMethod fresh b r
  else
    let n := (b.size - 1).toNat
    let read := r.tmp.next n
    let b := { b with mem := b.mem.write 1 read }
    let r := { r with tmp := r.tmp.advance n }
    if read.length ≠ n then oldMethod fresh b r
    else
      let item := FileBufferVHDItem.ofBytes (b.mem.read 0 FileBufferVHDItem.size)
      let tw := item.bsize.toNat
      if n = tw + FileBufferVHDItem.size then
        some (⟨item.pos, some (b.mem.read FileBufferVHDItem.size tw), item.bsize⟩, b,
          { r with tpos := r.tpos + tw + FileBufferVHDItem.size, nextType := b.mem n })
      else oldMethod fresh b r

end Reading

section Headers

variable (fbi : FileBufferVHDItem) (padding : Padding)

theorem FileBufferVHDItem.bytes_length : (fbi.bytes padding).length = FileBufferVHDItem.size := by
  simp [FileBufferVHDItem.bytes, FileBufferVHDItem.size, padding.front_length, padding.back_length]

theorem FileBufferVHDItem.tail_length : (fbi.bytes padding).tail.length = 23 := by
  rw [List.length_tail, fbi.bytes_length padding]
  rfl

theorem FileBufferVHDItem.ofBytes_cons (type : UInt8) :
    FileBufferVHDItem.ofBytes (type :: (fbi.bytes padding).tail) = { fbi with type } := by
  have hpos : fbi.pos.toNat < 256 ^ 8 := fbi.pos.toNat_lt
  have hbsize : fbi.bsize.toNat < 256 ^ 4 := fbi.bsize.toNat_lt
  have hfront : ∀ rest, (type :: (padding.front ++ rest)).drop 8 = rest := by
    intro rest
    rw [List.drop_succ_cons, List.drop_left' padding.front_length]
  have hback : ∀ rest, (type :: (padding.front ++ (littleEndian 8 fbi.pos.toNat ++ rest))).drop 16 =
      rest := by
    intro rest
    rw [show 16 = 8 + 8 from rfl, ← List.drop_drop, hfront,
      List.drop_left' (littleEndian_length 8 _)]
  simp only [FileBufferVHDItem.ofBytes, FileBufferVHDItem.bytes, List.tail_cons, List.headD_cons,
    hfront, hback, List.take_left' (littleEndian_length _ _), ofLittleEndian_littleEndian hpos,
    ofLittleEndian_littleEndian hbsize, UInt64.ofNat_toNat, UInt32.ofNat_toNat]

theorem FileBufferVHDItem.ofBytes_bytes :
    FileBufferVHDItem.ofBytes (fbi.bytes padding) = fbi :=
  fbi.ofBytes_cons padding fbi.type

theorem FileBufferVHDItem.ofBytes_read (mem : ByteStore) (behind : Bytes) :
    FileBufferVHDItem.ofBytes
        ((mem.write 1 ((fbi.bytes padding).tail ++ behind)).read 0 FileBufferVHDItem.size) =
      { fbi with type := mem 0 } := by
  have htail := fbi.tail_length padding
  have hread : (mem.write 1 ((fbi.bytes padding).tail ++ behind)).read 1 23 =
      (fbi.bytes padding).tail := by
    rw [ByteStore.read_write_take mem 1 (by rw [List.length_append]; omega),
      List.take_left' htail]
  rw [show FileBufferVHDItem.size = 1 + 23 from rfl, ByteStore.read_add, Nat.zero_add, hread]
  exact fbi.ofBytes_cons padding (mem 0)

end Headers

abbrev Records := List (BufferVHDItem × Padding)

namespace Records

def bytes (records : Records) : Bytes := records.flatMap fun r => r.1.record r.2

def items (records : Records) : List BufferVHDItem := records.map Prod.fst

theorem bytes_cons (item : BufferVHDItem) (padding : Padding) (rest : Records) :
    bytes ((item, padding) :: rest) = item.record padding ++ rest.bytes := List.flatMap_cons

theorem bytes_concat (records : Records) (item : BufferVHDItem) (padding : Padding) :
    bytes (records ++ [(item, padding)]) = records.bytes ++ item.record padding := by
  simp [bytes]

end Records

/-- What is left of a buffer file are some pieces. If a type is known, it is that of the first of
them, and the next read begins behind it. -/
structure Reading.Tracks (r : Reading) (rest : Records) : Prop where
  content : r.tmp.content.drop r.tpos = rest.bytes
  next : r.nextType = 0 → r.tmp.pos = r.tpos + 1 ∧ rest.bytes.head? = some 0

namespace Reading

theorem tracks_start (records : Records) : (start records.bytes).Tracks records where
  content := rfl
  next := nofun

theorem tracks_lookahead {content : Bytes} {pos tpos : Nat} {rest : Records} {x : UInt8}
    (hcontent : content.drop tpos = rest.bytes) (hpos : pos = tpos + 1)
    (hx : rest.bytes.take 1 = [x]) : Tracks ⟨⟨content, pos⟩, tpos, x⟩ rest where
  content := hcontent
  next := by
    rintro rfl
    refine ⟨hpos, ?_⟩
    cases hrest : rest.bytes with
    | nil => simp [hrest] at hx
    | cons y ys => simpa [hrest] using hx

theorem tracks_noType {tmp : ReadFile} {tpos : Nat} {rest : Records}
    (hcontent : tmp.content.drop tpos = rest.bytes) : Tracks ⟨tmp, tpos, noType⟩ rest where
  content := hcontent
  next := nofun

variable {fresh : ByteStore} {b : BlockBuf} {r : Reading} {item : BufferVHDItem}
  {padding : Padding} {rest : Records}

theorem readData_tracks {fbi : FileBufferVHDItem} {tmp : ReadFile} {data : Bytes}
    (hlength : data.length = fbi.bsize.toNat) (hlt : fbi.bsize.toNat + 24 < 2 ^ 32)
    (hcontent : tmp.content.drop tmp.pos = data ++ rest.bytes) (hpos : tmp.pos ≤ tmp.size) :
    ∃ b' r', readData fresh b fbi tmp tmp.pos = some (⟨fbi.pos, some data, fbi.bsize⟩, b', r') ∧
      Tracks r' rest := by
  have hn : (fbi.bsize + 1).toNat = data.length + 1 := by
    rw [UInt32.toNat_add, hlength]
    exact Nat.mod_eq_of_lt (by simp only [UInt32.toNat_one]; omega)
  have hnext := ReadFile.next_succ_of_drop hcontent hn
  have htotal := congrArg List.length hcontent
  rw [List.length_drop, List.length_append] at htotal
  have hdrop : tmp.content.drop (tmp.pos + fbi.bsize.toNat) = rest.bytes := by
    rw [← List.drop_drop, hcontent, List.drop_left' hlength]
  have hmem : ∀ f : ByteStore, (f.write 0 (data ++ rest.bytes.take 1)).read 0 fbi.bsize.toNat =
      data := by
    intro f
    rw [ByteStore.read_write_take f 0 (by rw [List.length_append]; omega), List.take_left' hlength]
  have hsize : ¬ tmp.size < tmp.pos + fbi.bsize.toNat := by
    rw [ReadFile.size] at hpos ⊢
    omega
  have hshort : ¬ (data ++ rest.bytes.take 1).length < fbi.bsize.toNat := by
    rw [List.length_append]
    omega
  simp only [readData, if_neg hsize, hnext, if_neg hshort, hmem]
  refine ⟨_, _, rfl, ?_⟩
  cases hrest : rest.bytes with
  | nil =>
    have hlast : ¬ (data ++ List.take 1 ([] : Bytes)).length = (fbi.bsize + 1).toNat := by
      simp [hn]
    rw [if_neg hlast]
    exact tracks_noType hdrop
  | cons x xs =>
    have hlast : (data ++ List.take 1 (x :: xs)).length = (fbi.bsize + 1).toNat := by
      simp [hn]
    have hx : (b.enlarge fresh fbi.bsize).mem.write 0 (data ++ [x]) fbi.bsize.toNat = x := by
      rw [← hlength]
      simpa using ByteStore.write_last (b.enlarge fresh fbi.bsize).mem 0 data x
    rw [if_pos hlast, List.take_succ_cons, List.take_zero, hx]
    refine tracks_lookahead hdrop ?_ (by simp [hrest])
    rw [hnext, hrest, hlast, hn, hlength, Nat.add_assoc]

theorem oldMethod_tracks (hfits : item.Fits)
    (hcontent : r.tmp.content.drop r.tpos = Records.bytes ((item, padding) :: rest)) :
    ∃ b' r', oldMethod fresh b r = some (item, b', r') ∧ Tracks r' rest := by
  obtain ⟨pos, buf, bsize⟩ := item
  have hheader : (r.tmp.seek r.tpos).content.drop (r.tmp.seek r.tpos).pos =
      (FileBufferVHDItem.ofItem ⟨pos, buf, bsize⟩).bytes padding ++ (buf.getD [] ++ rest.bytes) := by
    rw [← List.append_assoc]
    exact hcontent
  have hsize := FileBufferVHDItem.bytes_length (.ofItem ⟨pos, buf, bsize⟩) padding
  have hnext := ReadFile.next_of_drop hheader hsize.symm
  have hadvance := ReadFile.drop_advance hheader hsize.symm
  have hpos : ((r.tmp.seek r.tpos).advance FileBufferVHDItem.size).pos =
      r.tpos + FileBufferVHDItem.size := by
    rw [ReadFile.advance_pos, hnext, hsize]
    rfl
  cases buf with
  | none =>
    rw [hpos] at hadvance
    refine ⟨b, _, ?_, tracks_noType hadvance⟩
    simp only [oldMethod, hnext, hsize, ne_eq, not_true, if_false,
      FileBufferVHDItem.ofBytes_bytes]
    rfl
  | some data =>
    obtain ⟨hlength, hshort⟩ := hfits data rfl
    have htotal := congrArg List.length hheader
    rw [List.length_drop, List.length_append, hsize] at htotal
    have hinside : ((r.tmp.seek r.tpos).advance FileBufferVHDItem.size).pos ≤
        ((r.tmp.seek r.tpos).advance FileBufferVHDItem.size).size := by
      have hsome : 0 < FileBufferVHDItem.size := by decide
      rw [hpos, ReadFile.size, ReadFile.advance_content]
      simp only [ReadFile.seek_pos] at htotal
      omega
    obtain ⟨b', r', hread, htracks⟩ :=
      @readData_tracks fresh b rest (.ofItem ⟨pos, some data, bsize⟩) _ data hlength hshort
        hadvance hinside
    refine ⟨b', r', ?_, htracks⟩
    simp only [oldMethod, hnext, hsize, ne_eq, not_true, if_false,
      FileBufferVHDItem.ofBytes_bytes]
    rw [← hpos]
    exact hread

theorem next_of_full {fbi : FileBufferVHDItem} {tmp : ReadFile} {mem : ByteStore} {data : Bytes}
    {n : Nat} (hlength : data.length = fbi.bsize.toNat)
    (hcontent : tmp.content.drop tmp.pos = (fbi.bytes padding).tail ++ (data ++ rest.bytes))
    (hfull : (tmp.next n).length = n)
    (hsize : n = (FileBufferVHDItem.ofBytes ((mem.write 1 (tmp.next n)).read 0
      FileBufferVHDItem.size)).bsize.toNat + FileBufferVHDItem.size) :
    ∃ x, rest.bytes.take 1 = [x] ∧ tmp.next n = (fbi.bytes padding).tail ++ (data ++ [x]) ∧
      n = fbi.bsize.toNat + FileBufferVHDItem.size := by
  have htail := fbi.tail_length padding
  have hge : FileBufferVHDItem.size ≤ n := hsize ▸ Nat.le_add_left _ _
  rw [FileBufferVHDItem.size] at hge
  have hnext : tmp.next n = (fbi.bytes padding).tail ++ (data ++ rest.bytes).take (n - 23) := by
    rw [ReadFile.next, hcontent, List.take_append, htail, List.take_of_length_le (by omega)]
  rw [hnext, FileBufferVHDItem.ofBytes_read] at hsize
  have hrest : (data ++ rest.bytes).take (n - 23) = data ++ rest.bytes.take 1 := by
    rw [hsize, FileBufferVHDItem.size, ← hlength, show data.length + 24 - 23 = data.length + 1 by omega,
      List.take_length_add_append]
  rw [hrest] at hnext
  rw [hnext, List.length_append, List.length_append, htail, hlength] at hfull
  cases hbytes : rest.bytes with
  | nil =>
    rw [hbytes, List.take_nil, List.length_nil] at hfull
    rw [FileBufferVHDItem.size] at hsize
    exact absurd hfull (by simp only [hsize]; omega)
  | cons x xs =>
    rw [hbytes] at hnext
    exact ⟨x, rfl, hnext, hsize⟩

section FullRead

variable (mem : ByteStore) (fbi : FileBufferVHDItem) (padding : Padding) {data : Bytes} (x : UInt8)
  (hlength : data.length = fbi.bsize.toNat)

include hlength

theorem read_of_full : (mem.write 1 ((fbi.bytes padding).tail ++ (data ++ [x]))).read
    FileBufferVHDItem.size fbi.bsize.toNat = data := by
  have htail := fbi.tail_length padding
  have hread := @ByteStore.read_write_drop fbi.bsize.toNat ((fbi.bytes padding).tail ++ (data ++ [x]))
    mem 1 23
    (by simp only [List.length_append, htail, hlength]; omega)
  rw [List.drop_left' htail, List.take_left' hlength] at hread
  exact hread

theorem last_of_full : mem.write 1 ((fbi.bytes padding).tail ++ (data ++ [x]))
    (fbi.bsize.toNat + FileBufferVHDItem.size) = x := by
  have hlast := mem.write_last 1 ((fbi.bytes padding).tail ++ data) x
  rw [List.append_assoc, List.length_append, fbi.tail_length padding, hlength] at hlast
  rw [FileBufferVHDItem.size, show fbi.bsize.toNat + 24 = 1 + (23 + fbi.bsize.toNat) by omega]
  exact hlast

end FullRead

theorem turn_tracks (hfits : item.Fits) (h : Tracks r ((item, padding) :: rest)) :
    ∃ b' r', turn fresh b r = some (item, b', r') ∧ Tracks r' rest := by
  by_cases htype : r.nextType = 0
  · obtain ⟨hpos, hhead⟩ := h.next htype
    obtain ⟨pos, buf, bsize⟩ := item
    cases buf with
    | none => cases hhead
    | some data =>
      have hlength := (hfits data rfl).1
      generalize hn : (b.size - 1).toNat = n
      have hcontent : r.tmp.content.drop r.tmp.pos =
          ((FileBufferVHDItem.ofItem ⟨pos, some data, bsize⟩).bytes padding).tail ++
            (data ++ rest.bytes) := by
        rw [hpos, ← List.drop_drop, h.content, Records.bytes_cons, BufferVHDItem.record,
          List.append_assoc]
        rfl
      have hold := @oldMethod_tracks fresh
        { b with mem := b.mem.write 1 (r.tmp.next n) } { r with tmp := r.tmp.advance n }
        ⟨pos, some data, bsize⟩ padding rest hfits h.content
      simp only [turn, htype, ne_eq, not_true, if_false, hn]
      split
      · exact hold
      · rename_i hfull
        split
        · rename_i hsize
          obtain ⟨x, hx, hnext, hsum⟩ := next_of_full hlength hcontent (not_not.mp hfull) hsize
          have hdrop : r.tmp.content.drop (r.tpos + bsize.toNat + FileBufferVHDItem.size) =
              rest.bytes := by
            rw [Nat.add_assoc, ← List.drop_drop, h.content, Records.bytes_cons]
            apply List.drop_left'
            rw [BufferVHDItem.record, List.length_append, FileBufferVHDItem.bytes_length,
              Option.getD_some, hlength, Nat.add_comm]
          have hdata := read_of_full b.mem (FileBufferVHDItem.ofItem ⟨pos, some data, bsize⟩)
            padding x hlength
          have hlast := last_of_full b.mem (FileBufferVHDItem.ofItem ⟨pos, some data, bsize⟩)
            padding x hlength
          have hfull : (r.tmp.next n).length = n := not_not.mp hfull
          simp only [hnext, FileBufferVHDItem.ofBytes_read]
          refine ⟨_, _, congrArg some (Prod.ext ?_ rfl), tracks_lookahead hdrop ?_ ?_⟩
          · exact congrArg (fun d => BufferVHDItem.mk pos (some d) bsize) hdata
          · rw [hfull, hpos, hsum, Nat.add_right_comm, ← Nat.add_assoc]
          · rw [hsum]
            exact hx.trans (congrArg (fun y => [y]) hlast.symm)
        · exact hold
  · simp only [turn, if_pos htype]
    exact oldMethod_tracks hfits h.content

end Reading

end UrBackup
