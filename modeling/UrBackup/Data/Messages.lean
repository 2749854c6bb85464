import UrBackup.Data.Varint

/-! Messages between the programs: values are put one after the other, and read in the same order
with a position that goes through the message. -/
namespace UrBackup
namespace Data

open ByteOrder

/-- The types whose values are copied as they are in memory. -/
inductive Fixed where
  | char
  | uchar
  | ushort
  | int
  | uint
  | int64
  | float
  | double
  | voidPtr
  deriving DecidableEq

def Fixed.size : Fixed → Nat
  | .char | .uchar => 1
  | .ushort => 2
  | .int | .uint | .float => 4
  | .int64 | .double | .voidPtr => 8

/-- A value, with its bits where its type is of a fixed size. -/
inductive Item where
  | fixed (type : Fixed) (ta : BitVec (8 * type.size))
  | varInt (ta : BitVec 64)
  | str (ta : List UInt8)
  | str2 (ta : List UInt8)
  deriving DecidableEq

inductive Getter where
  | fixed (type : Fixed)
  | getVarInt
  | getStr
  | getStr2

namespace CWData

def addFixed (type : Fixed) (ta : BitVec (8 * type.size)) (data : List UInt8) : List UInt8 :=
  data ++ littleEndian type.size ta.toNat

def addChar (ta : BitVec 8) (data : List UInt8) : List UInt8 := addFixed .char ta data

def addUChar (ta : BitVec 8) (data : List UInt8) : List UInt8 := addFixed .uchar ta data

def addUShort (ta : BitVec 16) (data : List UInt8) : List UInt8 := addFixed .ushort ta data

def addInt (ta : BitVec 32) (data : List UInt8) : List UInt8 := addFixed .int ta data

def addUInt (ta : BitVec 32) (data : List UInt8) : List UInt8 := addFixed .uint ta data

def addInt64 (ta : BitVec 64) (data : List UInt8) : List UInt8 := addFixed .int64 ta data

def addVarInt (ta : BitVec 64) (data : List UInt8) : List UInt8 :=
  let written := sqlite3PutVarint ta.toNat
  data ++ (written ++ (List.replicate (sqlite3VarintLen ta.toNat) 0).drop written.length)

def addString (ta : List UInt8) (data : List UInt8) : List UInt8 :=
  addUInt (BitVec.ofNat 32 ta.length) data ++ ta

def addString2 (ta : List UInt8) (data : List UInt8) : List UInt8 :=
  addVarInt (BitVec.ofNat 64 ta.length) data ++ ta

def add (data : List UInt8) : Item → List UInt8
  | .fixed type ta => addFixed type ta data
  | .varInt ta => addVarInt ta data
  | .str ta => addString ta data
  | .str2 ta => addString2 ta data

def ofItems (items : List Item) : List UInt8 := items.foldl add []

end CWData

structure CRData where
  data : List UInt8
  streampos : Nat
  deriving DecidableEq

namespace CRData

def maxDatalen : Nat := 100 * 1024 * 1024
def maxStrlen : Nat := 10 * 1024 * 1024

def set (c : List UInt8) : CRData := ⟨c.take maxDatalen, 0⟩

def datalen (rd : CRData) : Nat := rd.data.length

def getLeft (rd : CRData) : Nat := (rd.datalen + (2 ^ 64 - rd.streampos)) % 2 ^ 64 % 2 ^ 32

def getFixed (type : Fixed) (rd : CRData) : Option (BitVec (8 * type.size)) × CRData :=
  if rd.streampos + type.size > rd.datalen then (none, rd)
  else
    (some (BitVec.ofNat _ (ofLittleEndian ((rd.data.drop rd.streampos).take type.size))),
      { rd with streampos := rd.streampos + type.size })

def getChar (rd : CRData) : Option (BitVec 8) × CRData := getFixed .char rd

def getUChar (rd : CRData) : Option (BitVec 8) × CRData := getFixed .uchar rd

def getUShort (rd : CRData) : Option (BitVec 16) × CRData := getFixed .ushort rd

def getInt (rd : CRData) : Option (BitVec 32) × CRData := getFixed .int rd

def getUInt (rd : CRData) : Option (BitVec 32) × CRData := getFixed .uint rd

def getInt64 (rd : CRData) : Option (BitVec 64) × CRData := getFixed .int64 rd

def getVarInt (rd : CRData) : Option (BitVec 64) × CRData :=
  match sqlite3GetVarint ((rd.data.drop rd.streampos).take rd.getLeft) with
  | none => (none, rd)
  | some (v, b) => (some (BitVec.ofNat 64 v), { rd with streampos := rd.streampos + b })

def getStr (rd : CRData) : Option (List UInt8) × CRData :=
  match rd.getUInt with
  | (none, rd) => (none, rd)
  | (some strlen, rd) =>
    if strlen.toNat > maxStrlen then (none, rd)
    else if rd.streampos + strlen.toNat > rd.datalen then (none, rd)
    else
      (some ((rd.data.drop rd.streampos).take strlen.toNat),
        { rd with streampos := rd.streampos + strlen.toNat })

def getStr2 (rd : CRData) : Option (List UInt8) × CRData :=
  match rd.getVarInt with
  | (none, rd) => (none, rd)
  | (some strlen, rd) =>
    if strlen.toInt > maxStrlen then (none, rd)
    else if (rd.streampos + strlen.toNat) % 2 ^ 64 > rd.datalen then (none, rd)
    else
      (some (if strlen.toInt > 0 then (rd.data.drop rd.streampos).take strlen.toNat else []),
        { rd with streampos := (rd.streampos + strlen.toNat) % 2 ^ 64 })

def get (rd : CRData) : Getter → Option Item × CRData
  | .fixed type => ((rd.getFixed type).1.map (.fixed type), (rd.getFixed type).2)
  | .getVarInt => (rd.getVarInt.1.map .varInt, rd.getVarInt.2)
  | .getStr => (rd.getStr.1.map .str, rd.getStr.2)
  | .getStr2 => (rd.getStr2.1.map .str2, rd.getStr2.2)

def getAll : List Getter → CRData → List (Option Item) × CRData
  | [], rd => ([], rd)
  | g :: gs, rd => ((rd.get g).1 :: (getAll gs (rd.get g).2).1, (getAll gs (rd.get g).2).2)

end CRData

def Item.getter : Item → Getter
  | .fixed type _ => .fixed type
  | .varInt _ => .getVarInt
  | .str _ => .getStr
  | .str2 _ => .getStr2

/-- No string is longer than a reader takes. -/
def Item.Short : Item → Prop
  | .fixed _ _ | .varInt _ => True
  | .str ta | .str2 ta => ta.length ≤ CRData.maxStrlen

section Written

variable {item : Item} {pre rest d t : List UInt8}

def Item.bytes : Item → List UInt8
  | .fixed type ta => littleEndian type.size ta.toNat
  | .varInt ta => sqlite3PutVarint ta.toNat
  | .str ta => littleEndian 4 ta.length ++ ta
  | .str2 ta => sqlite3PutVarint ta.length ++ ta

theorem addVarInt_eq (ta : BitVec 64) (data : List UInt8) :
    CWData.addVarInt ta data = data ++ sqlite3PutVarint ta.toNat := by
  have hroom : (List.replicate (sqlite3VarintLen ta.toNat) (0 : UInt8)).drop
      (sqlite3PutVarint ta.toNat).length = [] := by
    rw [List.drop_eq_nil_iff, List.length_replicate, sqlite3VarintLen_eq ta.isLt]
  rw [CWData.addVarInt, hroom, List.append_nil]

theorem add_eq (h : item.Short) (data : List UInt8) : CWData.add data item = data ++ item.bytes := by
  cases item with
  | fixed type ta => rfl
  | varInt ta => exact addVarInt_eq ta data
  | str ta =>
    have hlt : ta.length < 2 ^ 32 := Nat.lt_of_le_of_lt h (by decide)
    have hlen : (BitVec.ofNat 32 ta.length).toNat = ta.length := Nat.mod_eq_of_lt hlt
    simp only [CWData.add, CWData.addString, CWData.addUInt, CWData.addFixed, hlen, Item.bytes,
      Fixed.size, List.append_assoc]
  | str2 ta =>
    have hlt : ta.length < 2 ^ 64 := Nat.lt_of_le_of_lt h (by decide)
    have hlen : (BitVec.ofNat 64 ta.length).toNat = ta.length := Nat.mod_eq_of_lt hlt
    simp only [CWData.add, CWData.addString2, addVarInt_eq, hlen, Item.bytes, List.append_assoc]

theorem ofItems_eq {items : List Item} (h : ∀ item ∈ items, item.Short) :
    CWData.ofItems items = items.flatMap Item.bytes := by
  have hfold (data : List UInt8) : items.foldl CWData.add data = data ++ items.flatMap Item.bytes := by
    induction items generalizing data with
    | nil => exact (List.append_nil data).symm
    | cons item items ih =>
      rw [List.foldl_cons, add_eq (h item List.mem_cons_self),
        ih (fun x hx => h x (List.mem_cons_of_mem item hx)), List.flatMap_cons, List.append_assoc]
  exact hfold []

end Written

section RoundTrip

variable {item : Item} {pre rest d t : List UInt8}

def between (pre rest : List UInt8) : CRData := ⟨pre ++ rest, pre.length⟩

theorem drop_between (pre rest : List UInt8) :
    (between pre rest).data.drop (between pre rest).streampos = rest := List.drop_left

theorem datalen_between (pre rest : List UInt8) :
    (between pre rest).datalen = pre.length + rest.length := List.length_append

theorem advance_between (pre x rest : List UInt8) : { between pre (x ++ rest) with
    streampos := (between pre (x ++ rest)).streampos + x.length } = between (pre ++ x) rest := by
  simp [between]

theorem getLeft_between (h : (pre ++ rest).length ≤ CRData.maxDatalen) :
    (between pre rest).getLeft = rest.length := by
  rw [List.length_append, CRData.maxDatalen] at h
  rw [CRData.getLeft, datalen_between, show (between pre rest).streampos = pre.length from rfl]
  omega

theorem getFixed_between (type : Fixed) (ta : BitVec (8 * type.size)) (pre rest : List UInt8) :
    (between pre (littleEndian type.size ta.toNat ++ rest)).getFixed type =
      (some ta, between (pre ++ littleEndian type.size ta.toNat) rest) := by
  have hlength := littleEndian_length type.size ta.toNat
  have hlt : ta.toNat < 256 ^ type.size := by
    rw [show (256 : Nat) = 2 ^ 8 from rfl, ← Nat.pow_mul]
    exact ta.isLt
  have hadvance := advance_between pre (littleEndian type.size ta.toNat) rest
  rw [hlength] at hadvance
  rw [CRData.getFixed, if_neg, drop_between, List.take_left' hlength,
    ofLittleEndian_littleEndian hlt, BitVec.ofNat_toNat, BitVec.setWidth_eq, hadvance]
  rw [datalen_between, List.length_append, hlength,
    show (between pre (littleEndian type.size ta.toNat ++ rest)).streampos = pre.length from rfl]
  omega

theorem getUInt_between (ta : BitVec 32) (pre rest : List UInt8) :
    (between pre (littleEndian 4 ta.toNat ++ rest)).getUInt =
      (some ta, between (pre ++ littleEndian 4 ta.toNat) rest) :=
  getFixed_between .uint ta pre rest

theorem getFixed_cut {type : Fixed} (hd : d.length < type.size) (pre : List UInt8) :
    (between pre d).getFixed type = (none, between pre d) := by
  rw [CRData.getFixed, if_pos]
  rw [datalen_between, show (between pre d).streampos = pre.length from rfl]
  omega

theorem getVarInt_between (ta : BitVec 64)
    (h : (pre ++ (sqlite3PutVarint ta.toNat ++ rest)).length ≤ CRData.maxDatalen) :
    (between pre (sqlite3PutVarint ta.toNat ++ rest)).getVarInt =
      (some ta, between (pre ++ sqlite3PutVarint ta.toNat) rest) := by
  rw [CRData.getVarInt, drop_between, getLeft_between h, List.take_length,
    sqlite3GetVarint_put ta.isLt]
  dsimp only
  rw [advance_between, BitVec.ofNat_toNat, BitVec.setWidth_eq]

theorem varInt_append {left value v : Nat} {r : List UInt8}
    (h : UrBackup.CRData.varInt left value d = some (v, r)) (t : List UInt8) :
    UrBackup.CRData.varInt left value (d ++ t) = some (v, r ++ t) := by
  induction d generalizing left value with
  | nil => cases left <;> cases h
  | cons b d ih =>
    cases left with
    | zero =>
      cases h
      rfl
    | succ left =>
      simp only [List.cons_append, UrBackup.CRData.varInt] at h ⊢
      split at h
      next hlast =>
        cases h
        rw [if_pos hlast]
      next hmore =>
        rw [if_neg hmore]
        exact ih h

theorem getVarInt_cut {ta : BitVec 64} (hcut : sqlite3PutVarint ta.toNat = d ++ t) (ht : t ≠ [])
    (h : (pre ++ d).length ≤ CRData.maxDatalen) :
    (between pre d).getVarInt = (none, between pre d) := by
  have hdigits := (reads_sqlite3GetVarint d).digits
  rw [List.nil_append] at hdigits
  rw [CRData.getVarInt, drop_between, getLeft_between h, List.take_length]
  cases hget : sqlite3GetVarint d with
  | none => rfl
  | some r =>
    rw [hget, Option.map_some] at hdigits
    have hwhole := varInt_append hdigits.symm t
    have hput := Metadata.varInt_putVarint ta.isLt []
    rw [← sqlite3PutVarint_eq ta.isLt, List.append_nil, hcut, hwhole] at hput
    simp only [Option.some.injEq, Prod.mk.injEq, List.append_eq_nil_iff] at hput
    exact absurd hput.2.2 ht

theorem getStr_between {ta : List UInt8} (hshort : ta.length ≤ CRData.maxStrlen)
    (pre rest : List UInt8) : (between pre (littleEndian 4 ta.length ++ ta ++ rest)).getStr =
      (some ta, between (pre ++ (littleEndian 4 ta.length ++ ta)) rest) := by
  have hlt : ta.length < 2 ^ 32 := Nat.lt_of_le_of_lt hshort (by decide)
  have hlen : (BitVec.ofNat 32 ta.length).toNat = ta.length := Nat.mod_eq_of_lt hlt
  have hfront := getUInt_between (BitVec.ofNat 32 ta.length) pre (ta ++ rest)
  rw [hlen, ← List.append_assoc] at hfront
  unfold CRData.getStr
  rw [hfront]
  dsimp only
  rw [hlen, if_neg (Nat.not_lt.mpr hshort), if_neg, drop_between, List.take_left,
    advance_between, List.append_assoc]
  rw [datalen_between, @List.length_append _ ta]
  exact Nat.not_lt.mpr (Nat.add_le_add_left (Nat.le_add_right _ _) _)

theorem get_between (hshort : item.Short)
    (h : (pre ++ (item.bytes ++ rest)).length ≤ CRData.maxDatalen) :
    (between pre (item.bytes ++ rest)).get item.getter =
      (some item, between (pre ++ item.bytes) rest) := by
  cases item with
  | fixed type ta =>
    simp only [Item.bytes, Item.getter, CRData.get, getFixed_between, Option.map_some]
  | varInt ta =>
    simp only [Item.bytes, Item.getter, CRData.get, getVarInt_between ta h, Option.map_some]
  | str ta =>
    simp only [Item.bytes, Item.getter, CRData.get, getStr_between hshort, Option.map_some]
  | str2 ta =>
    have hlt : ta.length < 2 ^ 63 := Nat.lt_of_le_of_lt hshort (by decide)
    have hlen : (BitVec.ofNat 64 ta.length).toNat = ta.length := Nat.mod_eq_of_lt (by omega)
    have hint : (BitVec.ofNat 64 ta.length).toInt = ta.length := by
      rw [BitVec.toInt_eq_toNat_of_lt (by rw [hlen]; omega), hlen]
    have hmax : (pre ++ (sqlite3PutVarint ta.length ++ (ta ++ rest))).length ≤
        CRData.maxDatalen := by
      simpa [Item.bytes] using h
    have hfront := @getVarInt_between pre (ta ++ rest) (BitVec.ofNat 64 ta.length)
      (by rwa [hlen])
    rw [hlen, ← List.append_assoc] at hfront
    have hend : ((between (pre ++ sqlite3PutVarint ta.length) (ta ++ rest)).streampos + ta.length) %
        2 ^ 64 = (between (pre ++ sqlite3PutVarint ta.length) (ta ++ rest)).streampos + ta.length := by
      apply Nat.mod_eq_of_lt
      simp only [List.length_append, CRData.maxDatalen] at hmax
      simp only [between, List.length_append]
      omega
    have hstr : (between pre (sqlite3PutVarint ta.length ++ ta ++ rest)).getStr2 =
        (some ta, between (pre ++ (sqlite3PutVarint ta.length ++ ta)) rest) := by
      unfold CRData.getStr2
      rw [hfront]
      dsimp only
      rw [hlen, hint, if_neg (Int.not_lt.mpr (Int.ofNat_le.mpr hshort)), hend, if_neg, drop_between,
        List.take_left, advance_between, List.append_assoc]
      · cases ta with
        | nil => rfl
        | cons b ta => rw [if_pos (by simp)]
      · rw [datalen_between, @List.length_append _ ta]
        exact Nat.not_lt.mpr (Nat.add_le_add_left (Nat.le_add_right _ _) _)
    simp only [Item.bytes, Item.getter, CRData.get, hstr, Option.map_some]

theorem cut_cases {x ta : List UInt8} (hcut : x ++ ta = d ++ t) :
    (∃ t', t' ≠ [] ∧ x = d ++ t') ∨ ∃ d', d = x ++ d' ∧ ta = d' ++ t := by
  rcases List.append_eq_append_iff.mp hcut with ⟨d', hd, hta⟩ | ⟨t', hx, ht'⟩
  · exact .inr ⟨d', hd, hta⟩
  · by_cases hnil : t' = []
    · rw [hnil, List.append_nil] at hx
      rw [hnil, List.nil_append] at ht'
      exact .inr ⟨[], by rw [hx, List.append_nil], by rw [ht', List.nil_append]⟩
    · exact .inl ⟨t', hnil, hx⟩

theorem get_cut (hshort : item.Short) (hcut : item.bytes = d ++ t) (ht : t ≠ [])
    (h : (pre ++ d).length ≤ CRData.maxDatalen) :
    ((between pre d).get item.getter).1 = none := by
  have hpos := List.length_pos_of_ne_nil ht
  -- a string that ends too early behind its length
  have hstring {x d' ta : List UInt8} (hta : ta = d' ++ t) :
      (between (pre ++ x) d').streampos + ta.length > (between (pre ++ x) d').datalen := by
    rw [datalen_between, hta, List.length_append]
    exact Nat.add_lt_add_left (by omega) _
  cases item with
  | fixed type ta =>
    have hlength := congrArg List.length hcut
    rw [Item.bytes, littleEndian_length, List.length_append] at hlength
    simp only [Item.getter, CRData.get, getFixed_cut (show d.length < type.size by omega),
      Option.map_none]
  | varInt ta => simp only [Item.getter, CRData.get, getVarInt_cut hcut ht h, Option.map_none]
  | str ta =>
    have hlt : ta.length < 2 ^ 32 := Nat.lt_of_le_of_lt hshort (by decide)
    have hlen : (BitVec.ofNat 32 ta.length).toNat = ta.length := Nat.mod_eq_of_lt hlt
    have hstr : (between pre d).getStr.1 = none := by
      unfold CRData.getStr
      rcases cut_cases hcut with ⟨t', ht', hx⟩ | ⟨d', rfl, hta⟩
      · have hlength := congrArg List.length hx
        have hpos' := List.length_pos_of_ne_nil ht'
        rw [littleEndian_length, List.length_append] at hlength
        rw [CRData.getUInt, getFixed_cut (show d.length < Fixed.uint.size by simp [Fixed.size]; omega)]
      · have hread := getUInt_between (BitVec.ofNat 32 ta.length) pre d'
        rw [hlen] at hread
        rw [hread]
        dsimp only
        rw [hlen, if_neg (Nat.not_lt.mpr hshort), if_pos (hstring hta)]
    simp only [Item.getter, CRData.get, hstr, Option.map_none]
  | str2 ta =>
    have hlt : ta.length < 2 ^ 63 := Nat.lt_of_le_of_lt hshort (by decide)
    have hlen : (BitVec.ofNat 64 ta.length).toNat = ta.length := Nat.mod_eq_of_lt (by omega)
    have hint : (BitVec.ofNat 64 ta.length).toInt = ta.length := by
      rw [BitVec.toInt_eq_toNat_of_lt (by rw [hlen]; omega), hlen]
    have hstr : (between pre d).getStr2.1 = none := by
      unfold CRData.getStr2
      rcases cut_cases hcut with ⟨t', ht', hx⟩ | ⟨d', rfl, hta⟩
      · rw [@getVarInt_cut pre d t' (BitVec.ofNat 64 ta.length) (by rw [hlen, hx]) ht' h]
      · have hread := @getVarInt_between pre d' (BitVec.ofNat 64 ta.length) (by rwa [hlen])
        have hend : ((between (pre ++ sqlite3PutVarint ta.length) d').streampos + ta.length) %
            2 ^ 64 = (between (pre ++ sqlite3PutVarint ta.length) d').streampos + ta.length := by
          apply Nat.mod_eq_of_lt
          simp only [List.length_append, CRData.maxDatalen] at h
          simp only [between, List.length_append]
          omega
        rw [hlen] at hread
        rw [hread]
        dsimp only
        rw [hlen, hint, if_neg (Int.not_lt.mpr (Int.ofNat_le.mpr hshort)), hend,
          if_pos (hstring hta)]
    simp only [Item.getter, CRData.get, hstr, Option.map_none]

/-- The whole message is read. Induction on the items that are left. -/
theorem getAll_between {items : List Item} (hshort : ∀ item ∈ items, item.Short)
    (h : (pre ++ items.flatMap Item.bytes).length ≤ CRData.maxDatalen) :
    CRData.getAll (items.map Item.getter) (between pre (items.flatMap Item.bytes)) =
      (items.map some, between (pre ++ items.flatMap Item.bytes) []) := by
  induction items generalizing pre with
  | nil => simp [CRData.getAll, between]
  | cons item items ih =>
    rw [List.flatMap_cons] at h ⊢
    have hget := get_between (hshort item List.mem_cons_self) h
    rw [← List.append_assoc] at h
    have hrest := ih (fun x hx => hshort x (List.mem_cons_of_mem item hx)) h
    rw [List.append_assoc] at hrest
    simp only [List.map_cons, CRData.getAll, hget, hrest]

/-- Some getter fails where the message ends too early. Induction on the items that are left. -/
theorem getAll_cut {items : List Item} (hshort : ∀ item ∈ items, item.Short)
    (hcut : items.flatMap Item.bytes = d ++ t) (ht : t ≠ [])
    (h : (pre ++ d).length ≤ CRData.maxDatalen) :
    none ∈ (CRData.getAll (items.map Item.getter) (between pre d)).1 := by
  induction items generalizing pre d with
  | nil => exact absurd (List.append_eq_nil_iff.mp hcut.symm).2 ht
  | cons item items ih =>
    have hitem := hshort item List.mem_cons_self
    rw [List.flatMap_cons] at hcut
    rw [List.map_cons, CRData.getAll]
    rcases cut_cases hcut with ⟨t', ht', hbytes⟩ | ⟨d', rfl, hrest⟩
    · rw [get_cut hitem hbytes ht' h]
      exact List.mem_cons_self
    · rw [get_between hitem h]
      rw [← List.append_assoc] at h
      exact List.mem_cons_of_mem _ (ih (fun x hx => hshort x (List.mem_cons_of_mem item hx)) hrest h)

/-- What is put into a message is read from it in the same order, and nothing is left; of a message
that ends too early some getter reads nothing. -/
theorem messages_round_trip (items : List Item) (hshort : ∀ item ∈ items, item.Short)
    (htotal : (CWData.ofItems items).length ≤ CRData.maxDatalen) :
    (CRData.getAll (items.map Item.getter) (CRData.set (CWData.ofItems items))).1 =
      items.map some ∧
    (CRData.getAll (items.map Item.getter) (CRData.set (CWData.ofItems items))).2.getLeft = 0 ∧
    ∀ p t, CWData.ofItems items = p ++ t → t ≠ [] →
      none ∈ (CRData.getAll (items.map Item.getter) (CRData.set p)).1 := by
  rw [ofItems_eq hshort] at htotal ⊢
  have hset {c : List UInt8} (hc : c.length ≤ CRData.maxDatalen) : CRData.set c = between [] c := by
    rw [CRData.set, List.take_of_length_le hc, between, List.nil_append, List.length_nil]
  have hall := @getAll_between [] items hshort htotal
  rw [hset htotal, hall]
  refine ⟨rfl, getLeft_between (by rwa [List.append_nil]), fun p t hcut ht => ?_⟩
  have hp : p.length ≤ CRData.maxDatalen := by
    rw [hcut, List.length_append] at htotal
    omega
  rw [hset hp]
  exact getAll_cut hshort hcut ht hp

/-- A number of nine bytes, a string and a byte. -/
theorem messages_round_trip_three :
    let items := [Item.varInt (BitVec.ofInt 64 (-1)), .str2 [97, 98], .fixed .char 7]
    (CRData.getAll (items.map Item.getter) (CRData.set (CWData.ofItems items))).1 =
      items.map some ∧
    (CRData.getAll (items.map Item.getter) (CRData.set (CWData.ofItems items))).2.getLeft = 0 ∧
    ∀ p t, CWData.ofItems items = p ++ t → t ≠ [] →
      none ∈ (CRData.getAll (items.map Item.getter) (CRData.set p)).1 := by
  intro items
  have hshort : ∀ item ∈ items, item.Short := by simp [items, Item.Short, CRData.maxStrlen]
  have htotal : (CWData.ofItems items).length ≤ CRData.maxDatalen := by
    rw [ofItems_eq hshort]
    simp only [items, List.flatMap_cons, List.flatMap_nil, List.length_append, Item.bytes,
      sqlite3PutVarint, putVarint64, CRData.maxDatalen]
    decide
  exact messages_round_trip items hshort htotal

end RoundTrip

section Positions

variable {rd rd' : CRData} {g : Getter}

def CRData.lengthPrefix (rd : CRData) : Getter → Nat
  | .getStr => 4
  | .getStr2 => rd.getVarInt.2.streampos - rd.streampos
  | .fixed _ | .getVarInt => 0

/-- A call does not leave the buffer and does not go back, and a string is what stands behind its
length. -/
structure Safe (rd : CRData) (g : Getter) : Prop where
  inside : (rd.get g).2.streampos ≤ (rd.get g).2.datalen
  forward : (rd.get g).1.isSome = true → rd.streampos ≤ (rd.get g).2.streampos
  string : ∀ ta, (rd.get g).1 = some (.str ta) ∨ (rd.get g).1 = some (.str2 ta) →
    (rd.get g).2.streampos = rd.streampos + rd.lengthPrefix g + ta.length ∧
      ta = (rd.data.drop (rd.streampos + rd.lengthPrefix g)).take ta.length
  fixed : ∀ type ta, (rd.get g).1 = some (.fixed type ta) →
    (rd.get g).2.streampos = rd.streampos + type.size ∧
      ta.toNat = ofLittleEndian ((rd.data.drop rd.streampos).take type.size)

/-- A string comes with a negative length that leads back into the buffer. -/
def LeadsBack (rd : CRData) : Getter → Prop
  | .getStr2 => ∃ strlen rd', rd.getVarInt = (some strlen, rd') ∧ strlen.toInt < 0 ∧
      -strlen.toInt ≤ rd'.streampos
  | .fixed _ | .getVarInt | .getStr => False

/-- A reader of a message. -/
structure Ready (rd : CRData) : Prop where
  inside : rd.streampos ≤ rd.datalen
  short : rd.datalen ≤ CRData.maxDatalen

theorem getFixed_cases (type : Fixed) (rd : CRData) : rd.getFixed type = (none, rd) ∨
    rd.streampos + type.size ≤ rd.datalen ∧ rd.getFixed type =
      (some (BitVec.ofNat _ (ofLittleEndian ((rd.data.drop rd.streampos).take type.size))),
        { rd with streampos := rd.streampos + type.size }) := by
  unfold CRData.getFixed
  split
  · exact .inl rfl
  next hle => exact .inr ⟨Nat.not_lt.mp hle, rfl⟩

theorem getVarInt_cases (h : Ready rd) : rd.getVarInt = (none, rd) ∨
    ∃ strlen b, rd.streampos + b ≤ rd.datalen ∧
      rd.getVarInt = (some strlen, { rd with streampos := rd.streampos + b }) := by
  obtain ⟨hinside, hshort⟩ := h
  have hleft : rd.getLeft = (rd.data.drop rd.streampos).length := by
    rw [List.length_drop]
    unfold CRData.getLeft
    unfold CRData.datalen CRData.maxDatalen at *
    omega
  unfold CRData.getVarInt
  rw [hleft, List.take_length]
  cases hget : sqlite3GetVarint (rd.data.drop rd.streampos) with
  | none => exact .inl rfl
  | some r =>
    have hb := ((reads_sqlite3GetVarint (rd.data.drop rd.streampos)).inside r hget).2
    rw [List.nil_append, List.length_drop] at hb
    refine .inr ⟨BitVec.ofNat 64 r.1, r.2, ?_, rfl⟩
    unfold CRData.datalen at hinside ⊢
    omega

theorem Ready.get (h : Ready rd) (g : Getter) : Ready (rd.get g).2 := by
  have hvarInt : Ready rd.getVarInt.2 := by
    rcases getVarInt_cases h with hget | ⟨strlen, b, hle, hget⟩
    · rw [hget]
      exact h
    · rw [hget]
      exact ⟨hle, h.short⟩
  have hfixed (type : Fixed) : Ready (rd.getFixed type).2 := by
    rcases getFixed_cases type rd with hget | ⟨hle, hget⟩
    · rw [hget]
      exact h
    · rw [hget]
      exact ⟨hle, h.short⟩
  cases g with
  | fixed type => exact hfixed type
  | getVarInt => exact hvarInt
  | getStr =>
    change Ready rd.getStr.2
    have hlen : Ready rd.getUInt.2 := hfixed .uint
    unfold CRData.getStr
    split
    next hget => rwa [hget] at hlen
    next hget =>
      rw [hget] at hlen
      split
      · exact hlen
      · split
        · exact hlen
        next hend => exact ⟨Nat.not_lt.mp hend, hlen.short⟩
  | getStr2 =>
    change Ready rd.getStr2.2
    unfold CRData.getStr2
    split
    next hget => rwa [hget] at hvarInt
    next hget =>
      rw [hget] at hvarInt
      split
      · exact hvarInt
      · split
        · exact hvarInt
        next hend => exact ⟨Nat.not_lt.mp hend, hvarInt.short⟩

theorem safe_fixed (h : Ready rd) (type : Fixed) : Safe rd (.fixed type) := by
  have hinside := (h.get (.fixed type)).inside
  rcases getFixed_cases type rd with hget | ⟨hle, hget⟩
  · constructor <;> simp [CRData.get, hget, h.inside]
  · refine ⟨hinside, ?_, ?_, ?_⟩
    · simp [CRData.get, hget]
    · simp [CRData.get, hget]
    · intro type' ta hta
      simp only [CRData.get, hget, Option.map_some, Option.some.injEq, Item.fixed.injEq] at hta ⊢
      obtain ⟨rfl, hta⟩ := hta
      cases hta
      refine ⟨rfl, Nat.mod_eq_of_lt ?_⟩
      refine (ofLittleEndian_lt _).trans_le ?_
      rw [Nat.pow_mul]
      exact Nat.pow_le_pow_right (by decide) (List.length_take_le _ _)

theorem safe_getVarInt (h : Ready rd) : Safe rd .getVarInt := by
  refine ⟨(h.get .getVarInt).inside, ?_, ?_, ?_⟩
  · rcases getVarInt_cases h with hget | ⟨strlen, b, hle, hget⟩ <;> simp [CRData.get, hget]
  · intro ta hta
    simp [CRData.get] at hta
  · intro type ta hta
    simp [CRData.get] at hta

theorem safe_of_none (h : Ready rd) (hnone : (rd.get g).1 = none) : Safe rd g := by
  refine ⟨(h.get g).inside, ?_, ?_, ?_⟩ <;> simp [hnone]

theorem safe_getStr (h : Ready rd) : Safe rd .getStr := by
  rcases getFixed_cases .uint rd with hlen | ⟨hle, hlen⟩
  · apply safe_of_none h
    rw [CRData.get, CRData.getStr, CRData.getUInt, hlen]
    rfl
  · have hread : rd.getUInt = (some (BitVec.ofNat 32 (ofLittleEndian
        ((rd.data.drop rd.streampos).take 4))), { rd with streampos := rd.streampos + 4 }) := hlen
    generalize BitVec.ofNat 32 (ofLittleEndian ((rd.data.drop rd.streampos).take 4)) = strlen
      at hread
    have hstr : rd.getStr = rd.getStr := rfl
    conv at hstr =>
      rhs
      unfold CRData.getStr
      rw [hread]
    dsimp only at hstr
    split at hstr
    · exact safe_of_none h (by simp [CRData.get, hstr])
    · split at hstr
      · exact safe_of_none h (by simp [CRData.get, hstr])
      next hend =>
        have hend' : rd.streampos + 4 + strlen.toNat ≤ rd.data.length := Nat.not_lt.mp hend
        refine ⟨(h.get .getStr).inside, ?_, ?_, ?_⟩
        · simp only [CRData.get, hstr]
          intro _
          omega
        · intro ta hta
          simp only [CRData.get, hstr, Option.map_some, Option.some.injEq, Item.str.injEq,
            reduceCtorEq, or_false] at hta ⊢
          rw [← hta, List.length_take, List.length_drop, Nat.min_eq_left (by omega)]
          exact ⟨rfl, rfl⟩
        · simp [CRData.get, hstr]

theorem toInt_of_neg {strlen : BitVec 64} (h : strlen.toInt < 0) :
    strlen.toInt = strlen.toNat - 2 ^ 64 ∧ 2 ^ 63 ≤ strlen.toNat := by
  have := strlen.isLt
  rw [BitVec.toInt_eq_toNat_cond] at h ⊢
  split at h <;> omega

theorem toInt_of_nonneg {strlen : BitVec 64} (h : ¬ strlen.toInt < 0) :
    strlen.toInt = strlen.toNat := by
  have := strlen.isLt
  rw [BitVec.toInt_eq_toNat_cond] at h ⊢
  split at h <;> omega

theorem safe_getStr2 (h : Ready rd) : Safe rd .getStr2 ↔ ¬ LeadsBack rd .getStr2 := by
  have hfail (rd' : CRData) (hget : rd.getStr2 = (none, rd')) : Safe rd .getStr2 :=
    safe_of_none h (by simp [CRData.get, hget])
  have hshort := h.short
  rw [CRData.maxDatalen] at hshort
  rcases getVarInt_cases h with hlen | ⟨strlen, b, hle, hlen⟩
  · refine iff_of_true (hfail rd ?_) ?_
    · rw [CRData.getStr2, hlen]
    · rintro ⟨strlen, rd', hread, -⟩
      rw [hlen] at hread
      cases hread
  · have hstr : rd.getStr2 = rd.getStr2 := rfl
    conv at hstr =>
      rhs
      unfold CRData.getStr2
      rw [hlen]
    dsimp only at hstr
    have hfront : rd.lengthPrefix .getStr2 = b := by
      rw [CRData.lengthPrefix, hlen]
      exact Nat.add_sub_cancel_left _ _
    have hback : LeadsBack rd .getStr2 ↔ strlen.toInt < 0 ∧ -strlen.toInt ≤ ↑(rd.streampos + b) := by
      constructor
      · rintro ⟨strlen', rd', hread, hneg⟩
        rw [hlen] at hread
        cases hread
        exact hneg
      · exact fun hneg => ⟨strlen, _, hlen, hneg⟩
    rw [hback]
    by_cases hneg : strlen.toInt < 0
    · obtain ⟨hint, hlarge⟩ := toInt_of_neg hneg
      have hlt := strlen.isLt
      have hsmall : ¬ strlen.toInt > CRData.maxStrlen := by omega
      rw [if_neg hsmall] at hstr
      by_cases hlead : -strlen.toInt ≤ ↑(rd.streampos + b)
      · refine iff_of_false (fun hsafe => ?_) (not_not.mpr ⟨hneg, hlead⟩)
        have hpos : (rd.streampos + b + strlen.toNat) % 2 ^ 64 =
            rd.streampos + b + strlen.toNat - 2 ^ 64 := by omega
        rw [hpos, if_neg (by change ¬ _ > rd.datalen; omega), if_neg (by omega)] at hstr
        have hsome : (rd.get .getStr2).1 = some (.str2 []) := by simp [CRData.get, hstr]
        have hmoved := (hsafe.string [] (.inr hsome)).1
        rw [hfront, CRData.get, hstr] at hmoved
        dsimp only at hmoved
        rw [List.length_nil] at hmoved
        omega
      · refine iff_of_true ?_ (fun hlead' => hlead hlead'.2)
        have hpos : (rd.streampos + b + strlen.toNat) % 2 ^ 64 =
            rd.streampos + b + strlen.toNat := by omega
        rw [hpos, if_pos (by change _ > rd.datalen; omega)] at hstr
        exact hfail _ hstr
    · have hint := toInt_of_nonneg hneg
      refine iff_of_true ?_ (fun hlead => hneg hlead.1)
      split at hstr
      · exact hfail _ hstr
      next hmax =>
        rw [CRData.maxStrlen] at hmax
        have hpos : (rd.streampos + b + strlen.toNat) % 2 ^ 64 = rd.streampos + b + strlen.toNat := by
          omega
        rw [hpos] at hstr
        split at hstr
        · exact hfail _ hstr
        next hend =>
          have hend' : rd.streampos + b + strlen.toNat ≤ rd.data.length := Nat.not_lt.mp hend
          have htaken : (if strlen.toInt > 0 then (rd.data.drop (rd.streampos + b)).take strlen.toNat
              else []) = (rd.data.drop (rd.streampos + b)).take strlen.toNat := by
            split
            · rfl
            next hzero => rw [show strlen.toNat = 0 by omega, List.take_zero]
          rw [htaken] at hstr
          refine ⟨(h.get .getStr2).inside, ?_, ?_, ?_⟩
          · simp only [CRData.get, hstr]
            intro _
            omega
          · intro ta hta
            simp only [CRData.get, hstr, Option.map_some, Option.some.injEq, Item.str2.injEq,
              reduceCtorEq, false_or] at hta ⊢
            rw [hfront, ← hta, List.length_take, List.length_drop, Nat.min_eq_left (by omega)]
            exact ⟨rfl, rfl⟩
          · simp [CRData.get, hstr]

theorem safe_iff (h : Ready rd) (g : Getter) : Safe rd g ↔ ¬ LeadsBack rd g := by
  cases g with
  | fixed type => exact iff_of_true (safe_fixed h type) not_false
  | getVarInt => exact iff_of_true (safe_getVarInt h) not_false
  | getStr => exact iff_of_true (safe_getStr h) not_false
  | getStr2 => exact safe_getStr2 h

def CRData.after (rd : CRData) (gs : List Getter) : CRData := gs.foldl (fun rd g => (rd.get g).2) rd

theorem Ready.after (h : Ready rd) (gs : List Getter) : Ready (rd.after gs) := by
  induction gs generalizing rd with
  | nil => exact h
  | cons g gs ih => exact ih (h.get g)

theorem ready_set (c : List UInt8) : Ready (CRData.set c) :=
  ⟨Nat.zero_le _, List.length_take_le _ _⟩

def hostile : List UInt8 :=
  List.replicate 16 0 ++ [255, 255, 255, 255, 255, 255, 255, 255, 236]

end Positions

end Data

end UrBackup
