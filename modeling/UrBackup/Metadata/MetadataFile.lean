import Mathlib
import UrBackup.Data.Messages
import UrBackup.Lib.ReadFile

/-! The metadata of a file stands behind its hash data. It is written over what was there. -/
namespace UrBackup

namespace MetadataFile

open ByteOrder Data

/-- The fields that are stored. -/
structure FileMetadata where
  shahash : List UInt8
  origPath : List UInt8
  filePermissions : List UInt8
  lastModified : BitVec 64
  created : BitVec 64
  accessed : BitVec 64
  rsize : BitVec 64
  deriving DecidableEq

namespace FileMetadata

def serialize (m : FileMetadata) (data : List UInt8) : List UInt8 :=
  let data := CWData.addString m.shahash data
  let data := CWData.addString m.origPath data
  let data := CWData.addString m.filePermissions data
  let data := CWData.addVarInt m.lastModified data
  let data := CWData.addVarInt m.created data
  let data := CWData.addVarInt m.accessed data
  CWData.addVarInt m.rsize data

def read (data : Data.CRData) : Option FileMetadata :=
  let shahash := data.getStr
  let origPath := shahash.2.getStr
  let filePermissions := origPath.2.getStr
  let lastModified := filePermissions.2.getVarInt
  let created := lastModified.2.getVarInt
  let accessed := created.2.getVarInt
  let rsize := accessed.2.getVarInt
  do return ⟨← shahash.1, ← origPath.1, ← filePermissions.1, ← lastModified.1, ← created.1,
    ← accessed.1, ← rsize.1⟩

def items (m : FileMetadata) : List Item :=
  [.str m.shahash, .str m.origPath, .str m.filePermissions, .varInt m.lastModified,
    .varInt m.created, .varInt m.accessed, .varInt m.rsize]

/-- No string is longer than a reader takes. -/
def Short (m : FileMetadata) : Prop := ∀ item ∈ m.items, item.Short

end FileMetadata

def metadataMagic : Nat := 0xA4F04E41
def checkpointDist : Int := 512 * 1024
def chunkSize : Int := 4096
def smallHashSize : Int := 4
def bigHashSize : Int := 16
def chunkhashFileOff : Int := 8
def chunkhashSingleSize : Int := bigHashSize + smallHashSize * 128

def getHashdataSize (hashfilesize : Int) : Int :=
  if hashfilesize = -1 then chunkhashFileOff
  else
    let numChunks := hashfilesize.tdiv checkpointDist
    let size := chunkhashFileOff + numChunks * chunkhashSingleSize
    let last := hashfilesize.tmod checkpointDist
    if last ≠ 0 then
      size + (bigHashSize + last.tdiv chunkSize * smallHashSize +
        if last.tmod chunkSize ≠ 0 then smallHashSize else 0)
    else size

def int64 (bytes : List UInt8) : Int := (BitVec.ofNat 64 (ofLittleEndian bytes)).toInt

def writeMetadata (out : ReadFile) (metadata : FileMetadata) : ReadFile × Nat :=
  let data := CWData.addChar 0 (CWData.addUInt (BitVec.ofNat 32 metadataMagic) [])
  let data := metadata.serialize data
  let metadataSize := littleEndian 4 (data.length % 2 ^ 32)
  ((out.write metadataSize).write data, metadataSize.length + data.length)

def getMetadataSize (in_ : ReadFile) : Nat :=
  let metadataSizeAndMagic := in_.next 8
  let metadataSize := ofLittleEndian (metadataSizeAndMagic.take 4)
  if metadataSizeAndMagic.length ≠ 8 ∨ metadataSize = 0 then 0
  else if ofLittleEndian (metadataSizeAndMagic.drop 4) ≠ metadataMagic then 0
  else metadataSize

def readMetadataValues (in_ : ReadFile) : Option FileMetadata :=
  let metadataSizeAndMagic := in_.next 8
  let metadataSize := ofLittleEndian (metadataSizeAndMagic.take 4)
  if metadataSizeAndMagic.length ≠ 8 ∨ metadataSize = 0 then none
  else if ofLittleEndian (metadataSizeAndMagic.drop 4) ≠ metadataMagic then none
  else
    let count := (metadataSize + (2 ^ 64 - 4)) % 2 ^ 64
    let values := (in_.advance 8).next (count % 2 ^ 32)
    if values.length ≠ count then none
    else
      let data := Data.CRData.set (values ++ List.replicate 4 0)
      let version := data.getChar
      if version.1 = some 0 then FileMetadata.read version.2 else none

/-- Whether the file has to be truncated, if its size is one that the metadata can have. -/
def checkSize (out : ReadFile) (hashdataSize : Int) (overwriteExisting : Bool) : Option Bool :=
  if out.size = hashdataSize then some false
  else if overwriteExisting = false then none
  else if hashdataSize < 0 then none
  else
    let metadataSize := getMetadataSize (out.seek hashdataSize.toNat)
    let sizeShould := hashdataSize + (metadataSize + 4)
    if out.size > sizeShould then
      let osMetadataSize := (out.seek sizeShould.toNat).next 8
      if osMetadataSize.length ≠ 8 then none
      else if out.size ≠ sizeShould + int64 osMetadataSize then none
      else some true
    else if out.size ≠ sizeShould then none
    else some false

def writeFileMetadata (out : ReadFile) (metadata : FileMetadata) (overwriteExisting : Bool) :
    Option (ReadFile × Int) :=
  if out.size = 0 then
    some ((writeMetadata ((out.seek 0).write (littleEndian 8 (2 ^ 64 - 1))) metadata).1, -1)
  else
    let hashfilesize := (out.seek 0).next 8
    if hashfilesize.length ≠ 8 then none
    else
      let hashdataSize := getHashdataSize (int64 hashfilesize)
      (checkSize out hashdataSize overwriteExisting).bind fun needsTruncate =>
        if hashdataSize < 0 then none
        else
          let written := writeMetadata (out.seek hashdataSize.toNat) metadata
          some (written.1, if needsTruncate then hashdataSize + written.2 else -1)

/-- `write_file_metadata` with the name of a file. -/
def rewrite (content : List UInt8) (metadata : FileMetadata) (overwriteExisting : Bool) :
    Option (List UInt8) :=
  (writeFileMetadata ⟨content, 0⟩ metadata overwriteExisting).map fun (out, truncateToBytes) =>
    if truncateToBytes > 0 then out.content.take truncateToBytes.toNat else out.content

def readMetadata (content : List UInt8) : Option FileMetadata :=
  let in_ : ReadFile := ⟨content, 0⟩
  let hashfilesize := in_.next 8
  if hashfilesize.length ≠ 8 then none
  else
    let hashdataSize := getHashdataSize (int64 hashfilesize)
    if int64 hashfilesize ≠ -1 ∧ 0 ≤ hashdataSize then
      readMetadataValues (in_.seek hashdataSize.toNat)
    else readMetadataValues (in_.advance 8)

def osMetadataOffset (content : List UInt8) : Int :=
  let metaFile : ReadFile := ⟨content, 0⟩
  let hashfilesize := metaFile.next 8
  if hashfilesize.length ≠ 8 then -1
  else
    let metaOffset :=
      if int64 hashfilesize ≠ -1 then getHashdataSize (int64 hashfilesize) else 8
    if metaOffset < 0 then -1
    else
      let metadataSizeAndMagic := (metaFile.seek metaOffset.toNat).next 8
      let metadataSize := ofLittleEndian (metadataSizeAndMagic.take 4)
      if metadataSizeAndMagic.length ≠ 8 ∨ metadataSize = 0 then -1
      else if ofLittleEndian (metadataSizeAndMagic.drop 4) ≠ metadataMagic then -1
      else metaOffset + 4 + metadataSize

/-- Hash data of the size that they announce. -/
structure HashData where
  bytes : List UInt8
  header : 8 ≤ bytes.length
  announced : (bytes.length : Int) = getHashdataSize (int64 (bytes.take 8))

def record (values : List UInt8) : List UInt8 :=
  littleEndian 4 (4 + values.length) ++ (littleEndian 4 metadataMagic ++ values)

def values (metadata : FileMetadata) : List UInt8 := 0 :: metadata.items.flatMap Item.bytes

/-- The file has the hash data and the metadata and nothing behind them, and the metadata can be
written again. -/
structure Rewritten (hash : HashData) (metadata : FileMetadata) (content : List UInt8) : Prop where
  hashData : content.take hash.bytes.length = hash.bytes
  readBack : readMetadata content = some metadata
  offset : osMetadataOffset content = content.length
  again : ∀ metadata' : FileMetadata, metadata'.Short → (rewrite content metadata' true).isSome

section Values

variable {m : FileMetadata} {old pre rest data : List UInt8}

theorem serialize_eq (h : m.Short) (data : List UInt8) :
    m.serialize data = data ++ m.items.flatMap Item.bytes := by
  simp only [FileMetadata.Short, FileMetadata.items, List.mem_cons, List.not_mem_nil, or_false,
    forall_eq_or_imp, forall_eq] at h
  obtain ⟨hshahash, hpath, hpermissions, h⟩ := h
  have hstr {ta : List UInt8} (hta : (Item.str ta).Short) (data : List UInt8) :
      CWData.addString ta data = data ++ (Item.str ta).bytes := add_eq hta data
  simp only [FileMetadata.serialize, hstr hshahash, hstr hpath, hstr hpermissions, addVarInt_eq,
    FileMetadata.items, List.flatMap_cons, List.flatMap_nil, List.append_nil, Item.bytes,
    List.append_assoc]

theorem putVarint_length_le (ta : BitVec 64) : (sqlite3PutVarint ta.toNat).length ≤ 9 := by
  have hloop := varintLenLoop_eq ta.toNat 1
  have hten := @fillBuf_length_le ta.toNat 9 (by have := ta.isLt; omega)
  rw [← sqlite3VarintLen_eq ta.isLt, sqlite3VarintLen]
  split
  · exact Nat.le_refl 9
  · omega

theorem values_length_le (h : m.Short) :
    (values m).length ≤ 1 + (3 * (4 + Data.CRData.maxStrlen) + 4 * 9) := by
  simp only [FileMetadata.Short, FileMetadata.items, List.mem_cons, List.not_mem_nil, or_false,
    forall_eq_or_imp, forall_eq, Item.Short] at h
  have hmodified := putVarint_length_le m.lastModified
  have hcreated := putVarint_length_le m.created
  have haccessed := putVarint_length_le m.accessed
  have hrsize := putVarint_length_le m.rsize
  simp only [values, FileMetadata.items, List.flatMap_cons, List.flatMap_nil, List.append_nil,
    Item.bytes, List.length_cons, List.length_append, littleEndian_length]
  omega

/-- The fields are read in the order in which they are written. -/
theorem read_between (h : m.Short)
    (hmax : (pre ++ (m.items.flatMap Item.bytes ++ rest)).length ≤ Data.CRData.maxDatalen) :
    FileMetadata.read (between pre (m.items.flatMap Item.bytes ++ rest)) = some m := by
  simp only [FileMetadata.Short, FileMetadata.items, List.mem_cons, List.not_mem_nil, or_false,
    forall_eq_or_imp, forall_eq] at h
  obtain ⟨hshahash, hpath, hpermissions, h⟩ := h
  simp only [FileMetadata.items, List.flatMap_cons, List.flatMap_nil, List.append_nil, Item.bytes,
    List.append_assoc, List.length_append] at hmax ⊢
  have hstr {ta : List UInt8} (hta : (Item.str ta).Short) (pre rest : List UInt8) :
      (between pre (littleEndian 4 ta.length ++ (ta ++ rest))).getStr =
        (some ta, between (pre ++ (littleEndian 4 ta.length ++ ta)) rest) := by
    rw [← List.append_assoc]
    exact getStr_between hta pre rest
  have hvar (ta : BitVec 64) (pre rest : List UInt8) (hlen :
      pre.length + ((sqlite3PutVarint ta.toNat).length + rest.length) ≤ Data.CRData.maxDatalen) :
      (between pre (sqlite3PutVarint ta.toNat ++ rest)).getVarInt =
        (some ta, between (pre ++ sqlite3PutVarint ta.toNat) rest) :=
    getVarInt_between ta (by rwa [List.length_append, List.length_append])
  unfold FileMetadata.read
  simp only [hstr hshahash, hstr hpath, hstr hpermissions]
  rw [hvar _ _ _ (by simp only [List.length_append]; omega)]
  dsimp only
  rw [hvar _ _ _ (by simp only [List.length_append]; omega)]
  dsimp only
  rw [hvar _ _ _ (by simp only [List.length_append]; omega)]
  dsimp only
  rw [hvar _ _ _ (by simp only [List.length_append]; omega)]
  rfl

end Values

section Records

variable {m : FileMetadata} {hash : HashData} {old tail : List UInt8} {f : ReadFile}

theorem record_length (old : List UInt8) : (record old).length = 8 + old.length := by
  simp only [record, List.length_append, littleEndian_length]
  omega

theorem next_record (h : f.content.drop f.pos = record old ++ tail) :
    f.next 8 = littleEndian 4 (4 + old.length) ++ littleEndian 4 metadataMagic := by
  refine @ReadFile.next_of_drop f 8 _ (old ++ tail) ?_ rfl
  rw [h, record, List.append_assoc, List.append_assoc, List.append_assoc]

/-- The two numbers in front of a record. -/
theorem record_header (hold : 4 + old.length < 2 ^ 32)
    (h : f.content.drop f.pos = record old ++ tail) :
    (f.next 8).length = 8 ∧ ofLittleEndian ((f.next 8).take 4) = 4 + old.length ∧
      ofLittleEndian ((f.next 8).drop 4) = metadataMagic := by
  rw [next_record h]
  refine ⟨rfl, ?_, ?_⟩
  · rw [List.take_left' (littleEndian_length 4 _), ofLittleEndian_littleEndian hold]
  · rw [List.drop_left' (littleEndian_length 4 _), ofLittleEndian_littleEndian (by decide)]

theorem getMetadataSize_record (hold : 4 + old.length < 2 ^ 32)
    (h : f.content.drop f.pos = record old ++ tail) : getMetadataSize f = 4 + old.length := by
  obtain ⟨hlength, hsize, hmagic⟩ := record_header hold h
  simp [getMetadataSize, hlength, hsize, hmagic]

theorem readMetadataValues_record (hm : m.Short)
    (h : f.content.drop f.pos = record (values m) ++ tail) : readMetadataValues f = some m := by
  have hle := values_length_le hm
  have hmax : Data.CRData.maxStrlen = 10 * 1024 * 1024 := rfl
  obtain ⟨hlength, hsize, hmagic⟩ := record_header (by omega) h
  have hcount : (4 + (values m).length + (2 ^ 64 - 4)) % 2 ^ 64 = (values m).length := by omega
  have hnext : (f.advance 8).next ((values m).length % 2 ^ 32) = values m := by
    refine @ReadFile.next_of_drop _ _ (values m) tail ?_ (Nat.mod_eq_of_lt (by omega))
    refine @ReadFile.drop_advance f 8 (littleEndian 4 (4 + (values m).length) ++
      littleEndian 4 metadataMagic) _ ?_ rfl
    rw [h, record, List.append_assoc, List.append_assoc, List.append_assoc]
  have hset : Data.CRData.set (values m ++ List.replicate 4 0) =
      between [] (littleEndian 1 (0 : BitVec 8).toNat ++
        (m.items.flatMap Item.bytes ++ List.replicate 4 0)) := by
    rw [Data.CRData.set, List.take_of_length_le]
    · rfl
    · rw [List.length_append, List.length_replicate, Data.CRData.maxDatalen]
      omega
  have hread := @read_between m ([] ++ littleEndian 1 (0 : BitVec 8).toNat) (List.replicate 4 0) hm
    (by
      have hcons : (values m).length = 1 + (m.items.flatMap Item.bytes).length := Nat.add_comm _ 1
      simp only [List.length_append, List.length_nil, littleEndian_length, List.length_replicate,
        Data.CRData.maxDatalen]
      omega)
  have hversion : (between [] (littleEndian 1 (0 : BitVec 8).toNat ++
      (m.items.flatMap Item.bytes ++ List.replicate 4 0))).getChar =
      (some 0, between ([] ++ littleEndian 1 (0 : BitVec 8).toNat)
        (m.items.flatMap Item.bytes ++ List.replicate 4 0)) := getFixed_between .char 0 [] _
  unfold readMetadataValues
  simp only [hlength, hsize, hmagic, hcount, hnext, hset, hversion]
  rw [if_neg (by omega), if_neg (not_not_intro rfl), if_neg (not_not_intro rfl), if_pos trivial,
    hread]

theorem header_hash (hash : HashData) (rest : List UInt8) :
    (ReadFile.mk (hash.bytes ++ rest) 0).next 8 = hash.bytes.take 8 := by
  rw [ReadFile.next, List.drop_zero, List.take_append_of_le_length hash.header]

theorem drop_hash (hash : HashData) (rest : List UInt8) {pos : Int} (hpos : pos = hash.bytes.length) :
    ((ReadFile.mk (hash.bytes ++ rest) 0).seek pos.toNat).content.drop
      ((ReadFile.mk (hash.bytes ++ rest) 0).seek pos.toNat).pos = rest := by
  simp [hpos]

/-- The new record is written over the old one, of which may be left what is longer. -/
theorem rewrite_record (hash : HashData) (hold : 4 + old.length < 2 ^ 32) (hm : m.Short) :
    rewrite (hash.bytes ++ record old) m true =
      some (hash.bytes ++ (record (values m) ++ (record old).drop (record (values m)).length)) := by
  have hle := values_length_le hm
  have hmax : Data.CRData.maxStrlen = 10 * 1024 * 1024 := rfl
  have height := hash.header
  have hsize := getMetadataSize_record hold
    ((drop_hash hash (record old) rfl).trans (List.append_nil _).symm)
  have hheader : (hash.bytes.take 8).length = 8 := by
    rw [List.length_take]
    omega
  have hdata : m.serialize (CWData.addChar 0 (CWData.addUInt (BitVec.ofNat 32 metadataMagic) [])) =
      littleEndian 4 metadataMagic ++ values m := by
    rw [serialize_eq hm]
    rfl
  have hwhole : littleEndian 4 ((littleEndian 4 metadataMagic ++ values m).length % 2 ^ 32) =
      littleEndian 4 (4 + (values m).length) := by
    rw [List.length_append, littleEndian_length, Nat.mod_eq_of_lt (by omega)]
  have hcheck : checkSize ⟨hash.bytes ++ record old, 0⟩ hash.bytes.length true = some false := by
    have hlength := record_length old
    simp only [checkSize, ReadFile.size, List.length_append, hsize, hlength]
    rw [if_neg (by omega), if_neg (by simp), if_neg (by omega), if_neg (by omega),
      if_neg (by omega)]
  have hwritten : (writeMetadata ((ReadFile.mk (hash.bytes ++ record old) 0).seek
      (hash.bytes.length : Int).toNat) m).1.content =
      hash.bytes ++ (record (values m) ++ (record old).drop (record (values m)).length) := by
    simp only [writeMetadata, hdata, hwhole]
    exact @ReadFile.write_write _ hash.bytes (record old) _ _ rfl rfl
  have hnext : ((ReadFile.mk (hash.bytes ++ record old) 0).seek 0).next 8 = hash.bytes.take 8 :=
    header_hash hash _
  have hne : (ReadFile.mk (hash.bytes ++ record old) 0).size ≠ 0 := by
    rw [ReadFile.size, List.length_append]
    omega
  simp only [rewrite, writeFileMetadata, if_neg hne, hnext, hheader, ← hash.announced, hcheck,
    Option.bind_some, not_true_eq_false, ne_eq, if_false, Bool.false_eq_true]
  rw [if_neg (by omega), Option.map_some, if_neg (by omega), hwritten]

/-- The metadata is read behind the hash data. -/
theorem readMetadata_record (hash : HashData) (hm : m.Short) (tail : List UInt8) :
    readMetadata (hash.bytes ++ (record (values m) ++ tail)) = some m := by
  have hheader : (hash.bytes.take 8).length = 8 := by
    rw [List.length_take]
    exact Nat.min_eq_left hash.header
  simp only [readMetadata, header_hash, hheader, ← hash.announced]
  rw [if_neg (not_not_intro rfl)]
  split
  next => exact readMetadataValues_record hm (drop_hash hash _ rfl)
  next hnone =>
    have hlength : hash.bytes.length = 8 := by
      have hsize := hash.announced
      have hminus : int64 (hash.bytes.take 8) = -1 := by
        by_contra hne
        exact hnone ⟨hne, Int.natCast_nonneg _⟩
      rw [hminus, getHashdataSize, if_pos rfl, chunkhashFileOff] at hsize
      omega
    refine @readMetadataValues_record m tail _ hm ?_
    have hdrop := @ReadFile.drop_advance (ReadFile.mk (hash.bytes ++ (record (values m) ++ tail)) 0)
      8 hash.bytes _ rfl hlength.symm
    exact hdrop

theorem osMetadataOffset_record (hash : HashData) (hm : m.Short) (tail : List UInt8) :
    osMetadataOffset (hash.bytes ++ (record (values m) ++ tail)) =
      hash.bytes.length + (record (values m)).length := by
  have hle := values_length_le hm
  have hmax : Data.CRData.maxStrlen = 10 * 1024 * 1024 := rfl
  have hheader : (hash.bytes.take 8).length = 8 := by
    rw [List.length_take]
    exact Nat.min_eq_left hash.header
  have hoff : (if int64 (hash.bytes.take 8) ≠ -1 then getHashdataSize (int64 (hash.bytes.take 8))
      else 8) = hash.bytes.length := by
    rw [hash.announced]
    split
    next => rfl
    next h => rw [not_not.mp h, getHashdataSize, if_pos rfl, chunkhashFileOff]
  obtain ⟨hlength, hsize, hmagic⟩ :=
    record_header (by omega) (drop_hash hash (record (values m) ++ tail) rfl)
  simp only [osMetadataOffset, header_hash, hheader, hoff, hlength, hsize, hmagic, record_length]
  rw [if_neg (not_not_intro rfl), if_neg (by omega), if_neg (by omega), if_neg (not_not_intro rfl)]
  omega

end Records

/-- What is left of a longer record stays in the file. -/
theorem Rewritten.le {hash : HashData} {old content : List UInt8} {m : FileMetadata}
    (hold : 4 + old.length < 2 ^ 32) (hm : m.Short)
    (hcontent : rewrite (hash.bytes ++ record old) m true = some content)
    (h : Rewritten hash m content) : old.length ≤ (values m).length := by
  have hoffset := h.offset
  rw [rewrite_record hash hold hm] at hcontent
  cases hcontent
  rw [osMetadataOffset_record hash hm] at hoffset
  simp only [List.length_append, List.length_drop, record_length] at hoffset
  omega

/-- The metadata is rewritten if and only if the new record is not shorter than the old one. -/
theorem rewritten_iff (hash : HashData) (old : List UInt8) (m : FileMetadata)
    (hold : 4 + old.length < 2 ^ 32) (hm : m.Short) :
    (∃ content, rewrite (hash.bytes ++ record old) m true = some content ∧
      Rewritten hash m content) ↔ old.length ≤ (values m).length := by
  constructor
  · rintro ⟨content, hcontent, hrewritten⟩
    exact hrewritten.le hold hm hcontent
  · intro hle
    have hnone : (record old).drop (record (values m)).length = [] :=
      List.drop_of_length_le (by rw [record_length, record_length]; omega)
    refine ⟨_, rewrite_record hash hold hm, ?_⟩
    rw [hnone]
    exact {
      hashData := List.take_left
      readBack := readMetadata_record hash hm []
      offset := by
        rw [osMetadataOffset_record hash hm, List.append_nil, List.length_append]
        rfl
      again := by
        intro metadata' hshort
        have hlength := values_length_le hm
        have hmax : Data.CRData.maxStrlen = 10 * 1024 * 1024 := rfl
        rw [List.append_nil, rewrite_record hash (by omega) hshort]
        rfl }

def noHashes : HashData := ⟨List.replicate 8 255, by decide, by decide +kernel⟩

def pathMetadata (origPath : List UInt8) : FileMetadata := ⟨[], origPath, [], 0, 0, 0, 0⟩

theorem rewritten_longer : ∃ content,
    rewrite (noHashes.bytes ++ record (values (pathMetadata []))) (pathMetadata [97, 98]) true =
      some content ∧ Rewritten noHashes (pathMetadata [97, 98]) content :=
  (rewritten_iff noHashes _ _ (by decide +kernel) (by
    simp [FileMetadata.Short, FileMetadata.items, pathMetadata, Item.Short,
      Data.CRData.maxStrlen])).mpr (by decide +kernel)

/-- The end of the longer path stays behind the record without a path. -/
theorem not_rewritten_shorter : ¬ ∃ content,
    rewrite (noHashes.bytes ++ record (values (pathMetadata [97, 98]))) (pathMetadata []) true =
      some content ∧ Rewritten noHashes (pathMetadata []) content := by
  rintro ⟨content, hcontent, hrewritten⟩
  have hle := hrewritten.le (by decide +kernel) (by
    simp [FileMetadata.Short, FileMetadata.items, pathMetadata, Item.Short]) hcontent
  exact absurd hle (by decide +kernel)

end MetadataFile

end UrBackup
