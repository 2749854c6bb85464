import Mathlib
import UrBackup.Metadata.ApplyMetadata
import UrBackup.Metadata.StreamRuns

/-! What the server saves of the metadata stream of files: it reads what the client sent. -/
namespace UrBackup
namespace Metadata

open ByteOrder FileNames
open FileMetadataPipe (commonRecord getXattr getXattrKeys statRecord)

section Numbers

theorem varInt_high {left value : Nat} (b : UInt8) {v : Nat} (hb : b = UInt8.ofNat (v % 128 + 128))
    (rest : Bytes) :
    CRData.varInt (left + 1) value (b :: rest) = CRData.varInt left (value * 128 + v % 128) rest := by
  have hlow : b.toNat = v % 128 + 128 := by
    rw [hb]
    exact toNat_ofNat_of_lt (by omega)
  rw [CRData.varInt, hlow, if_neg (by omega), Nat.add_sub_cancel]

/-- Groups are read where they were put. Induction on the groups. -/
theorem varInt_varintGroups {groups left : Nat} (hle : groups ≤ left) (value v : Nat)
    (hv : v < 128 ^ groups) (rest : Bytes) :
    CRData.varInt left value (varintGroups groups v ++ rest) =
      CRData.varInt (left - groups) (value * 128 ^ groups + v) rest := by
  induction groups generalizing v rest with
  | zero =>
    have hzero : v = 0 := by omega
    simp [varintGroups, hzero]
  | succ groups ih =>
    have hdiv : v / 128 < 128 ^ groups := Nat.div_lt_of_lt_mul (by rwa [Nat.pow_succ'] at hv)
    obtain ⟨l, hl⟩ : ∃ l, left - groups = l + 1 := ⟨left - groups - 1, by omega⟩
    rw [varintGroups, List.append_assoc, ih (by omega) (v / 128) hdiv, hl, List.singleton_append,
      varInt_high _ rfl]
    congr 1
    · omega
    · rw [Nat.pow_succ, Nat.add_mul, Nat.mul_assoc, Nat.add_assoc, Nat.div_add_mod']

/-- A number has as many groups as it needs. Induction on the groups there is room for. -/
theorem varInt_highGroups {m l : Nat} (hle : m ≤ l) {v : Nat} (hv : v < 128 ^ m) :
    ∃ k ≤ m, ∀ left, m ≤ left → ∀ rest : Bytes,
      CRData.varInt left 0 (highGroups l v ++ rest) = CRData.varInt (left - k) v rest := by
  induction l generalizing m v with
  | zero =>
    have hzero : v = 0 := by
      have hm : m = 0 := Nat.le_zero.mp hle
      rw [hm] at hv
      omega
    exact ⟨0, Nat.zero_le _, fun left _ rest => by simp [highGroups, hzero]⟩
  | succ l ih =>
    by_cases hzero : v = 0
    · exact ⟨0, Nat.zero_le _, fun left _ rest => by simp [highGroups, hzero]⟩
    · cases m with
      | zero => exact absurd (Nat.lt_one_iff.mp hv) hzero
      | succ m =>
        have hdiv : v / 128 < 128 ^ m := Nat.div_lt_of_lt_mul (by rwa [Nat.pow_succ'] at hv)
        obtain ⟨k, hk, hread⟩ := ih (Nat.le_of_succ_le_succ hle) hdiv
        refine ⟨k + 1, Nat.succ_le_succ hk, fun left hleft rest => ?_⟩
        obtain ⟨r, hr⟩ : ∃ r, left - k = r + 1 := ⟨left - k - 1, by omega⟩
        rw [highGroups, if_neg hzero, List.append_assoc, hread left (by omega), hr,
          List.singleton_append, varInt_high _ rfl, Nat.div_add_mod' v 128]
        congr 1
        omega

theorem varInt_putVarint {v : Nat} (hv : v < 2 ^ 64) (rest : Bytes) :
    CRData.varInt 8 0 (putVarint v ++ rest) = some (v, rest) := by
  unfold putVarint
  split
  · have hhigh : v / 256 < 128 ^ 8 := Nat.div_lt_of_lt_mul (by omega)
    rw [List.append_assoc, varInt_varintGroups (le_refl 8) 0 _ hhigh, List.singleton_append,
      Nat.sub_self, CRData.varInt, toNat_ofNat_of_lt (Nat.mod_lt v (by decide)), Nat.zero_mul,
      Nat.zero_add, Nat.div_add_mod']
  · have hhigh : v / 128 < 128 ^ 7 := Nat.div_lt_of_lt_mul (by omega)
    obtain ⟨k, hk, hread⟩ := varInt_highGroups (l := 8) (by decide) hhigh
    obtain ⟨r, hr⟩ : ∃ r, 8 - k = r + 1 := ⟨8 - k - 1, by omega⟩
    have hlow : (UInt8.ofNat (v % 128)).toNat = v % 128 := toNat_ofNat_of_lt (by omega)
    rw [List.append_assoc, hread 8 (by decide), hr, List.singleton_append, CRData.varInt, hlow,
      if_pos (Nat.mod_lt v (by decide)), Nat.div_add_mod']

def toInt64 (x : Int) : Int := x.bmod (2 ^ 64)

theorem getVarInt_addVarInt (x : Int) (rest : Bytes) :
    CRData.getVarInt (addVarInt x ++ rest) = some (toInt64 x, rest) := by
  have hlt : (x % 2 ^ 64).toNat < 2 ^ 64 := by omega
  have hcast : ((x % 2 ^ 64).toNat : Int) = x % 2 ^ 64 := Int.toNat_of_nonneg (by omega)
  have hint : (BitVec.ofNat 64 (x % 2 ^ 64).toNat).toInt = toInt64 x := by
    rw [BitVec.toInt_ofNat', hcast]
    exact Int.emod_bmod x (2 ^ 64)
  simp only [CRData.getVarInt, addVarInt, varInt_putVarint hlt, Option.map_some, hint]

end Numbers

section Parts

theorem readRetry_append {x rest : Bytes} {n : Nat} (h : x.length = n) :
    readRetry (x ++ rest) n = some (x, rest) := by
  have hle : n ≤ (x ++ rest).length := by
    rw [List.length_append, h]
    exact Nat.le_add_right _ _
  rw [readRetry, if_pos hle, List.take_left' h, List.drop_left' h]

theorem readRetry_littleEndian (n x : Nat) (rest : Bytes) :
    readRetry (littleEndian n x ++ rest) n = some (littleEndian n x, rest) :=
  readRetry_append (littleEndian_length n x)

theorem ofLittleEndian_four {x : Nat} (h : x < 2 ^ 32) : ofLittleEndian (littleEndian 4 x) = x :=
  ofLittleEndian_littleEndian (n := 4) (by omega)

theorem ofLittleEndian_checksum (adler : UInt32) :
    ofLittleEndian (littleEndian 4 adler.toNat) = adler.toNat :=
  ofLittleEndian_four adler.toNat_lt

theorem summed_pieces (x y : Bytes) : summed (x ++ y) =
    x ++ (y ++ checksumBytes (urbAdler32 (urbAdler32 (urbAdler32 0 none) (some x)) (some y))) := by
  rw [summed, sumFrom, urbAdler32_append reduced_init, List.append_assoc]

theorem readFileName_namePart {fn : Bytes} (hpos : 1 < fn.length) (hlt : fn.length < 2 ^ 32)
    (rest : Bytes) : readFileName (namePart fn ++ rest) = some (fn, rest) := by
  rw [namePart, summed_pieces, List.append_assoc, List.append_assoc, checksumBytes]
  simp only [readFileName, readRetry_littleEndian, ofLittleEndian_four hlt, if_pos hpos,
    readRetry_append (rfl : fn.length = fn.length), ofLittleEndian_checksum, if_true]

theorem getStr_addString {str : Bytes} (h : str.length ≤ 10 * 1024 * 1024) (rest : Bytes) :
    CRData.getStr (addString str ++ rest) = (some str, rest) := by
  have hlt : str.length < 2 ^ 32 := by omega
  have hlen : ¬ (addString str ++ rest).length < 4 := by
    simp [addString, addUInt]
  have htake : (addString str ++ rest).take 4 = littleEndian 4 str.length := by
    rw [addString, addUInt, List.append_assoc]
    exact List.take_left' (littleEndian_length 4 _)
  have hdrop : (addString str ++ rest).drop 4 = str ++ rest := by
    rw [addString, addUInt, List.append_assoc]
    exact List.drop_left' (littleEndian_length 4 _)
  have hfits : ¬ (10 * 1024 * 1024 < str.length ∨ (str ++ rest).length < str.length) := by
    rw [List.length_append]
    omega
  simp only [CRData.getStr, CRData.getUInt, hlen, if_false, htake, hdrop, ofLittleEndian_four hlt,
    hfits, List.take_left, List.drop_left]

variable {w : World}

def commonOf (w : World) (localFn : Bytes) (folderItems metadataId : Int) : CommonMetadata where
  created := 0
  modified := toInt64 (w.lastModified localFn)
  accessed := toInt64 (w.accessed localFn)
  folderItems := toInt64 folderItems
  metadataId := toInt64 metadataId
  permissions := w.fileTokens localFn

theorem length_fileTokens_le (w : World) (localFn : Bytes) (folderItems metadataId : Int) :
    (w.fileTokens localFn).length ≤ (commonRecord w localFn folderItems metadataId).length := by
  simp only [commonRecord, addString, List.length_cons, List.length_append]
  omega

theorem parseCommon_commonRecord {localFn : Bytes} {folderItems metadataId : Int}
    (hfits : (commonRecord w localFn folderItems metadataId).length + 2 * 4 < metadataBufferSize) :
    parseCommon (commonRecord w localFn folderItems metadataId) =
      some (commonOf w localFn folderItems metadataId) := by
  have htokens := length_fileTokens_le w localFn folderItems metadataId
  rw [metadataBufferSize] at hfits
  have hset : CRData.set (commonRecord w localFn folderItems metadataId) =
      commonRecord w localFn folderItems metadataId := List.take_of_length_le (by omega)
  have hstr := getStr_addString (by omega : (w.fileTokens localFn).length ≤ 10 * 1024 * 1024) []
  rw [List.append_nil] at hstr
  have hzero : toInt64 0 = 0 := rfl
  rw [parseCommon, hset, commonRecord]
  simp only [CRData.getChar, if_true, List.append_assoc, getVarInt_addVarInt, hstr, hzero, commonOf]

theorem readCommonMetadata_commonPart {localFn : Bytes} {folderItems metadataId : Int}
    (hfits : (commonRecord w localFn folderItems metadataId).length + 2 * 4 < metadataBufferSize)
    (rest : Bytes) :
    readCommonMetadata (commonPart w localFn folderItems metadataId ++ rest) =
      some (commonOf w localFn folderItems metadataId, rest) := by
  have hlt : (commonRecord w localFn folderItems metadataId).length < 2 ^ 32 := by
    rw [metadataBufferSize] at hfits
    omega
  rw [commonPart, addString, addUInt, summed_pieces, List.append_assoc, List.append_assoc,
    checksumBytes]
  simp only [readCommonMetadata, readRetry_littleEndian, ofLittleEndian_four hlt,
    readRetry_append rfl, ofLittleEndian_checksum, if_true, parseCommon_commonRecord hfits,
    Option.map_some]

end Parts

section Os

variable {w : World}

def copied (data rest : Bytes) : Copying := ⟨rest, data, urbAdler32 (urbAdler32 0 none) (some data)⟩

theorem copy_append {data x rest : Bytes} {n : Nat} (h : x.length = n) :
    (copied data (x ++ rest)).copy n = some (x, copied (data ++ x) rest) := by
  simp only [Copying.copy, copied, readRetry_append h, Option.map_some,
    urbAdler32_append reduced_init]

/-- The server takes the attributes of a file. -/
structure Attributes (w : World) (localFn : Bytes) (keys : List Bytes) : Prop where
  listed : getXattrKeys w localFn = some keys
  number : keys.length < 2 ^ 63
  key_le : ∀ key ∈ keys, key.length ≤ 4 + 1024 * 1024
  val_le : ∀ key ∈ keys, (getXattr w localFn key).length ≤ 4 + 10 * 1024 * 1024

theorem getXattr_cases (w : World) (localFn key : Bytes) :
    getXattr w localFn key = littleEndian 4 (2 ^ 32 - 1) ∨
      ∃ value, getXattr w localFn key = littleEndian 4 value.length ++ value := by
  unfold getXattr
  split
  · exact .inl rfl
  · exact .inr ⟨_, rfl⟩

theorem copyEAttr_append {localFn name : Bytes} (hname : name.length ≤ 1024 * 1024)
    (hval : (getXattr w localFn (addString name)).length ≤ 4 + 10 * 1024 * 1024)
    (data rest : Bytes) :
    (copied data (addString name ++ getXattr w localFn (addString name) ++ rest)).copyEAttr =
      some (copied (data ++ (addString name ++ getXattr w localFn (addString name))) rest) := by
  have hnameLt : ofLittleEndian (littleEndian 4 name.length) = name.length :=
    ofLittleEndian_four (by omega)
  obtain hnone | ⟨value, hvalue⟩ := getXattr_cases w localFn (addString name)
  · have hmarker : ofLittleEndian (littleEndian 4 (2 ^ 32 - 1)) = 2 ^ 32 - 1 :=
      ofLittleEndian_four (by decide)
    rw [hnone]
    simp only [addString, addUInt, Copying.copyEAttr, List.append_assoc,
      copy_append (littleEndian_length 4 _), hnameLt, copy_append rfl, hmarker, if_true,
      if_neg (Nat.not_lt.mpr hname)]
  · rw [hvalue, List.length_append, littleEndian_length] at hval
    have hvalueLt : ofLittleEndian (littleEndian 4 value.length) = value.length :=
      ofLittleEndian_four (by omega)
    rw [hvalue]
    simp only [addString, addUInt, Copying.copyEAttr, List.append_assoc,
      copy_append (littleEndian_length 4 _), hnameLt, copy_append rfl, hvalueLt,
      if_neg (Nat.not_lt.mpr hname), if_neg (by omega : ¬ value.length = 2 ^ 32 - 1),
      if_neg (by omega : ¬ 10 * 1024 * 1024 < value.length), Option.map_some]

/-- All keys and values are read. Induction on the keys. -/
theorem copyEAttrs_append {localFn : Bytes} {names : List Bytes}
    (hnames : ∀ name ∈ names, name.length ≤ 1024 * 1024)
    (hvals : ∀ name ∈ names, (getXattr w localFn (addString name)).length ≤ 4 + 10 * 1024 * 1024)
    (data rest : Bytes) :
    Copying.copyEAttrs names.length
        (copied data (attributes w localFn (names.map addString) ++ rest)) =
      some (copied (data ++ attributes w localFn (names.map addString)) rest) := by
  induction names generalizing data with
  | nil => simp [attributes, Copying.copyEAttrs]
  | cons name names ih =>
    rw [List.forall_mem_cons] at hnames hvals
    have hfirst := copyEAttr_append hnames.1 hvals.1 data
      (attributes w localFn (names.map addString) ++ rest)
    have hcons : attributes w localFn ((name :: names).map addString) =
        addString name ++ getXattr w localFn (addString name) ++
          attributes w localFn (names.map addString) := rfl
    rw [hcons, List.append_assoc, List.length_cons, Copying.copyEAttrs, hfirst]
    simp only
    rw [ih hnames.2 hvals.2, List.append_assoc]

theorem getXattrKeys_eq_map {localFn : Bytes} {keys : List Bytes}
    (h : getXattrKeys w localFn = some keys) : ∃ names : List Bytes, keys = names.map addString := by
  unfold getXattrKeys at h
  split at h
  · cases h
    exact ⟨[], rfl⟩
  · cases h
  · cases h
    exact ⟨_, rfl⟩

theorem numEattrKeys_littleEndian {n : Nat} (h : n < 2 ^ 63) :
    numEattrKeys (littleEndian 8 n) = n := by
  have hread : ofLittleEndian (littleEndian 8 n) = n :=
    ofLittleEndian_littleEndian (n := 8) (by omega)
  have hself : ((n : Int)).bmod (2 ^ 64) = n := Int.bmod_eq_of_le (by omega) (by omega)
  rw [numEattrKeys, hread, BitVec.toInt_ofNat', hself, Int.toNat_natCast]

theorem statRecord_cases {localFn data : Bytes} (h : statRecord w localFn = some data) :
    ∃ tail, data = 1 :: tail ∧ data.length + 4 ≤ metadataBufferSize := by
  unfold statRecord at h
  split at h
  · cases h
  · split at h
    · cases h
    · simp only at h
      split at h
      · cases h
      · rename_i hfits
        cases h
        exact ⟨_, rfl, Nat.le_of_not_lt hfits⟩

def osSaved (w : World) (localFn : Bytes) : Bytes :=
  littleEndian 8 (16 + (osData w localFn).length) ++ littleEndian 8 unixMetaMagic ++ osData w localFn

theorem applyUnixMetadata_osData {localFn data : Bytes} {keys : List Bytes}
    (hdata : statRecord w localFn = some data) (h : Attributes w localFn keys) (rest : Bytes) :
    applyUnixMetadata (summed (osData w localFn) ++ rest) = some (osSaved w localFn, rest) := by
  obtain ⟨tail, rfl, hfits⟩ := statRecord_cases hdata
  obtain ⟨names, rfl⟩ := getXattrKeys_eq_map h.listed
  rw [metadataBufferSize] at hfits
  have hnames : ∀ name ∈ names, name.length ≤ 1024 * 1024 := by
    intro name hname
    have hkey := h.key_le _ (List.mem_map_of_mem hname)
    simp only [addString, addUInt, List.length_append, littleEndian_length] at hkey
    omega
  have hvals : ∀ name ∈ names,
      (getXattr w localFn (addString name)).length ≤ 4 + 10 * 1024 * 1024 :=
    fun name hname => h.val_le _ (List.mem_map_of_mem hname)
  -- the pieces of the part and what the server makes of them
  obtain ⟨size, hsize, hsizeLength⟩ : ∃ size, size = littleEndian 4 (1 :: tail).length ∧
      size.length = 4 := ⟨_, rfl, littleEndian_length 4 _⟩
  obtain ⟨count, hcount, hcountLength⟩ : ∃ count,
      count = littleEndian 8 (names.map addString).length ∧ count.length = 8 :=
    ⟨_, rfl, littleEndian_length 8 _⟩
  obtain ⟨sum, hsum⟩ : ∃ sum, sum = urbAdler32 (urbAdler32 0 none) (some (osData w localFn)) :=
    ⟨_, rfl⟩
  have hversionLength : ([1] : Bytes).length = 1 := rfl
  have hstat : ofLittleEndian size = tail.length + 1 := by
    rw [hsize]
    exact ofLittleEndian_four (by omega)
  have hnumber : numEattrKeys count = names.length := by
    rw [hcount, numEattrKeys_littleEndian h.number, List.length_map]
  have hos : osData w localFn =
      size ++ ([1] ++ (tail ++ (count ++ attributes w localFn (names.map addString)))) := by
    rw [hsize, hcount]
    simp [osData, hdata, attributeData, h.listed, addString, addUInt]
  have hwritten : [] ++ size ++ [1] ++ tail ++ count ++
      attributes w localFn (names.map addString) = osData w localFn := by
    rw [hos]
    simp only [List.append_assoc, List.nil_append]
  have hstream : summed (osData w localFn) ++ rest = size ++ ([1] ++ (tail ++ (count ++
      (attributes w localFn (names.map addString) ++ (littleEndian 4 sum.toNat ++ rest))))) := by
    rw [summed, sumFrom, ← hsum, hos, checksumBytes]
    simp only [List.append_assoc]
  have hstart : ∀ b : Bytes, (⟨b, [], urbAdler32 0 none⟩ : Copying) = copied [] b := by
    intro b
    rw [copied, urbAdler32_nil reduced_init]
  have hdone : copied (osData w localFn) (littleEndian 4 sum.toNat ++ rest) =
      ⟨littleEndian 4 sum.toNat ++ rest, osData w localFn, sum⟩ := by
    rw [copied, hsum]
  rw [hstream, applyUnixMetadata, hstart]
  simp only [copy_append hsizeLength, hstat, if_neg (by omega : ¬ tail.length + 1 < 1),
    copy_append hversionLength, if_true, Nat.add_sub_cancel,
    copy_append (rfl : tail.length = tail.length), copy_append hcountLength, hnumber,
    copyEAttrs_append hnames hvals, hwritten, hdone, readRetry_littleEndian,
    ofLittleEndian_checksum, osSaved]

end Os

section Files

/-- A file of which the metadata is in the stream. -/
structure SentFile where
  kind : FileKind
  publicFn : Bytes
  localFn : Bytes
  folderItems : Int
  metadataId : Int

/-- A message about a file without a callback. -/
def Message.IsFile : Message → Prop
  | .sendFile _ _ _ _ none => True
  | _ => False

/-- The files of which the metadata is sent: the type of the file is known, and its name is not
among those that were sent last. -/
def sentFiles (w : World) : List Bytes → List Message → List SentFile
  | _, [] => []
  | fns, .sendFile publicFn localFn folderItems metadataId _ :: queue =>
    if publicFn ∈ fns then sentFiles w fns queue
    else
      match w.fileType localFn with
      | none => sentFiles w (FileMetadataPipe.pushPublicFn publicFn fns) queue
      | some kind => { kind, publicFn, localFn, folderItems, metadataId } ::
          sentFiles w (FileMetadataPipe.pushPublicFn publicFn fns) queue
  | fns, _ :: queue => sentFiles w fns queue

variable {w : World} {backup : Backup}

/-- All that the client asks about a file can be had, and the server takes it. -/
structure SentFile.Readable (w : World) (f : SentFile) : Prop where
  name_ne : f.publicFn ≠ []
  name_lt : f.publicFn.length + 1 < 2 ^ 32
  stat : statRecord w f.localFn ≠ none
  attributes : ∃ keys, Attributes w f.localFn keys

def SentFile.currFn (f : SentFile) : Bytes := f.kind.char :: f.publicFn

def SentFile.paths (backup : Backup) (f : SentFile) : Bytes × Bytes := pathsOf backup f.currFn

def SentFile.common (w : World) (f : SentFile) : CommonMetadata :=
  commonOf w f.localFn f.folderItems f.metadataId

def SentFile.Fits (w : World) (f : SentFile) : Prop :=
  (commonRecord w f.localFn f.folderItems f.metadataId).length + 2 * 4 < metadataBufferSize

def saveFile (backup : Backup) (w : World) (files : MetadataFiles) (f : SentFile) : MetadataFiles :=
  match openOutput backup files (f.paths backup) with
  | none => files
  | some output => save files (f.paths backup).1 output (f.common w) (osSaved w f.localFn)

theorem openOutput_ne_none (hcreates : ∀ path, backup.creates path = true) (files : MetadataFiles)
    (paths : Bytes × Bytes) : openOutput backup files paths ≠ none := by
  unfold openOutput
  split
  · simp
  · split
    · simp
    · simp [hcreates]

def SentFile.bytes (w : World) (f : SentFile) : Bytes :=
  namePart f.currFn ++ (commonPart w f.localFn f.folderItems f.metadataId ++
    summed (osData w f.localFn))

theorem applyTurn_nop (b : Bytes) (files : MetadataFiles) :
    applyTurn backup (idMetadataNop :: b, files) = .inr (b, files) := rfl

theorem applyTurn_file (b : Bytes) (files : MetadataFiles) :
    applyTurn backup (idMetadataV1 :: b, files) = applyFile backup idMetadataV1 b files := by
  rw [applyTurn, if_neg (by decide), if_pos (by decide)]

theorem applyFile_bytes {f : SentFile} (hne : f.publicFn ≠ []) (hlt : f.publicFn.length + 1 < 2 ^ 32)
    (hfits : f.Fits w) (rest : Bytes) {files : MetadataFiles} {output : Option FileMetadata}
    (houtput : openOutput backup files (f.paths backup) = some output) :
    applyFile backup idMetadataV1 (f.bytes w ++ rest) files =
      match applyUnixMetadata (summed (osData w f.localFn) ++ rest) with
      | none => .inl (false, save files (f.paths backup).1 output (f.common w) [])
      | some (os, b) => .inr (b, save files (f.paths backup).1 output (f.common w) os) := by
  have hname : readFileName (f.bytes w ++ rest) = some (f.currFn,
      commonPart w f.localFn f.folderItems f.metadataId ++
        (summed (osData w f.localFn) ++ rest)) := by
    have hpos := List.length_pos_of_ne_nil hne
    rw [SentFile.bytes, List.append_assoc, List.append_assoc]
    exact readFileName_namePart (by simp [SentFile.currFn]; omega)
      (by simp [SentFile.currFn]; omega) _
  have hcommon := readCommonMetadata_commonPart hfits (summed (osData w f.localFn) ++ rest)
  have hos : ∀ b, applyOsMetadata backup idMetadataV1 b = applyUnixMetadata b := by
    intro b
    rw [applyOsMetadata, if_neg (by decide), if_pos (by decide)]
  rw [SentFile.paths] at houtput
  simp only [applyFile, hname, hcommon, houtput, hos]
  rfl

theorem applyFile_readable {f : SentFile} (h : f.Readable w) (hfits : f.Fits w)
    (hcreates : ∀ path, backup.creates path = true) (rest : Bytes) (files : MetadataFiles) :
    applyFile backup idMetadataV1 (f.bytes w ++ rest) files =
      .inr (rest, saveFile backup w files f) := by
  obtain ⟨output, houtput⟩ := Option.ne_none_iff_exists'.mp
    (openOutput_ne_none hcreates files (f.paths backup))
  obtain ⟨data, hdata⟩ := Option.ne_none_iff_exists'.mp h.stat
  obtain ⟨keys, hkeys⟩ := h.attributes
  rw [applyFile_bytes h.name_ne h.name_lt hfits rest houtput,
    applyUnixMetadata_osData hdata hkeys rest]
  simp only [saveFile, houtput]

/-- Without a stat record the server takes the checksum for its size and the next byte of the
stream for its version. -/
theorem applyUnixMetadata_unreadable {localFn : Bytes} (h : statRecord w localFn = none)
    {rest : Bytes} (hrest : rest.head? ≠ some 1) :
    applyUnixMetadata (summed (osData w localFn) ++ rest) = none := by
  have hos : osData w localFn = [] := by rw [osData, h]
  have hsum : summed (osData w localFn) = [1, 0, 0, 0] := by
    rw [hos, summed, sumFrom_nil reduced_init]
    decide
  have hsize : (⟨[1, 0, 0, 0] ++ rest, [], urbAdler32 0 none⟩ : Copying).copy 4 =
      some ([1, 0, 0, 0], ⟨rest, [] ++ [1, 0, 0, 0],
        urbAdler32 (urbAdler32 0 none) (some [1, 0, 0, 0])⟩) := by
    have hread : readRetry ([1, 0, 0, 0] ++ rest) 4 = some ([1, 0, 0, 0], rest) :=
      readRetry_append rfl
    simp only [Copying.copy, hread, Option.map_some]
  have hone : ¬ ofLittleEndian [1, 0, 0, 0] < 1 := by decide
  rw [hsum, applyUnixMetadata, hsize]
  simp only [if_neg hone]
  cases rest with
  | nil => rfl
  | cons b rest =>
    have hversion : ¬ [b] = [1] := by
      rintro ⟨⟩
      exact hrest rfl
    have hread : readRetry (b :: rest) 1 = some ([b], rest) :=
      readRetry_append (x := [b]) rfl
    simp only [Copying.copy, hread, Option.map_some, if_neg hversion]

theorem applyFile_unreadable {f : SentFile} (hne : f.publicFn ≠ [])
    (hlt : f.publicFn.length + 1 < 2 ^ 32) (hfits : f.Fits w)
    (hstat : statRecord w f.localFn = none) (hcreates : ∀ path, backup.creates path = true)
    {rest : Bytes} (hrest : rest.head? ≠ some 1) (files : MetadataFiles) :
    ∃ files', applyFile backup idMetadataV1 (f.bytes w ++ rest) files = .inl (false, files') := by
  obtain ⟨output, houtput⟩ := Option.ne_none_iff_exists'.mp
    (openOutput_ne_none hcreates files (f.paths backup))
  rw [applyFile_bytes hne hlt hfits rest houtput, applyUnixMetadata_unreadable hstat hrest]
  exact ⟨_, rfl⟩

end Files

section Streams

variable {w : World} {backup : Backup}

/-- The stream of files: a byte for each name that is not sent again and each file without a
type, and the metadata of the others. -/
theorem streamOf_file {publicFn localFn : Bytes} {folderItems metadataId : Int}
    {fns : List Bytes} {queue : List Message} {kind : FileKind} (hfresh : publicFn ∉ fns)
    (hkind : w.fileType localFn = some kind) :
    streamOf w fns (.sendFile publicFn localFn folderItems metadataId none :: queue) =
      idMetadataV1 :: ((SentFile.mk kind publicFn localFn folderItems metadataId).bytes w ++
        streamOf w (FileMetadataPipe.pushPublicFn publicFn fns) queue) := by
  simp [streamOf, hfresh, hkind, fileBytes, SentFile.bytes, SentFile.currFn]

theorem head_streamOf {fns : List Bytes} {queue : List Message} (h : ∀ msg ∈ queue, msg.IsFile) :
    (streamOf w fns queue).head? ≠ some 1 := by
  cases queue with
  | nil => simp [streamOf]
  | cons msg queue =>
    have hmsg := h msg List.mem_cons_self
    cases msg with
    | sendFile publicFn localFn folderItems metadataId callback =>
      cases callback with
      | some getMetadata => exact hmsg.elim
      | none =>
        by_cases hsent : publicFn ∈ fns
        · simp [streamOf, hsent, idMetadataNop]
        · cases hkind : w.fileType localFn with
          | none => simp [streamOf, hsent, hkind, idMetadataNop]
          | some kind =>
            rw [streamOf_file hsent hkind, List.head?_cons]
            decide
    | sendRaw publicFn rawMetadata => exact hmsg.elim
    | sendRawFiledata publicFn transmitFile => exact hmsg.elim

/-- Readable files are saved one after the other. Induction on the messages. -/
theorem applies_readable {queue : List Message} (hfiles : ∀ msg ∈ queue, msg.IsFile)
    (hfits : ∀ msg ∈ queue, msg.Fits w) (hcreates : ∀ path, backup.creates path = true)
    (fns : List Bytes) (hreadable : ∀ f ∈ sentFiles w fns queue, f.Readable w)
    (files : MetadataFiles) :
    Applies backup (streamOf w fns queue) files
      (true, (sentFiles w fns queue).foldl (saveFile backup w) files) := by
  induction queue generalizing fns files with
  | nil => exact .done rfl
  | cons msg queue ih =>
    rw [List.forall_mem_cons] at hfiles hfits
    cases msg with
    | sendFile publicFn localFn folderItems metadataId callback =>
      cases callback with
      | some getMetadata => exact hfiles.1.elim
      | none =>
        by_cases hsent : publicFn ∈ fns
        · simp only [streamOf, sentFiles, if_pos hsent] at hreadable ⊢
          exact .turn (applyTurn_nop _ _) (ih hfiles.2 hfits.2 _ hreadable _)
        · cases hkind : w.fileType localFn with
          | none =>
            simp only [streamOf, sentFiles, if_neg hsent, hkind] at hreadable ⊢
            exact .turn (applyTurn_nop _ _) (ih hfiles.2 hfits.2 _ hreadable _)
          | some kind =>
            rw [streamOf_file hsent hkind]
            simp only [sentFiles, if_neg hsent, hkind, List.forall_mem_cons,
              List.foldl_cons] at hreadable ⊢
            refine .turn ?_ (ih hfiles.2 hfits.2 _ hreadable.2 _)
            rw [applyTurn_file]
            exact applyFile_readable hreadable.1 hfits.1 hcreates _ _
    | sendRaw publicFn rawMetadata => exact hfiles.1.elim
    | sendRawFiledata publicFn transmitFile => exact hfiles.1.elim

/-- Behind a file without a stat record nothing is saved. Induction on the messages. -/
theorem applies_unreadable {queue : List Message} (hfiles : ∀ msg ∈ queue, msg.IsFile)
    (hfits : ∀ msg ∈ queue, msg.Fits w) (hcreates : ∀ path, backup.creates path = true)
    (fns : List Bytes) {before after : List SentFile} {f : SentFile}
    (hsplit : sentFiles w fns queue = before ++ f :: after)
    (hbefore : ∀ g ∈ before, g.Readable w) (hne : f.publicFn ≠ [])
    (hlt : f.publicFn.length + 1 < 2 ^ 32) (hstat : statRecord w f.localFn = none)
    (files : MetadataFiles) :
    ∃ files', Applies backup (streamOf w fns queue) files (false, files') := by
  induction queue generalizing fns before files with
  | nil => simp [sentFiles] at hsplit
  | cons msg queue ih =>
    rw [List.forall_mem_cons] at hfiles hfits
    cases msg with
    | sendFile publicFn localFn folderItems metadataId callback =>
      cases callback with
      | some getMetadata => exact hfiles.1.elim
      | none =>
        by_cases hsent : publicFn ∈ fns
        · simp only [streamOf, sentFiles, if_pos hsent] at hsplit ⊢
          obtain ⟨files', hends⟩ := ih hfiles.2 hfits.2 _ hsplit hbefore files
          exact ⟨files', .turn (applyTurn_nop _ _) hends⟩
        · cases hkind : w.fileType localFn with
          | none =>
            simp only [streamOf, sentFiles, if_neg hsent, hkind] at hsplit ⊢
            obtain ⟨files', hends⟩ := ih hfiles.2 hfits.2 _ hsplit hbefore files
            exact ⟨files', .turn (applyTurn_nop _ _) hends⟩
          | some kind =>
            rw [streamOf_file hsent hkind]
            simp only [sentFiles, if_neg hsent, hkind] at hsplit
            cases before with
            | nil =>
              obtain ⟨rfl, -⟩ := List.cons.inj hsplit
              obtain ⟨files', hstop⟩ := applyFile_unreadable hne hlt hfits.1 hstat
                hcreates (head_streamOf hfiles.2) files
              exact ⟨files', .done ((applyTurn_file _ _).trans hstop)⟩
            | cons g before =>
              obtain ⟨rfl, hrest⟩ := List.cons.inj hsplit
              rw [List.forall_mem_cons] at hbefore
              obtain ⟨files', hends⟩ := ih hfiles.2 hfits.2 _ hrest hbefore.2 _
              exact ⟨files', .turn ((applyTurn_file _ _).trans
                (applyFile_readable hbefore.1 hfits.1 hcreates _ files)) hends⟩
    | sendRaw publicFn rawMetadata => exact hfiles.1.elim
    | sendRawFiledata publicFn transmitFile => exact hfiles.1.elim

theorem saveFile_of_ne (files : MetadataFiles) {f : SentFile} {path : Bytes}
    (h : (f.paths backup).1 ≠ path) : saveFile backup w files f path = files path := by
  unfold saveFile
  cases openOutput backup files (f.paths backup) with
  | none => rfl
  | some output =>
    cases output with
    | none => rfl
    | some curr => exact if_neg (Ne.symm h)

theorem saveFile_self (hcreates : ∀ path, backup.creates path = true) (files : MetadataFiles)
    {f : SentFile} (h : backup.fileType (f.paths backup).2 ≠ none) :
    ∃ curr : FileMetadata, saveFile backup w files f (f.paths backup).1 =
      some { common := curr.with (f.common w), os := osSaved w f.localFn } := by
  obtain ⟨curr, hcurr⟩ : ∃ curr, openOutput backup files (f.paths backup) = some (some curr) := by
    unfold openOutput
    cases files (f.paths backup).1 with
    | some file => exact ⟨file.common, rfl⟩
    | none => exact ⟨.empty, by simp [h, hcreates]⟩
  refine ⟨curr, ?_⟩
  unfold saveFile
  rw [hcurr]
  exact if_pos rfl

theorem foldl_saveFile_eq {sent : List SentFile} {path : Bytes} (files : MetadataFiles)
    (h : ∀ g ∈ sent, (g.paths backup).1 ≠ path) :
    sent.foldl (saveFile backup w) files path = files path := by
  induction sent generalizing files with
  | nil => rfl
  | cons g sent ih =>
    rw [List.forall_mem_cons] at h
    rw [List.foldl_cons, ih _ h.2, saveFile_of_ne files h.1]

end Streams

section Uncalled

open FileMetadataPipe

variable {w : World} {s : FileMetadataPipe} {c : Call} {n : Nat}

/-- A client that has no callbacks does not come to the states for them. -/
structure Uncalled (s : FileMetadataPipe) : Prop where
  queue : ∀ msg ∈ s.queue, msg.IsFile
  callback : s.metadataState ∈ [.fnSize, .fn, .fnChecksum] → s.callback = false
  state : s.metadataState ∈ [.wait, .fnSize, .fn, .fnChecksum, .common, .os, .osChecksum]

theorem startFile_uncalled (hwait : s.metadataState = .wait) (hqueue : ∀ msg ∈ s.queue, msg.IsFile)
    (publicFn localFn : List UInt8) (folderItems metadataId : Int) :
    Uncalled (s.startFile w publicFn localFn folderItems metadataId none).pipe := by
  unfold startFile
  by_cases hsent : publicFn ∈ s.lastPublicFns
  · simp only [if_pos hsent]
    exact ⟨hqueue, by simp [nop, hwait], by simp [nop, hwait]⟩
  · simp only [if_neg hsent]
    cases w.fileType localFn with
    | none => exact ⟨hqueue, by simp [nop, hwait], by simp [nop, hwait]⟩
    | some kind => exact ⟨hqueue, fun _ => rfl, by simp⟩

theorem sendOs_uncalled (hsound : Sound s) (h : Uncalled s) (hstate : s.metadataState = .os)
    (hn : 0 < n) : Uncalled (s.sendOs w n).pipe := by
  have hframe := (@transmitCurrMetadata_transmits w s n hsound hstate hn).frame
  have hqueue : (s.transmitCurrMetadata w n).pipe.queue = s.queue := by rw [hframe]
  have hsame : (s.transmitCurrMetadata w n).pipe.metadataState = .os := by rw [hframe, hstate]
  have huncalled : ∀ t : FileMetadataPipe, t.queue = s.queue →
      t.metadataState = .os ∨ t.metadataState = .osChecksum → Uncalled t := by
    rintro t hqueue (hos | hos)
    · exact ⟨hqueue ▸ h.queue, by simp [hos], by simp [hos]⟩
    · exact ⟨hqueue ▸ h.queue, by simp [hos], by simp [hos]⟩
  simp only [sendOs]
  split
  · split
    · exact huncalled _ hqueue (.inl hsame)
    · exact huncalled _ hqueue (.inl hsame)
  · split
    · exact huncalled _ hqueue (.inr rfl)
    · exact huncalled _ hqueue (.inr rfl)

theorem call_uncalled (hsound : Sound s) (h : Uncalled s) (hn : 0 < n)
    (hcall : s.readStdoutIntoBuffer w n = some c) :
    Uncalled c.pipe := by
  have hstate := h.state
  simp only [List.mem_cons, List.not_mem_nil, or_false] at hstate
  obtain hstate | hstate | hstate | hstate | hstate | hstate | hstate := hstate
  · cases hqueue : s.queue with
    | nil =>
      unfold readStdoutIntoBuffer at hcall
      simp [hstate, hqueue] at hcall
    | cons msg queue =>
      have hfiles := h.queue
      rw [hqueue, List.forall_mem_cons] at hfiles
      rw [read_message hstate hqueue, Option.some.injEq] at hcall
      subst hcall
      cases msg with
      | sendFile publicFn localFn folderItems metadataId callback =>
        cases callback with
        | none =>
          exact @startFile_uncalled w { s with queue } hstate hfiles.2 publicFn localFn
            folderItems metadataId
        | some getMetadata => exact hfiles.1.elim
      | sendRaw publicFn rawMetadata => exact hfiles.1.elim
      | sendRawFiledata publicFn transmitFile => exact hfiles.1.elim
  · have hcallback := h.callback (by simp [hstate])
    simp only [readStdoutIntoBuffer, hstate, Option.some.injEq] at hcall
    subst hcall
    simp only [sendFnSize]
    split
    · exact ⟨h.queue, fun _ => hcallback, by simp⟩
    · exact ⟨h.queue, h.callback, h.state⟩
  · have hcallback := h.callback (by simp [hstate])
    simp only [readStdoutIntoBuffer, hstate, Option.some.injEq] at hcall
    subst hcall
    simp only [sendFn]
    split
    · exact ⟨h.queue, fun _ => hcallback, by simp⟩
    · exact ⟨h.queue, h.callback, h.state⟩
  · have hcallback := h.callback (by simp [hstate])
    simp only [readStdoutIntoBuffer, hstate, Option.some.injEq] at hcall
    subst hcall
    simp only [sendChecksum]
    split
    · simp only [fnDone, hcallback, if_true]
      exact ⟨h.queue, fun _ => rfl, by simp⟩
    · exact ⟨h.queue, h.callback, h.state⟩
  · simp only [readStdoutIntoBuffer, hstate, Option.some.injEq] at hcall
    subst hcall
    simp only [sendCommon, sendBuffer]
    split
    · split
      · split
        · exact ⟨h.queue, by simp, by simp⟩
        · exact ⟨h.queue, h.callback, h.state⟩
      · exact ⟨h.queue, h.callback, h.state⟩
    · split
      · exact ⟨h.queue, by simp, by simp⟩
      · exact ⟨h.queue, h.callback, h.state⟩
  · simp only [readStdoutIntoBuffer, hstate, Option.some.injEq] at hcall
    subst hcall
    exact sendOs_uncalled hsound h hstate hn
  · simp only [readStdoutIntoBuffer, hstate, Option.some.injEq] at hcall
    subst hcall
    simp only [sendChecksum, toWait]
    split
    · exact ⟨h.queue, by simp, by simp⟩
    · exact ⟨h.queue, h.callback, h.state⟩

theorem calls_uncalled {avail : List Nat} (hsound : Sound s) (h : Uncalled s)
    (hpos : ∀ n ∈ avail, 0 < n) {visited : List FileMetadataPipe} {out : List UInt8}
    {t : FileMetadataPipe} (hrun : calls w s avail = some (visited, out, t)) :
    ∀ u ∈ visited, ¬ Misfit u := by
  induction avail generalizing s visited out with
  | nil =>
    cases hrun
    simp
  | cons n avail ih =>
    obtain ⟨c, visited, out, hcall, hmore, hrest, rfl, rfl⟩ := calls_cons hrun
    rw [List.forall_mem_cons] at hpos ⊢
    refine ⟨?_, ih (call_sound hsound hpos.1 hcall hmore)
      (call_uncalled hsound h hpos.1 hcall) hpos.2 hrest⟩
    rintro ⟨hfile, -⟩
    exact absurd h.state (by simp [hfile])

theorem files_stream {queue : List Message} (hfiles : ∀ msg ∈ queue, msg.IsFile)
    {avail : List Nat} (hpos : ∀ n ∈ avail, 0 < n) {visited : List FileMetadataPipe}
    {out : List UInt8} {t : FileMetadataPipe}
    (hrun : calls w (start queue) avail = some (visited, out, t)) (hend : AtEnd t) :
    out = streamOf w [] queue :=
  (calls_stream hpos hrun hend).mpr (calls_uncalled (start_sound queue)
    ⟨hfiles, by simp [start], by simp [start]⟩ hpos hrun)

/-- The stream of files, sent with buffers of any sizes. If all of them are readable, the metadata
of each one that is in the backup is saved as it was read. Behind a file of which the stat record
cannot be had the server stops with an error. -/
theorem stream_saved (w : World) (backup : Backup) (queue : List Message)
    (hfiles : ∀ msg ∈ queue, msg.IsFile) (hfits : ∀ msg ∈ queue, msg.Fits w)
    (hcreates : ∀ path, backup.creates path = true) (avail : Nat → Nat) (hpos : ∀ i, 0 < avail i)
    (files : MetadataFiles) :
    ∃ k visited out t, calls w (start queue) ((List.range k).map avail) = some (visited, out, t) ∧
      AtEnd t ∧
      ((∀ f ∈ sentFiles w [] queue, f.Readable w) →
        ∃ files', Applies backup out files (true, files') ∧
          ∀ before f after, sentFiles w [] queue = before ++ f :: after →
            backup.fileType (f.paths backup).2 ≠ none →
            (∀ g ∈ after, (g.paths backup).1 ≠ (f.paths backup).1) →
            ∃ curr : FileMetadata, files' (f.paths backup).1 =
              some { common := curr.with (f.common w), os := osSaved w f.localFn }) ∧
      (∀ before f after, sentFiles w [] queue = before ++ f :: after →
        (∀ g ∈ before, g.Readable w) → f.publicFn ≠ [] → f.publicFn.length + 1 < 2 ^ 32 →
        statRecord w f.localFn = none → ∃ files', Applies backup out files (false, files')) := by
  obtain ⟨k, visited, out, t, hrun, hend⟩ := start_end hfits hpos
  have hstream := files_stream hfiles (pos_of_mem_range hpos k) hrun hend
  refine ⟨k, visited, out, t, hrun, hend, fun hreadable => ?_, ?_⟩
  · refine ⟨_, hstream ▸ applies_readable hfiles hfits hcreates [] hreadable files, ?_⟩
    intro before f after hsplit hexists hlast
    rw [hsplit, List.foldl_append, List.foldl_cons, foldl_saveFile_eq _ hlast]
    exact saveFile_self hcreates _ hexists
  · intro before f after hsplit hbefore hne hlt hstat
    obtain ⟨files', hends⟩ := applies_unreadable hfiles hfits hcreates [] hsplit hbefore hne hlt
      hstat files
    exact ⟨files', hstream ▸ hends⟩

def plainBackup : Backup where
  filepathCorrections := fun _ => none
  fileType := fun _ => some .file
  creates := fun _ => true
  applyWindowsMetadata := fun _ => none
  applyRawFile := fun _ _ => none

def plainFile : Message := .sendFile [97] [97] 0 0 none

theorem plainFile_fits : plainFile.Fits plainWorld := by
  change (commonRecord plainWorld [97] 0 0).length + 2 * 4 < metadataBufferSize
  decide

theorem plainFile_readable : ∀ f ∈ sentFiles plainWorld [] [plainFile], f.Readable plainWorld := by
  refine List.forall_mem_singleton.mpr ⟨by decide, by decide, by decide, [], ?_⟩
  exact ⟨by decide, by decide, by simp, by simp⟩

theorem stream_saved_plainFile : ∃ k visited out t,
    calls plainWorld (start [plainFile]) ((List.range k).map fun _ => 100) =
      some (visited, out, t) ∧ AtEnd t ∧
    ∃ files', Applies plainBackup out (fun _ => none) (true, files') := by
  obtain ⟨k, visited, out, t, hrun, hend, hsaved, -⟩ :=
    stream_saved plainWorld plainBackup [plainFile] (List.forall_mem_singleton.mpr trivial)
      (List.forall_mem_singleton.mpr plainFile_fits) (fun _ => rfl) (fun _ => 100)
      (fun _ => by decide) fun _ => none
  obtain ⟨files', happlies, -⟩ := hsaved plainFile_readable
  exact ⟨k, visited, out, t, hrun, hend, files', happlies⟩

def brokenWorld : World where
  __ := plainWorld
  lstat := fun fn => if fn = [98] then none else plainWorld.lstat fn

def brokenFile : Message := .sendFile [98] [98] 0 0 none

/-- Behind a file that cannot be read the metadata of a plain file is not applied. -/
theorem brokenFile_stops : ¬ ∀ (w : World) (backup : Backup) (queue : List Message)
    (avail : List Nat), (∀ msg ∈ queue, msg.IsFile) → (∀ msg ∈ queue, msg.Fits w) →
      (∀ path, backup.creates path = true) → (∀ n ∈ avail, 0 < n) →
        ∀ visited out t, calls w (start queue) avail = some (visited, out, t) → AtEnd t →
          ∀ files, ∃ files', Applies backup out files (true, files') := by
  intro hall
  have hfiles : ∀ msg ∈ [brokenFile, plainFile], msg.IsFile := by
    simp [brokenFile, plainFile, Message.IsFile]
  have hfits : ∀ msg ∈ [brokenFile, plainFile], msg.Fits brokenWorld := by
    rw [List.forall_mem_cons, List.forall_mem_singleton]
    constructor
    · change (commonRecord brokenWorld [98] 0 0).length + 2 * 4 < metadataBufferSize
      decide
    · change (commonRecord brokenWorld [97] 0 0).length + 2 * 4 < metadataBufferSize
      decide
  obtain ⟨k, visited, out, t, hrun, hend⟩ :=
    @start_end brokenWorld _ hfits (fun _ => 100) fun _ => by decide
  have hpos := @pos_of_mem_range (fun _ => 100) (fun _ => by decide) k
  have hstream := files_stream hfiles hpos hrun hend
  obtain ⟨files', happlies⟩ := hall brokenWorld plainBackup _ _ hfiles hfits (fun _ => rfl) hpos
    visited out t hrun hend fun _ => none
  obtain ⟨files'', hstops⟩ := @applies_unreadable brokenWorld plainBackup _ hfiles hfits
    (fun _ => rfl) [] [] _ ⟨.file, [98], [98], 0, 0⟩ rfl (by simp) (by decide) (by decide)
    (by decide) fun _ => none
  rw [← hstream] at hstops
  cases happlies.unique hstops

end Uncalled

end Metadata
end UrBackup
