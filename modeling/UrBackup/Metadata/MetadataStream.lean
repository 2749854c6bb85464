import Mathlib
import UrBackup.Metadata.FileMetadataPipe

/-! The metadata stream as a whole, and what of it is left in each state of the client. -/
namespace UrBackup
namespace Metadata

open ByteOrder Adler32 FileMetadataPipe

section Stream

def checksumBytes (adler : UInt32) : List UInt8 := littleEndian 4 adler.toNat

def sumFrom (adler : UInt32) (part : List UInt8) : List UInt8 :=
  part ++ checksumBytes (urbAdler32 adler (some part))

def summed (part : List UInt8) : List UInt8 := sumFrom (urbAdler32 0 none) part

variable (w : World)

def namePart (fn : List UInt8) : List UInt8 := summed (littleEndian 4 fn.length ++ fn)

def commonPart (localFn : List UInt8) (folderItems metadataId : Int) : List UInt8 :=
  summed (addString (commonRecord w localFn folderItems metadataId))

def attributes (localFn : List UInt8) (keys : List (List UInt8)) : List UInt8 :=
  keys.flatMap fun key => key ++ getXattr w localFn key

/-- The attributes behind their number, or nothing if they cannot be listed. -/
def attributeData (localFn : List UInt8) : List UInt8 :=
  match getXattrKeys w localFn with
  | none => []
  | some keys => littleEndian 8 keys.length ++ attributes w localFn keys

def osData (localFn : List UInt8) : List UInt8 :=
  match statRecord w localFn with
  | none => []
  | some data => addString data ++ attributeData w localFn

def paddedTo (n : Nat) (content : List UInt8) : List UInt8 :=
  content.take n ++ List.replicate (n - content.length) 0

def fileBytes (kind : FileKind) (publicFn localFn : List UInt8) (folderItems metadataId : Int) :
    Option (List UInt8 → Option CallbackMetadata) → List UInt8
  | none => idMetadataV1 :: (namePart (kind.char :: publicFn) ++
      (commonPart w localFn folderItems metadataId ++ summed (osData w localFn)))
  | some getMetadata =>
    match getMetadata (kind.char :: publicFn) with
    | none => [idMetadataNop]
    | some m => (if m.version ≠ 0 then m.version else idMetadataV1) ::
        (namePart (kind.char :: m.origPath) ++ summed (paddedTo m.size m.content))

/-- The stream of messages, behind those with the names that were sent last. -/
def streamOf : List (List UInt8) → List Message → List UInt8
  | _, [] => []
  | fns, .sendFile publicFn localFn folderItems metadataId callback :: queue =>
    if publicFn ∈ fns then idMetadataNop :: streamOf fns queue
    else
      match w.fileType localFn with
      | none => idMetadataNop :: streamOf (pushPublicFn publicFn fns) queue
      | some kind => fileBytes w kind publicFn localFn folderItems metadataId callback ++
          streamOf (pushPublicFn publicFn fns) queue
  | fns, .sendRaw _ rawMetadata :: queue => rawMetadata ++ streamOf fns queue
  | fns, .sendRawFiledata publicFn transmitFile :: queue =>
    idRawFile :: (namePart publicFn ++ (littleEndian 8 transmitFile.length ++
      (transmitFile ++ w.sha512 transmitFile)) ++ streamOf fns queue)

end Stream

section Emit

theorem emit_append (part : List UInt8) (off n : Nat) :
    emit part off n ++ part.drop (off + (emit part off n).length) = part.drop off := by
  have hdrop : part.drop (off + (emit part off n).length) =
      (part.drop off).drop ((part.drop off).take n).length := by
    rw [List.drop_drop, emit]
  rw [hdrop, emit, List.length_take]
  by_cases hn : n ≤ (part.drop off).length
  · rw [Nat.min_eq_left hn, List.take_append_drop]
  · rw [Nat.min_eq_right (by omega), List.drop_length, List.take_of_length_le (by omega),
      List.append_nil]

theorem length_emit_le (part : List UInt8) (off n : Nat) :
    (emit part off n).length ≤ part.length - off := by
  rw [emit, List.length_take, List.length_drop]
  exact Nat.min_le_right _ _

theorem emit_ne_nil {part : List UInt8} {off n : Nat} (hoff : off < part.length) (hn : 0 < n) :
    emit part off n ≠ [] := by
  apply List.ne_nil_of_length_pos
  rw [emit, List.length_take, List.length_drop]
  exact Nat.lt_min.mpr ⟨hn, Nat.sub_pos_of_lt hoff⟩

theorem sumFrom_append {adler : UInt32} (h : Reduced (adlerSums adler)) (part rest : List UInt8) :
    sumFrom adler (part ++ rest) = part ++ sumFrom (urbAdler32 adler (some part)) rest := by
  simp only [sumFrom, urbAdler32_append h, List.append_assoc]

theorem urbAdler32_nil {adler : UInt32} (h : Reduced (adlerSums adler)) :
    urbAdler32 adler (some []) = adler := by
  apply adlerSums_injective
  rw [adlerSums_urbAdler32 h]
  exact Prod.ext (Nat.mod_eq_of_lt h.1) (Nat.mod_eq_of_lt h.2)

theorem sumFrom_nil {adler : UInt32} (h : Reduced (adlerSums adler)) :
    sumFrom adler [] = checksumBytes adler := by
  rw [sumFrom, urbAdler32_nil h, List.nil_append]

theorem reduced_init : Reduced (adlerSums (urbAdler32 0 none)) := ⟨by decide, by decide⟩

theorem sumFrom_emit {adler : UInt32} (h : Reduced (adlerSums adler)) (part rest : List UInt8)
    (off n : Nat) :
    emit part off n ++ sumFrom (urbAdler32 adler (some (emit part off n)))
        (part.drop (off + (emit part off n).length) ++ rest) =
      sumFrom adler (part.drop off ++ rest) := by
  rw [← sumFrom_append h, ← List.append_assoc, emit_append]

end Emit

section Rest

variable (w : World) (s : FileMetadataPipe)

def body : List UInt8 :=
  if s.callback = false then
    commonPart w s.localFn s.folderItems s.metadataId ++ summed (osData w s.localFn)
  else summed (s.readMetadata s.metadataFileSize)

def rawBody : List UInt8 :=
  littleEndian 8 s.transmitFile.length ++ (s.transmitFile ++ w.sha512 s.transmitFile)

def laterAttributes : List UInt8 := attributes w s.localFn (s.eattrKeys.drop (s.eattrIdx + 1))

def osRest : List UInt8 :=
  match s.backupState with
  | .statInit => osData w s.localFn
  | .stat => s.metadataBuffer.drop s.metadataBufferOff ++ attributeData w s.localFn
  | .eAttrInit => attributeData w s.localFn
  | .eAttr => s.metadataBuffer.drop s.metadataBufferOff ++ attributes w s.localFn s.eattrKeys
  | .eAttrValsKey => (s.eattrKeys.getD s.eattrIdx []).drop s.eattrKeyOff ++
      (getXattr w s.localFn (s.eattrKeys.getD s.eattrIdx []) ++ laterAttributes w s)
  | .eAttrValsVal => s.eattrVal.drop s.eattrValOff ++ laterAttributes w s

def current : List UInt8 :=
  match s.metadataState with
  | .wait => []
  | .fnSize => sumFrom s.currChecksum
      ((littleEndian 4 s.publicFn.length).drop s.fnOff ++ s.publicFn) ++ body w s
  | .fn => sumFrom s.currChecksum (s.publicFn.drop s.fnOff) ++ body w s
  | .fnChecksum => (checksumBytes s.currChecksum).drop s.fnOff ++ body w s
  | .common => (if s.metadataBuffer.length = 0 then
      commonPart w s.localFn s.folderItems s.metadataId
      else s.metadataBuffer.drop s.metadataBufferOff) ++ summed (osData w s.localFn)
  | .os => sumFrom s.currChecksum (osRest w s)
  | .osChecksum => (checksumBytes s.currChecksum).drop s.fnOff
  | .file => sumFrom s.currChecksum (s.readMetadata s.metadataFileSize)
  | .fileChecksum => (checksumBytes s.currChecksum).drop s.fnOff
  | .raw => s.rawMetadata.drop s.metadataBufferOff
  | .rawFileFnSize => sumFrom s.currChecksum
      ((littleEndian 4 s.publicFn.length).drop s.fnOff ++ s.publicFn) ++ rawBody w s
  | .rawFileFn => sumFrom s.currChecksum (s.publicFn.drop s.fnOff) ++ rawBody w s
  | .rawFileFnChecksum => (checksumBytes s.currChecksum).drop s.fnOff ++ rawBody w s
  | .rawFileDataSize => s.metadataBuffer.drop s.metadataBufferOff ++
      (s.transmitFile ++ w.sha512 s.transmitFile)
  | .rawFileData => s.transmitFile.drop s.metadataFileOff ++ w.sha512 s.transmitFile
  | .rawFileDataChecksum => s.metadataBuffer.drop s.metadataBufferOff

def rest : List UInt8 := current w s ++ streamOf w s.lastPublicFns s.queue

end Rest

/-- The counters of a state fit its parts. -/
structure Sound (s : FileMetadataPipe) : Prop where
  reduced : Reduced (adlerSums s.currChecksum)
  statInit : s.metadataState ≠ .os → s.backupState = .statInit
  fnOff_le : s.fnOff ≤ (if s.metadataState = .fn ∨ s.metadataState = .rawFileFn then
    s.publicFn.length else 4)
  common : s.metadataState = .common → s.metadataBuffer.length = 0 →
    s.currChecksum = urbAdler32 0 none ∧ s.metadataBufferOff = 0
  keyOff_lt : s.metadataState = .os → s.backupState = .eAttrValsKey →
    s.eattrIdx < s.eattrKeys.length ∧ s.eattrKeyOff < (s.eattrKeys.getD s.eattrIdx []).length
  valOff_lt : s.metadataState = .os → s.backupState = .eAttrValsVal →
    s.eattrIdx < s.eattrKeys.length ∧ s.eattrValOff < s.eattrVal.length
  keys_ne : ∀ key ∈ s.eattrKeys, key ≠ []
  fileSize : s.metadataState = .rawFileDataSize ∨ s.metadataState = .rawFileData →
    s.metadataFileSize = s.transmitFile.length
  fileOff : s.metadataState = .rawFileDataSize → s.metadataFileOff = 0
  transmitted : s.metadataState = .rawFileData → s.metadataFileOff ≤ s.transmitFile.length ∧
    s.transmitted = s.transmitFile.take s.metadataFileOff

def stateRank : MetadataState → Nat
  | .fnSize => 15
  | .fn => 14
  | .fnChecksum => 13
  | .common => 12
  | .os => 11
  | .osChecksum => 10
  | .file => 9
  | .fileChecksum => 8
  | .rawFileFnSize => 7
  | .rawFileFn => 6
  | .rawFileFnChecksum => 5
  | .rawFileDataSize => 4
  | .rawFileData => 3
  | .rawFileDataChecksum => 2
  | .raw => 1
  | .wait => 0

def backupRank : BackupState → Nat
  | .statInit => 4
  | .stat => 3
  | .eAttrInit => 2
  | .eAttr => 1
  | .eAttrValsKey | .eAttrValsVal => 0

def rank (s : FileMetadataPipe) : Nat := 8 * stateRank s.metadataState + backupRank s.backupState

/-- A call goes on in the messages. -/
structure Goes (s : FileMetadataPipe) (c : Call) : Prop where
  sound : Sound c.pipe
  queue : c.pipe.queue = s.queue
  forward : rank c.pipe < rank s ∨ rank c.pipe = rank s ∧ c.out ≠ []

/-- A call keeps to the stream: what it gives is what the stream has next. -/
structure Keeps (w : World) (s : FileMetadataPipe) (c : Call) : Prop extends Goes s c where
  out_append : c.out ++ rest w c.pipe = rest w s

end Metadata
end UrBackup
