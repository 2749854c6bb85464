import Mathlib.Data.List.Nodup
import Mathlib.Data.List.Perm.Basic
import Mathlib.Data.List.TakeWhile
import Mathlib.Tactic.Ring
import UrBackup.FSImage.CompressedFile

/-! What a compressed file has of each of its blocks: in a buffer, or in the table of blocks. -/
namespace UrBackup

open ByteOrder

namespace BlockCodec

/-- `mz_uncompress` inverts `mz_compress`, and the size of a compressed block has 32 bits. -/
structure Inverts (c : BlockCodec) (blocksize : Nat) : Prop where
  uncompress : ∀ block : List UInt8, block.length = blocksize →
    c.uncompress (c.compress block) blocksize = some block
  bound : ∀ block : List UInt8, block.length = blocksize → (c.compress block).length < 2 ^ 32

end BlockCodec

namespace CompressedFile

/-- What the table has of a block. An entry 0 is none: it was skipped when the table grew. -/
def tableContent (c : BlockCodec) (s : CompressedFile) (k : Nat) : Option ByteStore :=
  match s.blockOffsets[k]? with
  | none => none
  | some blockOffset =>
    if blockOffset = 0 then none
    else some fun i => (s.readBlock c (k * s.blocksize)).2.getD i 0

def content (c : BlockCodec) (s : CompressedFile) (k : Nat) : Option ByteStore :=
  match s.cached (k * s.blocksize) with
  | some item => some item.buffer
  | none => s.tableContent c k

/-- A block is in the file with its header. -/
structure StoredAt (c : BlockCodec) (blocksize : Nat) (file : StoredFile) (offset : Nat)
    (buffer : ByteStore) : Prop where
  header : headerSize ≤ offset
  room : offset + 8 + (c.compress (buffer.read 0 blocksize)).length ≤ file.size
  sizes : file.read offset 8 =
    littleEndian 4 (c.compress (buffer.read 0 blocksize)).length ++ littleEndian 4 modeZlib
  data : file.read (offset + 8) (c.compress (buffer.read 0 blocksize)).length =
    c.compress (buffer.read 0 blocksize)

/-- An entry of the table: a hole, an entry that was skipped, or the offset of a block. -/
def EntryOk (c : BlockCodec) (s : CompressedFile) (k : Nat) (blockOffset : Int) : Prop :=
  blockOffset = -1 ∨ (blockOffset = 0 ∧ (k + 1) * s.blocksize ≤ s.filesize) ∨
    ∃ offset buffer, blockOffset = (offset : Nat) ∧
      StoredAt c s.blocksize s.uncompressedFile offset buffer

structure Shape (c : BlockCodec) (s : CompressedFile) : Prop where
  aligned : ∀ item ∈ s.lruItems, ∃ k, item.offset = k * s.blocksize ∧ k * s.blocksize ≤ s.filesize
  distinct : (s.lruItems.map SCacheItem.offset).Nodup
  nbuffers : 0 < s.nbuffers
  room : s.lruItems.length ≤ s.nbuffers
  entries : ∀ k blockOffset, s.blockOffsets[k]? = some blockOffset →
    k * s.blocksize ≤ s.filesize ∧ s.EntryOk c k blockOffset
  header : headerSize ≤ s.uncompressedFile.size
  readable : ∀ i, s.unreadable i = false
  error : s.error = true → s.readOnly = true ∧ s.blockOffsets = []
  top : s.filesize ≤ s.blockOffsets.length * s.blocksize ∨
    ∃ item ∈ s.lruItems, s.filesize ≤ item.offset + s.blocksize
  clean : s.readOnly = true → ∀ item ∈ s.lruItems, ∀ k, item.offset = k * s.blocksize →
    ∃ f, s.tableContent c k = some f ∧ ∀ i < s.blocksize, f i = item.buffer i

section Items

variable {c : BlockCodec} {s : CompressedFile} {item : SCacheItem} {k p : Nat}

theorem holds_iff (haligned : item.offset = k * s.blocksize) :
    s.holds p item = true ↔ p / s.blocksize = k := by
  have hpos := s.blocksize_pos
  rw [holds, decide_eq_true_eq, haligned, Nat.div_eq_iff hpos]
  constructor
  · rintro ⟨hle, hlt⟩
    omega
  · rintro ⟨hle, hlt⟩
    omega

theorem mem_of_cached (hs : s.Shape c) (h : s.cached p = some item) :
    item ∈ s.lruItems ∧ item.offset = p / s.blocksize * s.blocksize := by
  have hmem := List.mem_reverse.mp (List.mem_of_find?_eq_some h)
  refine ⟨hmem, ?_⟩
  obtain ⟨k, hk, -⟩ := hs.aligned item hmem
  have hholds := List.find?_some h
  rw [holds_iff hk] at hholds
  rw [hholds, hk]

theorem offset_ne_of_cached_eq_none (h : s.cached p = none) (hmem : item ∈ s.lruItems) :
    item.offset ≠ p / s.blocksize * s.blocksize := by
  intro haligned
  exact List.find?_eq_none.mp h item (List.mem_reverse.mpr hmem) ((holds_iff haligned).mpr rfl)

theorem cached_of_mem (hs : s.Shape c) (hmem : item ∈ s.lruItems)
    (haligned : item.offset = p / s.blocksize * s.blocksize) : s.cached p = some item := by
  cases hcached : s.cached p with
  | none => exact absurd haligned (offset_ne_of_cached_eq_none hcached hmem)
  | some item' =>
    obtain ⟨hmem', haligned'⟩ := mem_of_cached hs hcached
    rw [List.inj_on_of_nodup_map hs.distinct hmem' hmem (haligned'.trans haligned.symm)]

theorem cached_eq_none_of_offset_ne (hs : s.Shape c)
    (h : ∀ item ∈ s.lruItems, item.offset ≠ p / s.blocksize * s.blocksize) : s.cached p = none := by
  cases hcached : s.cached p with
  | none => rfl
  | some item =>
    obtain ⟨hmem, haligned⟩ := mem_of_cached hs hcached
    exact absurd haligned (h item hmem)

theorem others_perm (h : s.cached p = some item) : (item :: s.others p).Perm s.lruItems := by
  obtain ⟨hholds, before, after, hsplit, hbefore⟩ := List.find?_eq_some_iff_append.mp h
  have herase : s.lruItems.reverse.eraseP (s.holds p) = before ++ after := by
    rw [hsplit, List.eraseP_append_right, List.eraseP_cons_of_pos hholds]
    exact fun item hitem => by simpa using hbefore item hitem
  unfold others
  rw [herase]
  have hperm : (item :: (before ++ after)).Perm s.lruItems.reverse := by
    rw [hsplit]
    exact List.perm_middle.symm
  exact ((List.reverse_perm _).cons item).trans (hperm.trans (List.reverse_perm _))

theorem error_of_not_readOnly (hs : s.Shape c) (hwrite : s.readOnly = false) : s.error = false := by
  cases hcases : s.error with
  | false => rfl
  | true =>
    rw [(hs.error hcases).1] at hwrite
    cases hwrite

theorem error_of_getElem? {blockOffset : Int} (hs : s.Shape c)
    (hentry : s.blockOffsets[k]? = some blockOffset) : s.error = false := by
  cases hcases : s.error with
  | false => rfl
  | true =>
    rw [(hs.error hcases).2] at hentry
    cases hentry

theorem content_of_mem (hs : s.Shape c) (hmem : item ∈ s.lruItems)
    (haligned : item.offset = k * s.blocksize) : s.content c k = some item.buffer := by
  have hcached := cached_of_mem (p := k * s.blocksize) hs hmem
    (by rw [haligned, Nat.mul_div_cancel k s.blocksize_pos])
  rw [content, hcached]

theorem content_of_not_mem (hs : s.Shape c)
    (h : ∀ item ∈ s.lruItems, item.offset ≠ k * s.blocksize) :
    s.content c k = s.tableContent c k := by
  have hcached := cached_eq_none_of_offset_ne (p := k * s.blocksize) hs
    (by rw [Nat.mul_div_cancel k s.blocksize_pos]; exact h)
  rw [content, hcached]

end Items

section Stored

variable {c : BlockCodec} {s : CompressedFile} {blocksize offset k p : Nat} {file : StoredFile}
  {buffer : ByteStore}

theorem StoredAt.write {pos : Nat} {data : List UInt8} (h : StoredAt c blocksize file offset buffer)
    (hpos : file.size ≤ pos ∨ pos + data.length ≤ headerSize) :
    StoredAt c blocksize (file.write pos data) offset buffer := by
  have hsize := StoredFile.size_le_write file pos data
  have hheader := h.header
  have hroom := h.room
  refine ⟨hheader, by omega, ?_, ?_⟩
  · rw [StoredFile.read_write_of_disjoint (by omega) (by omega), h.sizes]
  · rw [StoredFile.read_write_of_disjoint (by omega) (by omega), h.data]

theorem StoredAt.append {data data' : List UInt8} (h : StoredAt c blocksize file offset buffer)
    (hdata : data ≠ []) :
    StoredAt c blocksize ((file.write file.size data).write (file.size + data.length) data') offset
      buffer := by
  have hfirst : StoredAt c blocksize (file.write file.size data) offset buffer :=
    h.write (.inl (Nat.le_refl _))
  refine hfirst.write (.inl ?_)
  unfold StoredFile.write
  dsimp only
  rw [if_neg hdata, Nat.max_eq_right (Nat.le_add_right _ _)]

theorem readFromFile_eq (hreadable : ∀ i, s.unreadable i = false) (pos n : Nat) :
    s.readFromFile pos n = s.uncompressedFile.read pos n := by
  unfold readFromFile
  dsimp only
  rw [List.takeWhile_eq_self_iff.mpr (fun i _ => by rw [hreadable i]; rfl), List.length_range',
    List.take_length]

theorem readBlock_stored (hc : c.Inverts s.blocksize) (hreadable : ∀ i, s.unreadable i = false)
    (herror : s.error = false)
    (hentry : s.blockOffsets[p / s.blocksize]? = some (offset : Int))
    (h : StoredAt c s.blocksize s.uncompressedFile offset buffer) :
    s.readBlock c p = (true, buffer.read 0 s.blocksize) := by
  have hlength := ByteStore.read_length buffer 0 s.blocksize
  have hbound := hc.bound _ hlength
  have hentry' : s.blockOffsets.getD (p / s.blocksize) 0 = (offset : Int) := by
    rw [List.getD_eq_getElem?_getD, hentry, Option.getD_some]
  have hhole : ¬ ((offset : Int) = -1) := by omega
  have hseek : ¬ (offset : Int) < 0 := by omega
  have hsizes := h.sizes
  have hsize : ofLittleEndian ((s.uncompressedFile.read offset 8).take 4) =
      (c.compress (buffer.read 0 s.blocksize)).length := by
    rw [hsizes, List.take_left' (littleEndian_length _ _), ofLittleEndian_littleEndian hbound]
  have hmode : ofLittleEndian ((s.uncompressedFile.read offset 8).drop 4) = modeZlib := by
    rw [hsizes, List.drop_left' (littleEndian_length _ _)]
    exact ofLittleEndian_littleEndian (by decide)
  have hheader : (s.uncompressedFile.read offset 8).length = 8 := by
    rw [hsizes, List.length_append, littleEndian_length, littleEndian_length]
  unfold readBlock
  simp only [herror, hentry', hhole, hseek, Int.toNat_natCast, readFromFile_eq hreadable, hheader,
    hsize, hmode, h.data, hc.uncompress _ hlength, hlength]
  simp [modeZlib, modeNone]

theorem readBlock_hole (herror : s.error = false)
    (hentry : s.blockOffsets[p / s.blocksize]? = some (-1)) :
    s.readBlock c p = (true, List.replicate s.blocksize 0) := by
  have hentry' : s.blockOffsets.getD (p / s.blocksize) 0 = -1 := by
    rw [List.getD_eq_getElem?_getD, hentry, Option.getD_some]
  unfold readBlock
  simp only [herror, hentry', Bool.false_eq_true, if_false, if_true]

theorem readBlock_of_tableContent (hc : c.Inverts s.blocksize) (hs : s.Shape c) {f : ByteStore}
    (hcontent : s.tableContent c (p / s.blocksize) = some f) :
    ∃ data, s.readBlock c p = (true, data) ∧ data.length = s.blocksize ∧
      ∀ i, f i = data.getD i 0 := by
  have hdiv : p / s.blocksize * s.blocksize / s.blocksize = p / s.blocksize :=
    Nat.mul_div_cancel _ s.blocksize_pos
  unfold tableContent at hcontent
  cases hentry : s.blockOffsets[p / s.blocksize]? with
  | none =>
    rw [hentry] at hcontent
    cases hcontent
  | some blockOffset =>
    rw [hentry] at hcontent
    simp only at hcontent
    have herror := error_of_getElem? hs hentry
    rcases (hs.entries _ _ hentry).2 with rfl | ⟨rfl, -⟩ | ⟨offset, buffer, rfl, hstored⟩
    · have hread := readBlock_hole (c := c) herror hentry
      have hread' := readBlock_hole (c := c) (p := p / s.blocksize * s.blocksize) herror
        (by rw [hdiv]; exact hentry)
      rw [if_neg (by decide), hread', Option.some.injEq] at hcontent
      exact ⟨_, hread, List.length_replicate, fun i => (congrFun hcontent i).symm⟩
    · rw [if_pos rfl] at hcontent
      cases hcontent
    · have hread := readBlock_stored hc hs.readable herror hentry hstored
      have hread' := readBlock_stored (p := p / s.blocksize * s.blocksize) hc hs.readable herror
        (by rw [hdiv]; exact hentry) hstored
      have hheader := hstored.header
      rw [if_neg (by unfold headerSize at hheader; omega), hread', Option.some.injEq] at hcontent
      exact ⟨_, hread, ByteStore.read_length _ _ _, fun i => (congrFun hcontent i).symm⟩

end Stored

section Table

variable {blockOffsets : List Int} {blockIdx k : Nat}

theorem length_setBlockOffset (blockOffsets : List Int) (blockIdx : Nat) (blockOffset : Int) :
    (setBlockOffset blockOffsets blockIdx blockOffset).length =
      max blockOffsets.length (blockIdx + 1) := by
  simp only [setBlockOffset, List.length_set, List.length_mapIdx, List.length_append,
    List.length_replicate]
  omega

theorem getElem?_setBlockOffset_self (blockOffsets : List Int) (blockIdx : Nat)
    (blockOffset : Int) :
    (setBlockOffset blockOffsets blockIdx blockOffset)[blockIdx]? = some blockOffset := by
  simp only [setBlockOffset]
  rw [List.getElem?_set_self]
  simp only [List.length_mapIdx, List.length_append, List.length_replicate]
  omega

theorem getElem?_setBlockOffset_of_lt (blockOffset : Int) (hne : k ≠ blockIdx) (h : k < blockOffsets.length) :
    (setBlockOffset blockOffsets blockIdx blockOffset)[k]? = blockOffsets[k]? := by
  simp only [setBlockOffset]
  rw [List.getElem?_set_ne (Ne.symm hne), List.getElem?_mapIdx, List.getElem?_append_left h,
    List.getElem?_eq_getElem h, Option.map_some, if_neg (by omega)]

theorem getElem?_setBlockOffset_of_le (blockOffset : Int) (hne : k ≠ blockIdx) (h : blockOffsets.length ≤ k) :
    (setBlockOffset blockOffsets blockIdx blockOffset)[k]? =
      if k < blockIdx then some (if k = blockOffsets.length then 0 else -1) else none := by
  simp only [setBlockOffset]
  rw [List.getElem?_set_ne (Ne.symm hne), List.getElem?_mapIdx, List.getElem?_append_right h,
    List.getElem?_replicate]
  by_cases hlt : k < blockIdx
  · rw [if_pos (by omega), if_pos hlt, Option.map_some]
    by_cases hfirst : k = blockOffsets.length
    · rw [if_neg (by omega), if_pos hfirst]
    · rw [if_pos (by omega), if_neg hfirst]
  · rw [if_neg (by omega), if_neg hlt, Option.map_none]

end Table

/-- What the file has of its blocks stays, and what comes is zero. -/
structure Refines (c : BlockCodec) (s s' : CompressedFile) : Prop where
  blocksize : s'.blocksize = s.blocksize
  kept : ∀ k f, s.content c k = some f →
    ∃ f', s'.content c k = some f' ∧ ∀ i < s.blocksize, f' i = f i
  fresh : ∀ k, s.content c k = none → ∀ f', s'.content c k = some f' → ∀ i < s.blocksize, f' i = 0

section Evict

variable {c : BlockCodec} {s s' s'' : CompressedFile} {item : SCacheItem} {rest : List SCacheItem}
  {k : Nat}

theorem Refines.refl (c : BlockCodec) (s : CompressedFile) : Refines c s s := by
  refine ⟨rfl, fun k f h => ⟨f, h, fun _ _ => rfl⟩, ?_⟩
  intro k hnone f' hsome
  rw [hnone] at hsome
  cases hsome

theorem Refines.trans (h : Refines c s s') (h' : Refines c s' s'') : Refines c s s'' := by
  have hsize := h.blocksize
  refine ⟨h'.blocksize.trans hsize, ?_, ?_⟩
  · intro k f hf
    obtain ⟨f', hf', hsame⟩ := h.kept k f hf
    obtain ⟨f'', hf'', hsame'⟩ := h'.kept k f' hf'
    refine ⟨f'', hf'', ?_⟩
    intro i hi
    rw [hsame' i (by rw [hsize]; exact hi), hsame i hi]
  · intro k hnone f'' hf''
    cases hcontent : s'.content c k with
    | none =>
      rw [← hsize]
      exact h'.fresh k hcontent f'' hf''
    | some f' =>
      obtain ⟨f₃, hf₃, hsame⟩ := h'.kept k f' hcontent
      rw [hf''] at hf₃
      cases hf₃
      intro i hi
      rw [hsame i (by rw [hsize]; exact hi), h.fresh k hnone f' hcontent i hi]

theorem tableContent_stored {offset : Nat} {buffer : ByteStore} (hc : c.Inverts s.blocksize)
    (hreadable : ∀ i, s.unreadable i = false) (herror : s.error = false) (hentry : s.blockOffsets[k]? = some (offset : Int))
    (h : StoredAt c s.blocksize s.uncompressedFile offset buffer) :
    s.tableContent c k = some fun i => (buffer.read 0 s.blocksize).getD i 0 := by
  have hheader := h.header
  have hdiv := Nat.mul_div_cancel k s.blocksize_pos
  unfold tableContent
  rw [hentry]
  simp only
  rw [if_neg (by unfold headerSize at hheader; omega),
    readBlock_stored (p := k * s.blocksize) hc hreadable herror (by rw [hdiv]; exact hentry) h]

theorem tableContent_hole (herror : s.error = false) (hentry : s.blockOffsets[k]? = some (-1)) :
    s.tableContent c k = some fun i => (List.replicate s.blocksize (0 : UInt8)).getD i 0 := by
  have hdiv := Nat.mul_div_cancel k s.blocksize_pos
  unfold tableContent
  rw [hentry]
  simp only
  rw [if_neg (by decide),
    readBlock_hole (p := k * s.blocksize) herror (by rw [hdiv]; exact hentry)]

theorem tableContent_eq_none (h : s.blockOffsets[k]? = none ∨ s.blockOffsets[k]? = some 0) :
    s.tableContent c k = none := by
  unfold tableContent
  rcases h with h | h
  · rw [h]
  · rw [h]
    exact if_pos rfl

theorem tableContent_eq (hc : c.Inverts s.blocksize) (hs : s.Shape c)
    (hsize : s'.blocksize = s.blocksize) (hreadable : s'.unreadable = s.unreadable)
    (herror : s'.error = s.error)
    (hentry : s'.blockOffsets[k]? = s.blockOffsets[k]?)
    (hstored : ∀ offset buffer, StoredAt c s.blocksize s.uncompressedFile offset buffer →
      StoredAt c s.blocksize s'.uncompressedFile offset buffer) :
    s'.tableContent c k = s.tableContent c k := by
  cases hcases : s.blockOffsets[k]? with
  | none =>
    rw [tableContent_eq_none (.inl hcases), tableContent_eq_none (.inl (hentry.trans hcases))]
  | some blockOffset =>
    have hentry' := hentry.trans hcases
    have herror₀ := error_of_getElem? hs hcases
    have herror' := herror.trans herror₀
    rcases (hs.entries k blockOffset hcases).2 with rfl | ⟨rfl, -⟩ | ⟨offset, buffer, rfl, h⟩
    · rw [tableContent_hole herror₀ hcases, tableContent_hole herror' hentry', hsize]
    · rw [tableContent_eq_none (.inr hcases), tableContent_eq_none (.inr hentry')]
    · have h' : StoredAt c s'.blocksize s'.uncompressedFile offset buffer := by
        rw [hsize]
        exact hstored offset buffer h
      rw [tableContent_stored hc hs.readable herror₀ hcases h,
        tableContent_stored (by rw [hsize]; exact hc) (by rw [hreadable]; exact hs.readable)
          herror' hentry' h', hsize]

theorem getD_replicate_zero (n i : Nat) : (List.replicate n (0 : UInt8)).getD i 0 = 0 := by
  rw [List.getD_eq_getElem?_getD, List.getElem?_replicate]
  split <;> rfl

theorem getD_read (buffer : ByteStore) {n i : Nat} (h : i < n) :
    (buffer.read 0 n).getD i 0 = buffer i := by
  have hi : i < (buffer.read 0 n).length := by
    rw [ByteStore.read_length]
    exact h
  rw [List.getD_eq_getElem?_getD, List.getElem?_eq_getElem hi, Option.getD_some,
    ByteStore.getElem_read, Nat.zero_add]

def evictFirst (c : BlockCodec) (s : CompressedFile) (item : SCacheItem) (rest : List SCacheItem) :
    CompressedFile := { s.evictFromLruCache c item with lruItems := rest }

theorem evictFirst_readOnly (h : s.readOnly = true) :
    s.evictFirst c item rest = { s with lruItems := rest } := by
  rw [evictFirst, evictFromLruCache, if_pos h]

theorem evictFirst_eq (h : s.readOnly = false) : s.evictFirst c item rest = { s with
    lruItems := rest
    uncompressedFile := (s.uncompressedFile.write s.uncompressedFile.size
      (littleEndian 4 (c.compress (item.buffer.read 0 s.blocksize)).length ++
        littleEndian 4 modeZlib)).write (s.uncompressedFile.size + 8)
          (c.compress (item.buffer.read 0 s.blocksize))
    blockOffsets := setBlockOffset s.blockOffsets (item.offset / s.blocksize)
      s.uncompressedFile.size } := by
  rw [evictFirst, evictFromLruCache, if_neg (by simp [h])]

theorem tableContent_congr {items : List SCacheItem} :
    tableContent c { s with lruItems := items } k = s.tableContent c k := rfl

theorem lt_of_tableContent {f : ByteStore} (h : s.tableContent c k = some f) :
    k < s.blockOffsets.length := by
  by_contra hge
  rw [tableContent_eq_none (.inl (List.getElem?_eq_none (Nat.not_lt.mp hge)))] at h
  cases h

theorem storedAt_evict {file : StoredFile} {blocksize : Nat} (hheader : headerSize ≤ file.size)
    (buffer : ByteStore) : StoredAt c blocksize
      ((file.write file.size (littleEndian 4 (c.compress (buffer.read 0 blocksize)).length ++
        littleEndian 4 modeZlib)).write (file.size + 8) (c.compress (buffer.read 0 blocksize)))
      file.size buffer := by
  generalize hdata : c.compress (buffer.read 0 blocksize) = data
  generalize hsizes : littleEndian 4 data.length ++ littleEndian 4 modeZlib = sizes
  have hlength : sizes.length = 8 := by
    rw [← hsizes, List.length_append, littleEndian_length, littleEndian_length]
  have hnil : sizes ≠ [] := by
    rintro rfl
    cases hlength
  have hroom := StoredFile.le_size_write file file.size hnil
  rw [hlength] at hroom
  refine ⟨hheader, ?_, ?_, ?_⟩
  · rw [hdata]
    by_cases hempty : data = []
    · subst hempty
      exact Nat.le_trans hroom (StoredFile.size_le_write _ _ _)
    · exact StoredFile.le_size_write _ _ hempty
  · rw [StoredFile.read_write_of_disjoint hroom (.inl (Nat.le_refl _)), hdata, hsizes, ← hlength]
    exact StoredFile.read_write file file.size sizes
  · rw [hdata]
    exact StoredFile.read_write _ _ data

theorem entryOk_evictFirst (hs : s.Shape c) (hitems : s.lruItems = item :: rest)
    (hwrite : s.readOnly = false) {blockOffset : Int}
    (hentry : (s.evictFirst c item rest).blockOffsets[k]? = some blockOffset) :
    k * s.blocksize ≤ s.filesize ∧ (s.evictFirst c item rest).EntryOk c k blockOffset := by
  obtain ⟨idx, halign, hbound⟩ := hs.aligned item (by rw [hitems]; exact List.mem_cons_self)
  have hidx : item.offset / s.blocksize = idx := by
    rw [halign, Nat.mul_div_cancel idx s.blocksize_pos]
  rw [evictFirst_eq hwrite] at hentry ⊢
  simp only [hidx] at hentry
  by_cases hk : k = idx
  · subst hk
    rw [getElem?_setBlockOffset_self, Option.some.injEq] at hentry
    subst hentry
    exact ⟨hbound, .inr (.inr ⟨_, item.buffer, rfl, storedAt_evict hs.header item.buffer⟩)⟩
  · by_cases hlt : k < s.blockOffsets.length
    · rw [getElem?_setBlockOffset_of_lt _ hk hlt] at hentry
      obtain ⟨hle, hok⟩ := hs.entries k blockOffset hentry
      refine ⟨hle, ?_⟩
      rcases hok with hhole | hskip | ⟨offset, buffer, hoffset, hstored⟩
      · exact .inl hhole
      · exact .inr (.inl hskip)
      · exact .inr (.inr ⟨offset, buffer, hoffset, hstored.append (by simp [littleEndian])⟩)
    · rw [getElem?_setBlockOffset_of_le _ hk (by omega)] at hentry
      split at hentry
      · rename_i hltIdx
        have hnext : (k + 1) * s.blocksize ≤ s.filesize :=
          Nat.le_trans (Nat.mul_le_mul_right _ hltIdx) hbound
        have hle : k * s.blocksize ≤ s.filesize :=
          Nat.le_trans (Nat.mul_le_mul_right _ (Nat.le_of_lt hltIdx)) hbound
        refine ⟨hle, ?_⟩
        rw [Option.some.injEq] at hentry
        split at hentry
        · exact .inr (.inl ⟨hentry.symm, hnext⟩)
        · exact .inl hentry.symm
      · cases hentry

theorem Shape.evictFirst (hs : s.Shape c) (hitems : s.lruItems = item :: rest) :
    (s.evictFirst c item rest).Shape c := by
  have hsub : ∀ item' ∈ rest, item' ∈ s.lruItems := by
    rw [hitems]
    exact fun item' h => List.mem_cons_of_mem _ h
  have hdistinct : (rest.map SCacheItem.offset).Nodup := by
    have h := hs.distinct
    rw [hitems, List.map_cons] at h
    exact (List.nodup_cons.mp h).2
  have hroom : rest.length ≤ s.nbuffers := by
    have h := hs.room
    rw [hitems, List.length_cons] at h
    omega
  cases hwrite : s.readOnly with
  | true =>
    rw [evictFirst_readOnly hwrite]
    refine ⟨fun i h => hs.aligned i (hsub i h), hdistinct, hs.nbuffers, hroom, hs.entries,
      hs.header, hs.readable, hs.error, .inl ?_, fun h i hi => hs.clean h i (hsub i hi)⟩
    rcases hs.top with htop | ⟨last, hlast, htop⟩
    · exact htop
    · obtain ⟨idx, halign, -⟩ := hs.aligned last hlast
      obtain ⟨f, hf, -⟩ := hs.clean hwrite last hlast idx halign
      have hlt := lt_of_tableContent hf
      rw [halign] at htop
      calc s.filesize ≤ (idx + 1) * s.blocksize := by rw [Nat.add_mul, Nat.one_mul]; exact htop
        _ ≤ s.blockOffsets.length * s.blocksize := Nat.mul_le_mul_right _ hlt
  | false =>
    have hentries := fun k blockOffset => @entryOk_evictFirst c s item rest k hs hitems hwrite
      blockOffset
    have herror := error_of_not_readOnly hs hwrite
    obtain ⟨idx, halign, -⟩ := hs.aligned item (by rw [hitems]; exact List.mem_cons_self)
    have hidx : item.offset / s.blocksize = idx := by
      rw [halign, Nat.mul_div_cancel idx s.blocksize_pos]
    rw [evictFirst_eq hwrite] at hentries ⊢
    refine ⟨fun i h => hs.aligned i (hsub i h), hdistinct, hs.nbuffers, hroom, hentries,
      ?_, hs.readable, ?_, ?_, ?_⟩
    · exact Nat.le_trans hs.header (Nat.le_trans (StoredFile.size_le_write _ _ _)
        (StoredFile.size_le_write _ _ _))
    · intro h
      rw [herror] at h
      cases h
    · simp only [hidx, length_setBlockOffset]
      rcases hs.top with htop | ⟨last, hlast, htop⟩
      · exact .inl (Nat.le_trans htop (Nat.mul_le_mul_right _ (Nat.le_max_left _ _)))
      · rw [hitems] at hlast
        rcases List.mem_cons.mp hlast with rfl | hlast
        · refine .inl ?_
          rw [halign] at htop
          calc s.filesize ≤ (idx + 1) * s.blocksize := by
                rw [Nat.add_mul, Nat.one_mul]; exact htop
            _ ≤ _ := Nat.mul_le_mul_right _ (Nat.le_max_right _ _)
        · exact .inr ⟨last, hlast, htop⟩
    · intro h
      rw [hwrite] at h
      cases h

theorem tableContent_evictFirst (hc : c.Inverts s.blocksize) (hs : s.Shape c)
    (hwrite : s.readOnly = false) (hk : item.offset / s.blocksize ≠ k) :
    (∀ f, s.tableContent c k = some f → (s.evictFirst c item rest).tableContent c k = some f) ∧
    (s.tableContent c k = none → ∀ f', (s.evictFirst c item rest).tableContent c k = some f' →
      ∀ i, f' i = 0) := by
  have herror := error_of_not_readOnly hs hwrite
  rw [evictFirst_eq hwrite]
  generalize hfile : (s.uncompressedFile.write s.uncompressedFile.size _).write _ _ = file
  generalize hs' : CompressedFile.mk s.filesize s.indexOffset s.blocksize s.blocksize_pos
    s.currentPosition _ file s.unreadable rest s.nbuffers s.heap s.allocated s.error s.readOnly = s'
  have hsize : s'.blocksize = s.blocksize := by rw [← hs']
  have herror' : s'.error = false := by rw [← hs']; exact herror
  have hfile' : s'.uncompressedFile = file := by rw [← hs']
  have htable : s'.blockOffsets = setBlockOffset s.blockOffsets (item.offset / s.blocksize)
      s.uncompressedFile.size := by rw [← hs']
  by_cases hlt : k < s.blockOffsets.length
  · have hentry' := getElem?_setBlockOffset_of_lt s.uncompressedFile.size
      (Ne.symm hk) hlt
    rw [← htable] at hentry'
    have hsame : s'.tableContent c k = s.tableContent c k := by
      refine tableContent_eq hc hs hsize (by rw [← hs']) (herror'.trans herror.symm) hentry' ?_
      intro offset buffer hstored
      rw [hfile', ← hfile]
      exact hstored.append (by simp [littleEndian])
    rw [hsame]
    refine ⟨fun f hf => hf, ?_⟩
    intro hnone f' hf'
    rw [hnone] at hf'
    cases hf'
  · rw [tableContent_eq_none (.inl (List.getElem?_eq_none (Nat.not_lt.mp hlt)))]
    refine ⟨fun f hf => absurd hf (by simp), ?_⟩
    intro _ f' hf' i
    have hentry' := getElem?_setBlockOffset_of_le s.uncompressedFile.size
      (Ne.symm hk) (Nat.not_lt.mp hlt)
    rw [← htable] at hentry'
    split at hentry'
    · split at hentry'
      · rw [tableContent_eq_none (.inr hentry')] at hf'
        cases hf'
      · rw [tableContent_hole herror' hentry', Option.some.injEq] at hf'
        rw [← hf']
        exact getD_replicate_zero _ i
    · rw [tableContent_eq_none (.inl hentry')] at hf'
      cases hf'

theorem tableContent_evictFirst_self (hc : c.Inverts s.blocksize) (hs : s.Shape c)
    (hitems : s.lruItems = item :: rest) (halign : item.offset = k * s.blocksize) :
    ∃ f, (s.evictFirst c item rest).tableContent c k = some f ∧
      ∀ i < s.blocksize, f i = item.buffer i := by
  cases hwrite : s.readOnly with
  | true =>
    rw [evictFirst_readOnly hwrite]
    exact hs.clean hwrite item (by rw [hitems]; exact List.mem_cons_self) k halign
  | false =>
    have herror := error_of_not_readOnly hs hwrite
    have hidx : item.offset / s.blocksize = k := by
      rw [halign, Nat.mul_div_cancel k s.blocksize_pos]
    rw [evictFirst_eq hwrite]
    refine ⟨_, tableContent_stored hc hs.readable herror ?_ (storedAt_evict hs.header item.buffer), ?_⟩
    · simp only [hidx]
      exact getElem?_setBlockOffset_self _ _ _
    · exact fun i hi => getD_read item.buffer hi

theorem refines_evictFirst (hc : c.Inverts s.blocksize) (hs : s.Shape c)
    (hitems : s.lruItems = item :: rest) : Refines c s (s.evictFirst c item rest) := by
  have hs' := hs.evictFirst hitems
  have hmem : item ∈ s.lruItems := by
    rw [hitems]
    exact List.mem_cons_self
  have hsize : (s.evictFirst c item rest).blocksize = s.blocksize := by
    unfold CompressedFile.evictFirst evictFromLruCache
    split <;> rfl
  have hbuffer : ∀ k, ∀ item' ∈ rest, item'.offset = k * s.blocksize →
      s.content c k = some item'.buffer ∧
        (s.evictFirst c item rest).content c k = some item'.buffer := by
    intro k item' hmem' halign
    refine ⟨content_of_mem hs (by rw [hitems]; exact List.mem_cons_of_mem _ hmem') halign, ?_⟩
    exact content_of_mem hs' hmem' (by rw [hsize]; exact halign)
  have htable : ∀ k, (∀ item' ∈ rest, item'.offset ≠ k * s.blocksize) →
      (s.evictFirst c item rest).content c k = (s.evictFirst c item rest).tableContent c k := by
    intro k h
    exact content_of_not_mem hs' (by rw [hsize]; exact h)
  have hother : ∀ k, item.offset ≠ k * s.blocksize →
      (∀ item' ∈ rest, item'.offset ≠ k * s.blocksize) →
      s.content c k = s.tableContent c k ∧ (∀ f, s.tableContent c k = some f →
        (s.evictFirst c item rest).tableContent c k = some f) ∧
      (s.tableContent c k = none → ∀ f', (s.evictFirst c item rest).tableContent c k = some f' →
        ∀ i, f' i = 0) := by
    intro k hne h
    refine ⟨content_of_not_mem hs ?_, ?_⟩
    · rw [hitems]
      intro item' hmem'
      rcases List.mem_cons.mp hmem' with rfl | hmem'
      · exact hne
      · exact h item' hmem'
    · cases hwrite : s.readOnly with
      | true =>
        rw [evictFirst_readOnly hwrite, tableContent_congr]
        refine ⟨fun f hf => hf, ?_⟩
        intro hnone f' hf'
        rw [tableContent_congr, hnone] at hf'
        cases hf'
      | false =>
        apply tableContent_evictFirst hc hs hwrite
        intro hdiv
        obtain ⟨idx, halign, -⟩ := hs.aligned item hmem
        rw [halign, Nat.mul_div_cancel idx s.blocksize_pos] at hdiv
        rw [hdiv] at halign
        exact hne halign
  refine ⟨hsize, ?_, ?_⟩
  · intro k f hf
    by_cases hrest : ∃ item' ∈ rest, item'.offset = k * s.blocksize
    · obtain ⟨item', hmem', halign⟩ := hrest
      obtain ⟨h, h'⟩ := hbuffer k item' hmem' halign
      rw [h, Option.some.injEq] at hf
      exact ⟨_, h', fun i _ => by rw [hf]⟩
    · have hrest : ∀ item' ∈ rest, item'.offset ≠ k * s.blocksize :=
        fun item' hmem' heq => hrest ⟨item', hmem', heq⟩
      rw [htable k hrest]
      by_cases hself : item.offset = k * s.blocksize
      · rw [content_of_mem hs hmem hself, Option.some.injEq] at hf
        rw [← hf]
        exact tableContent_evictFirst_self hc hs hitems hself
      · obtain ⟨h, hkept, -⟩ := hother k hself hrest
        rw [h] at hf
        exact ⟨f, hkept f hf, fun _ _ => rfl⟩
  · intro k hnone f' hf' i _
    have hrest : ∀ item' ∈ rest, item'.offset ≠ k * s.blocksize := by
      intro item' hmem' halign
      rw [(hbuffer k item' hmem' halign).1] at hnone
      cases hnone
    have hself : item.offset ≠ k * s.blocksize := by
      intro halign
      rw [content_of_mem hs hmem halign] at hnone
      cases hnone
    obtain ⟨h, -, hfresh⟩ := hother k hself hrest
    rw [h] at hnone
    rw [htable k hrest] at hf'
    exact hfresh hnone f' hf' i

end Evict

end CompressedFile

end UrBackup
