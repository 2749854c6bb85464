import UrBackup.FSImage.CompressedTurns
import UrBackup.Lib.Run

/-! A compressed file is closed and opened again, and its runs. -/
namespace UrBackup

open ByteOrder

namespace CompressedFile

section Clear

variable {c : BlockCodec} {s : CompressedFile}

theorem evictFromLruCache_withItems (s : CompressedFile) (items : List SCacheItem)
    (item : SCacheItem) : evictFromLruCache c { s with lruItems := items } item =
      { s.evictFromLruCache c item with lruItems := items } := by
  unfold evictFromLruCache
  split <;> rfl

theorem foldl_evict_withItems (todo items items' : List SCacheItem) (s : CompressedFile) :
    { todo.foldl (evictFromLruCache c) { s with lruItems := items } with lruItems := items' } =
      { todo.foldl (evictFromLruCache c) s with lruItems := items' } := by
  induction todo generalizing s with
  | nil => rfl
  | cons item todo ih =>
    rw [List.foldl_cons, List.foldl_cons, evictFromLruCache_withItems]
    exact ih _

theorem clear_cons {item : SCacheItem} {rest : List SCacheItem} (hitems : s.lruItems = item :: rest) :
    s.clear c = (s.evictFirst c item rest).clear c := by
  have hrest : (s.evictFirst c item rest).lruItems = rest := rfl
  rw [clear, clear, hrest, hitems, List.foldl_cons]
  exact (foldl_evict_withItems rest rest [] _).symm

theorem clear_spec (hc : c.Inverts s.blocksize) (hs : s.Shape c) :
    (s.clear c).Shape c ∧ Refines c s (s.clear c) ∧ SameHandle s (s.clear c) ∧
      (s.clear c).lruItems = [] := by
  generalize hitems : s.lruItems = items
  induction items generalizing s with
  | nil =>
    have hsame : s.clear c = s := by
      rw [clear, hitems, List.foldl_nil, ← hitems]
    rw [hsame]
    exact ⟨hs, Refines.refl c s, ⟨rfl, rfl, rfl, rfl, rfl⟩, hitems⟩
  | cons item rest ih =>
    obtain ⟨hsize, hpos, herror, hread, hblock⟩ : SameHandle s (s.evictFirst c item rest) :=
      sameHandle_evict s item
    rw [clear_cons hitems]
    have hrefines := refines_evictFirst hc hs hitems
    obtain ⟨hs', hrefines', ⟨hsize', hpos', herror', hread', hblock'⟩, hnil⟩ :=
      ih (by rw [hblock]; exact hc) (hs.evictFirst hitems) rfl
    exact ⟨hs', hrefines.trans hrefines', ⟨hsize'.trans hsize, hpos'.trans hpos,
      herror'.trans herror, hread'.trans hread, hblock'.trans hblock⟩, hnil⟩

end Clear

section Index

theorem int64Bytes_length (x : Int) : (int64Bytes x).length = 8 := littleEndian_length _ _

theorem toInt64_int64Bytes {x : Int} (h : -2 ^ 63 ≤ x) (h' : x < 2 ^ 63) :
    toInt64 (ofLittleEndian (int64Bytes x)) = x := by
  rw [int64Bytes, ofLittleEndian_littleEndian (by omega), toInt64]
  split <;> omega

theorem flatMap_int64Bytes_length (xs : List Int) : (xs.flatMap int64Bytes).length = 8 * xs.length := by
  induction xs with
  | nil => rfl
  | cons x xs ih =>
    rw [List.flatMap_cons, List.length_append, int64Bytes_length, ih, List.length_cons]
    omega

theorem take_drop_flatMap_int64Bytes (xs : List Int) {i : Nat} (h : i < xs.length) :
    ((xs.flatMap int64Bytes).drop (8 * i)).take 8 = int64Bytes xs[i] := by
  induction xs generalizing i with
  | nil => cases h
  | cons x xs ih =>
    rw [List.flatMap_cons]
    cases i with
    | zero => exact List.take_left' (int64Bytes_length x)
    | succ i =>
      rw [Nat.mul_succ, Nat.add_comm, ← List.drop_drop, List.drop_left' (int64Bytes_length x)]
      exact ih (Nat.lt_of_succ_lt_succ h)

theorem take_flatMap_int64Bytes (xs : List Int) {n : Nat} (h : n ≤ xs.length) :
    (xs.flatMap int64Bytes).take (8 * n) = (xs.take n).flatMap int64Bytes := by
  have hlength : ((xs.take n).flatMap int64Bytes).length = 8 * n := by
    rw [flatMap_int64Bytes_length, List.length_take, Nat.min_eq_left h]
  conv_lhs => rw [← List.take_append_drop n xs, List.flatMap_append]
  exact List.take_left' hlength

theorem readTable_eq {xs : List Int} (h : ∀ x ∈ xs, -2 ^ 63 ≤ x ∧ x < 2 ^ 63) :
    ((List.range xs.length).map fun i =>
      toInt64 (ofLittleEndian (((xs.flatMap int64Bytes).drop (8 * i)).take 8))) = xs := by
  apply List.ext_getElem
  · rw [List.length_map, List.length_range]
  · intro i hi hi'
    obtain ⟨hle, hlt⟩ := h xs[i] (List.getElem_mem hi')
    rw [List.getElem_map, List.getElem_range, take_drop_flatMap_int64Bytes xs hi',
      toInt64_int64Bytes hle hlt]

end Index

section Reopen

variable {c : BlockCodec} {s : CompressedFile} {plain : PlainFile}

theorem header_length (s : CompressedFile) : s.header.length = headerSize := by
  simp only [header, List.length_append, littleEndian_length]
  rfl

theorem openExisting_eq {file : StoredFile} (hheader : file.read 0 headerSize = s.header)
    (hindex : s.indexOffset < 2 ^ 63) (hfilesize : s.filesize < 2 ^ 63)
    (hblocksize : s.blocksize < 2 ^ 32) (heap : Nat → ByteStore) :
    openExisting file heap = some (readIndex ⟨s.filesize, s.indexOffset, s.blocksize,
      s.blocksize_pos, 0, [], file, fun _ => false, [], ncacheItems, heap, 0, false, true⟩) := by
  have hlength := s.header_length
  have hmagic : s.header.take (headerMagic.length - 1) = headerMagic.dropLast := by
    simp only [header, List.append_assoc]
    rw [List.take_append_of_le_length (by decide)]
    rfl
  have hindex' : ofLittleEndian ((s.header.drop headerMagic.length).take 8) = s.indexOffset := by
    simp only [header, List.append_assoc]
    rw [List.drop_left, List.take_left' (littleEndian_length _ _)]
    exact ofLittleEndian_littleEndian (by omega)
  have hfilesize' : ofLittleEndian ((s.header.drop (headerMagic.length + 8)).take 8) =
      s.filesize := by
    simp only [header, List.append_assoc]
    rw [← List.drop_drop, List.drop_left, List.drop_left' (littleEndian_length _ _),
      List.take_left' (littleEndian_length _ _)]
    exact ofLittleEndian_littleEndian (by omega)
  have hblocksize' : ofLittleEndian ((s.header.drop (headerMagic.length + 16)).take 4) =
      s.blocksize := by
    simp only [header]
    rw [List.drop_left' (by simp only [List.length_append, littleEndian_length]),
      List.take_of_length_le (Nat.le_of_eq (littleEndian_length _ _))]
    exact ofLittleEndian_littleEndian hblocksize
  unfold openExisting
  simp only [hheader, hlength, hmagic, hindex', hfilesize', hblocksize', s.blocksize_pos, and_self,
    dite_true]

theorem nOffsetItems_le {blocksize filesize n : Nat} (hpos : 0 < blocksize)
    (h : filesize ≤ n * blocksize) :
    filesize / blocksize + (if filesize % blocksize ≠ 0 then 1 else 0) ≤ n := by
  have hsplit := Nat.div_add_mod' filesize blocksize
  have hle : filesize / blocksize ≤ n := by
    rw [← Nat.mul_div_cancel n hpos]
    exact Nat.div_le_div_right h
  split
  · rcases Nat.lt_or_eq_of_le hle with hlt | heq
    · omega
    · rw [heq] at hsplit
      omega
  · omega

theorem le_nOffsetItems {blocksize filesize : Nat} (hpos : 0 < blocksize) :
    filesize ≤ (filesize / blocksize + (if filesize % blocksize ≠ 0 then 1 else 0)) * blocksize := by
  have hsplit := Nat.div_add_mod' filesize blocksize
  have hmod := Nat.mod_lt filesize hpos
  rw [Nat.add_mul]
  split
  · omega
  · rename_i h
    omega

def nOffsetItems (s : CompressedFile) : Nat :=
  s.filesize / s.blocksize + if s.filesize % s.blocksize ≠ 0 then 1 else 0

def finished (s : CompressedFile) : StoredFile := s.writeIndex.writeHeader.uncompressedFile

/-- The sizes that are written are written whole. -/
structure SizesOk (s : CompressedFile) : Prop where
  table : 8 * s.blockOffsets.length < 2 ^ 32
  file : s.uncompressedFile.size < 2 ^ 63
  filesize : s.filesize < 2 ^ 63
  blocksize : s.blocksize < 2 ^ 32

theorem index_eq (hsizes : s.SizesOk) : (s.blockOffsets.flatMap int64Bytes).take
    (8 * s.blockOffsets.length % 2 ^ 32) = s.blockOffsets.flatMap int64Bytes := by
  rw [Nat.mod_eq_of_lt hsizes.table]
  exact List.take_of_length_le (Nat.le_of_eq (flatMap_int64Bytes_length _))

theorem finished_eq (hsizes : s.SizesOk) : s.finished =
    (s.uncompressedFile.write s.uncompressedFile.size (s.blockOffsets.flatMap int64Bytes)).write 0
      s.writeIndex.header := by
  rw [← index_eq hsizes]
  rfl

theorem header_finished (s : CompressedFile) :
    s.finished.read 0 headerSize = s.writeIndex.header := by
  have hread := StoredFile.read_write s.writeIndex.uncompressedFile 0 s.writeIndex.header
  rw [header_length] at hread
  exact hread

theorem StoredAt.finished (hsizes : s.SizesOk) {offset : Nat} {buffer : ByteStore}
    (h : StoredAt c s.blocksize s.uncompressedFile offset buffer) :
    StoredAt c s.blocksize s.finished offset buffer := by
  rw [finished_eq hsizes]
  refine (h.write (.inl (Nat.le_refl _))).write (.inr ?_)
  rw [header_length]
  exact Nat.le_of_eq (Nat.zero_add _)

theorem readIndex_eq (hs : s.Shape c) (hsizes : s.SizesOk) (hn : s.nOffsetItems ≤ s.blockOffsets.length)
    (hne : s.nOffsetItems ≠ 0) {r : CompressedFile} (hfile : r.uncompressedFile = s.finished)
    (hindex : r.indexOffset = s.uncompressedFile.size) (hnr : r.nOffsetItems = s.nOffsetItems)
    (hreadable : ∀ i, r.unreadable i = false) (herror : r.error = false) :
    r.readIndex = { r with blockOffsets := s.blockOffsets.take s.nOffsetItems, error := false } := by
  have htable := hsizes.table
  have hentry : ∀ x ∈ s.blockOffsets.take s.nOffsetItems, -2 ^ 63 ≤ x ∧ x < 2 ^ 63 := by
    intro x hx
    obtain ⟨k, hk⟩ := List.mem_iff_getElem?.mp (List.mem_of_mem_take hx)
    rcases (hs.entries k x hk).2 with rfl | ⟨rfl, -⟩ | ⟨offset, buffer, rfl, hstored⟩
    · omega
    · omega
    · have hroom := hstored.room
      have hsize := hsizes.file
      omega
  have hbytes : r.readFromFile r.indexOffset (8 * r.nOffsetItems % 2 ^ 32) =
      (s.blockOffsets.take s.nOffsetItems).flatMap int64Bytes := by
    have hlength := flatMap_int64Bytes_length s.blockOffsets
    have hnil : s.blockOffsets.flatMap int64Bytes ≠ [] := by
      intro hnil
      rw [hnil, List.length_nil] at hlength
      omega
    have hsize := StoredFile.le_size_write s.uncompressedFile s.uncompressedFile.size hnil
    have hheader := hs.header
    rw [readFromFile_eq hreadable, hnr, Nat.mod_eq_of_lt (by omega), hfile, hindex,
      finished_eq hsizes,
      StoredFile.read_write_of_disjoint (by omega)
        (.inr (by rw [header_length]; omega)),
      StoredFile.read_write_take _ _ (by omega), take_flatMap_int64Bytes _ hn]
  have hlength : (s.blockOffsets.take s.nOffsetItems).length = s.nOffsetItems := by
    rw [List.length_take, Nat.min_eq_left hn]
  have hbytesLength := flatMap_int64Bytes_length (s.blockOffsets.take s.nOffsetItems)
  have hread := readTable_eq hentry
  rw [hlength] at hread hbytesLength
  unfold readIndex
  change (if r.nOffsetItems = 0 then _ else _) = _
  rw [if_neg (by rw [hnr]; exact hne)]
  change ({ r with
    blockOffsets := (List.range r.nOffsetItems).map fun i => toInt64 (ofLittleEndian
      (((r.readFromFile r.indexOffset (8 * r.nOffsetItems % 2 ^ 32)).drop (8 * i)).take 8))
    error := r.error || decide ((r.readFromFile r.indexOffset
      (8 * r.nOffsetItems % 2 ^ 32)).length ≠ 8 * r.nOffsetItems) } : CompressedFile) = _
  rw [hbytes, hnr, hread, hbytesLength, herror]
  simp

/-- What is opened of a file that was finished. -/
structure Opened (s s' : CompressedFile) : Prop where
  blocksize : s'.blocksize = s.blocksize
  filesize : s'.filesize = s.filesize
  file : s'.uncompressedFile = s.finished
  table : s'.blockOffsets = s.blockOffsets.take s.nOffsetItems
  items : s'.lruItems = []
  readable : ∀ i, s'.unreadable i = false
  readOnly : s'.readOnly = true
  nbuffers : 0 < s'.nbuffers
  error : s'.error = true → s.nOffsetItems = 0

theorem openExisting_opened (hs : s.Shape c) (hsizes : s.SizesOk)
    (hn : s.nOffsetItems ≤ s.blockOffsets.length) (heap : Nat → ByteStore) :
    ∃ s', openExisting s.finished heap = some s' ∧ Opened s s' := by
  have hopen := openExisting_eq (s := s.writeIndex) (header_finished s) hsizes.file
    hsizes.filesize hsizes.blocksize heap
  refine ⟨_, hopen, ?_⟩
  by_cases hne : s.nOffsetItems = 0
  · unfold readIndex
    change Opened s (if s.nOffsetItems = 0 then _ else _)
    rw [if_pos hne]
    exact ⟨rfl, rfl, rfl, by rw [hne]; rfl, rfl, fun _ => rfl, rfl, Nat.succ_pos 4, fun _ => hne⟩
  · generalize hr : CompressedFile.mk _ _ _ _ _ _ _ _ _ _ _ _ _ _ = r
    rw [readIndex_eq hs hsizes hn hne (by rw [← hr]) (by rw [← hr]; rfl) (by rw [← hr]; rfl)
      (by rw [← hr]; exact fun _ => rfl) (by rw [← hr]), ← hr]
    exact ⟨rfl, rfl, rfl, rfl, rfl, fun _ => rfl, rfl, Nat.succ_pos 4, nofun⟩

variable {s' : CompressedFile}

theorem Opened.entry {k : Nat} (h : Opened s s') (hk : k < s.nOffsetItems) :
    s'.blockOffsets[k]? = s.blockOffsets[k]? := by
  rw [h.table, List.getElem?_take_of_lt hk]

theorem Opened.entry_none {k : Nat} (h : Opened s s') (hk : s.nOffsetItems ≤ k) :
    s'.blockOffsets[k]? = none := by
  rw [h.table, List.getElem?_eq_none]
  rw [List.length_take]
  omega

theorem Opened.shape (h : Opened s s') (hs : s.Shape c) (hsizes : s.SizesOk)
    (hn : s.nOffsetItems ≤ s.blockOffsets.length) : s'.Shape c := by
  refine ⟨by rw [h.items]; exact nofun, by rw [h.items]; exact List.nodup_nil, h.nbuffers,
    by rw [h.items]; exact Nat.zero_le _, ?_, ?_, h.readable, ?_, ?_,
    by rw [h.items]; exact fun _ => nofun⟩
  · intro k blockOffset hk
    have hlt : k < s.nOffsetItems := by
      by_contra hle
      rw [h.entry_none (Nat.not_lt.mp hle)] at hk
      cases hk
    rw [h.entry hlt] at hk
    obtain ⟨hle, hok⟩ := hs.entries k blockOffset hk
    rw [EntryOk, h.blocksize, h.filesize, h.file]
    refine ⟨hle, ?_⟩
    rcases hok with hhole | hskip | ⟨offset, buffer, hoffset, hstored⟩
    · exact .inl hhole
    · exact .inr (.inl hskip)
    · exact .inr (.inr ⟨offset, buffer, hoffset, hstored.finished hsizes⟩)
  · rw [h.file, finished_eq hsizes]
    exact Nat.le_trans hs.header (Nat.le_trans (StoredFile.size_le_write _ _ _)
      (StoredFile.size_le_write _ _ _))
  · intro herror
    refine ⟨h.readOnly, ?_⟩
    rw [h.table, h.error herror, List.take_zero]
  · refine .inl ?_
    rw [h.table, h.filesize, h.blocksize, List.length_take, Nat.min_eq_left hn]
    exact le_nOffsetItems s.blocksize_pos

theorem Opened.content {k : Nat} (h : Opened s s') (hc : c.Inverts s.blocksize) (hs : s.Shape c)
    (hs' : s'.Shape c) (hwrite : s.readOnly = false) (hitems : s.lruItems = [])
    (hsizes : s.SizesOk) :
    s'.content c k = if k < s.nOffsetItems then s.content c k else none := by
  rw [content_of_not_mem hs' (by rw [h.items]; exact nofun)]
  split
  · rename_i hlt
    rw [content_of_not_mem hs (by rw [hitems]; exact nofun)]
    have hreadable : s'.unreadable = s.unreadable :=
      funext fun i => (h.readable i).trans (hs.readable i).symm
    refine tableContent_eq hc hs h.blocksize hreadable ?_ (h.entry hlt) fun offset buffer hstored => ?_
    · rw [error_of_not_readOnly hs hwrite]
      cases herror : s'.error with
      | false => rfl
      | true =>
        have hzero := h.error herror
        omega
    · rw [h.file]
      exact hstored.finished hsizes
  · rename_i hge
    exact tableContent_eq_none (.inl (h.entry_none (Nat.not_lt.mp hge)))

theorem openExisting_spec (hc : c.Inverts s.blocksize) (hs : s.Shape c) (ha : s.Agrees c plain)
    (hwrite : s.readOnly = false) (hitems : s.lruItems = []) (hsizes : s.SizesOk)
    (heap : Nat → ByteStore) :
    ∃ s', openExisting s.finished heap = some s' ∧ s'.Shape c ∧ s'.Agrees c plain ∧
      s'.blocksize = s.blocksize ∧ s'.uncompressedFile = s.finished ∧ s'.readOnly = true := by
  have hn : s.nOffsetItems ≤ s.blockOffsets.length := by
    rcases hs.top with htop | ⟨item, hmem, -⟩
    · exact nOffsetItems_le s.blocksize_pos htop
    · rw [hitems] at hmem
      cases hmem
  have hall : s.filesize ≤ s.nOffsetItems * s.blocksize := le_nOffsetItems s.blocksize_pos
  obtain ⟨s', hopen, h⟩ := openExisting_opened hs hsizes hn heap
  have hs' := h.shape hs hsizes hn
  have hcontent := fun k => h.content (k := k) hc hs hs' hwrite hitems hsizes
  refine ⟨s', hopen, hs', ⟨h.filesize.trans ha.size, ha.beyond, ?_, ?_⟩, h.blocksize, h.file,
    h.readOnly⟩
  · intro k f hf i hi hlt
    rw [h.blocksize] at hi hlt ⊢
    rw [hcontent] at hf
    split at hf
    · exact ha.kept k f hf i hi hlt
    · cases hf
  · intro k hk i hi
    rw [h.blocksize] at hi ⊢
    rw [hcontent] at hk
    split at hk
    · exact ha.absent k hk i hi
    · rename_i hge
      have hle := Nat.mul_le_mul_right s.blocksize (Nat.not_lt.mp hge)
      have hend := ha.size
      exact ha.beyond _ (by omega)

end Reopen

/-- What is done with a file: it is written to, read, or finished and opened again. -/
inductive FileEvent
  | write (spos : Nat) (buffer : List UInt8)
  | read (spos bsize : Nat)
  | reopen (heap : Nat → ByteStore)

def step (c : BlockCodec) (s : CompressedFile) : FileEvent → Option CompressedFile
  | .write spos buffer => some (s.Write c spos buffer).2
  | .read spos bsize => (s.Read c spos bsize).map Prod.snd
  | .reopen heap => openExisting (s.finish c).uncompressedFile heap

def plainStep (plain : PlainFile) : FileEvent → PlainFile
  | .write spos buffer => plain.write spos buffer
  | .read _ _ => plain
  | .reopen _ => plain

/-- What an event needs of the file it comes to. -/
def EventOk (c : BlockCodec) (s : CompressedFile) : FileEvent → Prop
  | .write spos buffer => s.readOnly = false ∧ WriteOk c (s.seek spos) buffer
  | .read spos bsize => ReadOk c (s.seek spos) bsize
  | .reopen _ => s.readOnly = false → (s.clear c).SizesOk

section Runs

variable {c : BlockCodec} {s s' : CompressedFile} {plain : PlainFile}

/-- A file that can be opened, with what a plain file has. -/
def Opens (c : BlockCodec) (file : StoredFile) (plain : PlainFile) : Prop :=
  ∀ heap, ∃ s, openExisting file heap = some s ∧ s.Shape c ∧ s.Agrees c plain ∧
    s.blocksize = cacheBuffersize ∧ s.uncompressedFile = file ∧ s.readOnly = true

/-- What every run keeps. -/
structure Valid (c : BlockCodec) (s : CompressedFile) (plain : PlainFile) : Prop where
  shape : s.Shape c
  agrees : s.Agrees c plain
  blocksize : s.blocksize = cacheBuffersize
  opens : s.readOnly = true → Opens c s.uncompressedFile plain

theorem evict_readOnly (hread : s.readOnly = true) (item : SCacheItem) :
    s.evictFromLruCache c item = s := by
  rw [evictFromLruCache, if_pos hread]

theorem makeRoom_readOnly (hread : s.readOnly = true) :
    (s.makeRoom c).uncompressedFile = s.uncompressedFile := by
  unfold makeRoom
  split
  · split
    · rw [evict_readOnly hread]
    · rfl
  · rfl

theorem load_readOnly (hread : s.readOnly = true) :
    (s.load c).2.uncompressedFile = s.uncompressedFile := by
  unfold load
  split
  · rfl
  · unfold fillCache
    split
    · rfl
    · exact makeRoom_readOnly hread

theorem readTurn_readOnly (hread : s.readOnly = true) {bsize : Nat} {bytes : List UInt8}
    (h : s.readTurn c bsize = some (bytes, s')) :
    s'.uncompressedFile = s.uncompressedFile ∧ s'.readOnly = true := by
  obtain ⟨-, -, -, hread', -⟩ := @sameHandle_load c s
  have hfile := load_readOnly (c := c) hread
  rw [hread] at hread'
  unfold readTurn at h
  dsimp only at h
  split at h
  · cases h
    exact ⟨hfile, hread'⟩
  · split at h
    · cases h
      exact ⟨hfile, hread'⟩
    · split at h
      · cases h
      · cases h
        exact ⟨hfile, hread'⟩

theorem readLoop_readOnly {bsize : Nat} {bytes : List UInt8} (hread : s.readOnly = true)
    (h : s.readLoop c bsize = some (bytes, s')) :
    s'.uncompressedFile = s.uncompressedFile := by
  induction bsize using Nat.strong_induction_on generalizing s bytes with
  | _ bsize ih =>
    rw [readLoop] at h
    cases hturn : s.readTurn c bsize with
    | none =>
      rw [hturn] at h
      cases h
    | some result =>
      obtain ⟨first, s₁⟩ := result
      obtain ⟨hfile, hread'⟩ := readTurn_readOnly hread hturn
      rw [hturn] at h
      simp only at h
      split at h
      · rename_i hmore
        obtain ⟨⟨more, s₂⟩, hrest, heq⟩ := Option.map_eq_some_iff.mp h
        cases heq
        exact (ih _ (by omega) hread' hrest).trans hfile
      · cases h
        exact hfile

theorem foldl_evict_readOnly (hread : s.readOnly = true) (items : List SCacheItem) :
    items.foldl (evictFromLruCache c) s = s := by
  induction items with
  | nil => rfl
  | cons item items ih => rw [List.foldl_cons, evict_readOnly hread, ih]

theorem finish_readOnly (hread : s.readOnly = true) :
    (s.finish c).uncompressedFile = s.uncompressedFile := by
  unfold finish clear
  rw [foldl_evict_readOnly hread]
  dsimp only
  rw [if_pos hread]

theorem valid_create (c : BlockCodec) (heap : Nat → ByteStore) :
    (create heap).Valid c .empty := by
  have hcached : ∀ k, (create heap).content c k = none := fun k => rfl
  refine ⟨⟨nofun, List.nodup_nil, Nat.succ_pos 4, Nat.zero_le _, nofun, ?_, fun _ => rfl, nofun,
    .inl (Nat.zero_le _), nofun⟩, ⟨rfl, fun _ _ => rfl, ?_, fun _ _ _ _ => rfl⟩, rfl, nofun⟩
  · change headerSize ≤ (StoredFile.write .empty 0 (header _)).size
    have hsize := StoredFile.le_size_write .empty 0
      (List.ne_nil_of_length_pos (Nat.lt_of_lt_of_eq (by decide) (header_length ⟨0, 0,
        cacheBuffersize, by decide, 0, [], .empty, fun _ => false, [], ncacheItems, heap, 0, false,
        false⟩).symm))
    rw [header_length, Nat.zero_add] at hsize
    exact hsize
  · intro k f hf
    rw [hcached] at hf
    cases hf

section

variable (hc : c.Inverts cacheBuffersize) (h : s.Valid c plain)

include hc h

theorem Valid.seek (pos : Nat) : (s.seek pos).Valid c plain := by
  have hc' : c.Inverts s.blocksize := by
    rw [h.blocksize]
    exact hc
  exact ⟨shape_move hc' h.shape pos, h.agrees.refines (refines_move hc' h.shape pos) rfl,
    h.blocksize, h.opens⟩

theorem Valid.read {spos bsize : Nat} (hok : ReadOk c (s.seek spos) bsize) :
    ∃ s', s.Read c spos bsize = some (plain.read spos bsize, s') ∧ s'.Valid c plain := by
  have h' := h.seek hc spos
  obtain ⟨s', hread, hs', ha', hblock, hreadOnly⟩ := readLoop_spec hok
    (by rw [h'.blocksize]; exact hc) h'.shape h'.agrees
  refine ⟨s', hread, hs', ha', hblock.trans h'.blocksize, ?_⟩
  intro hr
  rw [hr] at hreadOnly
  rw [readLoop_readOnly hreadOnly.symm hread]
  exact h.opens hreadOnly.symm

theorem Valid.write {spos : Nat}
    {buffer : List UInt8} (hwrite : s.readOnly = false) (hok : WriteOk c (s.seek spos) buffer) :
    ∃ s', s.Write c spos buffer = (buffer.length, s') ∧ s'.Valid c (plain.write spos buffer) := by
  have h' := h.seek hc spos
  obtain ⟨s', heq, hs', ha', hblock, hreadOnly⟩ := writeLoop_spec hok
    (by rw [h'.blocksize]; exact hc) h'.shape h'.agrees hwrite
  refine ⟨s', heq, hs', ha', hblock.trans h'.blocksize, ?_⟩
  intro hr
  rw [hr] at hreadOnly
  cases hreadOnly

theorem Valid.finish (hok : s.readOnly = false → (s.clear c).SizesOk) :
    Opens c (s.finish c).uncompressedFile plain := by
  have hc' : c.Inverts s.blocksize := by
    rw [h.blocksize]
    exact hc
  cases hread : s.readOnly with
  | true =>
    rw [finish_readOnly hread]
    exact h.opens hread
  | false =>
    obtain ⟨hs', hrefines, ⟨hsize, -, -, hreadOnly, hblock⟩, hnil⟩ := clear_spec hc' h.shape
    have hfinish : (s.finish c).uncompressedFile = (s.clear c).finished := by
      unfold CompressedFile.finish
      dsimp only
      rw [hreadOnly, hread]
      rfl
    rw [hfinish]
    intro heap
    obtain ⟨s', hopen, hs'', ha'', hblock', hfile, hread'⟩ := openExisting_spec
      (by rw [hblock]; exact hc') hs' (h.agrees.refines hrefines hsize) (hreadOnly.trans hread)
      hnil (hok hread) heap
    exact ⟨s', hopen, hs'', ha'', hblock'.trans (hblock.trans h.blocksize), hfile, hread'⟩

theorem valid_step {e : FileEvent}
    (hok : s.EventOk c e) : ∃ s', s.step c e = some s' ∧ s'.Valid c (plainStep plain e) := by
  cases e with
  | write spos buffer =>
    obtain ⟨s', heq, hs'⟩ := h.write hc hok.1 hok.2
    refine ⟨s', ?_, hs'⟩
    rw [step, heq]
  | read spos bsize =>
    obtain ⟨s', heq, hs'⟩ := h.read hc hok
    exact ⟨s', congrArg (Option.map Prod.snd) heq, hs'⟩
  | reopen heap =>
    have hopens := h.finish hc hok
    obtain ⟨s', hopen, hs', ha', hblock, hfile, -⟩ := hopens heap
    refine ⟨s', hopen, hs', ha', hblock, ?_⟩
    intro _
    rw [hfile]
    exact hopens

end

theorem valid_run (hc : c.Inverts cacheBuffersize) {es : List FileEvent} (h : s.Valid c plain)
    (hok : TransitionSystem.Guarded (step c) (EventOk c) s es) :
    ∃ s', TransitionSystem.run (step c) s es = some s' ∧
      s'.Valid c (es.foldl plainStep plain) := by
  induction es generalizing s plain with
  | nil => exact ⟨s, rfl, h⟩
  | cons e es ih =>
    obtain ⟨s₁, hstep, hs₁⟩ := valid_step hc h hok.1
    obtain ⟨s', hrun, hs'⟩ := ih hs₁ (hok.2 s₁ hstep)
    refine ⟨s', ?_, hs'⟩
    rw [TransitionSystem.run, hstep, Option.bind_some, hrun]

/-- Over a run whose events have what they need, a compressed file behaves as a plain file. -/
theorem run_behaves (hc : c.Inverts cacheBuffersize) (heap : Nat → ByteStore)
    {es : List FileEvent} (hok : TransitionSystem.Guarded (step c) (EventOk c) (create heap) es) :
    ∃ s, TransitionSystem.run (step c) (create heap) es = some s ∧
      s.filesize = (es.foldl plainStep .empty).size ∧
      ∀ spos bsize, ReadOk c (s.seek spos) bsize →
        (s.Read c spos bsize).map Prod.fst =
          some ((es.foldl plainStep .empty).read spos bsize) := by
  obtain ⟨s, hrun, hs⟩ := valid_run hc (valid_create c heap) hok
  refine ⟨s, hrun, hs.agrees.size, ?_⟩
  intro spos bsize hread
  obtain ⟨s', heq, -⟩ := hs.read hc hread
  rw [heq]
  rfl

def storing : BlockCodec := ⟨id, fun data _ => some data⟩

theorem storing_inverts : storing.Inverts cacheBuffersize := by
  refine ⟨fun _ _ => rfl, ?_⟩
  intro block hblock
  change block.length < _
  rw [hblock]
  decide

theorem run_behaves_write : ∃ s, TransitionSystem.run (step storing) (create fun _ _ => 0)
      [.write 0 [1, 2, 3]] = some s ∧ s.filesize = 3 ∧
    ∀ spos bsize, ReadOk storing (s.seek spos) bsize → (s.Read storing spos bsize).map Prod.fst =
      some ((PlainFile.write .empty 0 [1, 2, 3]).read spos bsize) := by
  refine run_behaves storing_inverts (fun _ _ => 0) ⟨⟨rfl, .turn ⟨?_, ?_⟩ ?_⟩, fun _ _ => trivial⟩
  · intro p _ hp
    cases hp
  · intro _ i _ hi hlt
    change i < 0 ∨ 3 ≤ i at hi
    change 0 + i < 3 at hlt
    omega
  · intro s' _ hmore
    exact absurd hmore (by decide)

/-- The first block was never written, and is not read as zero while the file is open. -/
theorem read_hole_stops : storing.Inverts cacheBuffersize ∧
    ((TransitionSystem.run (step storing) (create fun _ _ => 0) [.write cacheBuffersize [1]]).bind
      fun s => (s.Read storing 0 1).map Prod.fst) = some [] ∧
    (PlainFile.write .empty cacheBuffersize [1]).read 0 1 = [0] := by
  refine ⟨storing_inverts, ?_, by decide +kernel⟩
  decide +kernel

end Runs

end CompressedFile

end UrBackup
