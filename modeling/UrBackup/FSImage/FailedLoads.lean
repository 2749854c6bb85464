import UrBackup.Lib.Run
import UrBackup.FSImage.CompressedRuns

/-! Reads of a compressed file some of whose blocks cannot be read. A buffer is in the cache before
its block is read to it, and stays there if that fails. -/
namespace UrBackup

open ByteOrder

namespace CompressedFile

/-- What a block decompresses to, if it can be read, and has what the file has of it. -/
def blockData (c : BlockCodec) (s : CompressedFile) (k : Nat) : Option (List UInt8) :=
  if s.blockOffsets.length ≤ k then none
  else
    let (ok, data) := s.readBlock c (k * s.blocksize)
    if ok ∧ min s.blocksize (s.filesize - k * s.blocksize) ≤ data.length then some data else none

/-- Each byte is of a block that can be loaded. -/
def Correct (c : BlockCodec) (s : CompressedFile) (pos : Nat) (bytes : List UInt8) : Prop :=
  ∀ i (h : i < bytes.length), ∃ data, s.blockData c ((pos + i) / s.blocksize) = some data ∧
    data[(pos + i) % s.blocksize]? = some bytes[i]

/-- A turn of `Read` copies from a buffer: there is one, or there is no error that `fillCache`
finds. -/
def Copies (c : BlockCodec) (s : CompressedFile) : Prop :=
  (s.cached s.currentPosition).isSome ∨ (s.currentPosition / s.blocksize < s.blockOffsets.length ∧
    (s.readBlock c s.currentPosition).1 = true)

/-- The turn does not copy from behind the end, or from the buffer of a block that cannot be
loaded. -/
structure TurnFits (c : BlockCodec) (s : CompressedFile) (bsize : Nat) : Prop where
  inside : s.Copies c → s.currentPosition ≤ s.filesize
  loaded : s.Copies c → 0 < bsize → s.currentPosition < s.filesize →
    (s.blockData c (s.currentPosition / s.blocksize)).isSome

/-- The turns of `Read` fit. -/
inductive LoopFits (c : BlockCodec) : CompressedFile → Nat → Prop
  | turn {s : CompressedFile} {bsize : Nat} (fits : s.TurnFits c bsize)
      (next : ∀ bytes s', s.readTurn c bsize = some (bytes, s') → 0 < bytes.length →
        bytes.length < bsize → LoopFits c s' (bsize - bytes.length)) : LoopFits c s bsize

/-- A call of `Read`. -/
structure ReadCall where
  spos : Nat
  bsize : Nat

def readStep (c : BlockCodec) (s : CompressedFile) (call : ReadCall) : Option CompressedFile :=
  (s.Read c call.spos call.bsize).map Prod.snd

def ReadFits (c : BlockCodec) (s : CompressedFile) (call : ReadCall) : Prop :=
  LoopFits c (s.seek call.spos) call.bsize

/-- The call has a result, and that is of the blocks of the file. -/
def ReadCorrect (c : BlockCodec) (file s : CompressedFile) (call : ReadCall) : Prop :=
  ∃ bytes s', s.Read c call.spos call.bsize = some (bytes, s') ∧ file.Correct c call.spos bytes

def damaged (s : CompressedFile) (unreadable : Nat → Bool) : CompressedFile :=
  { s with unreadable }

section Reads

variable {c : BlockCodec} {s₀ s s' : CompressedFile} {bsize : Nat} {bytes : List UInt8}

/-- The buffer of an item is that of a block, and what the block has, if it can be loaded. -/
def ItemFilled (c : BlockCodec) (s : CompressedFile) (item : SCacheItem) : Prop :=
  ∃ k, item.offset = k * s.blocksize ∧ ∀ data, s.blockData c k = some data →
    ∀ i (h : i < data.length), item.buffer i = data[i]

/-- What reads keep. Only the buffers and the position are others. -/
structure Filled (c : BlockCodec) (s₀ s : CompressedFile) : Prop where
  same : s = { s₀ with
    lruItems := s.lruItems, allocated := s.allocated, currentPosition := s.currentPosition }
  readOnly : s₀.readOnly = true
  items : ∀ item ∈ s.lruItems, ItemFilled c s₀ item

theorem Filled.blocksize (h : Filled c s₀ s) : s.blocksize = s₀.blocksize := by rw [h.same]

theorem Filled.filesize (h : Filled c s₀ s) : s.filesize = s₀.filesize := by rw [h.same]

theorem Filled.readBlock (h : Filled c s₀ s) (p : Nat) : s.readBlock c p = s₀.readBlock c p := by
  rw [h.same]
  rfl

theorem Filled.blockData (h : Filled c s₀ s) (k : Nat) : s.blockData c k = s₀.blockData c k := by
  rw [h.same]
  rfl

theorem Filled.move (h : Filled c s₀ s) (pos : Nat) :
    Filled c s₀ { s with currentPosition := pos } := by
  refine ⟨?_, h.readOnly, h.items⟩
  have hsame := h.same
  rw [CompressedFile.mk.injEq] at hsame ⊢
  simp only [hsame, and_self]

theorem Filled.seek (h : Filled c s₀ s) (pos : Nat) : Filled c s₀ (s.seek pos) := h.move pos

/-- Where in a block a load begins changes nothing of what is read. The check of its length is that
of the block, or weaker. -/
theorem readBlock_start (p : Nat) :
    (s.readBlock c p).2 = (s.readBlock c (p / s.blocksize * s.blocksize)).2 ∧
      ((s.readBlock c (p / s.blocksize * s.blocksize)).1 = true → (s.readBlock c p).1 = true) := by
  have hstart : p / s.blocksize * s.blocksize / s.blocksize = p / s.blocksize :=
    Nat.mul_div_cancel _ s.blocksize_pos
  have hle := Nat.div_mul_le_self p s.blocksize
  unfold readBlock
  simp only [hstart]
  split
  · exact ⟨rfl, id⟩
  split
  · exact ⟨rfl, id⟩
  split
  · exact ⟨rfl, id⟩
  split
  · exact ⟨rfl, id⟩
  split
  · split <;> exact ⟨rfl, id⟩
  split
  · exact ⟨rfl, id⟩
  split
  · split
    · exact ⟨rfl, id⟩
    · refine ⟨rfl, ?_⟩
      simp only [decide_eq_true_eq]
      omega
  · refine ⟨rfl, ?_⟩
    simp only [decide_eq_true_eq]
    omega

theorem readBlock_of_blockData {p : Nat} {data : List UInt8}
    (h : s.blockData c (p / s.blocksize) = some data) :
    p / s.blocksize < s.blockOffsets.length ∧ s.readBlock c p = (true, data) ∧
      min s.blocksize (s.filesize - p / s.blocksize * s.blocksize) ≤ data.length := by
  obtain ⟨hdata, hok⟩ := readBlock_start (c := c) (s := s) p
  unfold CompressedFile.blockData at h
  split at h
  · cases h
  · rename_i hlt
    dsimp only at h
    split at h
    · rename_i hwhole
      cases h
      exact ⟨Nat.not_le.mp hlt, Prod.ext (hok hwhole.1) hdata, hwhole.2⟩
    · cases h

theorem itemFilled_write (buffer : ByteStore) (p : Nat) :
    ItemFilled c s ⟨buffer.write 0 (s.readBlock c p).2, p - p % s.blocksize⟩ := by
  refine ⟨p / s.blocksize, ?_, ?_⟩
  · have hsplit := Nat.div_add_mod' p s.blocksize
    dsimp only
    omega
  · intro data hdata i hi
    rw [(readBlock_of_blockData hdata).2.1]
    exact ByteStore.write_of_mem (Nat.zero_le i) hi

theorem Filled.makeRoom (h : Filled c s₀ s) : Filled c s₀ (s.makeRoom c) := by
  have hread : s.readOnly = true := by
    rw [h.same]
    exact h.readOnly
  have hallocate : Filled c s₀ { s with allocated := s.allocated + 1 } := by
    refine ⟨?_, h.readOnly, h.items⟩
    have hsame := h.same
    rw [CompressedFile.mk.injEq] at hsame ⊢
    simp only [hsame, and_self]
  unfold CompressedFile.makeRoom
  split
  · rename_i toremove rest hitems
    split
    · rw [evict_readOnly hread]
      refine ⟨?_, h.readOnly, ?_⟩
      · have hsame := h.same
        rw [CompressedFile.mk.injEq] at hsame ⊢
        simp only [hsame, and_self]
      · intro item hmem
        exact h.items item (by rw [hitems]; exact List.mem_cons_of_mem _ hmem)
    · exact hallocate
  · exact hallocate

theorem Filled.withLast (h : Filled c s₀ s) {item : SCacheItem} (hitem : ItemFilled c s₀ item) :
    Filled c s₀ (s.withLast s.lruItems item) := by
  refine ⟨?_, h.readOnly, ?_⟩
  · have hsame := h.same
    unfold CompressedFile.withLast
    rw [CompressedFile.mk.injEq] at hsame ⊢
    simp only [hsame, and_self]
  · intro item' hmem
    rcases List.mem_append.mp hmem with hmem | hmem
    · exact h.items item' hmem
    · rw [List.mem_singleton.mp hmem]
      exact hitem

theorem cached_withLast {items : List SCacheItem} {item : SCacheItem} {p : Nat}
    (h : item.offset = p / s.blocksize * s.blocksize) :
    (s.withLast items item).cached p = some item := by
  have hholds : (s.withLast items item).holds p item = true :=
    (@holds_iff (s.withLast items item) item _ p h).mpr rfl
  unfold CompressedFile.cached
  change List.find? _ (items ++ [item]).reverse = _
  rw [List.reverse_append, List.reverse_singleton, List.singleton_append,
    List.find?_cons_of_pos hholds]

theorem Filled.readBlock_makeRoom (h : Filled c s₀ s) (p : Nat) :
    (s.makeRoom c).readBlock c p = s.readBlock c p :=
  (h.makeRoom.readBlock p).trans (h.readBlock p).symm

/-- What a turn finds of its block. -/
structure Loaded (c : BlockCodec) (s₀ s : CompressedFile) (found : Bool) (s' : CompressedFile) :
    Prop where
  filled : Filled c s₀ s'
  position : s'.currentPosition = s.currentPosition
  copies : found = true ↔ s.Copies c
  item : found = true → ∃ item, s'.cached s.currentPosition = some item ∧
    ItemFilled c s₀ item ∧ item.offset = s.currentPosition / s₀.blocksize * s₀.blocksize

theorem Filled.load_hit (h : Filled c s₀ s) {item : SCacheItem}
    (hcached : s.cached s.currentPosition = some item) :
    Loaded c s₀ s (s.load c).1 (s.load c).2 := by
  have hload : s.load c = (true, s) := by
    unfold CompressedFile.load
    rw [hcached]
  rw [hload]
  have hmem := List.mem_reverse.mp (List.mem_of_find?_eq_some hcached)
  have hfilled := h.items item hmem
  have hblocksize := h.blocksize
  refine ⟨h, rfl, iff_of_true rfl (.inl (by rw [hcached]; rfl)),
    fun _ => ⟨item, hcached, hfilled, ?_⟩⟩
  obtain ⟨k, hk, -⟩ := hfilled
  have hholds := List.find?_some hcached
  rw [holds_iff (by rw [hblocksize]; exact hk), hblocksize] at hholds
  rw [hholds, hk]

theorem Filled.load_miss (h : Filled c s₀ s) (hcached : s.cached s.currentPosition = none) :
    Loaded c s₀ s (s.load c).1 (s.load c).2 := by
  have hload : s.load c = s.fillCache c s.currentPosition := by
    unfold CompressedFile.load
    rw [hcached]
  have hcopies : s.Copies c ↔ s.currentPosition / s.blocksize < s.blockOffsets.length ∧
      (s.readBlock c s.currentPosition).1 = true := by
    unfold Copies
    rw [hcached]
    simp
  rw [hload]
  unfold CompressedFile.fillCache
  split
  · rename_i hle
    refine ⟨h, rfl, iff_of_false (by simp) ?_, nofun⟩
    rw [hcopies]
    exact fun hboth => Nat.not_lt.mpr hle hboth.1
  · rename_i hlt
    dsimp only
    have hroom := h.makeRoom
    have hitem := @itemFilled_write c s₀ s.nextBuffer s.currentPosition
    rw [← h.blocksize, ← h.readBlock] at hitem
    rw [h.readBlock_makeRoom]
    refine ⟨hroom.withLast hitem, ?_, ?_, ?_⟩
    · change (s.makeRoom c).currentPosition = _
      exact (sameHandle_makeRoom s).2.1
    · rw [hcopies]
      exact ⟨fun hok => ⟨Nat.not_le.mp hlt, hok⟩, And.right⟩
    · intro hok
      have hsplit := Nat.div_add_mod' s.currentPosition s₀.blocksize
      have halign : s.currentPosition - s.currentPosition % s.blocksize =
          s.currentPosition / s₀.blocksize * s₀.blocksize := by
        rw [h.blocksize]
        omega
      refine ⟨_, cached_withLast ?_, hitem, halign⟩
      rw [hroom.blocksize]
      exact halign

theorem Filled.load (h : Filled c s₀ s) : Loaded c s₀ s (s.load c).1 (s.load c).2 := by
  cases hcached : s.cached s.currentPosition with
  | some item => exact h.load_hit hcached
  | none => exact h.load_miss hcached

theorem Filled.readTurn_stop (h : Filled c s₀ s) (hcopies : ¬ s.Copies c) (bsize : Nat) :
    s.readTurn c bsize = some ([], (s.load c).2) := by
  have hfound : (s.load c).1 = false := by
    rw [← Bool.not_eq_true, h.load.copies]
    exact hcopies
  unfold CompressedFile.readTurn
  dsimp only
  split
  · rfl
  · rw [if_pos (by rw [hfound]; decide)]

theorem Filled.readTurn_copy (h : Filled c s₀ s) (hcopies : s.Copies c) (bsize : Nat) :
    ∃ item, ItemFilled c s₀ item ∧
      item.offset = s.currentPosition / s₀.blocksize * s₀.blocksize ∧
      s.readTurn c bsize = if s.filesize < s.currentPosition then none
        else some (item.buffer.read (s.currentPosition % s.blocksize) (s.canRead bsize),
          { (s.load c).2 with currentPosition := s.currentPosition + s.canRead bsize }) := by
  have hload := h.load
  have hfound := hload.copies.mpr hcopies
  obtain ⟨item, hcached, hitem, halign⟩ := hload.item hfound
  refine ⟨item, hitem, halign, ?_⟩
  have hinner : s.currentPosition - item.offset = s.currentPosition % s.blocksize := by
    rw [halign, h.blocksize]
    exact Nat.mod_eq_sub_div_mul.symm
  have hfilesize : (s.load c).2.filesize = s.filesize :=
    hload.filled.filesize.trans h.filesize.symm
  have hblocksize : (s.load c).2.blocksize = s.blocksize :=
    hload.filled.blocksize.trans h.blocksize.symm
  have hcan : min (min bsize ((s.load c).2.blocksize - s.currentPosition % s.blocksize))
      ((s.load c).2.filesize - s.currentPosition) = s.canRead bsize := by
    rw [hfilesize, hblocksize]
    rfl
  unfold CompressedFile.readTurn
  dsimp only
  rw [hload.position, hcached]
  dsimp only
  rw [if_neg (by rw [hfound]; decide), hinner, hcan, hfilesize]

theorem correct_nil (c : BlockCodec) (s : CompressedFile) (pos : Nat) : s.Correct c pos [] := nofun

theorem correct_append {pos : Nat} {more : List UInt8} :
    s.Correct c pos (bytes ++ more) ↔
      s.Correct c pos bytes ∧ s.Correct c (pos + bytes.length) more := by
  constructor
  · intro h
    constructor
    · intro i hi
      obtain ⟨data, hdata, hbyte⟩ := h i (by rw [List.length_append]; omega)
      rw [List.getElem_append_left hi] at hbyte
      exact ⟨data, hdata, hbyte⟩
    · intro i hi
      obtain ⟨data, hdata, hbyte⟩ := h (bytes.length + i) (by rw [List.length_append]; omega)
      simp only [← Nat.add_assoc] at hdata hbyte
      rw [List.getElem_append_right (Nat.le_add_right _ _)] at hbyte
      simp only [Nat.add_sub_cancel_left] at hbyte
      exact ⟨data, hdata, hbyte⟩
  · rintro ⟨hfirst, hmore⟩ i hi
    by_cases hlt : i < bytes.length
    · rw [List.getElem_append_left hlt]
      exact hfirst i hlt
    · rw [List.getElem_append_right (Nat.not_lt.mp hlt)]
      rw [List.length_append] at hi
      have h := hmore (i - bytes.length) (by omega)
      rw [(by omega : pos + bytes.length + (i - bytes.length) = pos + i)] at h
      exact h

theorem correct_of_item {item : SCacheItem} {data : List UInt8} {p n : Nat}
    (hdata : s.blockData c (p / s.blocksize) = some data)
    (hbuffer : ∀ i (h : i < data.length), item.buffer i = data[i])
    (hn : n ≤ s.blocksize - p % s.blocksize) (hend : n ≤ s.filesize - p) :
    s.Correct c p (item.buffer.read (p % s.blocksize) n) := by
  have hlength := (readBlock_of_blockData hdata).2.2
  have hsplit := Nat.div_add_mod' p s.blocksize
  have hmod := Nat.mod_lt p s.blocksize_pos
  intro i hi
  rw [ByteStore.read_length] at hi
  have hblock : (p + i) / s.blocksize = p / s.blocksize := by
    rw [Nat.div_eq_iff s.blocksize_pos]
    omega
  have hinner : (p + i) % s.blocksize = p % s.blocksize + i := by
    have hsplit' := Nat.div_add_mod' (p + i) s.blocksize
    rw [hblock] at hsplit'
    omega
  have hlt : p % s.blocksize + i < data.length := by omega
  refine ⟨data, by rw [hblock]; exact hdata, ?_⟩
  rw [hinner, List.getElem?_eq_getElem hlt, ByteStore.getElem_read, hbuffer _ hlt]

theorem Filled.turn_iff (h : Filled c s₀ s) (bsize : Nat) :
    (∃ bytes s', s.readTurn c bsize = some (bytes, s') ∧ s₀.Correct c s.currentPosition bytes) ↔
      s.TurnFits c bsize := by
  by_cases hcopies : s.Copies c
  · obtain ⟨item, ⟨k, hk, hitem⟩, halign, hturn⟩ := h.readTurn_copy hcopies bsize
    obtain rfl := Nat.eq_of_mul_eq_mul_right s₀.blocksize_pos (halign.symm.trans hk)
    rw [hturn]
    constructor
    · rintro ⟨bytes, s', hsome, hcorrect⟩
      split at hsome
      · cases hsome
      · rename_i hle
        cases hsome
        refine ⟨fun _ => Nat.not_lt.mp hle, ?_⟩
        intro _ hpos hlt
        have hmod := Nat.mod_lt s.currentPosition s.blocksize_pos
        have hone : 0 < s.canRead bsize := by
          unfold canRead
          omega
        obtain ⟨data, hdata, -⟩ := hcorrect 0 (by rw [ByteStore.read_length]; exact hone)
        rw [h.blockData, h.blocksize]
        rw [Nat.add_zero] at hdata
        rw [hdata]
        rfl
    · intro hfits
      rw [if_neg (Nat.not_lt.mpr (hfits.inside hcopies))]
      refine ⟨_, _, rfl, ?_⟩
      by_cases hnone : s.canRead bsize = 0
      · rw [hnone]
        exact correct_nil c s₀ _
      · have hcan : 0 < bsize ∧ s.currentPosition < s.filesize := by
          unfold canRead at hnone
          omega
        have hsome := hfits.loaded hcopies hcan.1 hcan.2
        rw [h.blockData, h.blocksize] at hsome
        obtain ⟨data, hdata⟩ := Option.isSome_iff_exists.mp hsome
        rw [h.blocksize]
        apply correct_of_item hdata (hitem data hdata)
        · unfold canRead
          rw [h.blocksize]
          omega
        · unfold canRead
          rw [h.filesize]
          omega
  · refine iff_of_true ⟨[], _, h.readTurn_stop hcopies bsize, correct_nil c s₀ _⟩ ?_
    exact ⟨fun hc => absurd hc hcopies, fun hc => absurd hc hcopies⟩

theorem Filled.readTurn (h : Filled c s₀ s) (hturn : s.readTurn c bsize = some (bytes, s')) :
    Filled c s₀ s' ∧ s'.currentPosition = s.currentPosition + bytes.length := by
  have hload := h.load
  by_cases hcopies : s.Copies c
  · obtain ⟨item, -, -, heq⟩ := h.readTurn_copy hcopies bsize
    rw [heq] at hturn
    split at hturn
    · cases hturn
    · cases hturn
      exact ⟨hload.filled.move _, by rw [ByteStore.read_length]⟩
  · rw [h.readTurn_stop hcopies bsize] at hturn
    cases hturn
    exact ⟨hload.filled, hload.position⟩

theorem readLoop_eq_some {all : List UInt8} {t : CompressedFile}
    (h : s.readLoop c bsize = some (all, t)) :
    ∃ bytes s', s.readTurn c bsize = some (bytes, s') ∧
      ((0 < bytes.length ∧ bytes.length < bsize ∧ ∃ more,
          s'.readLoop c (bsize - bytes.length) = some (more, t) ∧ all = bytes ++ more) ∨
        (¬ (0 < bytes.length ∧ bytes.length < bsize) ∧ all = bytes ∧ t = s')) := by
  rw [CompressedFile.readLoop] at h
  cases hturn : s.readTurn c bsize with
  | none =>
    rw [hturn] at h
    cases h
  | some result =>
    obtain ⟨bytes, s'⟩ := result
    refine ⟨bytes, s', rfl, ?_⟩
    rw [hturn] at h
    dsimp only at h
    split at h
    · rename_i hmore
      obtain ⟨⟨more, t'⟩, hrest, heq⟩ := Option.map_eq_some_iff.mp h
      cases heq
      exact .inl ⟨hmore.1, hmore.2, more, hrest, rfl⟩
    · rename_i hmore
      cases h
      exact .inr ⟨hmore, rfl, rfl⟩

theorem Filled.readLoop (h : Filled c s₀ s) (hloop : s.readLoop c bsize = some (bytes, s')) :
    Filled c s₀ s' := by
  induction bsize using Nat.strong_induction_on generalizing s bytes with
  | _ bsize ih =>
    obtain ⟨first, s₁, hturn, ⟨hpos, hlt, more, hrest, -⟩ | ⟨-, -, rfl⟩⟩ := readLoop_eq_some hloop
    · exact ih _ (by omega) (h.readTurn hturn).1 hrest
    · exact (h.readTurn hturn).1

theorem Filled.loop_correct (h : Filled c s₀ s) (hfits : LoopFits c s bsize) :
    ∃ bytes s', s.readLoop c bsize = some (bytes, s') ∧
      s₀.Correct c s.currentPosition bytes := by
  induction hfits with
  | @turn s bsize fits next ih =>
    obtain ⟨bytes, s', hturn, hcorrect⟩ := (h.turn_iff bsize).mpr fits
    rw [CompressedFile.readLoop, hturn]
    dsimp only
    split
    · rename_i hmore
      obtain ⟨hfilled, hpos⟩ := h.readTurn hturn
      obtain ⟨more, t, hrest, hcorrect'⟩ := ih bytes s' hturn hmore.1 hmore.2 hfilled
      rw [hrest]
      rw [hpos] at hcorrect'
      exact ⟨bytes ++ more, t, rfl, correct_append.mpr ⟨hcorrect, hcorrect'⟩⟩
    · exact ⟨bytes, s', rfl, hcorrect⟩

theorem Filled.loop_fits (h : Filled c s₀ s) (hloop : s.readLoop c bsize = some (bytes, s'))
    (hcorrect : s₀.Correct c s.currentPosition bytes) : LoopFits c s bsize := by
  induction bsize using Nat.strong_induction_on generalizing s bytes with
  | _ bsize ih =>
    obtain ⟨first, s₁, hturn, hmore⟩ := readLoop_eq_some hloop
    obtain ⟨hfilled, hpos⟩ := h.readTurn hturn
    rcases hmore with ⟨hsome, hlt, more, hrest, rfl⟩ | ⟨hlast, rfl, rfl⟩
    · obtain ⟨hfirst, hcorrect'⟩ := correct_append.mp hcorrect
      refine .turn ((h.turn_iff bsize).mp ⟨first, s₁, hturn, hfirst⟩) ?_
      intro bytes' s'' hturn' _ _
      rw [hturn] at hturn'
      cases hturn'
      rw [← hpos] at hcorrect'
      exact ih _ (by omega) hfilled hrest hcorrect'
    · refine .turn ((h.turn_iff bsize).mp ⟨bytes, s', hturn, hcorrect⟩) ?_
      intro bytes' s'' hturn' hsome hlt
      rw [hturn] at hturn'
      cases hturn'
      exact absurd ⟨hsome, hlt⟩ hlast

theorem Filled.read_iff (h : Filled c s₀ s) (call : ReadCall) :
    ReadCorrect c s₀ s call ↔ ReadFits c s call := by
  have hseek := h.seek call.spos
  constructor
  · rintro ⟨bytes, s', hloop, hcorrect⟩
    exact hseek.loop_fits hloop hcorrect
  · exact hseek.loop_correct

theorem Filled.readStep (h : Filled c s₀ s) {call : ReadCall}
    (hstep : s.readStep c call = some s') : Filled c s₀ s' := by
  obtain ⟨⟨bytes, t⟩, hloop, rfl⟩ := Option.map_eq_some_iff.mp hstep
  exact (h.seek call.spos).readLoop hloop

theorem readIndex_items (s : CompressedFile) :
    s.readIndex.lruItems = s.lruItems ∧ s.readIndex.readOnly = s.readOnly := by
  unfold readIndex
  generalize s.filesize / s.blocksize + _ = nOffsetItems
  dsimp only
  split
  · exact ⟨rfl, rfl⟩
  · exact ⟨rfl, rfl⟩

theorem openExisting_items {file : StoredFile} {heap : Nat → ByteStore}
    (h : openExisting file heap = some s) : s.lruItems = [] ∧ s.readOnly = true := by
  unfold openExisting at h
  dsimp only at h
  split at h
  · cases h
    exact readIndex_items _
  · cases h

/-- The calls of `Read` give what the file has exactly if no turn copies from a buffer whose block
cannot be loaded. -/
theorem reads_correct_iff {file : StoredFile} {heap : Nat → ByteStore}
    (hopen : openExisting file heap = some s) (unreadable : Nat → Bool) (calls : List ReadCall) :
    TransitionSystem.Guarded (readStep c) (ReadCorrect c (s.damaged unreadable))
        (s.damaged unreadable) calls ↔
      TransitionSystem.Guarded (readStep c) (ReadFits c) (s.damaged unreadable) calls := by
  obtain ⟨hitems, hread⟩ := openExisting_items hopen
  have hfilled : Filled c (s.damaged unreadable) (s.damaged unreadable) := by
    refine ⟨rfl, hread, ?_⟩
    change ∀ item ∈ s.lruItems, _
    rw [hitems]
    exact nofun
  exact TransitionSystem.guarded_congr (fun _ _ _ h hstep => h.readStep hstep)
    (fun _ call h => h.read_iff call) hfilled

def oneBlock : StoredFile :=
  (StoredFile.empty.write 0 (headerMagic ++ littleEndian 8 61 ++ littleEndian 8 3
    ++ littleEndian 4 cacheBuffersize)).write 50
      (littleEndian 4 3 ++ littleEndian 4 modeZlib ++ [1, 2, 3] ++ littleEndian 8 50)

theorem oneBlock_opens : (openExisting oneBlock fun _ _ => 9).isSome := by decide +kernel

def brokenBlock : CompressedFile :=
  ((openExisting oneBlock fun _ _ => 9).get oneBlock_opens).damaged fun i => i = 60

theorem reads_correct_iff_oneBlock :
    TransitionSystem.Guarded (readStep storing) (ReadCorrect storing brokenBlock) brokenBlock
        [⟨0, 3⟩] ↔
      TransitionSystem.Guarded (readStep storing) (ReadFits storing) brokenBlock [⟨0, 3⟩] :=
  reads_correct_iff (Option.some_get oneBlock_opens).symm _ _

/-- The second of two calls returns what was in the buffer before the block could not be read to
it. -/
theorem failed_load_read_again :
    (brokenBlock.Read storing 0 3).map Prod.fst = some [] ∧
    ((readStep storing brokenBlock ⟨0, 3⟩).bind fun s =>
      (s.Read storing 0 3).map Prod.fst) = some [9, 9, 9] ∧
    ¬ TransitionSystem.Guarded (readStep storing) (ReadCorrect storing brokenBlock) brokenBlock
      [⟨0, 3⟩, ⟨0, 3⟩] := by
  have hsecond : ((readStep storing brokenBlock ⟨0, 3⟩).bind fun s =>
      (s.Read storing 0 3).map Prod.fst) = some [9, 9, 9] := by decide +kernel
  refine ⟨by decide +kernel, hsecond, ?_⟩
  rintro ⟨-, hrest⟩
  obtain ⟨s, hstep, hread⟩ := Option.bind_eq_some_iff.mp hsecond
  obtain ⟨⟨bytes, s', heq, hcorrect⟩, -⟩ := hrest s hstep
  rw [heq] at hread
  cases hread
  obtain ⟨data, hdata, -⟩ := hcorrect 0 (by decide)
  have hnone : brokenBlock.blockData storing 0 = none := by decide +kernel
  change brokenBlock.blockData storing ((0 + 0) / brokenBlock.blocksize) = some data at hdata
  rw [Nat.zero_div, hnone] at hdata
  cases hdata

end Reads

end CompressedFile

end UrBackup
