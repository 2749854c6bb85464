import UrBackup.FSImage.CompressedBlocks

/-! One turn of `Read` and of `Write` on a compressed file, against a plain file. -/
namespace UrBackup

/-- A plain file: the bytes that were never written are zero. -/
structure PlainFile where
  bytes : ByteStore
  size : Nat

namespace PlainFile

def empty : PlainFile := ⟨fun _ => 0, 0⟩

def write (f : PlainFile) (pos : Nat) (data : List UInt8) : PlainFile :=
  ⟨f.bytes.write pos data, max f.size (pos + data.length)⟩

def read (f : PlainFile) (pos n : Nat) : List UInt8 := f.bytes.read pos (min n (f.size - pos))

theorem write_append (f : PlainFile) (pos : Nat) (data data' : List UInt8) :
    f.write pos (data ++ data') = (f.write pos data).write (pos + data.length) data' := by
  unfold write
  rw [ByteStore.write_append, List.length_append, Nat.max_assoc]
  congr 1
  omega

end PlainFile

namespace CompressedFile

/-- What a compressed file has of its blocks is what a plain file has. -/
structure Agrees (c : BlockCodec) (s : CompressedFile) (plain : PlainFile) : Prop where
  size : s.filesize = plain.size
  beyond : ∀ p, plain.size ≤ p → plain.bytes p = 0
  kept : ∀ k f, s.content c k = some f → ∀ i < s.blocksize, k * s.blocksize + i < plain.size →
    f i = plain.bytes (k * s.blocksize + i)
  absent : ∀ k, s.content c k = none → ∀ i < s.blocksize, plain.bytes (k * s.blocksize + i) = 0

section Load

variable {c : BlockCodec} {s s' : CompressedFile} {plain : PlainFile} {item : SCacheItem} {k : Nat}

theorem Agrees.refines (h : s.Agrees c plain) (hrefines : Refines c s s')
    (hsize : s'.filesize = s.filesize) : s'.Agrees c plain := by
  have hblock := hrefines.blocksize
  refine ⟨hsize.trans h.size, h.beyond, ?_, ?_⟩
  · intro k f' hf' i hi hlt
    rw [hblock] at hi hlt ⊢
    cases hcontent : s.content c k with
    | none =>
      rw [hrefines.fresh k hcontent f' hf' i hi, h.absent k hcontent i hi]
    | some f =>
      obtain ⟨f₂, hf₂, hsame⟩ := hrefines.kept k f hcontent
      rw [hf', Option.some.injEq] at hf₂
      rw [hf₂, hsame i hi, h.kept k f hcontent i hi hlt]
  · intro k hnone i hi
    rw [hblock] at hi ⊢
    cases hcontent : s.content c k with
    | none => exact h.absent k hcontent i hi
    | some f =>
      obtain ⟨f', hf', -⟩ := hrefines.kept k f hcontent
      rw [hnone] at hf'
      cases hf'

theorem makeRoom_spec (hc : c.Inverts s.blocksize) (hs : s.Shape c) :
    (s.makeRoom c).Shape c ∧ Refines c s (s.makeRoom c) ∧
      (s.makeRoom c).lruItems.length < (s.makeRoom c).nbuffers ∧
      ∀ item ∈ (s.makeRoom c).lruItems, item ∈ s.lruItems := by
  have hallocate : s.lruItems.length < s.nbuffers →
      ({ s with allocated := s.allocated + 1 } : CompressedFile).Shape c ∧
      Refines c s { s with allocated := s.allocated + 1 } ∧ s.lruItems.length < s.nbuffers ∧
      ∀ item ∈ s.lruItems, item ∈ s.lruItems := by
    intro hlt
    refine ⟨⟨hs.aligned, hs.distinct, hs.nbuffers, hs.room, hs.entries, hs.header, hs.readable,
      hs.error, hs.top, hs.clean⟩, ?_, hlt, fun _ h => h⟩
    exact ⟨rfl, (Refines.refl c s).kept, (Refines.refl c s).fresh⟩
  have hnbuffers := hs.nbuffers
  have hroom := hs.room
  unfold makeRoom
  cases hitems : s.lruItems with
  | nil =>
    rw [hitems] at hallocate
    exact hallocate hnbuffers
  | cons toremove rest =>
    simp only
    rw [hitems, List.length_cons] at hroom
    split
    · rename_i hfull
      have hs' := hs.evictFirst hitems
      refine ⟨hs', refines_evictFirst hc hs hitems, ?_, ?_⟩
      · rw [List.length_cons] at hfull
        change rest.length < (s.evictFromLruCache c toremove).nbuffers
        have hsame : (s.evictFromLruCache c toremove).nbuffers = s.nbuffers := by
          unfold evictFromLruCache
          split <;> rfl
        omega
      · exact fun item h => List.mem_cons_of_mem _ h
    · rename_i hnotFull
      rw [hitems] at hallocate
      exact hallocate (by rw [List.length_cons] at hnotFull ⊢; omega)

/-- The fields that only `Read` and `Write` themselves change. -/
def SameHandle (s s' : CompressedFile) : Prop :=
  s'.filesize = s.filesize ∧ s'.currentPosition = s.currentPosition ∧ s'.error = s.error ∧
    s'.readOnly = s.readOnly ∧ s'.blocksize = s.blocksize

theorem sameHandle_evict (s : CompressedFile) (item : SCacheItem) :
    SameHandle s (s.evictFromLruCache c item) := by
  unfold evictFromLruCache
  split <;> exact ⟨rfl, rfl, rfl, rfl, rfl⟩

theorem sameHandle_makeRoom (s : CompressedFile) : SameHandle s (s.makeRoom c) := by
  unfold makeRoom
  split
  · split
    · exact sameHandle_evict s _
    · exact ⟨rfl, rfl, rfl, rfl, rfl⟩
  · exact ⟨rfl, rfl, rfl, rfl, rfl⟩

/-- The content of a block in the table does not depend on how much of the file is known. -/
theorem tableContent_filesize (hc : c.Inverts s.blocksize) (hs : s.Shape c)
    (items : List SCacheItem) (filesize pos : Nat) (k : Nat) :
    tableContent c { s with lruItems := items, filesize, currentPosition := pos } k =
      s.tableContent c k :=
  tableContent_eq hc hs rfl rfl rfl rfl fun _ _ h => h

/-- An item is put behind others; the file may have grown, and the position is another one. -/
def settle (s : CompressedFile) (items : List SCacheItem) (item : SCacheItem)
    (filesize pos : Nat) : CompressedFile :=
  { s with lruItems := items ++ [item], filesize, currentPosition := pos }

/-- An item may be settled: its block is not among the others, and is in the file. -/
structure Settles (c : BlockCodec) (s : CompressedFile) (items : List SCacheItem)
    (item : SCacheItem) (k filesize : Nat) : Prop where
  others : ∀ item' ∈ items, item' ∈ s.lruItems ∧ item'.offset ≠ item.offset
  all : ∀ item' ∈ s.lruItems, item'.offset ≠ item.offset → item' ∈ items
  distinct : (items.map SCacheItem.offset).Nodup
  room : items.length < s.nbuffers
  aligned : item.offset = k * s.blocksize
  inside : k * s.blocksize ≤ filesize
  grows : s.filesize ≤ filesize
  top : filesize = s.filesize ∨ filesize ≤ (k + 1) * s.blocksize
  clean : s.readOnly = true → filesize = s.filesize ∧
    ∃ f, s.tableContent c k = some f ∧ ∀ i < s.blocksize, f i = item.buffer i

theorem shape_settle (hc : c.Inverts s.blocksize) (hs : s.Shape c) {items : List SCacheItem}
    {filesize : Nat} (h : Settles c s items item k filesize) (pos : Nat) :
    (s.settle items item filesize pos).Shape c := by
  refine ⟨?_, ?_, hs.nbuffers, ?_, ?_, hs.header, hs.readable, hs.error, ?_, ?_⟩
  · intro item' hmem
    rcases List.mem_append.mp hmem with hmem | hmem
    · obtain ⟨k', halign, hle⟩ := hs.aligned item' (h.others item' hmem).1
      exact ⟨k', halign, Nat.le_trans hle h.grows⟩
    · rw [List.mem_singleton.mp hmem]
      exact ⟨k, h.aligned, h.inside⟩
  · change ((items ++ [item]).map SCacheItem.offset).Nodup
    rw [List.map_append, List.nodup_append]
    refine ⟨h.distinct, List.nodup_singleton _, ?_⟩
    intro offset hoffset offset' hoffset'
    obtain ⟨item', hmem, rfl⟩ := List.mem_map.mp hoffset
    rw [List.map_singleton, List.mem_singleton] at hoffset'
    rw [hoffset']
    exact (h.others item' hmem).2
  · change (items ++ [item]).length ≤ s.nbuffers
    rw [List.length_append, List.length_singleton]
    exact h.room
  · intro k' blockOffset hentry
    obtain ⟨hle, hok⟩ := hs.entries k' blockOffset hentry
    refine ⟨Nat.le_trans hle h.grows, ?_⟩
    rcases hok with hhole | ⟨hzero, hskip⟩ | hstored
    · exact .inl hhole
    · exact .inr (.inl ⟨hzero, Nat.le_trans hskip h.grows⟩)
    · exact .inr (.inr hstored)
  · change filesize ≤ s.blockOffsets.length * s.blocksize ∨
      ∃ item' ∈ items ++ [item], filesize ≤ item'.offset + s.blocksize
    rcases h.top with heq | hle
    · rw [heq]
      rcases hs.top with htop | ⟨last, hlast, htop⟩
      · exact .inl htop
      · by_cases hsame : last.offset = item.offset
        · exact .inr ⟨item, List.mem_append_right _ List.mem_cons_self, hsame ▸ htop⟩
        · exact .inr ⟨last, List.mem_append_left _ (h.all last hlast hsame), htop⟩
    · refine .inr ⟨item, List.mem_append_right _ List.mem_cons_self, ?_⟩
      rw [h.aligned]
      rw [Nat.add_mul, Nat.one_mul] at hle
      exact hle
  · intro hread item' hmem k' halign
    obtain ⟨hsize, f, hf, hbuffer⟩ := h.clean hread
    have htable := tableContent_filesize hc hs (items ++ [item]) filesize pos k'
    unfold settle
    rw [htable]
    rcases List.mem_append.mp hmem with hmem | hmem
    · exact hs.clean hread item' (h.others item' hmem).1 k' halign
    · have hitem := List.mem_singleton.mp hmem
      subst hitem
      have hk : k' = k := Nat.eq_of_mul_eq_mul_right s.blocksize_pos (halign.symm.trans h.aligned)
      subst hk
      exact ⟨f, hf, hbuffer⟩

theorem content_settle (hc : c.Inverts s.blocksize) (hs : s.Shape c) {items : List SCacheItem}
    {filesize : Nat} (h : Settles c s items item k filesize) (pos k' : Nat) :
    (s.settle items item filesize pos).content c k' =
      if k' = k then some item.buffer else s.content c k' := by
  have hs' := shape_settle hc hs h pos
  split
  · rename_i hk
    subst hk
    exact content_of_mem hs' (List.mem_append_right _ List.mem_cons_self) h.aligned
  · rename_i hk
    have hne : item.offset ≠ k' * s.blocksize := by
      rw [h.aligned]
      exact fun heq => hk (Nat.eq_of_mul_eq_mul_right s.blocksize_pos heq).symm
    by_cases hmem : ∃ item' ∈ items, item'.offset = k' * s.blocksize
    · obtain ⟨item', hmem', halign⟩ := hmem
      rw [content_of_mem hs (h.others item' hmem').1 halign]
      exact content_of_mem hs' (List.mem_append_left _ hmem') halign
    · have hnot : ∀ item' ∈ items, item'.offset ≠ k' * s.blocksize :=
        fun item' hmem' halign => hmem ⟨item', hmem', halign⟩
      rw [content_of_not_mem hs]
      · rw [content_of_not_mem hs']
        · exact tableContent_filesize hc hs _ _ _ _
        · intro item' hmem'
          rcases List.mem_append.mp hmem' with hmem' | hmem'
          · exact hnot item' hmem'
          · rw [List.mem_singleton.mp hmem']
            exact hne
      · intro item' hmem' halign
        exact hnot item' (h.all item' hmem' (by rw [halign]; exact Ne.symm hne)) halign

theorem load_of_content (hc : c.Inverts s.blocksize) (hs : s.Shape c) {f : ByteStore}
    (hcontent : s.content c (s.currentPosition / s.blocksize) = some f) :
    ∃ s' item, s.load c = (true, s') ∧ s'.Shape c ∧ Refines c s s' ∧ SameHandle s s' ∧
      s'.cached s.currentPosition = some item ∧
      item.offset = s.currentPosition / s.blocksize * s.blocksize ∧
      ∀ i < s.blocksize, item.buffer i = f i := by
  cases hcached : s.cached s.currentPosition with
  | some item =>
    obtain ⟨hmem, halign⟩ := mem_of_cached hs hcached
    rw [content_of_mem hs hmem halign, Option.some.injEq] at hcontent
    refine ⟨s, item, ?_, hs, Refines.refl c s, ⟨rfl, rfl, rfl, rfl, rfl⟩, hcached, halign,
      fun i _ => by rw [hcontent]⟩
    rw [load, hcached]
  | none =>
    obtain ⟨hs₁, hrefines, hroom, hsub⟩ := makeRoom_spec hc hs
    obtain ⟨hsize, hpos, -, -, hblock⟩ := @sameHandle_makeRoom c s
    have hhandle := @sameHandle_makeRoom c s
    have hne : ∀ item ∈ (s.makeRoom c).lruItems,
        item.offset ≠ s.currentPosition / s.blocksize * s.blocksize :=
      fun item hmem => offset_ne_of_cached_eq_none hcached (hsub item hmem)
    obtain ⟨f₁, hf₁, hsame⟩ := hrefines.kept _ f hcontent
    rw [content_of_not_mem hs₁ (by rw [hblock]; exact hne)] at hf₁
    have hlt : s.currentPosition / s.blocksize < s.blockOffsets.length := by
      rw [content_of_not_mem hs fun item => offset_ne_of_cached_eq_none hcached] at hcontent
      exact lt_of_tableContent hcontent
    have hlt₁ := lt_of_tableContent hf₁
    rw [← hblock] at hf₁
    obtain ⟨data, hread, hlength, hdata⟩ :=
      readBlock_of_tableContent (p := s.currentPosition) (by rw [hblock]; exact hc) hs₁ hf₁
    rw [hblock] at hlength hf₁
    have hbuffer : ∀ i < s.blocksize, (s.nextBuffer.write 0 data) i = f₁ i := by
      intro i hi
      rw [ByteStore.write_of_mem (Nat.zero_le i) (by omega), hdata, List.getD_eq_getElem?_getD,
        List.getElem?_eq_getElem (by omega), Option.getD_some]
      rfl
    let item : SCacheItem := { s.newItem s.currentPosition with
      buffer := s.nextBuffer.write 0 data }
    have halign : item.offset = s.currentPosition / s.blocksize * s.blocksize :=
      (Nat.div_mul_self_eq_mod_sub_self).symm
    have hsettles : Settles c (s.makeRoom c) (s.makeRoom c).lruItems item
        (s.currentPosition / s.blocksize) (s.makeRoom c).filesize := by
      refine ⟨fun item' hmem => ⟨hmem, by rw [halign]; exact hne item' hmem⟩,
        fun item' hmem _ => hmem, hs₁.distinct, hroom, by rw [halign, hblock], ?_,
        Nat.le_refl _, .inl rfl, ?_⟩
      · exact (hs₁.entries _ _ (List.getElem?_eq_getElem hlt₁)).1
      · intro _
        refine ⟨rfl, f₁, hf₁, ?_⟩
        rw [hblock]
        exact fun i hi => (hbuffer i hi).symm
    have hs' := shape_settle (by rw [hblock]; exact hc) hs₁ hsettles
      (s.makeRoom c).currentPosition
    have hcontent' := fun k' => content_settle (by rw [hblock]; exact hc) hs₁ hsettles
      (s.makeRoom c).currentPosition k'
    refine ⟨(s.makeRoom c).settle (s.makeRoom c).lruItems item (s.makeRoom c).filesize
      (s.makeRoom c).currentPosition, item, ?_, hs', ?_, ?_, ?_, halign, ?_⟩
    · rw [load, hcached]
      simp only
      rw [fillCache, if_neg (by omega)]
      simp only [hread]
      rfl
    · refine hrefines.trans ⟨rfl, ?_, ?_⟩
      · intro k' f' hf'
        rw [hcontent' k']
        split
        · rename_i hk
          rw [hk, content_of_not_mem hs₁ (by rw [hblock]; exact hne), hf₁,
            Option.some.injEq] at hf'
          subst hf'
          refine ⟨_, rfl, ?_⟩
          rw [hblock]
          exact hbuffer
        · exact ⟨f', hf', fun _ _ => rfl⟩
      · intro k' hnone f' hf'
        rw [hcontent' k'] at hf'
        split at hf'
        · rename_i hk
          rw [hk, content_of_not_mem hs₁ (by rw [hblock]; exact hne), hf₁] at hnone
          cases hnone
        · rw [hnone] at hf'
          cases hf'
    · exact hhandle
    · exact cached_of_mem hs' (List.mem_append_right _ List.mem_cons_self)
        (halign.trans (by
          change _ = s.currentPosition / (s.makeRoom c).blocksize * (s.makeRoom c).blocksize
          rw [hblock]))
    · exact fun i hi => (hbuffer i hi).trans (hsame i hi)

/-- A block that the table does not reach to is not read. -/
theorem load_of_absent (hcached : s.cached s.currentPosition = none)
    (htable : s.blockOffsets.length ≤ s.currentPosition / s.blocksize) :
    s.load c = (false, s) := by
  rw [load, hcached]
  simp only
  rw [fillCache, if_pos htable]

/-- Behind the end of the file a block that the file does not have was not skipped either. -/
theorem absent_of_content_eq_none (hs : s.Shape c)
    (hcontent : s.content c (s.currentPosition / s.blocksize) = none) :
    s.cached s.currentPosition = none ∧ (s.filesize ≤ s.currentPosition →
      s.blockOffsets.length ≤ s.currentPosition / s.blocksize) := by
  have hcached : s.cached s.currentPosition = none := by
    cases hcases : s.cached s.currentPosition with
    | none => rfl
    | some item =>
      obtain ⟨hmem, halign⟩ := mem_of_cached hs hcases
      rw [content_of_mem hs hmem halign] at hcontent
      cases hcontent
  refine ⟨hcached, ?_⟩
  intro hend
  by_contra hlt
  obtain ⟨blockOffset, hentry⟩ : ∃ blockOffset,
      s.blockOffsets[s.currentPosition / s.blocksize]? = some blockOffset :=
    ⟨_, List.getElem?_eq_getElem (Nat.not_le.mp hlt)⟩
  rw [content_of_not_mem hs fun item => offset_ne_of_cached_eq_none hcached] at hcontent
  have hzero : blockOffset = 0 := by
    by_contra hne
    unfold tableContent at hcontent
    rw [hentry] at hcontent
    simp only [if_neg hne] at hcontent
    cases hcontent
  rw [hzero] at hentry
  rcases (hs.entries _ _ hentry).2 with hhole | ⟨-, hskip⟩ | ⟨offset, buffer, hoffset, hstored⟩
  · cases hhole
  · have := Nat.lt_div_mul_add s.blocksize_pos (a := s.currentPosition)
    rw [Nat.add_mul, Nat.one_mul] at hskip
    omega
  · have hheader := hstored.header
    unfold headerSize at hheader
    omega

end Load

section ReadTurn

variable {c : BlockCodec} {s : CompressedFile} {plain : PlainFile}

/-- What a turn of `Read` needs: a block before the end of the file is one that the file has, and
the position is not behind the end in a block that the file has. -/
structure TurnReadOk (c : BlockCodec) (s : CompressedFile) : Prop where
  inside : s.currentPosition < s.filesize →
    (s.content c (s.currentPosition / s.blocksize)).isSome
  behind : s.filesize < s.currentPosition →
    (s.content c (s.currentPosition / s.blocksize)).isNone

/-- What a turn of `Read` copies, before the end of the file. -/
def canRead (s : CompressedFile) (bsize : Nat) : Nat :=
  min (min bsize (s.blocksize - s.currentPosition % s.blocksize)) (s.filesize - s.currentPosition)

theorem shape_move (hc : c.Inverts s.blocksize) (hs : s.Shape c) (pos : Nat) :
    ({ s with currentPosition := pos } : CompressedFile).Shape c :=
  ⟨hs.aligned, hs.distinct, hs.nbuffers, hs.room, hs.entries, hs.header, hs.readable, hs.error,
    hs.top, fun h item hmem k halign => by
      rw [tableContent_filesize hc hs s.lruItems s.filesize pos k]
      exact hs.clean h item hmem k halign⟩

theorem refines_move (hc : c.Inverts s.blocksize) (hs : s.Shape c) (pos : Nat) :
    Refines c s { s with currentPosition := pos } := by
  have hsame : ∀ k, content c { s with currentPosition := pos } k = s.content c k := by
    intro k
    unfold content
    rw [tableContent_filesize hc hs s.lruItems s.filesize pos k]
    rfl
  refine ⟨rfl, ?_, ?_⟩
  · intro k f hf
    exact ⟨f, (hsame k).trans hf, fun _ _ => rfl⟩
  · intro k hnone f' hf'
    rw [hsame, hnone] at hf'
    cases hf'

theorem readTurn_spec (hc : c.Inverts s.blocksize) (hs : s.Shape c) (ha : s.Agrees c plain)
    (hok : s.TurnReadOk c) (bsize : Nat) :
    ∃ s', s.readTurn c bsize =
        some (plain.bytes.read s.currentPosition (s.canRead bsize), s') ∧
      s'.Shape c ∧ s'.Agrees c plain ∧ s'.blocksize = s.blocksize ∧ s'.readOnly = s.readOnly ∧
      s'.currentPosition = s.currentPosition + s.canRead bsize := by
  cases hcontent : s.content c (s.currentPosition / s.blocksize) with
  | none =>
    have hend : s.filesize ≤ s.currentPosition := by
      by_contra hlt
      have hsome := hok.inside (Nat.not_le.mp hlt)
      rw [hcontent] at hsome
      cases hsome
    obtain ⟨hcached, htable⟩ := absent_of_content_eq_none hs hcontent
    have hload := load_of_absent (c := c) hcached (htable hend)
    have hzero : s.canRead bsize = 0 := by
      unfold canRead
      omega
    refine ⟨s, ?_, hs, ha, rfl, rfl, by rw [hzero, Nat.add_zero]⟩
    rw [readTurn, hload]
    simp only [hcached, hzero]
    rfl
  | some f =>
    obtain ⟨s', item, hload, hs', hrefines, ⟨hsize, hpos, -, hread, hblock⟩, hcached, halign,
      hbuffer⟩ := load_of_content hc hs hcontent
    have hle : s.currentPosition ≤ s.filesize := by
      by_contra hlt
      have hnone := hok.behind (Nat.not_le.mp hlt)
      rw [hcontent] at hnone
      cases hnone
    have hinner : s.currentPosition - item.offset = s.currentPosition % s.blocksize := by
      rw [halign]
      exact Nat.mod_eq_sub_div_mul.symm
    have hcan : min (min bsize (s'.blocksize - (s'.currentPosition - item.offset)))
        (s'.filesize - s'.currentPosition) = s.canRead bsize := by
      rw [hblock, hpos, hinner, hsize]
      rfl
    have hc' : c.Inverts s'.blocksize := by
      rw [hblock]
      exact hc
    refine ⟨{ s' with currentPosition := s'.currentPosition + s.canRead bsize }, ?_,
      shape_move hc' hs' _, (ha.refines hrefines hsize).refines (refines_move hc' hs' _) rfl,
      hblock, hread, congrArg (· + _) hpos⟩
    rw [readTurn, hload]
    simp only [hpos, hcached]
    rw [if_neg (by simp), if_neg (by omega), ← hpos, hcan, hpos, hinner]
    congr 2
    apply List.ext_getElem
    · rw [ByteStore.read_length, ByteStore.read_length]
    · intro i hi hi'
      rw [ByteStore.getElem_read, ByteStore.getElem_read]
      rw [ByteStore.read_length, canRead] at hi
      have hsplit := Nat.div_add_mod' s.currentPosition s.blocksize
      have hlt : s.currentPosition % s.blocksize + i < s.blocksize := by omega
      have hkept := ha.kept _ f hcontent _ hlt (by rw [← ha.size]; omega)
      rw [hbuffer _ hlt, hkept, ← Nat.add_assoc, hsplit]

/-- What `Read` needs in all of its turns. -/
inductive ReadOk (c : BlockCodec) : CompressedFile → Nat → Prop
  | turn {s : CompressedFile} {bsize : Nat} (ok : s.TurnReadOk c)
      (next : ∀ bytes s', s.readTurn c bsize = some (bytes, s') → 0 < bytes.length →
        bytes.length < bsize → ReadOk c s' (bsize - bytes.length)) : ReadOk c s bsize

theorem readLoop_spec {bsize : Nat} (hok : ReadOk c s bsize) (hc : c.Inverts s.blocksize)
    (hs : s.Shape c) (ha : s.Agrees c plain) :
    ∃ s', s.readLoop c bsize = some (plain.read s.currentPosition bsize, s') ∧ s'.Shape c ∧
      s'.Agrees c plain ∧ s'.blocksize = s.blocksize ∧ s'.readOnly = s.readOnly := by
  induction hok with
  | @turn s bsize ok next ih =>
    obtain ⟨s', hturn, hs', ha', hblock, hread, hpos⟩ := readTurn_spec hc hs ha ok bsize
    have hmod := Nat.mod_lt s.currentPosition s.blocksize_pos
    have hsize := ha.size
    rw [readLoop, hturn]
    simp only [ByteStore.read_length]
    split
    · rename_i hmore
      obtain ⟨s'', hrest, hs'', ha'', hblock', hread'⟩ := ih _ s' hturn
        (by rw [ByteStore.read_length]; exact hmore.1)
        (by rw [ByteStore.read_length]; exact hmore.2) (by rw [hblock]; exact hc) hs' ha'
      rw [ByteStore.read_length] at hrest
      refine ⟨s'', ?_, hs'', ha'', hblock'.trans hblock, hread'.trans hread⟩
      rw [hrest, Option.map_some, Option.some.injEq, Prod.mk.injEq]
      refine ⟨?_, rfl⟩
      have hcan : s.canRead bsize ≤ plain.size - s.currentPosition := by
        rw [← hsize]
        exact Nat.min_le_right _ _
      have hall : min bsize (plain.size - s.currentPosition) = s.canRead bsize +
          min (bsize - s.canRead bsize) (plain.size - (s.currentPosition + s.canRead bsize)) := by
        omega
      rw [hpos, PlainFile.read, PlainFile.read, hall, ByteStore.read_add]
    · rename_i hlast
      refine ⟨s', ?_, hs', ha', hblock, hread⟩
      have hcan : s.canRead bsize = min bsize (plain.size - s.currentPosition) := by
        rw [← hsize]
        unfold canRead at hlast ⊢
        omega
      rw [hcan]
      rfl

end ReadTurn

section WriteTurn

variable {c : BlockCodec} {s : CompressedFile} {plain : PlainFile} {item : SCacheItem} {k : Nat}

/-- What is in the buffer of a block that the file does not have, before it is written to. -/
def freshBuffer (c : BlockCodec) (s : CompressedFile) : ByteStore :=
  if s.blockOffsets.length ≤ s.currentPosition / s.blocksize then s.nextBuffer
  else s.nextBuffer.write 0 ((s.makeRoom c).readBlock c s.currentPosition).2

/-- What the file has between its end and a position is zero. -/
def GapOk (c : BlockCodec) (s : CompressedFile) (pos : Nat) : Prop :=
  ∀ p, s.filesize ≤ p → p < pos → ∀ f, s.content c (p / s.blocksize) = some f →
    f (p % s.blocksize) = 0

/-- What a turn of `Write` needs: what the file has between its end and the position is zero, and
so is what a new buffer has of the file, but for the bytes that are written. -/
structure TurnWriteOk (c : BlockCodec) (s : CompressedFile) (data : List UInt8) : Prop where
  gap : s.GapOk c s.currentPosition
  fresh : s.content c (s.currentPosition / s.blocksize) = none → ∀ i < s.blocksize,
    i < s.currentPosition % s.blocksize ∨ s.currentPosition % s.blocksize + data.length ≤ i →
    s.currentPosition / s.blocksize * s.blocksize + i <
      max s.filesize (s.currentPosition + data.length) → s.freshBuffer c i = 0

theorem GapOk.eq_zero {pos i : Nat} {f : ByteStore} (h : s.GapOk c pos) (hi : i < s.blocksize)
    (hlt : k * s.blocksize + i < pos) (hle : s.filesize ≤ k * s.blocksize + i)
    (hf : s.content c k = some f) : f i = 0 := by
  have hdiv : (k * s.blocksize + i) / s.blocksize = k := by
    rw [Nat.mul_comm, Nat.mul_add_div s.blocksize_pos, Nat.div_eq_of_lt hi, Nat.add_zero]
  have hmod : (k * s.blocksize + i) % s.blocksize = i := by
    rw [Nat.mul_comm, Nat.mul_add_mod, Nat.mod_eq_of_lt hi]
  have hzero := h _ hle hlt f (by rw [hdiv]; exact hf)
  rw [hmod] at hzero
  exact hzero

theorem GapOk.refines {s' : CompressedFile} {pos : Nat} (h : s.GapOk c pos)
    (hrefines : Refines c s s') (hsize : s'.filesize = s.filesize) : s'.GapOk c pos := by
  intro p hle hlt f' hf'
  have hmod := Nat.mod_lt p s.blocksize_pos
  rw [hrefines.blocksize] at hf' ⊢
  cases hold : s.content c (p / s.blocksize) with
  | none => exact hrefines.fresh _ hold f' hf' _ hmod
  | some f =>
    obtain ⟨f₂, hf₂, hkept⟩ := hrefines.kept _ f hold
    rw [hf', Option.some.injEq] at hf₂
    rw [hf₂, hkept _ hmod]
    exact h p (by rw [← hsize]; exact hle) hlt f hold

theorem agrees_settle (hc : c.Inverts s.blocksize) (hs : s.Shape c) (ha : s.Agrees c plain)
    {data : List UInt8} {items : List SCacheItem} {pos : Nat} {f : ByteStore}
    (hdata : pos % s.blocksize + data.length ≤ s.blocksize)
    (hsettles : Settles c s items item (pos / s.blocksize)
      (max s.filesize (pos + data.length)))
    (hbuffer : item.buffer = f.write (pos % s.blocksize) data)
    (hgap : GapOk c s pos)
    (hold : ∀ i < s.blocksize,
      i < pos % s.blocksize ∨ pos % s.blocksize + data.length ≤ i →
      pos / s.blocksize * s.blocksize + i < max s.filesize (pos + data.length) →
      f i = plain.bytes (pos / s.blocksize * s.blocksize + i)) :
    (s.settle items item (max s.filesize (pos + data.length)) (pos + data.length)).Agrees c
      (plain.write pos data) := by
  have hsplit := Nat.div_add_mod' pos s.blocksize
  have hcontent := content_settle hc hs hsettles (pos + data.length)
  have hsize := ha.size
  have hout : ∀ k i, i < s.blocksize → k ≠ pos / s.blocksize →
      ¬ (pos ≤ k * s.blocksize + i ∧ k * s.blocksize + i < pos + data.length) := by
    rintro k i hi hne ⟨hle, hlt⟩
    apply hne
    rw [eq_comm]
    rcases Nat.lt_trichotomy k (pos / s.blocksize) with hk | hk | hk
    · have := Nat.mul_le_mul_right s.blocksize (show k + 1 ≤ pos / s.blocksize from hk)
      rw [Nat.add_mul, Nat.one_mul] at this
      omega
    · exact hk.symm
    · have := Nat.mul_le_mul_right s.blocksize (show pos / s.blocksize + 1 ≤ k from hk)
      rw [Nat.add_mul, Nat.one_mul] at this
      omega
  refine ⟨?_, ?_, ?_, ?_⟩
  · change max s.filesize _ = max plain.size _
    rw [hsize]
  · intro p hp
    change plain.bytes.write pos data p = 0
    change max plain.size _ ≤ p at hp
    rw [ByteStore.write_of_le (by omega), ha.beyond p (by omega)]
  · intro k f hf i hi hlt
    change i < s.blocksize at hi
    change k * s.blocksize + i < max plain.size (pos + data.length) at hlt
    change f i = plain.bytes.write pos data (k * s.blocksize + i)
    rw [hcontent k] at hf
    split at hf
    · rename_i hk
      subst hk
      rw [Option.some.injEq] at hf
      rw [← hf, hbuffer]
      by_cases hmem : pos % s.blocksize ≤ i ∧ i < pos % s.blocksize + data.length
      · rw [ByteStore.write_of_mem hmem.1 (by omega), ByteStore.write_of_mem (by omega) (by omega)]
        congr 1
        omega
      · rw [ByteStore.write_of_not_mem hmem, ByteStore.write_of_not_mem (by omega)]
        exact hold i hi (by omega) (by omega)
    · rename_i hk
      rw [ByteStore.write_of_not_mem (hout k i hi hk)]
      by_cases hin : k * s.blocksize + i < plain.size
      · exact ha.kept k f hf i hi hin
      · rw [ha.beyond _ (Nat.not_lt.mp hin)]
        have hnot := hout k i hi hk
        exact hgap.eq_zero hi (by omega) (by omega) hf
  · intro k hnone i hi
    change i < s.blocksize at hi
    change plain.bytes.write pos data (k * s.blocksize + i) = 0
    rw [hcontent k] at hnone
    split at hnone
    · cases hnone
    · rename_i hk
      rw [ByteStore.write_of_not_mem (hout k i hi hk)]
      exact ha.absent k hnone i hi

theorem put_of_cached {data : List UInt8} {p : Nat} (hcached : s.cached p = some item)
    (hdata : p - item.offset + data.length ≤ s.blocksize) : s.put c p data =
      s.withLast (s.others p) { item with buffer := item.buffer.write (p - item.offset) data } := by
  rw [put, hcached]
  simp only
  rw [if_neg (by omega)]

theorem put_withLast {data : List UInt8} {items : List SCacheItem} {p : Nat}
    (hholds : s.holds p item = true) (hdata : p - item.offset + data.length ≤ s.blocksize) :
    (s.withLast items item).put c p data =
      s.withLast items { item with buffer := item.buffer.write (p - item.offset) data } := by
  have hcached : (s.withLast items item).cached p = some item := by
    change (items ++ [item]).reverse.find? (s.holds p) = some item
    rw [List.reverse_concat, List.find?_cons_of_pos hholds]
  have hothers : (s.withLast items item).others p = items := by
    change ((items ++ [item]).reverse.eraseP (s.holds p)).reverse = items
    rw [List.reverse_concat, List.eraseP_cons_of_pos hholds, List.reverse_reverse]
  rw [put_of_cached hcached hdata, hothers]
  rfl

theorem sameHandle_load (s : CompressedFile) : SameHandle s (s.load c).2 := by
  unfold load
  split
  · exact ⟨rfl, rfl, rfl, rfl, rfl⟩
  · unfold fillCache
    split
    · exact ⟨rfl, rfl, rfl, rfl, rfl⟩
    · exact @sameHandle_makeRoom c s

theorem writeTurn_of_put {data : List UInt8} {s₁ : CompressedFile} {items : List SCacheItem}
    (herror : s.error = false) (hsame : SameHandle s s₁)
    (hput : (s.load c).2.put c s.currentPosition data = s₁.withLast items item) :
    s.writeTurn c data = (true, s₁.settle items item
      (max s₁.filesize (s.currentPosition + data.length)) (s.currentPosition + data.length)) := by
  obtain ⟨-, hpos, herror₁, -, -⟩ := @sameHandle_load c s
  obtain ⟨-, hpos₂, herror₂, -, -⟩ := hsame
  unfold writeTurn
  generalize (s.load c).2 = s₂ at hpos herror₁ hput ⊢
  rw [← hpos] at hput
  simp only [settle, herror₁, herror, hput, withLast, herror₂, hpos₂, Bool.false_eq_true, if_false]

theorem writeTurn_of_content (hc : c.Inverts s.blocksize) (hs : s.Shape c)
    (ha : s.Agrees c plain) (hwrite : s.readOnly = false) {data : List UInt8} {f : ByteStore}
    (hdata : s.currentPosition % s.blocksize + data.length ≤ s.blocksize)
    (hok : s.TurnWriteOk c data)
    (hcontent : s.content c (s.currentPosition / s.blocksize) = some f) :
    ∃ s', s.writeTurn c data = (true, s') ∧ s'.Shape c ∧
      s'.Agrees c (plain.write s.currentPosition data) ∧ s'.blocksize = s.blocksize ∧
      s'.readOnly = false ∧ s'.currentPosition = s.currentPosition + data.length := by
  obtain ⟨s₁, item, hload, hs₁, hrefines, ⟨hsize, hpos, herror, hread, hblock⟩, hcached, halign,
    hbuffer⟩ := load_of_content hc hs hcontent
  have hinner : s.currentPosition - item.offset = s.currentPosition % s.blocksize := by
    rw [halign]
    exact Nat.mod_eq_sub_div_mul.symm
  have hperm := others_perm hcached
  obtain ⟨hnotMem, hdistinct⟩ := List.nodup_cons.mp ((hperm.map SCacheItem.offset).nodup_iff.mpr
    hs₁.distinct)
  have hlength := hperm.length_eq
  have hroom := hs₁.room
  rw [List.length_cons] at hlength
  have hsplit := Nat.div_add_mod' s.currentPosition s.blocksize
  have hc₁ : c.Inverts s₁.blocksize := by
    rw [hblock]
    exact hc
  generalize hitem : SCacheItem.mk (ByteStore.write item.buffer
    (s.currentPosition % s.blocksize) data) item.offset = item'
  have hoffset : item'.offset = item.offset := by rw [← hitem]
  have hsettles : Settles c s₁ (s₁.others s.currentPosition) item'
      (s.currentPosition / s₁.blocksize) (max s₁.filesize (s.currentPosition + data.length)) := by
    refine ⟨?_, ?_, hdistinct, by omega, by rw [hoffset, halign, hblock], ?_, Nat.le_max_left _ _,
      ?_, fun h => by rw [hread, hwrite] at h; cases h⟩
    · intro other hother
      refine ⟨hperm.subset (List.mem_cons_of_mem _ hother), ?_⟩
      rw [hoffset]
      exact fun heq => hnotMem (heq ▸ List.mem_map_of_mem hother)
    · intro other hother hne
      rcases List.mem_cons.mp (hperm.symm.subset hother) with rfl | hmem
      · exact absurd hoffset.symm hne
      · exact hmem
    · rw [hblock]
      omega
    · rw [hblock, Nat.add_mul, Nat.one_mul]
      omega
  refine ⟨s₁.settle (s₁.others s.currentPosition) item'
    (max s₁.filesize (s.currentPosition + data.length)) (s.currentPosition + data.length), ?_,
    shape_settle hc₁ hs₁ hsettles _, ?_, hblock, hread.trans hwrite, rfl⟩
  · refine writeTurn_of_put (error_of_not_readOnly hs hwrite) ⟨hsize, hpos, herror, hread, hblock⟩ ?_
    rw [hload, put_of_cached hcached (by rw [hinner, hblock]; exact hdata), hinner, hitem]
  · refine agrees_settle hc₁ hs₁ (ha.refines hrefines hsize) (by rw [hblock]; exact hdata) hsettles
      (f := item.buffer) (by rw [← hitem, hblock]) (hok.gap.refines hrefines hsize) ?_
    intro i hi hout hlt
    rw [hblock] at hi hout hlt ⊢
    rw [hbuffer i hi]
    by_cases hin : s.currentPosition / s.blocksize * s.blocksize + i < plain.size
    · exact ha.kept _ f hcontent i hi hin
    · rw [ha.beyond _ (Nat.not_lt.mp hin)]
      have hend := ha.size
      exact hok.gap.eq_zero hi (by omega) (by omega) hcontent

/-- A turn that writes to a block that the file does not have. -/
theorem put_of_absent {data : List UInt8}
    (hdata : s.currentPosition % s.blocksize + data.length ≤ s.blocksize)
    (hcached : s.cached s.currentPosition = none) :
    (s.load c).2.put c s.currentPosition data = (s.makeRoom c).withLast (s.makeRoom c).lruItems
      ⟨(s.freshBuffer c).write (s.currentPosition % s.blocksize) data,
        s.currentPosition / s.blocksize * s.blocksize⟩ := by
  obtain ⟨-, -, -, -, hblock⟩ := @sameHandle_makeRoom c s
  have hoffset : (s.newItem s.currentPosition).offset =
      s.currentPosition / s.blocksize * s.blocksize := (Nat.div_mul_self_eq_mod_sub_self).symm
  have hinner : s.currentPosition - (s.newItem s.currentPosition).offset =
      s.currentPosition % s.blocksize := by
    rw [hoffset]
    exact Nat.mod_eq_sub_div_mul.symm
  by_cases htable : s.blockOffsets.length ≤ s.currentPosition / s.blocksize
  · rw [load_of_absent hcached htable, put, hcached]
    simp only
    rw [if_neg (by rw [hinner, hblock]; omega), hinner, hoffset, freshBuffer, if_pos htable]
    rfl
  · rw [load, hcached]
    simp only
    rw [fillCache, if_neg htable]
    simp only
    rw [put_withLast, freshBuffer, if_neg htable]
    · simp only [hinner]
      rw [hoffset]
      rfl
    · apply (holds_iff (k := s.currentPosition / s.blocksize) _).mpr
      · rw [hblock]
      · simp only [hoffset, hblock]
    · simp only [hinner, hblock]
      exact hdata

theorem writeTurn_of_absent (hc : c.Inverts s.blocksize) (hs : s.Shape c)
    (ha : s.Agrees c plain) (hwrite : s.readOnly = false) {data : List UInt8}
    (hdata : s.currentPosition % s.blocksize + data.length ≤ s.blocksize)
    (hok : s.TurnWriteOk c data)
    (hcontent : s.content c (s.currentPosition / s.blocksize) = none) :
    ∃ s', s.writeTurn c data = (true, s') ∧ s'.Shape c ∧
      s'.Agrees c (plain.write s.currentPosition data) ∧ s'.blocksize = s.blocksize ∧
      s'.readOnly = false ∧ s'.currentPosition = s.currentPosition + data.length := by
  obtain ⟨hcached, -⟩ := absent_of_content_eq_none hs hcontent
  obtain ⟨hs₁, hrefines, hroom, hsub⟩ := makeRoom_spec hc hs
  obtain ⟨hsize, hpos, herror, hread, hblock⟩ := @sameHandle_makeRoom c s
  have hput := put_of_absent (c := c) hdata hcached
  have hsplit := Nat.div_add_mod' s.currentPosition s.blocksize
  have hc₁ : c.Inverts (s.makeRoom c).blocksize := by
    rw [hblock]
    exact hc
  generalize hitem : SCacheItem.mk _ _ = item at hput
  have hoffset : item.offset = s.currentPosition / s.blocksize * s.blocksize := by rw [← hitem]
  have hsettles : Settles c (s.makeRoom c) (s.makeRoom c).lruItems item
      (s.currentPosition / (s.makeRoom c).blocksize)
      (max (s.makeRoom c).filesize (s.currentPosition + data.length)) := by
    refine ⟨?_, fun other hother _ => hother, hs₁.distinct, hroom, by rw [hoffset, hblock], ?_,
      Nat.le_max_left _ _, ?_, fun h => by rw [hread, hwrite] at h; cases h⟩
    · intro other hother
      refine ⟨hother, ?_⟩
      rw [hoffset]
      exact offset_ne_of_cached_eq_none hcached (hsub other hother)
    · rw [hblock]
      omega
    · rw [hblock, Nat.add_mul, Nat.one_mul]
      omega
  refine ⟨(s.makeRoom c).settle (s.makeRoom c).lruItems item
    (max (s.makeRoom c).filesize (s.currentPosition + data.length))
    (s.currentPosition + data.length), ?_, shape_settle hc₁ hs₁ hsettles _, ?_, hblock,
    hread.trans hwrite, rfl⟩
  · exact writeTurn_of_put (error_of_not_readOnly hs hwrite) (@sameHandle_makeRoom c s) hput
  · refine agrees_settle hc₁ hs₁ (ha.refines hrefines hsize) (by rw [hblock]; exact hdata) hsettles
      (f := s.freshBuffer c) (by rw [← hitem, hblock]) (hok.gap.refines hrefines hsize) ?_
    intro i hi hout hlt
    rw [hblock] at hi hout hlt ⊢
    rw [hsize] at hlt
    rw [hok.fresh hcontent i hi hout hlt, ha.absent _ hcontent i hi]

theorem writeTurn_spec (hc : c.Inverts s.blocksize) (hs : s.Shape c) (ha : s.Agrees c plain)
    (hwrite : s.readOnly = false) {data : List UInt8}
    (hdata : s.currentPosition % s.blocksize + data.length ≤ s.blocksize)
    (hok : s.TurnWriteOk c data) :
    ∃ s', s.writeTurn c data = (true, s') ∧ s'.Shape c ∧
      s'.Agrees c (plain.write s.currentPosition data) ∧ s'.blocksize = s.blocksize ∧
      s'.readOnly = false ∧ s'.currentPosition = s.currentPosition + data.length := by
  cases hcontent : s.content c (s.currentPosition / s.blocksize) with
  | none => exact writeTurn_of_absent hc hs ha hwrite hdata hok hcontent
  | some f => exact writeTurn_of_content hc hs ha hwrite hdata hok hcontent

/-- What `Write` needs in all of its turns. -/
inductive WriteOk (c : BlockCodec) : CompressedFile → List UInt8 → Prop
  | turn {s : CompressedFile} {buffer : List UInt8} (ok : s.TurnWriteOk c (buffer.take s.maxWrite))
      (next : ∀ s', s.writeTurn c (buffer.take s.maxWrite) = (true, s') →
        s.maxWrite < buffer.length → WriteOk c s' (buffer.drop s.maxWrite)) : WriteOk c s buffer

theorem maxWrite_eq (s : CompressedFile) :
    s.maxWrite = s.blocksize - s.currentPosition % s.blocksize := by
  have hsplit := Nat.div_add_mod' s.currentPosition s.blocksize
  unfold maxWrite
  rw [Nat.add_mul, Nat.one_mul]
  omega

theorem writeLoop_spec {buffer : List UInt8} (hok : WriteOk c s buffer)
    (hc : c.Inverts s.blocksize) (hs : s.Shape c) (ha : s.Agrees c plain)
    (hwrite : s.readOnly = false) :
    ∃ s', s.writeLoop c buffer = (buffer.length, s') ∧ s'.Shape c ∧
      s'.Agrees c (plain.write s.currentPosition buffer) ∧ s'.blocksize = s.blocksize ∧
      s'.readOnly = false := by
  induction hok generalizing plain with
  | @turn s buffer ok next ih =>
    have hmax := s.maxWrite_eq
    have hmod := Nat.mod_lt s.currentPosition s.blocksize_pos
    obtain ⟨s', hturn, hs', ha', hblock, hwrite', hpos⟩ := writeTurn_spec hc hs ha hwrite
      (by rw [List.length_take]; omega) ok
    rw [writeLoop, hturn]
    simp only [not_true_eq_false, if_false]
    split
    · rename_i hmore
      obtain ⟨s'', hrest, hs'', ha'', hblock', hwrite''⟩ :=
        ih s' hturn hmore (by rw [hblock]; exact hc) hs' ha' hwrite'
      refine ⟨s'', ?_, hs'', ?_, hblock'.trans hblock, hwrite''⟩
      · rw [hrest]
        simp only [List.length_take, List.length_drop]
        congr 1
        omega
      · rw [hpos, ← PlainFile.write_append, List.take_append_drop] at ha''
        exact ha''
    · rename_i hlast
      have hall : buffer.take s.maxWrite = buffer := List.take_of_length_le (by omega)
      rw [hall] at ha' ⊢
      exact ⟨s', rfl, hs', ha', hblock, hwrite'⟩

end WriteTurn

end CompressedFile

end UrBackup
