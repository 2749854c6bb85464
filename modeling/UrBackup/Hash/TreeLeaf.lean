import UrBackup.Hash.TreeFeeding

/-! The checksums of the small blocks are enough for the leaf of a block. -/
namespace UrBackup

open ByteOrder

def numSmallblocks (size : Nat) : Nat := (size + treehashSmallblock - 1) / treehashSmallblock

def smallblock (data : List UInt8) (i : Nat) : List UInt8 :=
  (data.drop (i * treehashSmallblock)).take treehashSmallblock

/-- The hash of a block that is transferred: its digest, and the checksum of each small block. -/
def chunkHash (d : Digests) (data : List UInt8) : List UInt8 :=
  (d.md5 data).toList ++ (List.range (numSmallblocks data.length)).flatMap fun i =>
    adlerBytes (urbAdler32 (urbAdler32 0 none) (some (smallblock data i)))

namespace TreeHash

variable {d : Digests} {data : List UInt8} {i k : Nat}

theorem flatMap_slot {α : Type*} {f : α → List UInt8} (hf : ∀ a, (f a).length = 4) {l : List α} {i : Nat}
    (h : i < l.length) : ((l.flatMap f).drop (i * 4)).take 4 = f l[i] := by
  induction l generalizing i with
  | nil => exact absurd h (Nat.not_lt_zero i)
  | cons a l ih =>
    rw [List.flatMap_cons]
    cases i with
    | zero => rw [Nat.zero_mul, List.drop_zero, List.take_left' (hf a), List.getElem_cons_zero]
    | succ i =>
      rw [Nat.succ_mul, Nat.add_comm, ← List.drop_drop, List.drop_left' (hf a)]
      exact ih (Nat.lt_of_succ_lt_succ h)

theorem numAdlers_chunkHash (d : Digests) (data : List UInt8) :
    ((chunkHash d data).length - 16) / 4 = numSmallblocks data.length := by
  have hlength : (chunkHash d data).length = 16 + numSmallblocks data.length * 4 := by
    simp [chunkHash, List.length_flatMap, adlerBytes]
  omega

theorem allAdler_chunkHash (h : i < numSmallblocks data.length) :
    allAdler (chunkHash d data) i = urbAdler32 (urbAdler32 0 none) (some (smallblock data i)) := by
  have hslot : ((chunkHash d data).drop (16 + i * 4)).take 4 =
      adlerBytes (urbAdler32 (urbAdler32 0 none) (some (smallblock data i))) := by
    have hrange : i < (List.range (numSmallblocks data.length)).length := by rwa [List.length_range]
    rw [chunkHash, ← List.drop_drop, List.drop_left' Vector.length_toList]
    refine (flatMap_slot (fun _ => littleEndian_length 4 _) hrange).trans ?_
    rw [List.getElem_range]
    rfl
  rw [allAdler, hslot, adlerBytes, ofLittleEndian_littleEndian (UInt32.toNat_lt _), UInt32.ofNat_toNat]

theorem adlerLength_eq (h : i < numSmallblocks data.length) :
    adlerLength (numSmallblocks data.length) data.length i = (smallblock data i).length := by
  unfold numSmallblocks at *
  unfold adlerLength
  rw [smallblock, List.length_take, List.length_drop]
  unfold treehashSmallblock at *
  split
  · omega
  · omega

theorem blockAdler_succ (h : k < numSmallblocks data.length) (j : Fin 12) :
    blockAdler (data.take ((k + 1) * treehashSmallblock)) j =
      if (⟨k % 12, Nat.mod_lt _ (by decide)⟩ : Fin 12) = j then
        urbAdler32 (blockAdler (data.take (k * treehashSmallblock)) j) (some (smallblock data k))
      else blockAdler (data.take (k * treehashSmallblock)) j := by
  have hsplit : data.take ((k + 1) * treehashSmallblock) =
      data.take (k * treehashSmallblock) ++ smallblock data k := by
    rw [Nat.succ_mul, List.take_add, smallblock]
  have hlength : (data.take (k * treehashSmallblock)).length = k * treehashSmallblock := by
    rw [List.length_take]
    unfold numSmallblocks treehashSmallblock at *
    omega
  have hsmall : (smallblock data k).length ≤ treehashSmallblock := List.length_take_le _ _
  have hidx : adlerIdx (data.take (k * treehashSmallblock)).length =
      ⟨k % 12, Nat.mod_lt _ (by decide)⟩ := by
    unfold adlerIdx
    simp only [hlength, Nat.mul_div_cancel k (by decide : 0 < treehashSmallblock)]
  have hlane := @lane_append j (data.take (k * treehashSmallblock)) (smallblock data k)
    (by rw [hlength, Nat.mul_mod_left]; omega)
  rw [hidx] at hlane
  rw [hsplit, blockAdler, hlane]
  split
  · exact urbAdler32_append reduced_initial _ _
  · rw [List.append_nil, blockAdler]

/-- Up to twelve small blocks have a checksum each. Induction on their number. -/
theorem blockAdler_first (hk : k ≤ 12) (h : k ≤ numSmallblocks data.length) (j : Fin 12) :
    blockAdler (data.take (k * treehashSmallblock)) j =
      if k ≤ j then urbAdler32 0 none
      else urbAdler32 (urbAdler32 0 none) (some (smallblock data j)) := by
  induction k with
  | zero => rw [Nat.zero_mul, List.take_zero, blockAdler_nil, if_pos (Nat.zero_le _)]
  | succ k ih =>
    rw [blockAdler_succ h, ih (Nat.le_of_succ_le hk) (Nat.le_of_succ_le h)]
    have hmod : k % 12 = k := Nat.mod_eq_of_lt hk
    simp only [Fin.ext_iff, hmod]
    by_cases hj : k = j
    · subst hj
      simp
    · by_cases hle : k ≤ j
      · rw [if_neg hj, if_pos hle, if_pos (by omega)]
      · rw [if_neg hj, if_neg hle, if_neg (by omega)]

/-- The checksums from the thirteenth on are combined with those before. Induction on their number. -/
theorem combine_get (n : Nat) (h : 12 + n ≤ numSmallblocks data.length) {adlers : Vector UInt32 12}
    (hadlers : ∀ j, adlers.get j = blockAdler (data.take (12 * treehashSmallblock)) j) (j : Fin 12) :
    ((List.range' 12 n).foldl (combineAdler (chunkHash d data) (numSmallblocks data.length)
      data.length) adlers).get j = blockAdler (data.take ((12 + n) * treehashSmallblock)) j := by
  induction n generalizing j with
  | zero => exact hadlers j
  | succ n ih =>
    have hlt : 12 + n < numSmallblocks data.length := h
    have hsmall : (smallblock data (12 + n)).length < 2 ^ 32 := by
      have := List.length_take_le treehashSmallblock (data.drop ((12 + n) * treehashSmallblock))
      unfold smallblock
      unfold treehashSmallblock at *
      omega
    rw [List.range'_1_concat, List.foldl_append, List.foldl_cons, List.foldl_nil]
    rw [combineAdler, get_set, ih (Nat.le_of_succ_le h), ih (Nat.le_of_succ_le h),
      allAdler_chunkHash hlt, adlerLength_eq hlt,
      urbAdler32Combine_urbAdler32 (reduced_blockAdler _ _) _ hsmall,
      ← Nat.add_assoc, blockAdler_succ hlt]
    split
    · rename_i hj
      rw [hj]
    · rfl

theorem take_numSmallblocks (data : List UInt8) :
    data.take (numSmallblocks data.length * treehashSmallblock) = data := by
  apply List.take_of_length_le
  unfold numSmallblocks treehashSmallblock
  omega

theorem allAdlerTo64byteHash_chunkHash (d : Digests) (data : List UInt8) :
    allAdlerTo64byteHash (chunkHash d data) data.length = blockLeaf d data := by
  have hfirst : ∀ j : Fin 12, (Vector.ofFn fun i : Fin 12 =>
      if numSmallblocks data.length ≤ i then urbAdler32 0 none
      else allAdler (chunkHash d data) i).get j =
        blockAdler (data.take (min 12 (numSmallblocks data.length) * treehashSmallblock)) j := by
    intro j
    have hget : ∀ f : Fin 12 → UInt32, (Vector.ofFn f).get j = f j := fun f =>
      Vector.getElem_ofFn j.isLt
    have hj := j.isLt
    rw [hget, blockAdler_first (Nat.min_le_left _ _) (Nat.min_le_right _ _)]
    by_cases hle : numSmallblocks data.length ≤ j
    · rw [if_pos hle, if_pos (by omega)]
    · rw [if_neg hle, if_neg (by omega), allAdler_chunkHash (Nat.not_le.mp hle)]
  have hall : ∀ j, (combineAdlers (chunkHash d data) (numSmallblocks data.length) data.length
      (Vector.ofFn fun i : Fin 12 => if numSmallblocks data.length ≤ i then urbAdler32 0 none
        else allAdler (chunkHash d data) i)).get j = blockAdler data j := by
    intro j
    unfold combineAdlers
    by_cases hlong : 12 ≤ numSmallblocks data.length
    · rw [Nat.min_eq_left hlong] at hfirst
      rw [combine_get _ (by omega) hfirst, Nat.add_sub_cancel' hlong, take_numSmallblocks]
    · rw [Nat.min_eq_right (by omega), take_numSmallblocks] at hfirst
      rw [Nat.sub_eq_zero_of_le (by omega)]
      exact hfirst j
  have hvector : combineAdlers (chunkHash d data) (numSmallblocks data.length) data.length
      (Vector.ofFn fun i : Fin 12 => if numSmallblocks data.length ≤ i then urbAdler32 0 none
        else allAdler (chunkHash d data) i) = Vector.ofFn (blockAdler data) := by
    apply Vector.ext
    intro j hj
    rw [Vector.getElem_ofFn]
    exact hall ⟨j, hj⟩
  unfold allAdlerTo64byteHash
  rw [numAdlers_chunkHash]
  dsimp only
  rw [hvector, blockLeaf, chunkHash, List.take_left' Vector.length_toList]

/-- The bytes of a block are hashed and the block is finalized, which is done already for a full
one. -/
def hashBlock (d : Digests) (withOutput : Bool) (data : List UInt8) : TreeHash :=
  let t := (new withOutput).hash d data
  if data.length = treehashBlocksize then t else finalizeCurr d { t with offset := 0 }

theorem levelHash_hashBlock (d : Digests) (withOutput : Bool) {data : List UInt8}
    (h : data.length ≤ treehashBlocksize) :
    (hashBlock d withOutput data).levelHash = [[blockLeaf d data]] := by
  obtain ⟨done, block, hfed, hdata⟩ := @Fed.hash d [] [] data _ (fed_new d withOutput)
    ⟨.inl rfl, by rwa [List.length_nil, Nat.zero_mod, Nat.zero_add]⟩
  rw [List.flatten_nil, List.nil_append, List.nil_append] at hdata
  have hlength := congrArg List.length hdata
  have hshort := hfed.short
  unfold hashBlock
  dsimp only
  cases done with
  | nil =>
    obtain rfl : block = data := hdata
    obtain ⟨-, -, -, -, -, -, hlevels⟩ :=
      finalizeCurr_spec d { (new withOutput).hash d block with offset := 0 }
    have hleaf : leaf d { (new withOutput).hash d block with offset := 0 } = blockLeaf d block :=
      hfed.inBlock.leaf
    rw [if_neg (by omega), hlevels, hleaf, hfed.levels]
    rfl
  | cons b done =>
    have hb := hfed.full b List.mem_cons_self
    rw [List.flatten_cons, List.length_append, List.length_append, hb] at hlength
    have hrest : done = [] := by
      cases done with
      | nil => rfl
      | cons b' done =>
        have hb' := hfed.full b' (List.mem_cons_of_mem _ List.mem_cons_self)
        rw [List.flatten_cons, List.length_append, hb'] at hlength
        unfold treehashBlocksize at *
        omega
    subst hrest
    have hnil : block = [] := List.length_eq_zero_iff.mp (by omega)
    have hwhole : b = data := by
      rw [← hdata, hnil, List.flatten_cons, List.flatten_nil, List.append_nil, List.append_nil]
    rw [if_pos (by rw [← hwhole, hb]), hfed.levels, hwhole]
    rfl

/-- For each block of at most 512KB the leaf that hashing its bytes adds is the one that its chunk hash
gives, with and without a hash output. -/
theorem leaf_eq_allAdlerTo64byteHash (d : Digests) (withOutput : Bool) {data : List UInt8}
    (h : data.length ≤ treehashBlocksize) :
    (hashBlock d withOutput data).levelHash =
        [[allAdlerTo64byteHash (chunkHash d data) data.length]] ∧
      ∀ a b : List UInt8, b.length ≤ treehashSmallblock →
        urbAdler32Combine (urbAdler32 (urbAdler32 0 none) (some a))
            (urbAdler32 (urbAdler32 0 none) (some b)) (UInt32.ofNat b.length) =
          urbAdler32 (urbAdler32 0 none) (some (a ++ b)) := by
  constructor
  · rw [levelHash_hashBlock d withOutput h, allAdlerTo64byteHash_chunkHash]
  · intro a b hb
    rw [urbAdler32Combine_urbAdler32 (reduced_urbAdler32 reduced_initial a),
      urbAdler32_append reduced_initial]
    unfold treehashSmallblock at hb
    omega

section Example

def lengthDigests : Digests :=
  ⟨fun data => Vector.replicate 16 (UInt8.ofNat data.length), fun data =>
    Vector.replicate 64 (UInt8.ofNat data.length)⟩

theorem leaf_eq_allAdlerTo64byteHash_threeBytes :
    (hashBlock lengthDigests true [1, 2, 3]).levelHash =
      [[allAdlerTo64byteHash (chunkHash lengthDigests [1, 2, 3]) 3]] :=
  (@leaf_eq_allAdlerTo64byteHash lengthDigests true [1, 2, 3] (by decide)).1

end Example

end TreeHash

end UrBackup
