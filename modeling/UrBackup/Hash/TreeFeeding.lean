import UrBackup.Hash.TreeHash

/-! How a tree hash takes the data it is fed: which calls it takes whole, and that then only the data
count and not the calls. -/
namespace UrBackup

open Adler32

namespace TreeHash

def lane (j : Fin 12) (block : List UInt8) : List UInt8 :=
  (block.zipIdx.filter fun b => adlerIdx b.2 = j).map Prod.fst

def blockAdler (block : List UInt8) (j : Fin 12) : UInt32 :=
  urbAdler32 (urbAdler32 0 none) (some (lane j block))

theorem lane_append (j : Fin 12) {block data : List UInt8}
    (h : block.length % treehashSmallblock + data.length ≤ treehashSmallblock) :
    lane j (block ++ data) =
      lane j block ++ if adlerIdx block.length = j then data else [] := by
  have hidx : ∀ b ∈ data.zipIdx block.length, adlerIdx b.2 = adlerIdx block.length := by
    intro b hb
    obtain ⟨hge, hlt, -⟩ := List.mem_zipIdx hb
    have hdiv : b.2 / treehashSmallblock = block.length / treehashSmallblock := by
      unfold treehashSmallblock at *
      omega
    unfold adlerIdx
    simp only [hdiv]
  have hfilter : (data.zipIdx block.length).filter (fun b => adlerIdx b.2 = j) =
      if adlerIdx block.length = j then data.zipIdx block.length else [] := by
    split
    · rename_i hj
      refine List.filter_eq_self.mpr fun b hb => ?_
      rw [hidx b hb, hj]
      exact decide_eq_true rfl
    · rename_i hj
      refine List.filter_eq_nil_iff.mpr fun b hb => ?_
      rw [hidx b hb]
      simpa using hj
  unfold lane
  rw [List.zipIdx_append, Nat.zero_add, List.filter_append, List.map_append, hfilter]
  split
  · rw [List.zipIdx_map_fst]
  · rfl

theorem get_set (v : Vector UInt32 12) (i j : Fin 12) (x : UInt32) :
    (v.set i x).get j = if i = j then x else v.get j := by
  have hget := @Vector.getElem_set _ _ v i x i.isLt j j.isLt
  simp only [Fin.val_inj] at hget
  exact hget

/-- A block of which some bytes were hashed. -/
structure InBlock (block : List UInt8) (t : TreeHash) : Prop where
  offset : t.offset = block.length
  md5sum : t.md5sum = block
  adlers : ∀ j, t.adlers.get j = blockAdler block j

/-- What hashing within a block leaves as it is. -/
structure SameLevels (t t' : TreeHash) : Prop where
  hasSparse : t'.hasSparse = t.hasSparse
  sparse : t'.sparse = t.sparse
  levelHash : t'.levelHash = t.levelHash

theorem reduced_initial : Reduced (adlerSums (urbAdler32 0 none)) := adlerSums_none 0 ▸ reduced_start

theorem reduced_blockAdler (block : List UInt8) (j : Fin 12) : Reduced (adlerSums (blockAdler block j)) :=
  reduced_urbAdler32 reduced_initial _

theorem InBlock.turn {block data : List UInt8} {t : TreeHash} {i : Nat} (h : InBlock block t)
    (hidx : adlerIdx i = adlerIdx block.length)
    (hfits : block.length % treehashSmallblock + data.length ≤ treehashSmallblock) :
    InBlock (block ++ data) ((t.hashAdlers i data).advance data) ∧
      SameLevels t ((t.hashAdlers i data).advance data) := by
  have hadler : ∀ j, (t.hashAdlers i data).adlers.get j = blockAdler (block ++ data) j := by
    intro j
    have hnew : blockAdler (block ++ data) j =
        if adlerIdx block.length = j then urbAdler32 (blockAdler block j) (some data)
        else blockAdler block j := by
      unfold blockAdler
      rw [lane_append j hfits]
      split
      · exact urbAdler32_append reduced_initial _ _
      · rw [List.append_nil]
    have hsmall : data.length < 2 ^ 32 := by
      unfold treehashSmallblock at hfits
      omega
    rw [hnew, ← hidx]
    unfold hashAdlers
    split
    · simp only [get_set, h.adlers]
      split
      · rename_i hj
        rw [hj, urbAdler32Combine_urbAdler32 (reduced_blockAdler block j) data hsmall]
      · rfl
    · simp only [get_set, h.adlers]
      split
      · rename_i hj
        rw [hj]
      · rfl
  have hother : (t.hashAdlers i data).offset = t.offset ∧ (t.hashAdlers i data).md5sum = t.md5sum ∧
      SameLevels t (t.hashAdlers i data) := by
    unfold hashAdlers
    split
    · exact ⟨rfl, rfl, rfl, rfl, rfl⟩
    · exact ⟨rfl, rfl, rfl, rfl, rfl⟩
  obtain ⟨hoffset, hmd5, hsame⟩ := hother
  refine ⟨⟨?_, ?_, hadler⟩, hsame.hasSparse, hsame.sparse, hsame.levelHash⟩
  · simp only [advance, hoffset, h.offset, List.length_append]
  · simp only [advance, hmd5, h.md5sum]

section Loop

variable {d : Digests}

theorem SameLevels.trans {t t' t'' : TreeHash} (h : SameLevels t t') (h' : SameLevels t' t'') :
    SameLevels t t'' :=
  ⟨h'.hasSparse.trans h.hasSparse, h'.sparse.trans h.sparse, h'.levelHash.trans h.levelHash⟩

def flush (d : Digests) (t : TreeHash) : TreeHash :=
  if t.offset = treehashBlocksize then finalizeCurr d { t with offset := 0 } else t

theorem hashLoop_done {fuel i offsetEnd : Nat} (buf : List UInt8) (t : TreeHash) (h : offsetEnd ≤ i) :
    hashLoop d fuel i offsetEnd buf t = t := by
  cases fuel with
  | zero => rfl
  | succ fuel => rw [hashLoop, if_neg (Nat.not_lt.mpr h)]

/-- A call that starts with a small block, or ends in the one it starts in, and ends in the block it
starts in. -/
def Fits (offset n : Nat) : Prop :=
  (offset % treehashSmallblock = 0 ∨ offset % treehashSmallblock + n ≤ treehashSmallblock) ∧
    offset % treehashBlocksize + n ≤ treehashBlocksize

instance (offset n : Nat) : Decidable (Fits offset n) := inferInstanceAs (Decidable (_ ∧ _))

/-- Such a call is taken whole. Induction on the turns, whose index follows the offset. -/
theorem hashLoop_fits {fuel : Nat} {block buf : List UInt8} {t : TreeHash} (h : InBlock block t)
    (hblock : block.length < treehashBlocksize) (hfits : Fits block.length buf.length)
    (hfuel : buf.length ≤ fuel) :
    ∃ t', InBlock (block ++ buf) t' ∧ SameLevels t t' ∧
      hashLoop d fuel block.length (block.length + buf.length) buf t = flush d t' := by
  induction fuel generalizing block buf t with
  | zero =>
    obtain rfl : buf = [] := List.length_eq_zero_iff.mp (Nat.le_zero.mp hfuel)
    refine ⟨t, by rwa [List.append_nil], ⟨rfl, rfl, rfl⟩, ?_⟩
    rw [hashLoop, flush, if_neg (by rw [h.offset]; omega)]
  | succ fuel ih =>
    by_cases hnil : buf = []
    · subst hnil
      refine ⟨t, by rwa [List.append_nil], ⟨rfl, rfl, rfl⟩, ?_⟩
      rw [hashLoop_done [] t (by simp), flush, if_neg (by rw [h.offset]; omega)]
    · have hpos := List.length_pos_of_ne_nil hnil
      obtain ⟨haligned, hend⟩ := hfits
      rw [Nat.mod_eq_of_lt hblock] at hend
      -- the turn takes the rest of the buffer, or a whole small block
      obtain ⟨n, hn, hnpos, hnle, hnfits, hnlast⟩ : ∃ n,
          tohash block.length (block.length + buf.length) t.offset = n ∧ 0 < n ∧ n ≤ buf.length ∧
            block.length % treehashSmallblock + n ≤ treehashSmallblock ∧
              (n = buf.length ∨ n = treehashSmallblock ∧ block.length % treehashSmallblock = 0) := by
        refine ⟨_, rfl, ?_⟩
        rw [tohash, h.offset, Nat.add_sub_cancel_left]
        unfold treehashSmallblock at *
        split
        · omega
        · omega
      have hlength : (buf.take n).length = n := by
        rw [List.length_take]
        omega
      obtain ⟨hturn, hsame⟩ := @InBlock.turn block (buf.take n) t block.length h rfl (by rwa [hlength])
      rw [hashLoop, if_pos (by omega), hn]
      dsimp only
      generalize (t.hashAdlers block.length (buf.take n)).advance (buf.take n) = t1 at *
      have hoffset := hturn.offset
      rw [List.length_append, hlength] at hoffset
      have hover : ¬ treehashBlocksize < block.length + buf.length := by omega
      by_cases hfull : t1.offset = treehashBlocksize
      · have hall : n = buf.length := by omega
        refine ⟨t1, ?_, hsame, ?_⟩
        · rwa [hall, List.take_length] at hturn
        · rw [if_pos hfull, if_neg hover, hashLoop_done, flush, if_pos hfull]
          unfold treehashSmallblock at *
          omega
      · rw [if_neg hfull]
        rcases hnlast with hall | ⟨hsmall, hstart⟩
        · refine ⟨t1, ?_, hsame, ?_⟩
          · rwa [hall, List.take_length] at hturn
          · rw [hashLoop_done, flush, if_neg hfull]
            unfold treehashSmallblock at *
            omega
        · have hsum : (block ++ buf.take n).length = block.length + treehashSmallblock := by
            rw [List.length_append, hlength, hsmall]
          have hdrop : (buf.drop n).length = buf.length - n := List.length_drop
          obtain ⟨t', hin, hsame', hloop⟩ := @ih (block ++ buf.take n) (buf.drop n) t1 hturn
            (by rw [hsum]; omega)
            ⟨.inl (by rw [hsum, Nat.add_mod_right, hstart]), by
              rw [hsum, hdrop, Nat.mod_eq_of_lt (by omega)]
              omega⟩ (by rw [hdrop]; omega)
          refine ⟨t', ?_, hsame.trans hsame', ?_⟩
          · rwa [List.append_assoc, List.take_append_drop] at hin
          · rw [← hloop, hsum, hdrop]
            congr 1
            omega

end Loop

section Fed

variable {d : Digests}

def blockLeaf (d : Digests) (block : List UInt8) : List UInt8 :=
  (d.md5 block).toList ++ (Vector.ofFn (blockAdler block)).toList.flatMap adlerBytes

theorem InBlock.leaf {block : List UInt8} {t : TreeHash} (h : InBlock block t) :
    leaf d t = blockLeaf d block := by
  have hadlers : t.adlers = Vector.ofFn (blockAdler block) := by
    apply Vector.ext
    intro j hj
    rw [Vector.getElem_ofFn]
    exact h.adlers ⟨j, hj⟩
  rw [TreeHash.leaf, blockLeaf, h.md5sum, hadlers]

theorem blockAdler_nil (j : Fin 12) : blockAdler [] j = urbAdler32 0 none := by
  apply adlerSums_injective
  rw [blockAdler, adlerSums_urbAdler32 reduced_initial]
  exact update_nil reduced_initial

theorem inBlock_nil {t : TreeHash} (hoffset : t.offset = 0) (hmd5 : t.md5sum = [])
    (hadlers : t.adlers = initAdlers) : InBlock [] t := by
  refine ⟨hoffset, hmd5, ?_⟩
  intro j
  rw [hadlers, blockAdler_nil]
  exact Vector.getElem_replicate j.isLt

def levelsOf (d : Digests) (done : List (List UInt8)) : List HashLevel :=
  done.foldl (fun levels block => addLevels d.sha512 [blockLeaf d block] levels) [[]]

/-- A tree hash that has taken whole blocks and a part of the next one. -/
structure Fed (d : Digests) (done : List (List UInt8)) (block : List UInt8) (t : TreeHash) : Prop where
  full : ∀ b ∈ done, b.length = treehashBlocksize
  short : block.length < treehashBlocksize
  inBlock : InBlock block t
  levels : t.levelHash = levelsOf d done
  hasSparse : t.hasSparse = false

theorem fed_new (d : Digests) (withOutput : Bool) : Fed d [] [] (new withOutput) :=
  ⟨nofun, by decide, inBlock_nil rfl rfl rfl, rfl, rfl⟩

theorem finalizeCurr_spec (d : Digests) (t : TreeHash) : (finalizeCurr d t).offset = t.offset ∧
    (finalizeCurr d t).md5sum = [] ∧ (finalizeCurr d t).adlers = initAdlers ∧
      (finalizeCurr d t).hasSparse = t.hasSparse ∧ (finalizeCurr d t).sparse = t.sparse ∧
        (finalizeCurr d t).hashPos = t.hashPos ∧
          (finalizeCurr d t).levelHash = addLevels d.sha512 [leaf d t] t.levelHash := by
  unfold finalizeCurr addHash
  cases t.hashOutput <;> exact ⟨rfl, rfl, rfl, rfl, rfl, rfl, rfl⟩

theorem levelsOf_append (d : Digests) (done : List (List UInt8)) (block : List UInt8) :
    levelsOf d (done ++ [block]) = addLevels d.sha512 [blockLeaf d block] (levelsOf d done) := by
  rw [levelsOf, List.foldl_append]
  rfl

theorem Fed.hash {done : List (List UInt8)} {block buf : List UInt8} {t : TreeHash}
    (h : Fed d done block t) (hfits : Fits block.length buf.length) :
    ∃ done' block', Fed d done' block' (t.hash d buf) ∧
      done'.flatten ++ block' = done.flatten ++ block ++ buf := by
  obtain ⟨t', hin, hsame, hloop⟩ := hashLoop_fits (d := d) h.inBlock h.short hfits (Nat.le_refl _)
  have hend := hfits.2
  rw [Nat.mod_eq_of_lt h.short] at hend
  have heq : t.hash d buf = flush d t' := by
    have hsmall : block.length + buf.length < 2 ^ 32 := by
      unfold treehashBlocksize at hend
      omega
    rw [TreeHash.hash, h.inBlock.offset, Nat.mod_eq_of_lt hsmall, hloop]
  have hoffset := hin.offset
  rw [List.length_append] at hoffset
  rw [heq, flush]
  split
  · rename_i hfull
    obtain ⟨hoffset', hmd5, hadlers, hsparse, -, -, hlevels⟩ := finalizeCurr_spec d { t' with offset := 0 }
    refine ⟨done ++ [block ++ buf], [], ⟨?_, by decide, inBlock_nil hoffset' hmd5 hadlers, ?_, ?_⟩, ?_⟩
    · intro b hb
      cases List.mem_append.mp hb with
      | inl hb => exact h.full b hb
      | inr hb =>
        obtain rfl := List.mem_singleton.mp hb
        rw [List.length_append, ← hoffset, hfull]
    · have hleaf : leaf d { t' with offset := 0 } = blockLeaf d (block ++ buf) := hin.leaf
      rw [hlevels, levelsOf_append, hleaf, ← h.levels, ← hsame.levelHash]
    · rw [hsparse, ← h.hasSparse, ← hsame.hasSparse]
    · simp
  · rename_i hshort
    refine ⟨done, block ++ buf, ⟨h.full, ?_, hin, ?_, ?_⟩, ?_⟩
    · rw [List.length_append]
      omega
    · rw [hsame.levelHash, h.levels]
    · rw [hsame.hasSparse, h.hasSparse]
    · rw [List.append_assoc]

def digestOf (d : Digests) (done : List (List UInt8)) (block : List UInt8) : List UInt8 :=
  let levels := levelsOf d (if block = [] then done else done ++ [block])
  if levels = [[]] then (d.sha512 []).toList
  else
    let last := collapse d.sha512 [] levels
    if 1 < last.length then (d.sha512 last.flatten).toList else last.headD []

theorem Fed.finalize {done : List (List UInt8)} {block : List UInt8} {t : TreeHash}
    (h : Fed d done block t) : t.finalize d = digestOf d done block := by
  have hlevels : ∀ t', (t' = if t.offset ≠ 0 then finalizeCurr d { t with offset := 0 } else t) →
      t'.levelHash = levelsOf d (if block = [] then done else done ++ [block]) ∧
        t'.hasSparse = false := by
    rintro t' rfl
    rw [h.inBlock.offset]
    by_cases hnil : block = []
    · subst hnil
      simp only [List.length_nil, ne_eq, not_true, if_false, if_true]
      exact ⟨h.levels, h.hasSparse⟩
    · have hpos := List.length_pos_of_ne_nil hnil
      obtain ⟨-, -, -, hsparse, -, -, hlevels⟩ := finalizeCurr_spec d { t with offset := 0 }
      have hleaf : leaf d { t with offset := 0 } = blockLeaf d block := h.inBlock.leaf
      rw [if_pos (by omega), if_neg hnil, levelsOf_append, hlevels, hleaf, ← h.levels, hsparse]
      exact ⟨rfl, h.hasSparse⟩
  obtain ⟨hlevels', hsparse⟩ := hlevels _ rfl
  unfold TreeHash.finalize digestOf
  simp only [hlevels', hsparse, Bool.false_eq_true, if_false]

/-- Data are cut into blocks in one way. Induction on the blocks. -/
theorem Fed.unique {done done' : List (List UInt8)} {block block' : List UInt8} {t t' : TreeHash}
    (h : Fed d done block t) (h' : Fed d done' block' t')
    (hdata : done.flatten ++ block = done'.flatten ++ block') : done = done' ∧ block = block' := by
  obtain ⟨hfull, hshort⟩ := And.intro h.full h.short
  obtain ⟨hfull', hshort'⟩ := And.intro h'.full h'.short
  clear h h'
  induction done generalizing done' with
  | nil =>
    cases done' with
    | nil => exact ⟨rfl, hdata⟩
    | cons b' done' =>
      have hlength := congrArg List.length hdata
      have hb' := hfull' b' List.mem_cons_self
      simp only [List.flatten_nil, List.nil_append, List.flatten_cons, List.length_append] at hlength
      omega
  | cons b done ih =>
    have hb := hfull b List.mem_cons_self
    cases done' with
    | nil =>
      have hlength := congrArg List.length hdata
      simp only [List.flatten_nil, List.nil_append, List.flatten_cons, List.length_append] at hlength
      omega
    | cons b' done' =>
      have hb' := hfull' b' List.mem_cons_self
      rw [List.flatten_cons, List.flatten_cons, List.append_assoc, List.append_assoc] at hdata
      obtain ⟨rfl, hrest⟩ := List.append_inj hdata (hb.trans hb'.symm)
      obtain ⟨rfl, rfl⟩ := ih hrest (fun x hx => hfull x (List.mem_cons_of_mem _ hx))
        (fun x hx => hfull' x (List.mem_cons_of_mem _ hx))
      exact ⟨rfl, rfl⟩

/-- Every call fits where it starts. -/
def FitsAll : (offset : Nat) → List (List UInt8) → Prop
  | _, [] => True
  | offset, call :: calls => Fits offset call.length ∧ FitsAll (offset + call.length) calls

instance decidableFitsAll : ∀ (offset : Nat) (calls : List (List UInt8)),
    Decidable (FitsAll offset calls)
  | _, [] => .isTrue trivial
  | offset, call :: calls =>
    have := decidableFitsAll (offset + call.length) calls
    inferInstanceAs (Decidable (_ ∧ _))

theorem Fed.length_mod {done : List (List UInt8)} {block : List UInt8} {t : TreeHash}
    (h : Fed d done block t) : ∃ n, (done.flatten ++ block).length = n * treehashBlocksize + block.length := by
  refine ⟨done.length, ?_⟩
  rw [List.length_append, List.length_flatten]
  congr 1
  have hmap : done.map List.length = List.replicate done.length treehashBlocksize :=
    List.eq_replicate_iff.mpr ⟨List.length_map .., fun n hn => by
      obtain ⟨b, hb, rfl⟩ := List.mem_map.mp hn
      exact h.full b hb⟩
  rw [hmap, List.sum_replicate_nat]

theorem fits_congr {m n : Nat} (k : Nat) (h : m = k * treehashBlocksize + n) (length : Nat) :
    Fits m length ↔ Fits n length := by
  unfold Fits
  have hsmall : m % treehashSmallblock = n % treehashSmallblock := by
    unfold treehashSmallblock treehashBlocksize at *
    omega
  have hblock : m % treehashBlocksize = n % treehashBlocksize := by
    unfold treehashBlocksize at *
    omega
  rw [hsmall, hblock]

/-- Calls that fit are taken whole. Induction on the calls. -/
theorem Fed.foldl {done : List (List UInt8)} {block : List UInt8} {t : TreeHash}
    {calls : List (List UInt8)} (h : Fed d done block t)
    (hfits : FitsAll (done.flatten ++ block).length calls) :
    ∃ done' block', Fed d done' block' (calls.foldl (TreeHash.hash d) t) ∧
      done'.flatten ++ block' = done.flatten ++ block ++ calls.flatten := by
  induction calls generalizing done block t with
  | nil => exact ⟨done, block, h, by simp⟩
  | cons call calls ih =>
    obtain ⟨hcall, hcalls⟩ := hfits
    obtain ⟨k, hk⟩ := h.length_mod
    obtain ⟨done1, block1, hfed, hdata⟩ := h.hash ((fits_congr k hk _).mp hcall)
    rw [← List.length_append, ← hdata] at hcalls
    obtain ⟨done', block', hfed', hdata'⟩ := ih hfed hcalls
    refine ⟨done', block', hfed', ?_⟩
    rw [hdata', hdata, List.flatten_cons, List.append_assoc _ call]

def digest (d : Digests) (withOutput : Bool) (calls : List (List UInt8)) : List UInt8 :=
  (calls.foldl (TreeHash.hash d) (new withOutput)).finalize d

theorem digest_eq_of_fitsAll {calls calls' : List (List UInt8)} (withOutput withOutput' : Bool)
    (hfits : FitsAll 0 calls) (hfits' : FitsAll 0 calls') (hdata : calls.flatten = calls'.flatten) :
    digest d withOutput calls = digest d withOutput' calls' := by
  obtain ⟨done, block, hfed, hflat⟩ := (fed_new d withOutput).foldl hfits
  obtain ⟨done', block', hfed', hflat'⟩ := (fed_new d withOutput').foldl hfits'
  obtain ⟨rfl, rfl⟩ := hfed.unique hfed' (by rw [hflat, hflat', hdata])
  rw [digest, digest, hfed.finalize, hfed'.finalize]

def blockCalls (data : List UInt8) : List (List UInt8) :=
  if _h : data = [] then []
  else data.take treehashBlocksize :: blockCalls (data.drop treehashBlocksize)
  termination_by data.length
  decreasing_by
    rw [List.length_drop]
    have := List.length_pos_of_ne_nil _h
    unfold treehashBlocksize
    omega

theorem blockCalls_spec (data : List UInt8) (k : Nat) : (blockCalls data).flatten = data ∧
    FitsAll (k * treehashBlocksize) (blockCalls data) := by
  induction data using blockCalls.induct generalizing k with
  | case1 =>
    rw [blockCalls, dif_pos rfl]
    exact ⟨rfl, trivial⟩
  | case2 data hne ih =>
    rw [blockCalls, dif_neg hne]
    refine ⟨?_, ⟨.inl ?_, ?_⟩, ?_⟩
    · rw [List.flatten_cons, (ih 0).1, List.take_append_drop]
    · unfold treehashBlocksize treehashSmallblock
      omega
    · rw [Nat.mul_mod_left, List.length_take]
      omega
    · by_cases hlong : treehashBlocksize ≤ data.length
      · have hlength : (data.take treehashBlocksize).length = treehashBlocksize := by
          rw [List.length_take]
          omega
        rw [hlength, ← Nat.succ_mul]
        exact (ih (k + 1)).2
      · have hnil : data.drop treehashBlocksize = [] := List.drop_eq_nil_of_le (by omega)
        rw [hnil, blockCalls, dif_pos rfl]
        trivial

end Fed

end TreeHash

end UrBackup
