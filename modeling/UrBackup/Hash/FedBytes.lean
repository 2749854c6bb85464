import UrBackup.Hash.TreeFeeding
import Mathlib.Algebra.BigOperators.Group.List.Basic
import Mathlib.Data.List.Induction
import Mathlib.Data.Nat.ModEq

/-! A call that does not fit loses bytes: with digests that count the bytes below them the root of a
tree tells how many were hashed. -/
namespace UrBackup

open ByteOrder

namespace TreeHash

section Lengths

variable {d : Digests}

theorem tohash_le (i offsetEnd offset : Nat) : tohash i offsetEnd offset ≤ treehashSmallblock ∧
    tohash i offsetEnd offset ≤ offsetEnd - i ∧
      (offset % treehashSmallblock ≠ 0 →
        tohash i offsetEnd offset ≤ treehashSmallblock - offset % treehashSmallblock) := by
  unfold tohash
  dsimp only
  split
  · omega
  · omega

theorem hashAdlers_hashPos (i : Nat) (data : List UInt8) (t : TreeHash) :
    (t.hashAdlers i data).hashPos = t.hashPos ∧ (t.hashAdlers i data).offset = t.offset ∧
      (t.hashAdlers i data).md5sum = t.md5sum ∧ (t.hashAdlers i data).levelHash = t.levelHash ∧
        (t.hashAdlers i data).hasSparse = t.hasSparse := by
  unfold hashAdlers
  split
  · exact ⟨rfl, rfl, rfl, rfl, rfl⟩
  · exact ⟨rfl, rfl, rfl, rfl, rfl⟩

def hashed (i : Nat) (data : List UInt8) (t : TreeHash) : TreeHash :=
  (t.hashAdlers i data).advance data

theorem hashed_spec (i : Nat) (data : List UInt8) (t : TreeHash) :
    (hashed i data t).hashPos = t.hashPos + data.length ∧
      (hashed i data t).offset = t.offset + data.length ∧
        (hashed i data t).md5sum = t.md5sum ++ data ∧
          (hashed i data t).levelHash = t.levelHash ∧
            (hashed i data t).hasSparse = t.hasSparse := by
  obtain ⟨hpos, hoffset, hmd5, hlevels, hsparse⟩ := hashAdlers_hashPos i data t
  refine ⟨?_, ?_, ?_, hlevels, hsparse⟩
  · rw [hashed, advance, hpos]
  · rw [hashed, advance, hoffset]
  · rw [hashed, advance, hmd5]

theorem hashLoop_succ {fuel i offsetEnd n : Nat} (buf : List UInt8) (t : TreeHash)
    (h : i < offsetEnd) (hn : tohash i offsetEnd t.offset = n) :
    hashLoop d (fuel + 1) i offsetEnd buf t =
      hashLoop d fuel (i + treehashSmallblock)
        (if (hashed i (buf.take n) t).offset = treehashBlocksize ∧ treehashBlocksize < offsetEnd then
          offsetEnd - treehashBlocksize else offsetEnd)
        (buf.drop n) (flush d (hashed i (buf.take n) t)) := by
  rw [hashLoop, if_pos h, hn]
  dsimp only
  have heq : (t.hashAdlers i (buf.take n)).advance (buf.take n) = hashed i (buf.take n) t := rfl
  rw [heq, flush]
  split
  · rename_i hfull
    simp only [hfull, true_and]
  · rename_i hfull
    simp only [hfull, false_and, if_false]

theorem flush_hashPos (t : TreeHash) : (flush d t).hashPos = t.hashPos := by
  unfold flush
  split
  · obtain ⟨-, -, -, -, -, hpos, -⟩ := finalizeCurr_spec d { t with offset := 0 }
    exact hpos
  · rfl

/-- A loop does not hash more than the bytes up to its end. Induction on the turns. -/
theorem hashLoop_hashPos_le (fuel i offsetEnd : Nat) (buf : List UInt8) (t : TreeHash) :
    (hashLoop d fuel i offsetEnd buf t).hashPos ≤ t.hashPos + (offsetEnd - i) := by
  induction fuel generalizing i offsetEnd buf t with
  | zero => exact Nat.le_add_right _ _
  | succ fuel ih =>
    by_cases hlt : i < offsetEnd
    · rw [hashLoop_succ buf t hlt rfl]
      obtain ⟨hsmall, hleft, -⟩ := tohash_le i offsetEnd t.offset
      generalize tohash i offsetEnd t.offset = n at *
      refine (ih _ _ _ _).trans ?_
      rw [flush_hashPos, (hashed_spec i (buf.take n) t).1, List.length_take]
      split
      · omega
      · omega
    · rw [hashLoop_done buf t (Nat.not_lt.mp hlt)]
      exact Nat.le_add_right _ _

theorem hashLoop_loses_within {fuel i offsetEnd m : Nat} (buf : List UInt8) {t : TreeHash}
    (hoffset : t.offset = i) (hinside : i % treehashSmallblock ≠ 0)
    (hleaves : treehashSmallblock < i % treehashSmallblock + m) (hend : offsetEnd ≤ i + m) :
    (hashLoop d fuel i offsetEnd buf t).hashPos < t.hashPos + m := by
  have hpos : 0 < m := by
    unfold treehashSmallblock at *
    omega
  cases fuel with
  | zero => exact Nat.lt_add_of_pos_right hpos
  | succ fuel =>
    by_cases hlt : i < offsetEnd
    · rw [hashLoop_succ buf t hlt rfl]
      obtain ⟨-, -, hrest⟩ := tohash_le i offsetEnd t.offset
      rw [hoffset] at hrest ⊢
      have hrest' := hrest hinside
      generalize tohash i offsetEnd i = n at *
      refine (hashLoop_hashPos_le _ _ _ _ _).trans_lt ?_
      rw [flush_hashPos, (hashed_spec i (buf.take n) t).1, List.length_take]
      unfold treehashSmallblock at *
      split
      · omega
      · omega
    · rw [hashLoop_done buf t (Nat.not_lt.mp hlt)]
      exact Nat.lt_add_of_pos_right hpos

/-- A call over the end of a block loses bytes. Induction on the turns up to that end. -/
theorem hashLoop_loses_over {fuel i offsetEnd : Nat} {buf : List UInt8} {t : TreeHash}
    (hoffset : t.offset = i) (haligned : i % treehashSmallblock = 0) (hblock : i < treehashBlocksize)
    (hover : treehashBlocksize < offsetEnd) (hbuf : offsetEnd ≤ i + buf.length) :
    (hashLoop d fuel i offsetEnd buf t).hashPos < t.hashPos + (offsetEnd - i) := by
  induction fuel generalizing i buf t with
  | zero => exact Nat.lt_add_of_pos_right (by omega)
  | succ fuel ih =>
    have hn : tohash i offsetEnd t.offset = treehashSmallblock := by
      rw [tohash, hoffset, if_neg (not_not.mpr haligned)]
      unfold treehashSmallblock treehashBlocksize at *
      omega
    rw [hashLoop_succ buf t (by omega) hn]
    obtain ⟨hpos, hoff, -⟩ := hashed_spec i (buf.take treehashSmallblock) t
    have hlength : (buf.take treehashSmallblock).length = treehashSmallblock := by
      rw [List.length_take]
      unfold treehashSmallblock treehashBlocksize at *
      omega
    rw [hlength] at hpos hoff
    by_cases hfull : (hashed i (buf.take treehashSmallblock) t).offset = treehashBlocksize
    · rw [if_pos ⟨hfull, hover⟩]
      refine (hashLoop_hashPos_le _ _ _ _ _).trans_lt ?_
      rw [flush_hashPos, hpos]
      unfold treehashSmallblock treehashBlocksize at *
      omega
    · rw [if_neg fun hand => hfull hand.1, flush, if_neg hfull]
      have hnext := @ih (i + treehashSmallblock) (buf.drop treehashSmallblock)
        (hashed i (buf.take treehashSmallblock) t) (by rw [hoff, hoffset])
        (by rw [Nat.add_mod_right, haligned])
        (by
          unfold treehashSmallblock treehashBlocksize at *
          omega)
        (by
          rw [List.length_drop]
          omega)
      rw [hpos] at hnext
      unfold treehashSmallblock treehashBlocksize at *
      omega

/-- A call hashes at most its bytes, and fewer if it does not fit. -/
theorem hash_hashPos (d : Digests) (t : TreeHash) (buf : List UInt8) :
    (t.hash d buf).hashPos ≤ t.hashPos + buf.length := by
  refine (hashLoop_hashPos_le _ _ _ _ _).trans ?_
  have hmod := Nat.mod_le (t.offset + buf.length) (2 ^ 32)
  omega

theorem hash_loses {t : TreeHash} {buf : List UInt8} (hblock : t.offset < treehashBlocksize)
    (hfits : ¬ Fits t.offset buf.length) : (t.hash d buf).hashPos < t.hashPos + buf.length := by
  have hmod := Nat.mod_le (t.offset + buf.length) (2 ^ 32)
  rw [hash]
  by_cases haligned : t.offset % treehashSmallblock = 0
  · have hover : treehashBlocksize < t.offset + buf.length := by
      by_contra hle
      exact hfits ⟨.inl haligned, by rw [Nat.mod_eq_of_lt hblock]; omega⟩
    by_cases hwrap : (t.offset + buf.length) % 2 ^ 32 = t.offset + buf.length
    · rw [hwrap]
      refine (hashLoop_loses_over rfl haligned hblock hover (Nat.le_refl _)).trans_eq ?_
      omega
    · refine (hashLoop_hashPos_le _ _ _ _ _).trans_lt ?_
      omega
  · refine hashLoop_loses_within buf rfl haligned ?_ hmod
    by_contra hinside
    refine hfits ⟨.inr (Nat.not_lt.mp hinside), ?_⟩
    rw [Nat.mod_eq_of_lt hblock]
    unfold treehashSmallblock treehashBlocksize at *
    omega

end Lengths

section Count

def nodeValue (node : List UInt8) : Nat := ofBigEndian (node.take 16)

def nodeSum (data : List UInt8) : Nat :=
  if _h : data = [] then 0 else nodeValue (data.take 64) + nodeSum (data.drop 64)
  termination_by data.length
  decreasing_by
    rw [List.length_drop]
    have := List.length_pos_of_ne_nil _h
    omega

def countModulus : Nat := 256 ^ 16

def countDigests : Digests where
  md5 data := ⟨(bigEndian 16 (data.length % countModulus)).toArray, by simp⟩
  sha512 data := ⟨(bigEndian 16 (nodeSum data % countModulus) ++ List.replicate 48 0).toArray, by simp⟩

theorem nodeSum_flatten {nodes : HashLevel} (h : ∀ node ∈ nodes, node.length = 64) :
    nodeSum nodes.flatten = (nodes.map nodeValue).sum := by
  induction nodes with
  | nil =>
    rw [List.flatten_nil, nodeSum, dif_pos rfl]
    rfl
  | cons node nodes ih =>
    have hnode := h node List.mem_cons_self
    have hne : (node :: nodes).flatten ≠ [] := by
      intro hnil
      have hlength := congrArg List.length hnil
      rw [List.flatten_cons, List.length_append, hnode, List.length_nil] at hlength
      omega
    rw [nodeSum, dif_neg hne, List.flatten_cons, List.take_left' hnode, List.drop_left' hnode,
      ih fun n hn => h n (List.mem_cons_of_mem _ hn), List.map_cons, List.sum_cons]

theorem nodeValue_bigEndian (x : Nat) (rest : List UInt8) :
    nodeValue (bigEndian 16 (x % countModulus) ++ rest) = x % countModulus := by
  rw [nodeValue, List.take_left' (bigEndian_length 16 _)]
  exact ofBigEndian_bigEndian (Nat.mod_lt _ (by decide))

theorem nodeValue_sha512 {nodes : HashLevel} (h : ∀ node ∈ nodes, node.length = 64) :
    nodeValue (countDigests.sha512 nodes.flatten).toList ≡ (nodes.map nodeValue).sum
      [MOD countModulus] := by
  rw [← nodeSum_flatten h]
  exact (nodeValue_bigEndian _ _).symm ▸ Nat.mod_modEq _ _

theorem nodeValue_leaf (block : List UInt8) (adlers : Vector UInt32 12) :
    ((countDigests.md5 block).toList ++ adlers.toList.flatMap adlerBytes).length = 64 ∧
      nodeValue ((countDigests.md5 block).toList ++ adlers.toList.flatMap adlerBytes) ≡ block.length
        [MOD countModulus] := by
  constructor
  · have hadlers : ∀ adlers : List UInt32, (adlers.flatMap adlerBytes).length = adlers.length * 4 := by
      intro adlers
      simp [List.length_flatMap, adlerBytes]
    rw [List.length_append, hadlers, Vector.length_toList, Vector.length_toList]
  · exact (nodeValue_bigEndian _ _).symm ▸ Nat.mod_modEq _ _

def total (levels : List HashLevel) : Nat := (levels.map fun level => (level.map nodeValue).sum).sum

theorem total_cons (level : HashLevel) (rest : List HashLevel) :
    total (level :: rest) = (level.map nodeValue).sum + total rest := rfl

/-- All digests have their length. -/
def Nodes (levels : List HashLevel) : Prop := ∀ level ∈ levels, ∀ node ∈ level, node.length = 64

/-- New levels count what there was to count. Induction on the levels. -/
theorem addLevels_total {carry : HashLevel} {levels : List HashLevel}
    (hcarry : ∀ node ∈ carry, node.length = 64) (hlevels : Nodes levels) :
    Nodes (addLevels countDigests.sha512 carry levels) ∧
      total (addLevels countDigests.sha512 carry levels) ≡ (carry.map nodeValue).sum + total levels
        [MOD countModulus] := by
  induction levels generalizing carry with
  | nil =>
    rw [addLevels]
    split
    · rename_i hnil
      rw [hnil]
      exact ⟨nofun, rfl⟩
    · refine ⟨?_, ?_⟩
      · intro level hlevel
        obtain rfl := List.mem_singleton.mp hlevel
        exact hcarry
      · simp only [total, List.map_cons, List.map_nil, List.sum_cons, List.sum_nil]
        exact Nat.ModEq.refl _
  | cons level rest ih =>
    have hrest : Nodes rest := fun l hl => hlevels l (List.mem_cons_of_mem _ hl)
    have hlevel : ∀ node ∈ level ++ carry, node.length = 64 := by
      intro node hnode
      exact (List.mem_append.mp hnode).elim (hlevels level List.mem_cons_self node) (hcarry node)
    have hsum : ((level ++ carry).map nodeValue).sum =
        (carry.map nodeValue).sum + (level.map nodeValue).sum := by
      rw [List.map_append, List.sum_append, Nat.add_comm]
    rw [addLevels]
    split
    · have hdigest : ∀ node ∈ [(countDigests.sha512 (level ++ carry).flatten).toList],
          node.length = 64 := by
        intro node hnode
        obtain rfl := List.mem_singleton.mp hnode
        exact Vector.length_toList
      obtain ⟨hnodes, htotal⟩ := ih hdigest hrest
      refine ⟨?_, ?_⟩
      · intro l hl
        cases List.mem_cons.mp hl with
        | inl hl => exact hl ▸ nofun
        | inr hl => exact hnodes l hl
      · have hvalue := nodeValue_sha512 hlevel
        rw [hsum] at hvalue
        rw [total_cons, total_cons, List.map_nil, List.sum_nil, Nat.zero_add, ← Nat.add_assoc]
        refine htotal.trans (Nat.ModEq.add_right _ ?_)
        rw [List.map_singleton, List.sum_singleton]
        exact hvalue
    · obtain ⟨hnodes, htotal⟩ := @ih [] nofun hrest
      refine ⟨?_, ?_⟩
      · intro l hl
        cases List.mem_cons.mp hl with
        | inl hl => exact hl ▸ hlevel
        | inr hl => exact hnodes l hl
      · rw [total_cons, total_cons, hsum, ← Nat.add_assoc]
        rw [List.map_nil, List.sum_nil, Nat.zero_add] at htotal
        exact htotal.add_left _

theorem collapse_total {carry : HashLevel} {levels : List HashLevel}
    (hcarry : ∀ node ∈ carry, node.length = 64) (hlevels : Nodes levels) :
    (∀ node ∈ collapse countDigests.sha512 carry levels, node.length = 64) ∧
      ((collapse countDigests.sha512 carry levels).map nodeValue).sum ≡
        (carry.map nodeValue).sum + total levels [MOD countModulus] := by
  induction levels generalizing carry with
  | nil => exact ⟨hcarry, Nat.ModEq.refl _⟩
  | cons level rest ih =>
    have hrest : Nodes rest := fun l hl => hlevels l (List.mem_cons_of_mem _ hl)
    have hlevel : ∀ node ∈ level ++ carry, node.length = 64 := by
      intro node hnode
      exact (List.mem_append.mp hnode).elim (hlevels level List.mem_cons_self node) (hcarry node)
    have hsum : ((level ++ carry).map nodeValue).sum =
        (carry.map nodeValue).sum + (level.map nodeValue).sum := by
      rw [List.map_append, List.sum_append, Nat.add_comm]
    cases rest with
    | nil =>
      rw [collapse, hsum]
      exact ⟨hlevel, Nat.ModEq.refl _⟩
    | cons next rest =>
      rw [collapse]
      rotate_left
      · nofun
      rw [total_cons, ← Nat.add_assoc, ← hsum]
      split
      · rename_i hnil
        rw [hnil]
        exact ih nofun hrest
      · obtain ⟨hnodes, htotal⟩ := @ih
          [(countDigests.sha512 (level ++ carry).flatten).toList] (by
            intro node hnode
            obtain rfl := List.mem_singleton.mp hnode
            exact Vector.length_toList) hrest
        refine ⟨hnodes, htotal.trans (Nat.ModEq.add_right _ ?_)⟩
        rw [List.map_singleton, List.sum_singleton]
        exact nodeValue_sha512 hlevel

/-- The digests of a tree hash and its block count the bytes that it has hashed. -/
structure Counted (t : TreeHash) : Prop where
  nodes : Nodes t.levelHash
  count : total t.levelHash + t.md5sum.length ≡ t.hashPos [MOD countModulus]
  offset : t.offset = t.md5sum.length
  hasSparse : t.hasSparse = false

theorem Counted.finalizeCurr {t : TreeHash} (h : Counted t) :
    Counted (finalizeCurr countDigests { t with offset := 0 }) := by
  obtain ⟨hoffset, hmd5, -, hsparse, -, hpos, hlevels⟩ :=
    finalizeCurr_spec countDigests { t with offset := 0 }
  obtain ⟨hlength, hvalue⟩ := nodeValue_leaf t.md5sum t.adlers
  obtain ⟨hnodes, htotal⟩ := @addLevels_total [leaf countDigests { t with offset := 0 }] _ (by
    intro node hnode
    obtain rfl := List.mem_singleton.mp hnode
    exact hlength) h.nodes
  refine ⟨hlevels ▸ hnodes, ?_, hoffset.trans (by rw [hmd5]; rfl), hsparse.trans h.hasSparse⟩
  rw [hlevels, hmd5, hpos, List.length_nil, Nat.add_zero]
  refine htotal.trans (Nat.ModEq.trans ?_ h.count)
  rw [List.map_singleton, List.sum_singleton, Nat.add_comm]
  exact hvalue.add_left _

theorem Counted.flush {t : TreeHash} (h : Counted t) : Counted (flush countDigests t) := by
  unfold TreeHash.flush
  split
  · exact h.finalizeCurr
  · exact h

theorem Counted.hashed {t : TreeHash} (h : Counted t) (i : Nat) (data : List UInt8) :
    Counted (hashed i data t) := by
  obtain ⟨hpos, hoffset, hmd5, hlevels, hsparse⟩ := hashed_spec i data t
  refine ⟨hlevels ▸ h.nodes, ?_, by rw [hoffset, hmd5, h.offset, List.length_append],
    hsparse.trans h.hasSparse⟩
  rw [hlevels, hmd5, hpos, List.length_append, ← Nat.add_assoc]
  exact h.count.add_right _

/-- Induction on the turns. -/
theorem Counted.hashLoop {t : TreeHash} (h : Counted t) (fuel i offsetEnd : Nat) (buf : List UInt8) :
    Counted (hashLoop countDigests fuel i offsetEnd buf t) := by
  induction fuel generalizing i offsetEnd buf t with
  | zero => exact h
  | succ fuel ih =>
    by_cases hlt : i < offsetEnd
    · rw [hashLoop_succ buf t hlt rfl]
      exact ih (h.hashed i _).flush _ _ _
    · rw [hashLoop_done buf t (Nat.not_lt.mp hlt)]
      exact h

theorem Counted.finalize {t : TreeHash} (h : Counted t) :
    nodeValue (t.finalize countDigests) ≡ t.hashPos [MOD countModulus] := by
  have hlast : ∀ t', Counted t' → t'.md5sum = [] →
      nodeValue (if t'.levelHash = [[]] then (countDigests.sha512 []).toList
        else
          let last := collapse countDigests.sha512 [] t'.levelHash
          let treeHash := if 1 < last.length then (countDigests.sha512 last.flatten).toList
            else last.headD []
          if t'.hasSparse then (countDigests.sha512 (t'.sparse ++ treeHash)).toList else treeHash) ≡
        t'.hashPos [MOD countModulus] := by
    intro t' h' hmd5
    refine Nat.ModEq.trans ?_ h'.count
    rw [hmd5, List.length_nil, Nat.add_zero]
    split
    · rename_i hempty
      rw [hempty]
      exact @nodeValue_sha512 [] nofun
    · obtain ⟨hnodes, htotal⟩ := @collapse_total [] _ nofun h'.nodes
      rw [List.map_nil, List.sum_nil, Nat.zero_add] at htotal
      simp only [h'.hasSparse, Bool.false_eq_true, if_false]
      split
      · exact (nodeValue_sha512 hnodes).trans htotal
      · rename_i hshort
        refine Nat.ModEq.trans ?_ htotal
        match hlist : collapse countDigests.sha512 [] t'.levelHash, hshort with
        | [], _ => rfl
        | [node], _ =>
          rw [List.headD_cons, List.map_singleton, List.sum_singleton]
        | _ :: _ :: _, hshort => exact absurd (by simp) hshort
  by_cases hzero : t.offset = 0
  · have hnil : t.md5sum = [] := List.length_eq_zero_iff.mp (h.offset.symm.trans hzero)
    have hthis := hlast t h hnil
    unfold TreeHash.finalize
    simp only [hzero, ne_eq, not_true, if_false]
    exact hthis
  · obtain ⟨-, hmd5, -, -, -, hpos, -⟩ := finalizeCurr_spec countDigests { t with offset := 0 }
    have hthis := hlast _ h.finalizeCurr hmd5
    rw [hpos] at hthis
    unfold TreeHash.finalize
    simp only [hzero, ne_eq, not_false_eq_true, if_true]
    exact hthis

/-- The levels over blocks count their bytes. Induction from the last block. -/
theorem levelsOf_total (done : List (List UInt8)) : Nodes (levelsOf countDigests done) ∧
    total (levelsOf countDigests done) ≡ done.flatten.length [MOD countModulus] := by
  induction done using List.reverseRecOn with
  | nil =>
    refine ⟨?_, Nat.ModEq.refl _⟩
    intro level hlevel
    obtain rfl := List.mem_singleton.mp hlevel
    exact nofun
  | append_singleton done block ih =>
    obtain ⟨hlength, hvalue⟩ := nodeValue_leaf block (Vector.ofFn (blockAdler block))
    obtain ⟨hnodes, htotal⟩ := @addLevels_total [blockLeaf countDigests block] _ (by
      intro node hnode
      obtain rfl := List.mem_singleton.mp hnode
      exact hlength) ih.1
    rw [levelsOf_append]
    refine ⟨hnodes, htotal.trans ?_⟩
    rw [List.map_singleton, List.sum_singleton, List.flatten_append, List.length_append, Nat.add_comm]
    rw [List.flatten_cons, List.flatten_nil, List.append_nil]
    exact ih.2.add hvalue

theorem Fed.hashPos {done : List (List UInt8)} {block : List UInt8} {t : TreeHash}
    (h : Fed countDigests done block t) (hcounted : Counted t) :
    t.hashPos ≡ (done.flatten ++ block).length [MOD countModulus] := by
  refine hcounted.count.symm.trans ?_
  rw [h.levels, h.inBlock.md5sum, List.length_append]
  exact (levelsOf_total done).2.add_right _

end Count

section Theorem

theorem foldl_hashPos_le (d : Digests) (calls : List (List UInt8)) (t : TreeHash) :
    (calls.foldl (hash d) t).hashPos ≤ t.hashPos + calls.flatten.length := by
  induction calls generalizing t with
  | nil => exact Nat.le_add_right _ _
  | cons call calls ih =>
    have hrest := ih (t.hash d call)
    have hcall := hash_hashPos d t call
    rw [List.foldl_cons, List.flatten_cons, List.length_append]
    omega

/-- Where a call does not fit bytes are lost. Induction on the calls before it. -/
theorem foldl_hashPos_lt {d : Digests} {done : List (List UInt8)} {block : List UInt8} {t : TreeHash}
    {calls : List (List UInt8)} (h : Fed d done block t)
    (hfits : ¬ FitsAll (done.flatten ++ block).length calls) :
    (calls.foldl (hash d) t).hashPos < t.hashPos + calls.flatten.length := by
  induction calls generalizing done block t with
  | nil => exact absurd trivial hfits
  | cons call calls ih =>
    obtain ⟨k, hk⟩ := h.length_mod
    rw [List.foldl_cons, List.flatten_cons, List.length_append]
    by_cases hcall : Fits block.length call.length
    · obtain ⟨done', block', hfed, hdata⟩ := h.hash hcall
      have hrest := @ih done' block' _ hfed fun hcalls =>
        hfits ⟨(fits_congr k hk _).mpr hcall, by
          rw [← List.length_append, ← hdata]
          exact hcalls⟩
      have hpos := hash_hashPos d t call
      omega
    · have hpos := hash_loses (d := d) (h.inBlock.offset ▸ h.short) (h.inBlock.offset ▸ hcall)
      have hrest := foldl_hashPos_le d calls (t.hash d call)
      omega

theorem counted_foldl {t : TreeHash} (h : Counted t) (calls : List (List UInt8)) :
    Counted (calls.foldl (hash countDigests) t) := by
  induction calls generalizing t with
  | nil => exact h
  | cons call calls ih => exact ih (h.hashLoop _ _ _ _)

theorem counted_new (withOutput : Bool) : Counted (new withOutput) := by
  refine ⟨?_, Nat.ModEq.refl _, rfl, rfl⟩
  intro level hlevel
  obtain rfl := List.mem_singleton.mp hlevel
  exact nofun

theorem digest_ne_of_not_fitsAll {calls : List (List UInt8)} (withOutput : Bool)
    (hlength : calls.flatten.length < 2 ^ 64) (hfits : ¬ FitsAll 0 calls) :
    digest countDigests withOutput calls ≠
      digest countDigests withOutput (blockCalls calls.flatten) := by
  intro heq
  have hcounted := counted_foldl (counted_new withOutput) calls
  have hcounted' := counted_foldl (counted_new withOutput) (blockCalls calls.flatten)
  have hlost := foldl_hashPos_lt (fed_new countDigests withOutput) hfits
  obtain ⟨hflat, hfits'⟩ := blockCalls_spec calls.flatten 0
  rw [Nat.zero_mul] at hfits'
  obtain ⟨done, block, hfed, hdata⟩ := (fed_new countDigests withOutput).foldl hfits'
  have hsame := hfed.hashPos hcounted'
  rw [hdata, hflat] at hsame
  have hvalue := hcounted.finalize
  have hvalue' := hcounted'.finalize
  rw [digest, digest] at heq
  rw [heq] at hvalue
  have hmod := (hvalue.symm.trans hvalue').trans hsame
  have hzero : (new withOutput).hashPos = 0 := rfl
  have hmodulus : (2 : Nat) ^ 64 < countModulus := by decide
  simp only [List.flatten_nil, List.nil_append] at hmod
  have hequal := Nat.ModEq.eq_of_lt_of_lt hmod (by omega) (by omega)
  omega

/-- The digest does not depend on the calls if each fits where it starts; and for data of less than
2^64 bytes it does depend on them, for some digests, if one does not. -/
theorem digest_eq_iff_fitsAll (withOutput : Bool) (calls : List (List UInt8)) :
    (FitsAll 0 calls → ∀ d, digest d withOutput calls =
      digest d withOutput (blockCalls calls.flatten)) ∧
    (calls.flatten.length < 2 ^ 64 →
      (∀ d, digest d withOutput calls = digest d withOutput (blockCalls calls.flatten)) →
        FitsAll 0 calls) := by
  constructor
  · intro hfits d
    obtain ⟨hflat, hfits'⟩ := blockCalls_spec calls.flatten 0
    rw [Nat.zero_mul] at hfits'
    exact digest_eq_of_fitsAll withOutput withOutput hfits hfits' hflat.symm
  · intro hlength hsame
    by_contra hfits
    exact digest_ne_of_not_fitsAll withOutput hlength hfits (hsame countDigests)

def unalignedCalls : List (List UInt8) := [[0], List.replicate 4096 0]

/-- The second call starts within a small block and leaves it. -/
theorem unaligned_call_changes_digest : digest countDigests false unalignedCalls ≠
    digest countDigests false (blockCalls unalignedCalls.flatten) := by
  apply digest_ne_of_not_fitsAll
  · simp only [unalignedCalls, List.flatten_cons, List.flatten_nil, List.append_nil,
      List.length_append, List.length_replicate, List.length_singleton]
    decide
  · simp only [unalignedCalls, FitsAll, Fits, List.length_replicate]
    decide

end Theorem

end TreeHash

end UrBackup
