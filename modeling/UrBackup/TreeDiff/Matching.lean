import UrBackup.TreeDiff.Soundness

/-! The merge of two ordered lists meets every pair. In the list of the root, which may be
in any order, the search meets it. -/
namespace UrBackup.TreeDiff

open TreeNode

section Merge

variable {depth : Nat} {first1 c1 : TreeNode} {i1 i2 j2 : NodeInfo} {f1 : TreeNode}
  {path : List Nat} {st : DiffState}

theorem nextPartner_sorted (hd : depth ≠ 0) (hs : c1.Sorted) (h1 : Sibling i1 f1 c1)
    (h : SameEntry i1 i2) : ∃ n, (nextPartner depth first1 i2 path c1 st).1 = .found i1 f1 n := by
  induction h1 generalizing st with
  | here n =>
    refine ⟨n, ?_⟩
    rw [nextPartner, if_pos (entryCompare_eq_iff.mpr h)]
  | @after k g n h1 ih =>
    have hlt : entryCompare k i2 = .lt := by
      rw [← entryCompare_congr ⟨rfl, rfl⟩ h]
      exact hs.1 i1 h1.mem_siblings
    rw [nextPartner, if_neg (by simp [hlt]), if_neg hd]
    simp only [hlt, if_true]
    exact ih hs.2.2

theorem nextPartner_keeps (hd : depth ≠ 0) (hs : c1.Sorted) (h1 : Sibling i1 f1 c1)
    (hlt : entryCompare j2 i1 = .lt) :
    match (nextPartner depth first1 j2 path c1 st).1 with
    | .found _ _ n => n.Sorted ∧ Sibling i1 f1 n
    | .missing c => c.Sorted ∧ Sibling i1 f1 c := by
  induction h1 generalizing st with
  | here n =>
    have hgt : entryCompare i1 j2 = .gt := entryCompare_gt_iff.mpr hlt
    rw [nextPartner, if_neg (by simp [hgt]), if_neg hd]
    simp only [hgt, reduceCtorEq, if_false]
    exact ⟨hs, .here n⟩
  | @after k g n h1 ih =>
    rw [nextPartner, if_neg hd]
    split
    · rename_i heq
      split at heq
      · cases heq
        exact ⟨hs.2.2, h1⟩
      · simp only at heq
        split at heq
        · have hrest := @ih (subtreeChanged path st) hs.2.2
          rw [heq] at hrest
          exact hrest
        · cases heq
    · rename_i heq
      split at heq
      · cases heq
      · simp only at heq
        split at heq
        · have hrest := @ih (subtreeChanged path st) hs.2.2
          rw [heq] at hrest
          exact hrest
        · cases heq
          exact ⟨hs, .after h1⟩

theorem searchRoot_finds {t : TreeNode} (hdist : t.DistinctEntries) (h1 : Sibling i1 f1 t)
    (h : SameEntry i1 i2) (hnone : mappedNode st.mapped1 i1.pos = none) :
    ∃ n, searchRoot i2 st t = some (i1, f1, n) := by
  induction h1 with
  | here n =>
    refine ⟨n, ?_⟩
    rw [searchRoot, if_pos]
    exact ⟨h.1.symm, decide_eq_true (strcmp_eq_iff.mpr h.2.symm), hnone⟩
  | @after k g n h1 ih =>
    rw [searchRoot, if_neg]
    · exact ih hdist.2
    · rintro ⟨htype, hname, -⟩
      have hk : SameEntry k i2 := ⟨htype.symm, (strcmp_eq_iff.mp (of_decide_eq_true hname)).symm⟩
      exact hdist.1 i1 h1.mem_siblings (hk.trans h.symm)

theorem Sibling.eq_of_sameEntry {t g : TreeNode} {j1 : NodeInfo} (hdist : t.DistinctEntries)
    (h1 : Sibling i1 f1 t) (h2 : Sibling j1 g t) (h : SameEntry i1 j1) : i1 = j1 ∧ f1 = g := by
  induction h1 with
  | here n =>
    cases h2 with
    | here => exact ⟨rfl, rfl⟩
    | after h2 => exact absurd h (hdist.1 _ h2.mem_siblings)
  | after h1 ih =>
    cases h2 with
    | here => exact absurd h.symm (hdist.1 _ h1.mem_siblings)
    | after h2 => exact ih hdist.2 h2

theorem nextPartner_root (hdist : first1.DistinctEntries)
    (hsub : ∀ j g, Sibling j g c1 → Sibling j g first1) (h1 : Sibling i1 f1 first1)
    (h : SameEntry i1 i2) (hnone : mappedNode st.mapped1 i1.pos = none) :
    ∃ n, (nextPartner 0 first1 i2 path c1 st).1 = .found i1 f1 n := by
  obtain ⟨n, hsearch⟩ := searchRoot_finds hdist h1 h hnone
  cases c1 with
  | null =>
    refine ⟨n, ?_⟩
    rw [nextPartner, if_pos rfl, hsearch]
  | node k g m =>
    rw [nextPartner, if_pos rfl, hsearch]
    split
    · rename_i heq
      obtain ⟨rfl, rfl⟩ := Sibling.eq_of_sameEntry hdist h1 (hsub k g (.here m))
        (h.trans (entryCompare_eq_iff.mp heq).symm)
      exact ⟨m, rfl⟩
    · exact ⟨n, rfl⟩

end Merge

section OldFrame

variable {cfg : DiffConfig} {depth : Nat} {first1 c1 c2 : TreeNode} {path : List Nat}
  {st : DiffState} {x : Nat} {i1 i2 : NodeInfo} {children : DiffState → DiffState}

theorem mapped1_diffEntry (hi : x ≠ i1.pos)
    (hch : ∀ st, mappedNode (children st).mapped1 x = mappedNode st.mapped1 x) :
    mappedNode (diffEntry cfg children i1 i2 path st).mapped1 x = mappedNode st.mapped1 x := by
  have hmark : ∀ st, (markSymlink cfg i2 path st).mapped1 = st.mapped1 := by
    intro st
    unfold markSymlink
    split <;> rfl
  have hown : (recordDirDiff i1 i2 path st).mapped1 = st.mapped1 := by
    unfold recordDirDiff
    split <;> rfl
  rw [diffEntry, hmark, matchOrModified]
  split
  · rw [mapNodes, mappedNode_cons, if_neg (Ne.symm hi), hch, hown]
  · change mappedNode (recordDirDiff i1 i2 path st).mapped1 x = _
    rw [hown]

theorem mapped1_gatherDiffs (hx : ∀ i f, Sibling i f first1 ∨ Sibling i f c1 →
    x ≠ i.pos ∧ x ∉ f.positions) :
    mappedNode (gatherDiffs cfg c2 depth first1 c1 path st).mapped1 x =
      mappedNode st.mapped1 x := by
  induction c2 generalizing depth first1 c1 path st with
  | null => rfl
  | node i2 f2 n2 ihf ihn =>
    rw [gatherDiffs]
    obtain ⟨changed, hstate, -, -⟩ := @nextPartner_state depth first1 c1 i2 path st
    split
    · rename_i i1 f1 n1 stP heq
      rw [heq] at hstate
      cases hstate
      obtain ⟨-, hsib, hrest⟩ := nextPartner_found (congrArg Prod.fst heq)
      obtain ⟨hpos, hbelow⟩ := hx i1 f1 hsib
      rw [ihn, mapped1_diffEntry hpos]
      · intro st
        apply ihf
        intro i f hs
        have ho : Occurs i f f1 := hs.elim Sibling.occurs Sibling.occurs
        exact ⟨fun h => hbelow (h ▸ ho.pos_mem), fun h => hbelow (ho.positions_subset h)⟩
      · intro i f hs
        exact hx i f (hs.elim .inl (hrest i f))
    · rename_i c stP heq
      rw [heq] at hstate
      cases hstate
      rw [ihn]
      · rfl
      · intro i f hs
        exact hx i f (hs.imp_right (nextPartner_missing (congrArg Prod.fst heq) i f))

theorem mapped1_partner {f1 g1 f2 : TreeNode} {j1 : NodeInfo} (hpos : first1.positions.Nodup)
    (h1 : Sibling i1 f1 first1) (hj1 : Sibling j1 g1 first1) (hne : i1.pos ≠ j1.pos) :
    mappedNode (diffEntry cfg (gatherDiffs cfg f2 (depth + 1) g1 g1 (i2.pos :: path)) j1 i2 path
      (nextPartner depth first1 i2 path c1 st).2).mapped1 i1.pos = mappedNode st.mapped1 i1.pos := by
  have hbelow := Sibling.pos_not_below hpos h1 hj1
  obtain ⟨changed, hstate, -, -⟩ := @nextPartner_state depth first1 c1 i2 path st
  rw [mapped1_diffEntry hne, hstate]
  intro st
  apply mapped1_gatherDiffs
  intro i f hs
  have ho : Occurs i f g1 := hs.elim Sibling.occurs Sibling.occurs
  exact ⟨fun h => hbelow (h ▸ ho.pos_mem), fun h => hbelow (ho.positions_subset h)⟩

end OldFrame

section Visits

variable {cfg : DiffConfig} {depth : Nat} {first1 c1 c2 : TreeNode} {i1 i2 : NodeInfo}
  {f1 f2 : TreeNode} {path : List Nat} {st st' : DiffState}

/-- The diff of a pair takes place between two states, and nothing else writes about it. -/
def Visited (cfg : DiffConfig) (i1 i2 : NodeInfo) (f1 f2 : TreeNode) (st st' : DiffState) : Prop :=
  ∃ depth path stA, (i2.pos :: path ++ f2.positions).Nodup ∧
    ∀ x, x = i2.pos ∨ x ∈ f2.positions → SameAt x st stA ∧
      SameAt x (diffEntry cfg (gatherDiffs cfg f2 (depth + 1) f1 f1 (i2.pos :: path)) i1 i2 path
        stA) st'

theorem Visited.frame {st0 st1 : DiffState} (h : Visited cfg i1 i2 f1 f2 st st')
    (hstart : ∀ x, x = i2.pos ∨ x ∈ f2.positions → SameAt x st0 st)
    (hend : ∀ x, x = i2.pos ∨ x ∈ f2.positions → SameAt x st' st1) :
    Visited cfg i1 i2 f1 f2 st0 st1 := by
  obtain ⟨depth, path, stA, hnodup, hvisit⟩ := h
  refine ⟨depth, path, stA, hnodup, fun x hx => ⟨?_, ?_⟩⟩
  · exact (hstart x hx).trans (hvisit x hx).1
  · exact (hvisit x hx).2.trans (hend x hx)

theorem sameAt_nextPartner {x : Nat} (hx : x ∉ path) :
    SameAt x st (nextPartner depth first1 i2 path c1 st).2 := by
  obtain ⟨changed, hstate, hsub, hbound⟩ := @nextPartner_state depth first1 c1 i2 path st
  rw [hstate]
  exact ⟨⟨fun h => (hbound x h).resolve_right hx, fun h => hsub h⟩, rfl⟩

theorem visited_here {n1 n2 : TreeNode}
    (hnodup : (path ++ (TreeNode.node i2 f2 n2).positions).Nodup)
    (h : (nextPartner depth first1 i2 path c1 st).1 = .found i1 f1 n1) :
    Visited cfg i1 i2 f1 f2 st (gatherDiffs cfg (.node i2 f2 n2) depth first1 c1 path st) := by
  obtain ⟨⟨hi, hif, hin⟩, hf, -, -, hnodupf⟩ := positions_disjoint hnodup
  have hpath : ∀ x, x = i2.pos ∨ x ∈ f2.positions → x ∉ path ∧ x ∉ n2.positions := by
    rintro x (rfl | hx)
    · exact ⟨hi, hin⟩
    · exact hf x hx
  refine ⟨depth, path, (nextPartner depth first1 i2 path c1 st).2, hnodupf, fun x hx => ⟨?_, ?_⟩⟩
  · exact sameAt_nextPartner (hpath x hx).1
  · rw [gatherDiffs]
    split
    · rename_i heq
      rw [heq] at h
      cases h
      rw [heq]
      exact sameAt_gatherDiffs (hpath x hx).1 (hpath x hx).2
    · rename_i heq
      rw [heq] at h
      cases h

theorem visited_after {j2 : NodeInfo} {g2 n2 : TreeNode}
    (hnodup : (path ++ (TreeNode.node j2 g2 n2).positions).Nodup) (h2 : Sibling i2 f2 n2)
    (hfound : ∀ j1 g1 n1, (nextPartner depth first1 j2 path c1 st).1 = .found j1 g1 n1 →
      ∀ st', st' = diffEntry cfg (gatherDiffs cfg g2 (depth + 1) g1 g1 (j2.pos :: path)) j1 j2 path
        (nextPartner depth first1 j2 path c1 st).2 →
      Visited cfg i1 i2 f1 f2 st' (gatherDiffs cfg n2 depth first1 n1 path st'))
    (hmissing : ∀ c, (nextPartner depth first1 j2 path c1 st).1 = .missing c →
      ∀ st', st'.mapped1 = st.mapped1 →
      Visited cfg i1 i2 f1 f2 st' (gatherDiffs cfg n2 depth first1 c path st')) :
    Visited cfg i1 i2 f1 f2 st (gatherDiffs cfg (.node j2 g2 n2) depth first1 c1 path st) := by
  obtain ⟨⟨-, -, hin⟩, hf, hnpath, -, -⟩ := positions_disjoint hnodup
  have hmem : ∀ x, x = i2.pos ∨ x ∈ f2.positions → x ∈ n2.positions := by
    rintro x (rfl | hx)
    · exact h2.occurs.pos_mem
    · exact h2.occurs.positions_subset hx
  have hpartner : ∀ x ∈ n2.positions, SameAt x st (nextPartner depth first1 j2 path c1 st).2 :=
    fun x hx => sameAt_nextPartner (hnpath x hx)
  rw [gatherDiffs]
  split
  · rename_i j1 g1 n1 stP heq
    have hvisit := hfound j1 g1 n1 (congrArg Prod.fst heq) _ rfl
    rw [heq] at hvisit hpartner
    refine hvisit.frame (fun x hx => (hpartner x (hmem x hx)).trans ?_) fun _ _ => .refl _ _
    have hxn := hmem x hx
    have hxj : x ≠ j2.pos := fun h => hin (h ▸ hxn)
    refine sameAt_diffEntry (hnpath x hxn) hxj fun _ =>
      sameAt_gatherDiffs ?_ fun h => (hf x h).2 hxn
    exact fun h => (List.mem_cons.mp h).elim hxj (hnpath x hxn)
  · rename_i c stP heq
    obtain ⟨changed, hstate, -, -⟩ := @nextPartner_state depth first1 c1 j2 path st
    rw [heq] at hstate hpartner
    have hmapped1 : stP.mapped1 = st.mapped1 := by
      simp only at hstate
      rw [hstate]
    have hvisit := hmissing c (congrArg Prod.fst heq)
      (subtreeChanged path { stP with diffs := stP.diffs ++ [j2.id] }) hmapped1
    refine hvisit.frame (fun x hx => ?_) fun _ _ => .refl _ _
    apply sameAt_subtreeChanged (hnpath x (hmem x hx))
    exact (hpartner x (hmem x hx)).trans (.of_eq rfl rfl)

theorem visited_sorted (hd : depth ≠ 0) (hnodup : (path ++ c2.positions).Nodup)
    (hs1 : c1.Sorted) (hs2 : c2.Sorted) (h1 : Sibling i1 f1 c1) (h2 : Sibling i2 f2 c2)
    (h : SameEntry i1 i2) :
    Visited cfg i1 i2 f1 f2 st (gatherDiffs cfg c2 depth first1 c1 path st) := by
  induction h2 generalizing c1 st with
  | here n =>
    obtain ⟨n1, hn1⟩ := nextPartner_sorted hd hs1 h1 h
    exact visited_here hnodup hn1
  | @after j2 g2 n2 h2 ih =>
    have hlt : entryCompare j2 i1 = .lt := by
      rw [entryCompare_congr ⟨rfl, rfl⟩ h]
      exact hs2.1 i2 h2.mem_siblings
    have hkeep := @nextPartner_keeps depth first1 c1 i1 j2 f1 path st hd hs1 h1 hlt
    have hnodupn := (positions_disjoint hnodup).2.2.2.1
    refine visited_after hnodup h2 ?_ ?_
    · intro j1 g1 n1 hfound st' _
      rw [hfound] at hkeep
      exact ih hnodupn hkeep.1 hs2.2.2 hkeep.2
    · intro c hmissing st' _
      rw [hmissing] at hkeep
      exact ih hnodupn hkeep.1 hs2.2.2 hkeep.2

theorem visited_root (hnodup : (path ++ c2.positions).Nodup) (hpos : first1.positions.Nodup)
    (hdist1 : first1.DistinctEntries) (hdist2 : c2.DistinctEntries)
    (hsub : ∀ j g, Sibling j g c1 → Sibling j g first1) (h1 : Sibling i1 f1 first1)
    (h2 : Sibling i2 f2 c2) (h : SameEntry i1 i2)
    (hnone : mappedNode st.mapped1 i1.pos = none) :
    Visited cfg i1 i2 f1 f2 st (gatherDiffs cfg c2 0 first1 c1 path st) := by
  induction h2 generalizing c1 st with
  | here n =>
    obtain ⟨n1, hn1⟩ := @nextPartner_root first1 c1 i1 i2 f1 path st hdist1 hsub h1 h hnone
    exact visited_here hnodup hn1
  | @after j2 g2 n2 h2 ih =>
    have hother : ¬ SameEntry j2 i2 := hdist2.1 i2 h2.mem_siblings
    have hnodupn := (positions_disjoint hnodup).2.2.2.1
    refine visited_after hnodup h2 ?_ ?_
    · intro j1 g1 n1 hfound st' hst'
      obtain ⟨hentry, hsib, hrest⟩ := nextPartner_found hfound
      have hj1 : Sibling j1 g1 first1 := hsib.elim id (hsub j1 g1)
      apply ih hnodupn hdist2.2 fun j g hj => (hrest j g hj).elim id (hsub j g)
      have hne : i1.pos ≠ j1.pos := by
        intro heq
        rw [positions_eq] at hpos
        obtain ⟨rfl, -⟩ := Occurs.unique hpos h1.occurs hj1.occurs heq
        exact hother (hentry.symm.trans h)
      rw [hst', mapped1_partner hpos h1 hj1 hne]
      exact hnone
    · intro c hmissing st' hst'
      apply ih hnodupn hdist2.2 fun j g hj => hsub j g (nextPartner_missing hmissing j g hj)
      rw [hst']
      exact hnone

theorem Paired.sameEntry {t1 t2 : TreeNode} (h : Paired i1 f1 i2 f2 t1 t2) : SameEntry i1 i2 := by
  induction h with
  | here _ _ h => exact h
  | down _ _ _ _ ih => exact ih

theorem Paired.occurs {t1 t2 : TreeNode} (h : Paired i1 f1 i2 f2 t1 t2) :
    Occurs i1 f1 t1 ∧ Occurs i2 f2 t2 := by
  induction h with
  | here h1 h2 _ => exact ⟨h1.occurs, h2.occurs⟩
  | down h1 h2 _ _ ih => exact ⟨h1.occurs_below ih.1, h2.occurs_below ih.2⟩

theorem Occurs.ne_null {i : NodeInfo} {f t : TreeNode} (h : Occurs i f t) : t ≠ .null := by
  cases h <;> exact fun h => nomatch h

theorem SameEntry.equalDir {t2 : TreeNode} {j1 j2 : NodeInfo} {g2 : TreeNode}
    (hl : t2.FilesAreLeaves) (h2 : Occurs j2 g2 t2) (h : SameEntry j1 j2) (hg : g2 ≠ .null) :
    EqualDir j1 j2 :=
  have hdir := h2.type_dir hl hg
  ⟨h.1.trans hdir, hdir⟩

theorem Visited.below {j1 j2 : NodeInfo} {g1 g2 : TreeNode} (hdir : EqualDir j1 j2)
    (hv : Visited cfg j1 j2 g1 g2 st st') (ho : Occurs i2 f2 g2)
    (hsub : ∀ depth path st, depth ≠ 0 → (path ++ g2.positions).Nodup →
      Visited cfg i1 i2 f1 f2 st (gatherDiffs cfg g2 depth g1 g1 path st)) :
    Visited cfg i1 i2 f1 f2 st st' := by
  obtain ⟨depth, path, stA, hnodup, hsame⟩ := hv
  have hmem : ∀ x, x = i2.pos ∨ x ∈ f2.positions → x ∈ g2.positions := by
    rintro x (rfl | hx)
    · exact ho.pos_mem
    · exact ho.positions_subset hx
  have hpath : ∀ x ∈ g2.positions, x ∉ path ∧ x ≠ j2.pos := by
    intro x hx
    have hdisjoint := (List.nodup_append.mp hnodup).2.2
    refine ⟨?_, ?_⟩
    · intro h
      exact hdisjoint x (List.mem_cons_of_mem _ h) x hx rfl
    · intro h
      exact hdisjoint j2.pos List.mem_cons_self x hx h.symm
  refine (hsub (depth + 1) (j2.pos :: path) (recordDirDiff j1 j2 path stA)
    (Nat.succ_ne_zero depth) hnodup).frame ?_ ?_
  · intro x hx
    have hx := hmem x hx
    exact (hsame x (.inr hx)).1.trans (sameAt_recordDirDiff (hpath x hx).1)
  · intro x hx
    have hx := hmem x hx
    exact (sameAt_children (.inl hdir) (hpath x hx).1 (hpath x hx).2).trans (hsame x (.inr hx)).2

theorem visited_paired (hp : Paired i1 f1 i2 f2 c1 c2) (hd : depth ≠ 0)
    (hnodup : (path ++ c2.positions).Nodup) (hs1 : c1.Sorted) (hs2 : c2.Sorted)
    (hl : c2.FilesAreLeaves) :
    Visited cfg i1 i2 f1 f2 st (gatherDiffs cfg c2 depth c1 c1 path st) := by
  induction hp generalizing depth path st with
  | here h1 h2 h => exact visited_sorted hd hnodup hs1 hs2 h1 h2 h
  | down h1 h2 h hp ih =>
    have hdir := SameEntry.equalDir hl h2.occurs h (Occurs.ne_null hp.occurs.2)
    refine (visited_sorted hd hnodup hs1 hs2 h1 h2 h).below hdir hp.occurs.2 ?_
    intro depth path st hd hnodup
    exact ih hd hnodup (h1.sorted hs1) (h2.sorted hs2) (h2.leaves hl)

theorem visited_diffState {t1 t2 : TreeNode} (hr1 : ReadTree t1) (hr2 : ReadTree t2)
    (hs1 : t1.SortedBelow) (hs2 : t2.SortedBelow) (hdist1 : t1.DistinctEntries)
    (hdist2 : t2.DistinctEntries) (hp : Paired i1 f1 i2 f2 t1 t2) :
    Visited cfg i1 i2 f1 f2 ⟨[], [], [], [], [], [], []⟩ (diffState cfg t1 t2) := by
  have hpos1 := (List.nodup_cons.mp hr1.positions).2
  cases hp with
  | here h1 h2 h => exact visited_root hr2.positions hpos1 hdist1 hdist2 (fun _ _ h => h) h1 h2 h rfl
  | down h1 h2 h hp =>
    have hdir := SameEntry.equalDir hr2.leaves h2.occurs h (Occurs.ne_null hp.occurs.2)
    refine (visited_root hr2.positions hpos1 hdist1 hdist2 (fun _ _ h => h) h1 h2 h rfl).below
      hdir hp.occurs.2 ?_
    intro depth path st hd hnodup
    exact visited_paired hp hd hnodup (h1.sorted_below hs1) (h2.sorted_below hs2)
      (h2.leaves hr2.leaves)

theorem Visited.mapped (hv : Visited cfg i1 i2 f1 f2 st st') (hdir : EqualDir i1 i2) :
    mappedNode st'.mapped2 i2.pos = some i1.pos := by
  obtain ⟨depth, path, stA, -, hsame⟩ := hv
  rw [(hsame i2.pos (.inl rfl)).2.mapped2]
  exact mapped_diffEntry (.inl hdir)

end Visits

section Unchanged

variable {cfg : DiffConfig} {depth : Nat} {first1 c1 c2 : TreeNode} {i1 i2 : NodeInfo}
  {f1 f2 : TreeNode} {path : List Nat} {st st' : DiffState}

theorem NodeInfo.type_eq_of_data {i j : NodeInfo} (h : i.data = j.data) : i.type = j.type := by
  unfold NodeInfo.type
  rw [h]

theorem changed_gatherDiffs (hd : depth ≠ 0) (hs : SameUpToTails c1 c2) (hl : NoSymlinks cfg c2) :
    (gatherDiffs cfg c2 depth first1 c1 path st).changed = st.changed := by
  induction c2 generalizing depth first1 c1 path st with
  | null => rfl
  | node i2 f2 n2 ihf ihn =>
    cases c1 with
    | null => exact hs.elim
    | node i1 f1 n1 =>
      obtain ⟨hname, hdata, hsf, hsn⟩ := hs
      obtain ⟨hlink, hlf, hln⟩ := hl
      have heq : entryCompare i1 i2 = .eq :=
        entryCompare_eq_iff.mpr ⟨NodeInfo.type_eq_of_data hdata, hname⟩
      have hsame : i1.dataEquals i2 = true := decide_eq_true hdata
      have hpartner : nextPartner depth first1 i2 path (.node i1 f1 n1) st =
          (.found i1 f1 n1, st) := by rw [nextPartner, if_pos heq]
      have hmark : ∀ st, markSymlink cfg i2 path st = st := by
        intro st
        rw [markSymlink, hlink, if_neg Bool.false_ne_true]
      have hown : recordDirDiff i1 i2 path st = st := by
        rw [recordDirDiff, if_neg fun h => h.2 hsame]
      rw [gatherDiffs, hpartner]
      simp only
      rw [ihn hd hsn hln, diffEntry, hmark, hown, matchOrModified, if_pos (Or.inr hsame)]
      exact ihf (Nat.succ_ne_zero depth) hsf hlf

theorem Visited.unflagged (hv : Visited cfg i1 i2 f1 f2 st st') (hs : SameUpToTails f1 f2)
    (hl : NoSymlinks cfg f2) (hdir : EqualDir i1 i2) (hun : i2.pos ∉ st.changed) :
    i2.pos ∉ st'.changed := by
  obtain ⟨depth, path, stA, hnodup, hsame⟩ := hv
  have hpath : i2.pos ∉ path := (List.nodup_cons.mp (List.nodup_append.mp hnodup).1).1
  obtain ⟨hstart, hend⟩ := hsame i2.pos (.inl rfl)
  rw [hend.flag, diffEntry, (sameAt_markSymlink hpath).flag, matchOrModified, if_pos (.inl hdir)]
  change i2.pos ∉ (gatherDiffs cfg f2 (depth + 1) f1 f1 (i2.pos :: path)
    (recordDirDiff i1 i2 path stA)).changed
  rw [changed_gatherDiffs (Nat.succ_ne_zero depth) hs hl, (sameAt_recordDirDiff hpath).flag,
    hstart.flag]
  exact hun

end Unchanged

end UrBackup.TreeDiff
