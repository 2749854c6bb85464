import UrBackup.TreeDiff.Matching

/-! Which subtrees are reported for reuse, and when they are what they should be. -/
namespace UrBackup.TreeDiff

open TreeNode

section Treesize

variable {limit s : Nat} {t : TreeNode}

theorem treesizeLoop_spec : treesizeLoop limit s t ≤ s + t.size ∧
    (treesizeLoop limit s t = s + t.size ∨ limit < treesizeLoop limit s t) := by
  induction t generalizing s with
  | null => simp [treesizeLoop, size]
  | node i f n ihf ihn =>
    obtain ⟨hle, hcases⟩ := @ihf 1
    have hnext := @ihn (s + treesizeLoop limit 1 f)
    rw [treesizeLoop, size]
    split
    · rename_i hover
      exact ⟨by omega, .inr hover⟩
    · omega

theorem lt_getTreesize_iff : limit < getTreesize t limit ↔ limit < 1 + t.size := by
  have h := @treesizeLoop_spec limit 1 t
  unfold getTreesize
  omega

end Treesize

section Report

variable {st : DiffState} {i : NodeInfo} {f t : TreeNode} {id : Nat}

/-- What makes a node of the new tree one that is reported. -/
def Reported (st : DiffState) (i : NodeInfo) (f : TreeNode) : Prop :=
  i.pos ∉ st.changed ∧ mappedNode st.mapped2 i.pos ≠ none ∧ 10 < getTreesize f 10

theorem reported_of_mem (h : id ∈ gatherLargeUnchangedSubtrees st t) :
    ∃ i f, Occurs i f t ∧ i.id = id ∧ Reported st i f := by
  induction t with
  | null => cases h
  | node j g n ihf ihn =>
    rw [gatherLargeUnchangedSubtrees, List.mem_append] at h
    cases h with
    | inl h =>
      split at h
      · rename_i hreport
        exact ⟨j, g, .here n, (List.mem_singleton.mp h).symm, hreport⟩
      · obtain ⟨i, f, ho, hrest⟩ := ihf h
        exact ⟨i, f, .down n ho, hrest⟩
    | inr h =>
      obtain ⟨i, f, ho, hrest⟩ := ihn h
      exact ⟨i, f, .after ho, hrest⟩

theorem mem_gatherLarge_of_sibling (h : Sibling i f t) :
    (Reported st i f → i.id ∈ gatherLargeUnchangedSubtrees st t) ∧
    (¬ Reported st i f → ∀ id ∈ gatherLargeUnchangedSubtrees st f,
      id ∈ gatherLargeUnchangedSubtrees st t) := by
  induction h with
  | here n =>
    rw [gatherLargeUnchangedSubtrees]
    refine ⟨?_, ?_⟩
    · intro hreport
      unfold Reported at hreport
      rw [if_pos hreport]
      exact List.mem_append_left _ (List.mem_singleton_self _)
    · intro hreport id hid
      unfold Reported at hreport
      rw [if_neg hreport]
      exact List.mem_append_left _ hid
  | after _ ih =>
    rw [gatherLargeUnchangedSubtrees]
    refine ⟨?_, ?_⟩
    · exact fun hreport => List.mem_append_right _ (ih.1 hreport)
    · exact fun hreport id hid => List.mem_append_right _ (ih.2 hreport id hid)

theorem reported_above {i1 i2 : NodeInfo} {f1 f2 t1 t2 : TreeNode}
    (hp : Paired i1 f1 i2 f2 t1 t2) (hreport : Reported st i2 f2) :
    ∃ j1 g1 j2 g2, Paired j1 g1 j2 g2 t1 t2 ∧ j2.id ∈ gatherLargeUnchangedSubtrees st t2 ∧
      (g1 = f1 ∧ g2 = f2 ∧ j2 = i2 ∨ Paired i1 f1 i2 f2 g1 g2) := by
  induction hp with
  | here h1 h2 h =>
    exact ⟨i1, f1, i2, f2, .here h1 h2 h, (mem_gatherLarge_of_sibling h2).1 hreport,
      .inl ⟨rfl, rfl, rfl⟩⟩
  | @down t1 t2 j1 j2 g1 g2 h1 h2 h hp ih =>
    by_cases hj : Reported st j2 g2
    · exact ⟨j1, g1, j2, g2, .here h1 h2 h, (mem_gatherLarge_of_sibling h2).1 hj, .inr hp⟩
    · obtain ⟨k1, k, k2, k', hk, hmem, hrest⟩ := ih
      exact ⟨k1, k, k2, k', .down h1 h2 h hk, (mem_gatherLarge_of_sibling h2).2 hj _ hmem, hrest⟩

end Report

section Sound

variable {cfg : DiffConfig} {t1 t2 : TreeNode} {i1 i2 : NodeInfo} {f1 f2 : TreeNode}

/-- Every reported directory is matched with an old one that is identical below. -/
def ReuseSound (cfg : DiffConfig) (t1 t2 : TreeNode) : Prop :=
  ∀ id ∈ (diffTrees cfg t1 t2).largeUnchangedSubtrees, ∃ i2 f2, Occurs i2 f2 t2 ∧ i2.id = id ∧
    i2.type = .dir ∧ ∃ i1 f1, Occurs i1 f1 t1 ∧
      mappedNode (diffState cfg t1 t2).mapped2 i2.pos = some i1.pos ∧ i1.type = .dir ∧ Same f1 f2

/-- Two directories of one path with more than ten nodes in the new one that are equal up to
siblings at the end of old lists have no such siblings. -/
def NoLostTail (cfg : DiffConfig) (t1 t2 : TreeNode) : Prop :=
  ∀ i1 f1 i2 f2, Paired i1 f1 i2 f2 t1 t2 → i1.type = .dir → i2.type = .dir → 10 < 1 + f2.size →
    NoSymlinks cfg f2 → SameUpToTails f1 f2 → Same f1 f2

theorem mem_largeUnchangedSubtrees {id : Nat} :
    id ∈ (diffTrees cfg t1 t2).largeUnchangedSubtrees ↔
      id ∈ gatherLargeUnchangedSubtrees (diffState cfg t1 t2) t2 := List.mem_mergeSort

theorem diffState_spec (h2 : ReadTree t2) : DiffSpec cfg 0 t1 t1 t2 [0]
    ⟨[], [], [], [], [], [], []⟩ (diffState cfg t1 t2) := by
  apply gatherDiffs_spec h2.positions
  · exact ⟨fun h => (List.not_mem_nil h).elim, trivial⟩
  · exact fun _ _ => List.not_mem_nil

theorem reuseSound_of_noLostTail (h2 : ReadTree t2) (h : NoLostTail cfg t1 t2) :
    ReuseSound cfg t1 t2 := by
  intro id hid
  rw [mem_largeUnchangedSubtrees] at hid
  obtain ⟨i2, f2, hocc, hidEq, hun, hmapped, hlarge⟩ := reported_of_mem hid
  obtain ⟨m, hm⟩ := Option.ne_none_iff_exists'.mp hmapped
  obtain ⟨i1, f1, hpos, hp, hsame, hlinks⟩ :=
    (diffState_spec h2).mapped (fun _ _ h => h) (fun _ _ => rfl) i2 f2 hocc hun m hm
  rw [lt_getTreesize_iff] at hlarge
  have hdir : i2.type = .dir := by
    refine hocc.type_dir h2.leaves ?_
    rintro rfl
    simp [size] at hlarge
  have hdir1 : i1.type = .dir := hp.sameEntry.1.trans hdir
  refine ⟨i2, f2, hocc, hidEq, hdir, i1, f1, hp.occurs.1, ?_, hdir1, ?_⟩
  · rw [hm, hpos]
  · exact h i1 f1 i2 f2 hp hdir1 hdir hlarge hlinks hsame

theorem same_sibling (hs : Same t1 t2) (hs1 : t1.Sorted) (hs2 : t2.Sorted)
    (h1 : Sibling i1 f1 t1) (h2 : Sibling i2 f2 t2) (h : SameEntry i1 i2) : Same f1 f2 := by
  induction h1 generalizing t2 with
  | here n =>
    cases t2 with
    | null => exact hs.elim
    | node j g m =>
      cases h2 with
      | here => exact hs.2.2.1
      | after h2 =>
        have hlt := hs2.1 _ h2.mem_siblings
        rw [entryCompare_eq_iff.mpr (hs.1.symm.trans h)] at hlt
        cases hlt
  | @after k g n h1 ih =>
    cases t2 with
    | null => exact hs.elim
    | node j g' m =>
      cases h2 with
      | here =>
        have hlt := hs1.1 _ h1.mem_siblings
        rw [entryCompare_eq_iff.mpr (hs.1.trans h.symm)] at hlt
        cases hlt
      | after h2 => exact ih hs.2.2.2 hs1.2.2 hs2.2.2 h2

theorem same_paired (hs : Same t1 t2) (hs1 : t1.Sorted) (hs2 : t2.Sorted)
    (hp : Paired i1 f1 i2 f2 t1 t2) : Same f1 f2 := by
  induction hp with
  | here h1 h2 h => exact same_sibling hs hs1 hs2 h1 h2 h
  | down h1 h2 h _ ih => exact ih (same_sibling hs hs1 hs2 h1 h2 h) (h1.sorted hs1) (h2.sorted hs2)

theorem Paired.sorted_below (hp : Paired i1 f1 i2 f2 t1 t2) (hs1 : t1.SortedBelow)
    (hs2 : t2.SortedBelow) : f1.Sorted ∧ f2.Sorted := by
  have hdeep : ∀ {g1 g2}, Paired i1 f1 i2 f2 g1 g2 → g1.Sorted → g2.Sorted →
      f1.Sorted ∧ f2.Sorted := by
    intro g1 g2 hp hs1 hs2
    induction hp with
    | here h1 h2 _ => exact ⟨h1.sorted hs1, h2.sorted hs2⟩
    | down h1 h2 _ _ ih => exact ih (h1.sorted hs1) (h2.sorted hs2)
  cases hp with
  | here h1 h2 _ => exact ⟨h1.sorted_below hs1, h2.sorted_below hs2⟩
  | down h1 h2 _ hp => exact hdeep hp (h1.sorted_below hs1) (h2.sorted_below hs2)

/-- What is reported tells which pairs lost a tail: the walk visits every pair, sets no flag
below one that is equal up to tails, and reports it or a directory above it. -/
theorem noLostTail_of_reuseSound (hr1 : ReadTree t1) (hr2 : ReadTree t2) (hs1 : t1.SortedBelow)
    (hs2 : t2.SortedBelow) (hdist1 : t1.DistinctEntries) (hdist2 : t2.DistinctEntries)
    (h : ReuseSound cfg t1 t2) : NoLostTail cfg t1 t2 := by
  intro i1 f1 i2 f2 hp hdir1 hdir2 hlarge hlinks htails
  have hvisit : ∀ {j1 g1 j2 g2}, Paired j1 g1 j2 g2 t1 t2 →
      Visited cfg j1 j2 g1 g2 ⟨[], [], [], [], [], [], []⟩ (diffState cfg t1 t2) :=
    fun hp => visited_diffState hr1 hr2 hs1 hs2 hdist1 hdist2 hp
  have hmapped := (hvisit hp).mapped ⟨hdir1, hdir2⟩
  have hreport : Reported (diffState cfg t1 t2) i2 f2 := by
    refine ⟨(hvisit hp).unflagged htails hlinks ⟨hdir1, hdir2⟩ List.not_mem_nil, ?_,
      lt_getTreesize_iff.mpr hlarge⟩
    rw [hmapped]
    exact Option.some_ne_none _
  obtain ⟨j1, g1, j2, g2, hj, hid, hwhere⟩ := reported_above hp hreport
  have hjdir : EqualDir j1 j2 := by
    cases hwhere with
    | inl heq =>
      obtain ⟨-, -, rfl⟩ := heq
      exact ⟨hj.sameEntry.1.trans hdir2, hdir2⟩
    | inr hbelow =>
      exact SameEntry.equalDir hr2.leaves hj.occurs.2 hj.sameEntry (Occurs.ne_null hbelow.occurs.2)
  obtain ⟨k2, k, hk2, hkid, -, k1, k', hk1, hkmap, -, hsame⟩ :=
    h j2.id (mem_largeUnchangedSubtrees.mpr hid)
  obtain ⟨rfl, rfl⟩ := Occurs.unique hr2.ids hk2 hj.occurs.2 hkid
  rw [(hvisit hj).mapped hjdir, Option.some.injEq] at hkmap
  have hpos1 := (List.nodup_cons.mp hr1.positions).2
  rw [positions_eq] at hpos1
  obtain ⟨rfl, rfl⟩ := Occurs.unique hpos1 hj.occurs.1 hk1 hkmap
  cases hwhere with
  | inl heq =>
    obtain ⟨rfl, rfl, -⟩ := heq
    exact hsame
  | inr hbelow =>
    obtain ⟨hsorted1, hsorted2⟩ := hj.sorted_below hs1 hs2
    exact same_paired hsame hsorted1 hsorted2 hbelow

/-- Reuse is sound unless the old list of a directory that lost nothing else is longer than
the new one, and only then where the roots list no entry twice. -/
theorem reuse_sound (hr1 : ReadTree t1) (hr2 : ReadTree t2) (hs1 : t1.SortedBelow)
    (hs2 : t2.SortedBelow) :
    (NoLostTail cfg t1 t2 → ReuseSound cfg t1 t2) ∧
    (t1.DistinctEntries → t2.DistinctEntries → (ReuseSound cfg t1 t2 ↔ NoLostTail cfg t1 t2)) :=
  ⟨reuseSound_of_noLostTail hr2, fun hdist1 hdist2 =>
    ⟨noLostTail_of_reuseSound hr1 hr2 hs1 hs2 hdist1 hdist2, reuseSound_of_noLostTail hr2⟩⟩

end Sound

section LostFile

def lostConfig : DiffConfig := ⟨true, false⟩

/-- Files `a`, `b` and so on with places and ids from `pos` on. -/
def someFiles : Nat → Nat → UInt8 → TreeNode
  | 0, _, _ => .null
  | n + 1, pos, name =>
    .node ⟨pos, pos, [name], .file 1 1⟩ .null (someFiles n (pos + 1) (name + 1))

def someDir (files : Nat) : TreeNode :=
  .node ⟨1, 1, [100], .dir 7⟩ (someFiles files 2 97) .null

theorem readTree_someDir (n : Nat) (h : n = 11 ∨ n = 12) : ReadTree (someDir n) := by
  rcases h with rfl | rfl
  · exact ⟨by decide, by decide, by decide⟩
  · exact ⟨by decide, by decide, by decide⟩

/-- The old directory has a twelfth file behind the eleven of the new one. -/
theorem reuse_loses_last_file : ¬ ∀ (cfg : DiffConfig) (t1 t2 : TreeNode), ReadTree t1 →
    ReadTree t2 → t1.SortedBelow → t2.SortedBelow → ReuseSound cfg t1 t2 := by
  intro h
  have hsound := h lostConfig (someDir 12) (someDir 11) (readTree_someDir 12 (.inr rfl))
    (readTree_someDir 11 (.inl rfl)) (by decide) (by decide)
  have hreport : 1 ∈ gatherLargeUnchangedSubtrees (diffState lostConfig (someDir 12) (someDir 11))
      (someDir 11) := by decide
  obtain ⟨i2, f2, hocc2, hid, -, i1, f1, hocc1, hmap, -, hsame⟩ :=
    hsound 1 (mem_largeUnchangedSubtrees.mpr hreport)
  obtain ⟨rfl, rfl⟩ := Occurs.unique (readTree_someDir 11 (.inl rfl)).ids hocc2 (.here _) hid
  have hmapped : mappedNode (diffState lostConfig (someDir 12) (someDir 11)).mapped2 1 = some 1 := by
    decide
  have hpos : some 1 = some i1.pos := hmapped.symm.trans hmap
  have hpos12 := (List.nodup_cons.mp (readTree_someDir 12 (.inr rfl)).positions).2
  rw [positions_eq] at hpos12
  obtain ⟨-, rfl⟩ := Occurs.unique hpos12 hocc1 (.here _) (Option.some.inj hpos).symm
  exact absurd hsame.size_eq (by decide)

theorem reuse_sound_someDir : ReuseSound lostConfig (someDir 12) (someDir 11) ↔
    NoLostTail lostConfig (someDir 12) (someDir 11) :=
  (reuse_sound (readTree_someDir 12 (.inr rfl)) (readTree_someDir 11 (.inl rfl)) (by decide)
    (by decide)).2 (by decide) (by decide)

end LostFile

end UrBackup.TreeDiff
