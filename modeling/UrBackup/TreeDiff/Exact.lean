import UrBackup.TreeDiff.Matching
import Mathlib.Data.List.Sort

/-! What the diff of two trees is meant to find, and that the walk finds it: one outcome for
each new node whose directory has an old one. -/
namespace UrBackup.TreeDiff

open TreeNode

def oldEntry (i2 : NodeInfo) : TreeNode → Option (NodeInfo × TreeNode)
  | .null => none
  | .node i f n => if SameEntry i i2 then some (i, f) else oldEntry i2 n

/-- A new node is matched with an old one, or it is new or modified. -/
inductive Outcome where
  | matched (i1 i2 : NodeInfo)
  | changed (i2 : NodeInfo)
  deriving DecidableEq

/-- `t1` are the children of the old directory that goes with the directory of the new node. -/
def outcome (t1 : TreeNode) (i2 : NodeInfo) : Outcome :=
  match oldEntry i2 t1 with
  | some (i1, _) =>
    if EqualDir i1 i2 ∨ i1.dataEquals i2 = true then .matched i1 i2 else .changed i2
  | none => .changed i2

/-- The outcomes of a list of new nodes and of what is below the matched directories of it. -/
def outcomes : TreeNode → TreeNode → List Outcome
  | _, .null => []
  | t1, .node i2 f2 n2 =>
    (match oldEntry i2 t1 with
      | some (i1, f1) => if EqualDir i1 i2 then outcomes f1 f2 else []
      | none => []) ++ outcome t1 i2 :: outcomes t1 n2

def Outcome.changedId : Outcome → Option Nat
  | .changed i2 => some i2.id
  | .matched _ _ => none

def Outcome.places : Outcome → Option (Nat × Nat)
  | .changed _ => none
  | .matched i1 i2 => some (i1.pos, i2.pos)

section OldEntries

variable {i1 i2 : NodeInfo} {f1 t : TreeNode}

theorem oldEntry_sibling (h : oldEntry i2 t = some (i1, f1)) :
    Sibling i1 f1 t ∧ SameEntry i1 i2 := by
  induction t with
  | null => cases h
  | node j g n _ ih =>
    rw [oldEntry] at h
    split at h
    · cases h
      exact ⟨.here n, ‹_›⟩
    · exact ⟨.after (ih h).1, (ih h).2⟩

theorem oldEntry_of_sibling (hdist : t.DistinctEntries) (h1 : Sibling i1 f1 t)
    (h : SameEntry i1 i2) : oldEntry i2 t = some (i1, f1) := by
  induction h1 with
  | here n => rw [oldEntry, if_pos h]
  | @after k g n h1 ih =>
    rw [oldEntry, if_neg]
    · exact ih hdist.2
    · exact fun hk => hdist.1 i1 h1.mem_siblings (hk.trans h.symm)

theorem distinctEntries_of_sorted (hs : t.Sorted) : t.DistinctEntries := by
  induction t with
  | null => trivial
  | node i f n _ ih =>
    refine ⟨?_, ih hs.2.2⟩
    intro j hj hentry
    have hlt := hs.1 j hj
    rw [entryCompare_eq_iff.mpr hentry] at hlt
    cases hlt

theorem sortedBelow_of_sorted (hs : t.Sorted) : t.SortedBelow := by
  induction t with
  | null => trivial
  | node i f n _ ih => exact ⟨hs.2.1, ih hs.2.2⟩

end OldEntries

section Steps

variable {cfg : DiffConfig} {depth : Nat} {first1 c1 f1 f2 n2 : TreeNode} {i1 i2 : NodeInfo}
  {path : List Nat} {st st' : DiffState} {children : DiffState → DiffState}

/-- A run of the walk adds the outcomes to the result and to the mapping. -/
structure Adds (os : List Outcome) (st st' : DiffState) : Prop where
  diffs : st'.diffs = st.diffs ++ os.filterMap Outcome.changedId
  mapped1 : st'.mapped1 = (os.filterMap Outcome.places).reverse ++ st.mapped1

theorem Adds.nil (st : DiffState) : Adds [] st st := ⟨(List.append_nil _).symm, rfl⟩

theorem Adds.trans {os os' : List Outcome} {st'' : DiffState} (h : Adds os st st')
    (h' : Adds os' st' st'') : Adds (os ++ os') st st'' := by
  refine ⟨?_, ?_⟩
  · rw [h'.diffs, h.diffs, List.filterMap_append, List.append_assoc]
  · rw [h'.mapped1, h.mapped1, List.filterMap_append, List.reverse_append, List.append_assoc]

theorem Adds.of_eq (hd : st'.diffs = st.diffs) (hm : st'.mapped1 = st.mapped1) :
    Adds [] st st' := by
  refine ⟨?_, ?_⟩
  · rw [hd]
    exact (List.append_nil _).symm
  · rw [hm]
    rfl

theorem adds_markSymlink : Adds [] st (markSymlink cfg i2 path st) := by
  unfold markSymlink
  split <;> exact .of_eq rfl rfl

theorem adds_recordDirDiff : Adds [] st (recordDirDiff i1 i2 path st) := by
  unfold recordDirDiff
  split <;> exact .of_eq rfl rfl

theorem adds_nextPartner : Adds [] st (nextPartner depth first1 i2 path c1 st).2 := by
  obtain ⟨changed, hstate, -⟩ := @nextPartner_state depth first1 c1 i2 path st
  rw [hstate]
  exact .of_eq rfl rfl

theorem adds_missing : Adds [.changed i2] st
    (subtreeChanged path { st with diffs := st.diffs ++ [i2.id] }) := ⟨rfl, rfl⟩

theorem adds_diffEntry (hold : oldEntry i2 first1 = some (i1, f1))
    (hleaf : i2.type = .file → f2 = .null)
    (hch : ∀ st, Adds (outcomes f1 f2) st (children st)) :
    Adds ((if EqualDir i1 i2 then outcomes f1 f2 else []) ++ [outcome first1 i2]) st
      (diffEntry cfg children i1 i2 path st) := by
  have hbelow : EqualDir i1 i2 ∨ i1.dataEquals i2 = true →
      (if EqualDir i1 i2 then outcomes f1 f2 else []) = outcomes f1 f2 := by
    intro hmatch
    by_cases hdir : EqualDir i1 i2
    · exact if_pos hdir
    · have hdata : i1.data = i2.data := of_decide_eq_true (hmatch.resolve_left hdir)
      have htype := NodeInfo.type_eq_of_data hdata
      cases h2 : i2.type with
      | file => rw [if_neg hdir, hleaf h2, outcomes]
      | dir => exact absurd ⟨htype.trans h2, h2⟩ hdir
  have houtcome : outcome first1 i2 =
      if EqualDir i1 i2 ∨ i1.dataEquals i2 = true then .matched i1 i2 else .changed i2 := by
    rw [outcome, hold]
  have hstart : Adds [] st (recordDirDiff i1 i2 path st) := adds_recordDirDiff
  unfold diffEntry matchOrModified
  by_cases hmatch : EqualDir i1 i2 ∨ i1.dataEquals i2 = true
  · rw [if_pos hmatch, hbelow hmatch, houtcome, if_pos hmatch]
    have hmap : Adds [.matched i1 i2] (children (recordDirDiff i1 i2 path st))
        (mapNodes i1 i2 (children (recordDirDiff i1 i2 path st))) :=
      ⟨(List.append_nil _).symm, rfl⟩
    have hbefore := (hstart.trans (hch _)).trans hmap
    rw [List.nil_append] at hbefore
    rw [← List.append_nil (outcomes f1 f2 ++ _)]
    exact hbefore.trans adds_markSymlink
  · rw [if_neg hmatch, if_neg fun h => hmatch (.inl h), houtcome, if_neg hmatch]
    have hmod : Adds [.changed i2] (recordDirDiff i1 i2 path st)
        (subtreeChanged path (recordModified cfg i1 i2 (recordDirDiff i1 i2 path st))) :=
      ⟨rfl, rfl⟩
    exact (hstart.trans hmod).trans adds_markSymlink

theorem adds_node (hleaf : i2.type = .file → f2 = .null)
    (hmeets : ∀ i1 f1, oldEntry i2 first1 = some (i1, f1) →
      ∃ n, (nextPartner depth first1 i2 path c1 st).1 = .found i1 f1 n)
    (hsub : ∀ j g, Sibling j g c1 → Sibling j g first1) (hdist : first1.DistinctEntries)
    (hch : ∀ i1 f1, Sibling i1 f1 first1 → ∀ st, Adds (outcomes f1 f2) st
      (gatherDiffs cfg f2 (depth + 1) f1 f1 (i2.pos :: path) st))
    (hfound : ∀ i1 f1 n1, (nextPartner depth first1 i2 path c1 st).1 = .found i1 f1 n1 →
      ∀ st', st' = diffEntry cfg (gatherDiffs cfg f2 (depth + 1) f1 f1 (i2.pos :: path)) i1 i2 path
        (nextPartner depth first1 i2 path c1 st).2 →
      Adds (outcomes first1 n2) st' (gatherDiffs cfg n2 depth first1 n1 path st'))
    (hmissing : ∀ c, (nextPartner depth first1 i2 path c1 st).1 = .missing c →
      ∀ st', st'.mapped1 = st.mapped1 →
      Adds (outcomes first1 n2) st' (gatherDiffs cfg n2 depth first1 c path st')) :
    Adds (outcomes first1 (.node i2 f2 n2)) st
      (gatherDiffs cfg (.node i2 f2 n2) depth first1 c1 path st) := by
  have hpartner : Adds [] st (nextPartner depth first1 i2 path c1 st).2 := adds_nextPartner
  rw [gatherDiffs]
  split
  · rename_i i1 f1 n1 stP heq
    have hmatched := congrArg Prod.fst heq
    obtain ⟨hentry, hsib, -⟩ := nextPartner_found hmatched
    have hfirst : Sibling i1 f1 first1 := hsib.elim id (hsub i1 f1)
    have hold : oldEntry i2 first1 = some (i1, f1) := oldEntry_of_sibling hdist hfirst hentry
    have hrest := hfound i1 f1 n1 hmatched _ rfl
    rw [heq] at hrest hpartner
    have hentries := @adds_diffEntry cfg first1 f1 f2 i1 i2 path stP _ hold hleaf (hch i1 f1 hfirst)
    rw [outcomes, hold, List.append_cons]
    exact (hpartner.trans hentries).trans hrest
  · rename_i c stP heq
    have hnone : oldEntry i2 first1 = none := by
      cases hold : oldEntry i2 first1 with
      | none => rfl
      | some e =>
        obtain ⟨n, hn⟩ := hmeets e.1 e.2 hold
        rw [heq] at hn
        cases hn
    have hchanged : outcome first1 i2 = .changed i2 := by rw [outcome, hnone]
    rw [heq] at hpartner
    obtain ⟨changed, hstate, -, -⟩ := @nextPartner_state depth first1 c1 i2 path st
    rw [heq] at hstate
    have hmapped1 : stP.mapped1 = st.mapped1 := by
      simp only at hstate
      rw [hstate]
    have hrest := hmissing c (congrArg Prod.fst heq)
      (subtreeChanged path { stP with diffs := stP.diffs ++ [i2.id] }) hmapped1
    rw [outcomes, hnone, hchanged]
    exact (hpartner.trans adds_missing).trans hrest

end Steps

section Walks

variable {cfg : DiffConfig} {depth : Nat} {first1 c1 c2 t1 t2 : TreeNode} {i1 i2 : NodeInfo}
  {path : List Nat} {st : DiffState}

theorem nextPartner_rest_sorted (hd : depth ≠ 0) (hs : c1.Sorted) :
    match (nextPartner depth first1 i2 path c1 st).1 with
    | .found _ _ n => n.Sorted ∧ ∀ j g, Sibling j g n → Sibling j g c1
    | .missing c => c.Sorted ∧ ∀ j g, Sibling j g c → Sibling j g c1 := by
  induction c1 generalizing st with
  | null =>
    rw [nextPartner, if_neg hd]
    exact ⟨trivial, fun _ _ h => h⟩
  | node i1 f1 n1 _ ih =>
    rw [nextPartner, if_neg hd]
    by_cases heq : entryCompare i1 i2 = .eq
    · rw [if_pos heq]
      exact ⟨hs.2.2, fun _ _ h => .after h⟩
    · rw [if_neg heq]
      by_cases hlt : entryCompare i1 i2 = .lt
      · simp only [if_pos hlt]
        have hrest := @ih (subtreeChanged path st) hs.2.2
        split
        · rename_i hfound
          rw [hfound] at hrest
          exact ⟨hrest.1, fun j g h => .after (hrest.2 j g h)⟩
        · rename_i hmissing
          rw [hmissing] at hrest
          exact ⟨hrest.1, fun j g h => .after (hrest.2 j g h)⟩
      · simp only [if_neg hlt]
        exact ⟨hs, fun _ _ h => h⟩

theorem adds_sorted (hd : depth ≠ 0) (hs1 : c1.Sorted) (hs2 : c2.Sorted) (hs : first1.Sorted)
    (hl : c2.FilesAreLeaves) (hsub : ∀ j g, Sibling j g c1 → Sibling j g first1)
    (hkeep : ∀ j ∈ c2.siblings, ∀ i1 f1, Sibling i1 f1 first1 → SameEntry i1 j →
      Sibling i1 f1 c1) :
    Adds (outcomes first1 c2) st (gatherDiffs cfg c2 depth first1 c1 path st) := by
  induction c2 generalizing depth first1 c1 path st with
  | null => exact .nil st
  | node i2 f2 n2 ihf ihn =>
    have hrest := @nextPartner_rest_sorted depth first1 c1 i2 path st hd hs1
    -- an old entry of a later new one is behind the partner of this one
    have hlater : ∀ j ∈ n2.siblings, ∀ i1 f1, Sibling i1 f1 first1 → SameEntry i1 j →
        Sibling i1 f1 c1 ∧ entryCompare i2 i1 = .lt := by
      intro j hj i1 f1 h1 hentry
      refine ⟨hkeep j (List.mem_cons_of_mem _ hj) i1 f1 h1 hentry, ?_⟩
      rw [entryCompare_congr ⟨rfl, rfl⟩ hentry]
      exact hs2.1 j hj
    refine adds_node hl.1 ?_ hsub (distinctEntries_of_sorted hs) ?_ ?_ ?_
    · intro i1 f1 hold
      obtain ⟨h1, hentry⟩ := oldEntry_sibling hold
      exact nextPartner_sorted hd hs1 (hkeep i2 List.mem_cons_self i1 f1 h1 hentry) hentry
    · intro i1 f1 h1 st
      exact ihf (Nat.succ_ne_zero depth) (h1.sorted hs) hs2.2.1 (h1.sorted hs) hl.2.1
        (fun _ _ h => h) fun _ _ _ _ h _ => h
    · intro i1 f1 n1 hfound st' _
      rw [hfound] at hrest
      refine ihn hd hrest.1 hs2.2.2 hs hl.2.2 (fun j g h => hsub j g (hrest.2 j g h)) ?_
      intro j hj k g hk hentry
      obtain ⟨hk1, hlt⟩ := hlater j hj k g hk hentry
      have hkept := @nextPartner_keeps depth first1 c1 k i2 g path st hd hs1 hk1 hlt
      rw [hfound] at hkept
      exact hkept.2
    · intro c hmissing st' _
      rw [hmissing] at hrest
      refine ihn hd hrest.1 hs2.2.2 hs hl.2.2 (fun j g h => hsub j g (hrest.2 j g h)) ?_
      intro j hj k g hk hentry
      obtain ⟨hk1, hlt⟩ := hlater j hj k g hk hentry
      have hkept := @nextPartner_keeps depth first1 c1 k i2 g path st hd hs1 hk1 hlt
      rw [hmissing] at hkept
      exact hkept.2

/-- In the list of the root every old entry of a new one is found, wherever the cursor stands,
as long as it is not matched. -/
theorem adds_root (hdist1 : first1.DistinctEntries) (hdist2 : c2.DistinctEntries)
    (hs1 : first1.SortedBelow) (hs2 : c2.SortedBelow) (hl : c2.FilesAreLeaves)
    (hpos : first1.positions.Nodup) (hsub : ∀ j g, Sibling j g c1 → Sibling j g first1)
    (hfree : ∀ j ∈ c2.siblings, ∀ i1 f1, Sibling i1 f1 first1 → SameEntry i1 j →
      mappedNode st.mapped1 i1.pos = none) :
    Adds (outcomes first1 c2) st (gatherDiffs cfg c2 0 first1 c1 path st) := by
  induction c2 generalizing c1 path st with
  | null => exact .nil st
  | node i2 f2 n2 _ ihn =>
    refine adds_node hl.1 ?_ hsub hdist1 ?_ ?_ ?_
    · intro i1 f1 hold
      obtain ⟨h1, hentry⟩ := oldEntry_sibling hold
      exact nextPartner_root hdist1 hsub h1 hentry
        (hfree i2 List.mem_cons_self i1 f1 h1 hentry)
    · intro i1 f1 h1 st
      have hs := h1.sorted_below hs1
      exact adds_sorted (Nat.succ_ne_zero 0) hs hs2.1 hs hl.2.1 (fun _ _ h => h)
        fun _ _ _ _ h _ => h
    · intro j1 g1 n1 hfound st' hst'
      obtain ⟨hentry, hsib, hrest⟩ := nextPartner_found hfound
      have hj1 : Sibling j1 g1 first1 := hsib.elim id (hsub j1 g1)
      refine ihn hdist2.2 hs2.2 hl.2.2 (fun j g hj => (hrest j g hj).elim id (hsub j g)) ?_
      intro j hj i1 f1 h1 hsame
      have hother : ¬ SameEntry i2 j := hdist2.1 j hj
      have hne : i1.pos ≠ j1.pos := by
        intro heq
        rw [positions_eq] at hpos
        obtain ⟨rfl, -⟩ := Occurs.unique hpos h1.occurs hj1.occurs heq
        exact hother (hentry.symm.trans hsame)
      rw [hst', mapped1_partner hpos h1 hj1 hne]
      exact hfree j (List.mem_cons_of_mem _ hj) i1 f1 h1 hsame
    · intro c hmissing st' hst'
      refine ihn hdist2.2 hs2.2 hl.2.2
        (fun j g hj => hsub j g (nextPartner_missing hmissing j g hj)) ?_
      intro j hj i1 f1 h1 hsame
      rw [hst']
      exact hfree j (List.mem_cons_of_mem _ hj) i1 f1 h1 hsame

theorem adds_diffState (hr1 : ReadTree t1) (hr2 : ReadTree t2) (hs1 : t1.SortedBelow)
    (hs2 : t2.SortedBelow) (hdist1 : t1.DistinctEntries) (hdist2 : t2.DistinctEntries) :
    Adds (outcomes t1 t2) ⟨[], [], [], [], [], [], []⟩ (diffState cfg t1 t2) :=
  adds_root hdist1 hdist2 hs1 hs2 hr2.leaves (List.nodup_cons.mp hr1.positions).2
    (fun _ _ h => h) fun _ _ _ _ _ _ => rfl

end Walks

/-- The children of two directories that go together: of the roots, or of two directories of
one name in such lists. -/
inductive MatchedLists (g1 g2 : TreeNode) : TreeNode → TreeNode → Prop where
  | here : MatchedLists g1 g2 g1 g2
  | down {t1 t2 : TreeNode} {i1 i2 : NodeInfo} {f1 f2 : TreeNode} (h1 : Sibling i1 f1 t1)
      (h2 : Sibling i2 f2 t2) (h : SameEntry i1 i2) (hdir : i2.type = .dir)
      (hm : MatchedLists g1 g2 f1 f2) : MatchedLists g1 g2 t1 t2

/-- No old sibling has the type and name of the new node, or it is a file whose data differs. -/
def NewOrModified (g1 : TreeNode) (i2 : NodeInfo) : Prop :=
  (¬ ∃ i1 f1, Sibling i1 f1 g1 ∧ SameEntry i1 i2) ∨
    i2.type = .file ∧ ∃ i1 f1, Sibling i1 f1 g1 ∧ SameEntry i1 i2 ∧ i1.data ≠ i2.data

/-- An old node goes with a new directory or with a file with the same data. -/
def Kept (t1 t2 : TreeNode) (i1 : NodeInfo) : Prop :=
  ∃ g1 g2 f1 i2 f2, MatchedLists g1 g2 t1 t2 ∧ Sibling i1 f1 g1 ∧ Sibling i2 f2 g2 ∧
    SameEntry i1 i2 ∧ (i2.type = .dir ∨ i1.data = i2.data)

section Meaning

variable {t1 t2 g1 g2 : TreeNode} {i1 i2 : NodeInfo} {f1 f2 : TreeNode} {o : Outcome}

theorem equalDir_iff (h : SameEntry i1 i2) : EqualDir i1 i2 ↔ i2.type = .dir :=
  ⟨fun hdir => hdir.2, fun hdir => ⟨h.1.trans hdir, hdir⟩⟩

theorem outcome_eq_changed (hdist : g1.DistinctEntries) :
    outcome g1 i2 = .changed i2 ↔ NewOrModified g1 i2 := by
  unfold outcome NewOrModified
  cases hold : oldEntry i2 g1 with
  | none =>
    refine ⟨fun _ => .inl ?_, fun _ => rfl⟩
    rintro ⟨i1, f1, h1, hentry⟩
    rw [oldEntry_of_sibling hdist h1 hentry] at hold
    cases hold
  | some e =>
    obtain ⟨h1, hentry⟩ := oldEntry_sibling hold
    have hunique : ∀ j g, Sibling j g g1 → SameEntry j i2 → j = e.1 := fun j g hj hsame =>
      (Sibling.eq_of_sameEntry hdist hj h1 (hsame.trans hentry.symm)).1
    simp only [equalDir_iff hentry, NodeInfo.dataEquals, decide_eq_true_eq]
    constructor
    · intro hchanged
      split at hchanged
      · cases hchanged
      · rename_i hmatch
        obtain ⟨hdir, hdata⟩ := not_or.mp hmatch
        refine .inr ⟨?_, e.1, e.2, h1, hentry, hdata⟩
        cases htype : i2.type with
        | file => rfl
        | dir => exact absurd htype hdir
    · intro hnew
      rw [if_neg]
      rcases hnew with hnone | ⟨hfile, j, g, hj, hsame, hdata⟩
      · exact absurd ⟨e.1, e.2, h1, hentry⟩ hnone
      · rw [hunique j g hj hsame] at hdata
        rintro (hdir | hequal)
        · rw [hfile] at hdir
          cases hdir
        · exact hdata hequal

theorem outcome_eq_matched (hdist : g1.DistinctEntries) {j2 : NodeInfo} :
    outcome g1 j2 = .matched i1 i2 ↔ j2 = i2 ∧ ∃ f1, Sibling i1 f1 g1 ∧ SameEntry i1 i2 ∧
      (i2.type = .dir ∨ i1.data = i2.data) := by
  unfold outcome
  constructor
  · intro h
    split at h
    · rename_i j1 g hold
      obtain ⟨h1, hentry⟩ := oldEntry_sibling hold
      split at h
      · rename_i hmatch
        cases h
        rw [equalDir_iff hentry] at hmatch
        exact ⟨rfl, g, h1, hentry, hmatch.imp_right of_decide_eq_true⟩
      · cases h
    · cases h
  · rintro ⟨rfl, f1, h1, hentry, hmatch⟩
    rw [oldEntry_of_sibling hdist h1 hentry]
    refine if_pos ?_
    rw [equalDir_iff hentry]
    exact hmatch.imp_right decide_eq_true

theorem outcome_mem_outcomes (h2 : Sibling i2 f2 t2) : outcome t1 i2 ∈ outcomes t1 t2 := by
  induction h2 with
  | here n => exact List.mem_append_right _ List.mem_cons_self
  | after _ ih => exact List.mem_append_right _ (List.mem_cons_of_mem _ ih)

theorem outcomes_below (h2 : Sibling i2 f2 t2) (hold : oldEntry i2 t1 = some (i1, f1))
    (hdir : EqualDir i1 i2) : outcomes f1 f2 ⊆ outcomes t1 t2 := by
  induction h2 with
  | here n =>
    rw [outcomes, hold]
    simp only [if_pos hdir]
    exact List.subset_append_left _ _
  | after _ ih => exact fun o ho => List.mem_append_right _ (List.mem_cons_of_mem _ (ih ho))

theorem mem_outcomes (hs1 : t1.SortedBelow) (hdist : t1.DistinctEntries) :
    o ∈ outcomes t1 t2 ↔ ∃ g1 g2 i2 f2, MatchedLists g1 g2 t1 t2 ∧ g1.DistinctEntries ∧
      Sibling i2 f2 g2 ∧ outcome g1 i2 = o := by
  constructor
  · intro ho
    induction t2 generalizing t1 with
    | null => cases ho
    | node i2 f2 n2 ihf ihn =>
      rw [outcomes, List.mem_append, List.mem_cons] at ho
      rcases ho with hbelow | hhere | hrest
      · split at hbelow
        · rename_i i1 f1 hold
          obtain ⟨h1, hentry⟩ := oldEntry_sibling hold
          have hs := h1.sorted_below hs1
          split at hbelow
          · rename_i hdir
            obtain ⟨g1, g2, j2, k2, hm, hrest⟩ :=
              ihf (sortedBelow_of_sorted hs) (distinctEntries_of_sorted hs) hbelow
            exact ⟨g1, g2, j2, k2, .down h1 (.here n2) hentry hdir.2 hm, hrest⟩
          · cases hbelow
        · cases hbelow
      · exact ⟨t1, .node i2 f2 n2, i2, f2, .here, hdist, .here n2, hhere.symm⟩
      · obtain ⟨g1, g2, j2, k2, hm, hd, hj, ho⟩ := ihn hs1 hdist hrest
        cases hm with
        | here => exact ⟨t1, .node i2 f2 n2, j2, k2, .here, hd, .after hj, ho⟩
        | down h1 h2 h hdir hm => exact ⟨g1, g2, j2, k2, .down h1 (.after h2) h hdir hm, hd, hj, ho⟩
  · rintro ⟨g1, g2, i2, f2, hm, -, h2, rfl⟩
    induction hm with
    | here => exact outcome_mem_outcomes h2
    | @down t1 t2 j1 j2 k1 k2 hj1 hj2 hentry hdir hm ih =>
      have hs := hj1.sorted_below hs1
      have hold := oldEntry_of_sibling hdist hj1 hentry
      exact outcomes_below hj2 hold ((equalDir_iff hentry).mpr hdir)
        (ih (sortedBelow_of_sorted hs) (distinctEntries_of_sorted hs))

theorem MatchedLists.occurs (hm : MatchedLists g1 g2 t1 t2) (h1 : Sibling i1 f1 g1) :
    Occurs i1 f1 t1 := by
  induction hm with
  | here => exact h1.occurs
  | down hj1 _ _ _ _ ih => exact hj1.occurs_below ih

theorem MatchedLists.distinctEntries (hm : MatchedLists g1 g2 t1 t2) (hs1 : t1.SortedBelow)
    (hdist : t1.DistinctEntries) : g1.DistinctEntries := by
  induction hm with
  | here => exact hdist
  | down h1 _ _ _ _ ih =>
    have hs := h1.sorted_below hs1
    exact ih (sortedBelow_of_sorted hs) (distinctEntries_of_sorted hs)

theorem changed_mem_outcomes (hs1 : t1.SortedBelow) (hdist : t1.DistinctEntries) :
    .changed i2 ∈ outcomes t1 t2 ↔ ∃ g1 g2 f2, MatchedLists g1 g2 t1 t2 ∧ Sibling i2 f2 g2 ∧
      NewOrModified g1 i2 := by
  rw [mem_outcomes hs1 hdist]
  constructor
  · rintro ⟨g1, g2, j2, f2, hm, hd, h2, ho⟩
    have hj : j2 = i2 := by
      unfold outcome at ho
      split at ho
      · split at ho
        · cases ho
        · cases ho
          rfl
      · cases ho
        rfl
    subst hj
    exact ⟨g1, g2, f2, hm, h2, (outcome_eq_changed hd).mp ho⟩
  · rintro ⟨g1, g2, f2, hm, h2, hnew⟩
    have hd := hm.distinctEntries hs1 hdist
    exact ⟨g1, g2, i2, f2, hm, hd, h2, (outcome_eq_changed hd).mpr hnew⟩

theorem matched_mem_outcomes (hs1 : t1.SortedBelow) (hdist : t1.DistinctEntries) :
    (∃ i2, .matched i1 i2 ∈ outcomes t1 t2) ↔ Kept t1 t2 i1 := by
  simp only [mem_outcomes hs1 hdist]
  constructor
  · rintro ⟨i2, g1, g2, j2, f2, hm, hd, h2, ho⟩
    obtain ⟨rfl, f1, h1, hentry, hmatch⟩ := (outcome_eq_matched hd).mp ho
    exact ⟨g1, g2, f1, j2, f2, hm, h1, h2, hentry, hmatch⟩
  · rintro ⟨g1, g2, f1, i2, f2, hm, h1, h2, hentry, hmatch⟩
    have hd := hm.distinctEntries hs1 hdist
    exact ⟨i2, g1, g2, i2, f2, hm, hd, h2,
      (outcome_eq_matched hd).mpr ⟨rfl, f1, h1, hentry, hmatch⟩⟩

theorem Outcome.changedId_eq_some {o : Outcome} {id : Nat} :
    o.changedId = some id ↔ ∃ i2, o = .changed i2 ∧ i2.id = id := by
  cases o <;> simp [Outcome.changedId]

theorem Outcome.places_eq_some {o : Outcome} {e : Nat × Nat} :
    o.places = some e ↔ ∃ i1 i2, o = .matched i1 i2 ∧ (i1.pos, i2.pos) = e := by
  cases o <;> simp [Outcome.places]

theorem changedIds_sublist : ((outcomes t1 t2).filterMap Outcome.changedId).Sublist
    (t2.infos.map NodeInfo.id) := by
  induction t2 generalizing t1 with
  | null => exact .slnil
  | node i2 f2 n2 ihf ihn =>
    rw [outcomes, infos, List.map_cons, List.map_append, List.filterMap_append]
    cases ho : outcome t1 i2 with
    | changed j2 =>
      -- a changed node has nothing below it that is looked at
      unfold outcome at ho
      cases hold : oldEntry i2 t1 with
      | none =>
        rw [hold] at ho
        cases ho
        exact (ihn.trans (List.sublist_append_right _ _)).cons_cons _
      | some e =>
        simp only [hold] at ho ⊢
        split at ho
        · cases ho
        · rename_i hmatch
          cases ho
          rw [if_neg fun h => hmatch (.inl h)]
          exact (ihn.trans (List.sublist_append_right _ _)).cons_cons _
    | matched j1 j2 =>
      refine .cons _ (.append ?_ ihn)
      split
      · split
        · exact ihf
        · exact List.nil_sublist _
      · exact List.nil_sublist _

end Meaning

section Deletes

variable {mapped : List (Nat × Nat)} {t t1 t2 : TreeNode} {id : Nat}

theorem gatherDeletes_sublist :
    (gatherDeletes mapped t).Sublist (t.infos.map NodeInfo.id) := by
  induction t with
  | null => exact .slnil
  | node i f n ihf ihn =>
    rw [gatherDeletes, infos, List.map_cons, List.map_append]
    split
    · exact (ihf.append ihn).cons_cons _
    · exact (ihf.append ihn).cons _

theorem mem_gatherDeletes : id ∈ gatherDeletes mapped t ↔
    ∃ i f, Occurs i f t ∧ i.id = id ∧ mappedNode mapped i.pos = none := by
  constructor
  · intro h
    induction t with
    | null => cases h
    | node i f n ihf ihn =>
      rw [gatherDeletes, List.mem_append, List.mem_append] at h
      rcases h with (hself | hbelow) | hrest
      · split at hself
        · exact ⟨i, f, .here n, (List.mem_singleton.mp hself).symm, ‹_›⟩
        · cases hself
      · obtain ⟨j, g, ho, hj⟩ := ihf hbelow
        exact ⟨j, g, .down n ho, hj⟩
      · obtain ⟨j, g, ho, hj⟩ := ihn hrest
        exact ⟨j, g, .after ho, hj⟩
  · rintro ⟨i, f, ho, rfl, hnone⟩
    induction ho with
    | here n =>
      rw [gatherDeletes, if_pos hnone]
      exact List.mem_append_left _ (List.mem_append_left _ List.mem_cons_self)
    | down n _ ih => exact List.mem_append_left _ (List.mem_append_right _ ih)
    | after _ ih => exact List.mem_append_right _ ih

theorem mappedNode_eq_none {x : Nat} : mappedNode mapped x = none ↔ ∀ e ∈ mapped, e.1 ≠ x := by
  simp [mappedNode]

theorem Adds.kept_iff {st : DiffState} (hr1 : ReadTree t1) (hs1 : t1.SortedBelow)
    (hdist : t1.DistinctEntries)
    (h : Adds (outcomes t1 t2) ⟨[], [], [], [], [], [], []⟩ st) {i1 : NodeInfo} {f1 : TreeNode}
    (ho : Occurs i1 f1 t1) : mappedNode st.mapped1 i1.pos = none ↔ ¬ Kept t1 t2 i1 := by
  have hpos := (List.nodup_cons.mp hr1.positions).2
  rw [positions_eq] at hpos
  rw [mappedNode_eq_none, h.mapped1, ← matched_mem_outcomes hs1 hdist]
  simp only [List.append_nil, List.mem_reverse, List.mem_filterMap]
  constructor
  · rintro hall ⟨i2, hmem⟩
    exact hall (i1.pos, i2.pos) ⟨_, hmem, rfl⟩ rfl
  · rintro hkept e ⟨o, hmem, hplaces⟩ heq
    obtain ⟨j1, j2, rfl, rfl⟩ := Outcome.places_eq_some.mp hplaces
    obtain ⟨g1, g2, k1, -, -, hm, hj1, -⟩ := (matched_mem_outcomes hs1 hdist).mp ⟨j2, hmem⟩
    obtain ⟨rfl, -⟩ := Occurs.unique hpos (hm.occurs hj1) ho heq
    exact hkept ⟨j2, hmem⟩

theorem mergeSort_increasing {l : List Nat} (h : l.Nodup) : l.mergeSort.Pairwise (· < ·) := by
  have hle : l.mergeSort.Pairwise (· ≤ ·) := by
    refine (List.pairwise_mergeSort ?_ ?_ l).imp of_decide_eq_true
    · intro a b c hab hbc
      exact decide_eq_true ((of_decide_eq_true hab).trans (of_decide_eq_true hbc))
    · intro a b
      rw [Bool.or_eq_true, decide_eq_true_iff, decide_eq_true_iff]
      exact Nat.le_total a b
  have hne : l.mergeSort.Pairwise (· ≠ ·) := (List.mergeSort_perm l _).nodup_iff.mpr h
  exact (hle.and hne).imp fun h => Nat.lt_of_le_of_ne h.1 h.2

end Deletes

/-- The walk finds exactly what is new, modified or gone. -/
theorem diff_is_exact (cfg : DiffConfig) (t1 t2 : TreeNode) (hr1 : ReadTree t1) (hr2 : ReadTree t2)
    (hs1 : t1.SortedBelow) (hs2 : t2.SortedBelow) (hdist1 : t1.DistinctEntries)
    (hdist2 : t2.DistinctEntries) :
    ((diffTrees cfg t1 t2).diffs.Pairwise (· < ·) ∧
      ∀ id, id ∈ (diffTrees cfg t1 t2).diffs ↔ ∃ g1 g2 i2 f2, MatchedLists g1 g2 t1 t2 ∧
        Sibling i2 f2 g2 ∧ NewOrModified g1 i2 ∧ i2.id = id) ∧
    (diffTrees cfg t1 t2).deletedIds.Pairwise (· < ·) ∧
      ∀ id, id ∈ (diffTrees cfg t1 t2).deletedIds ↔ ∃ i1 f1, Occurs i1 f1 t1 ∧
        ¬ Kept t1 t2 i1 ∧ i1.id = id := by
  have hadds := @adds_diffState cfg t1 t2 hr1 hr2 hs1 hs2 hdist1 hdist2
  have hdiffs : (diffState cfg t1 t2).diffs = (outcomes t1 t2).filterMap Outcome.changedId :=
    hadds.diffs
  refine ⟨⟨?_, ?_⟩, ?_, ?_⟩
  · apply mergeSort_increasing
    rw [hdiffs]
    exact hr2.ids.sublist changedIds_sublist
  · intro id
    refine List.mem_mergeSort.trans ?_
    rw [hdiffs, List.mem_filterMap]
    constructor
    · rintro ⟨o, hmem, hchanged⟩
      obtain ⟨i2, rfl, hid⟩ := Outcome.changedId_eq_some.mp hchanged
      obtain ⟨g1, g2, f2, hm, h2, hnew⟩ := (changed_mem_outcomes hs1 hdist1).mp hmem
      exact ⟨g1, g2, i2, f2, hm, h2, hnew, hid⟩
    · rintro ⟨g1, g2, i2, f2, hm, h2, hnew, hid⟩
      exact ⟨.changed i2, (changed_mem_outcomes hs1 hdist1).mpr ⟨g1, g2, f2, hm, h2, hnew⟩,
        congrArg some hid⟩
  · exact mergeSort_increasing (hr1.ids.sublist gatherDeletes_sublist)
  · intro id
    refine List.mem_mergeSort.trans (mem_gatherDeletes.trans ?_)
    constructor
    · rintro ⟨i1, f1, ho, hid, hnone⟩
      exact ⟨i1, f1, ho, (hadds.kept_iff hr1 hs1 hdist1 ho).mp hnone, hid⟩
    · rintro ⟨i1, f1, ho, hkept, hid⟩
      exact ⟨i1, f1, ho, hid, (hadds.kept_iff hr1 hs1 hdist1 ho).mpr hkept⟩

section Sample

/-- Directory `b` with a file `x` and behind it, out of order, a file `a`. -/
def oldSample : TreeNode :=
  .node ⟨1, 1, [98], .dir 7⟩ (.node ⟨2, 2, [120], .file 1 1⟩ .null .null)
    (.node ⟨3, 3, [97], .file 1 1⟩ .null .null)

/-- The file `a` was written to and `b` has got a file `y`. -/
def newSample : TreeNode :=
  .node ⟨1, 1, [97], .file 2 1⟩ .null
    (.node ⟨2, 2, [98], .dir 7⟩
      (.node ⟨3, 3, [120], .file 1 1⟩ .null (.node ⟨4, 4, [121], .file 1 1⟩ .null .null)) .null)

theorem diff_is_exact_sample :
    (∃ g1 g2 i2 f2, MatchedLists g1 g2 oldSample newSample ∧ Sibling i2 f2 g2 ∧
      NewOrModified g1 i2 ∧ i2.id = 4) ∧
    ∃ i1 f1, Occurs i1 f1 oldSample ∧ ¬ Kept oldSample newSample i1 ∧ i1.id = 3 := by
  have hexact := diff_is_exact ⟨true, false⟩ oldSample newSample
    ⟨by decide, by decide, by decide⟩ ⟨by decide, by decide, by decide⟩ (by decide) (by decide)
    (by decide) (by decide)
  refine ⟨(hexact.1.2 4).mp (List.mem_mergeSort.mpr ?_), (hexact.2.2 3).mp (List.mem_mergeSort.mpr ?_)⟩
  · decide
  · decide

end Sample

end UrBackup.TreeDiff
