import UrBackup.TreeDiff.Frame
import Mathlib.Data.List.Basic

/-! What an unset flag says after the diff: the walk below the node met no difference,
except for old entries behind the last new one of a list. -/
namespace UrBackup.TreeDiff

open TreeNode

/-- No node of the list or below is a symbolic link. -/
def NoSymlinks (cfg : DiffConfig) : TreeNode → Prop
  | .null => True
  | .node i f n => isSymlink cfg i = false ∧ NoSymlinks cfg f ∧ NoSymlinks cfg n

/-- Two nodes that stand for one entry, in directories that do so up to the two lists. -/
inductive Paired (i1 : NodeInfo) (f1 : TreeNode) (i2 : NodeInfo) (f2 : TreeNode) :
    TreeNode → TreeNode → Prop where
  | here {t1 t2 : TreeNode} (h1 : Sibling i1 f1 t1) (h2 : Sibling i2 f2 t2)
      (h : SameEntry i1 i2) : Paired i1 f1 i2 f2 t1 t2
  | down {t1 t2 : TreeNode} {j1 j2 : NodeInfo} {g1 g2 : TreeNode} (h1 : Sibling j1 g1 t1)
      (h2 : Sibling j2 g2 t2) (h : SameEntry j1 j2) (hp : Paired i1 f1 i2 f2 g1 g2) :
      Paired i1 f1 i2 f2 t1 t2

section Flags

variable {path changed : List Nat} {st : DiffState}

/-- Flags are set from a node up to the root. -/
def ClosedPath : List Nat → List Nat → Prop
  | [], _ => True
  | p :: ps, changed => (p ∈ changed → ∀ r ∈ ps, r ∈ changed) ∧ ClosedPath ps changed

theorem closedPath_of_all (h : ∀ r ∈ path, r ∈ changed) : ClosedPath path changed := by
  induction path with
  | nil => trivial
  | cons p ps ih =>
    have htail : ∀ r ∈ ps, r ∈ changed := fun r hr => h r (List.mem_cons_of_mem _ hr)
    exact ⟨fun _ => htail, ih htail⟩

theorem closedPath_cons {x : Nat} (h : ClosedPath path changed) (hx : x ∉ path) :
    ClosedPath path (x :: changed) := by
  induction path with
  | nil => trivial
  | cons p ps ih =>
    obtain ⟨hhead, htail⟩ := h
    refine ⟨?_, ih htail fun hm => hx (List.mem_cons_of_mem _ hm)⟩
    intro hp r hr
    cases List.mem_cons.mp hp with
    | inl hp => exact absurd (hp ▸ List.mem_cons_self) hx
    | inr hp => exact List.mem_cons_of_mem _ (hhead hp r hr)

theorem all_subtreeChangedParent (hnodup : path.Nodup) (hc : ClosedPath path changed) :
    ∀ r ∈ path, r ∈ subtreeChangedParent path changed := by
  induction path generalizing changed with
  | nil => exact fun _ h => absurd h List.not_mem_nil
  | cons p ps ih =>
    obtain ⟨hp, hnodup'⟩ := List.nodup_cons.mp hnodup
    intro r hr
    rw [subtreeChangedParent]
    split
    · rename_i hflag
      cases List.mem_cons.mp hr with
      | inl hr => exact hr ▸ hflag
      | inr hr => exact hc.1 hflag r hr
    · cases List.mem_cons.mp hr with
      | inl hr => exact subset_subtreeChangedParent (hr ▸ List.mem_cons_self)
      | inr hr => exact ih hnodup' (closedPath_cons hc.2 hp) r hr

theorem closed_subtreeChanged (hnodup : path.Nodup) (hc : ClosedPath path st.changed) :
    ClosedPath path (subtreeChanged path st).changed :=
  closedPath_of_all (all_subtreeChangedParent hnodup hc)

end Flags

section Partners

variable {depth : Nat} {first1 c1 : TreeNode} {i2 : NodeInfo} {path : List Nat} {st : DiffState}

theorem closed_nextPartner (hnodup : path.Nodup) (hc : ClosedPath path st.changed) :
    ClosedPath path (nextPartner depth first1 i2 path c1 st).2.changed := by
  induction c1 generalizing st with
  | null =>
    rw [nextPartner]
    split <;> exact hc
  | node i1 f1 n1 _ ih =>
    rw [nextPartner]
    split
    · exact hc
    · split
      · exact hc
      · split
        · exact ih (closed_subtreeChanged hnodup hc)
        · exact hc

/-- Below the root no old entry is passed over unless the flags of the path are set. -/
theorem nextPartner_unpassed (hnodup : path.Nodup) (hc : ClosedPath path st.changed)
    (hd : depth ≠ 0) {i f n} (h : (nextPartner depth first1 i2 path c1 st).1 = .found i f n) :
    (∀ r ∈ path, r ∈ (nextPartner depth first1 i2 path c1 st).2.changed) ∨ c1 = .node i f n := by
  cases c1 with
  | null =>
    rw [nextPartner, if_neg hd] at h
    cases h
  | node i1 f1 n1 =>
    rw [nextPartner, if_neg hd] at h ⊢
    split at h
    · cases h
      exact .inr rfl
    · rename_i hne
      rw [if_neg hne]
      simp only at h ⊢
      split at h
      · rename_i hlt
        left
        intro r hr
        rw [if_pos hlt]
        obtain ⟨changed, hstate, hsub, -⟩ :=
          @nextPartner_state depth first1 n1 i2 path (subtreeChanged path st)
        rw [hstate]
        exact hsub (all_subtreeChangedParent hnodup hc r hr)
      · cases h

end Partners

/-- What an unset flag says after the diff of a list of new entries. -/
structure DiffSpec (cfg : DiffConfig) (depth : Nat) (first1 c1 c2 : TreeNode) (path : List Nat)
    (st st' : DiffState) : Prop where
  closed : ClosedPath path st'.changed
  sound : depth ≠ 0 → ∀ p ∈ path.head?, p ∉ st'.changed → SameUpToTails c1 c2 ∧ NoSymlinks cfg c2
  mapped : (∀ j g, Sibling j g c1 → Sibling j g first1) →
    (∀ x ∈ c2.positions, mappedNode st.mapped2 x = none) →
    ∀ i2 f2, Occurs i2 f2 c2 → i2.pos ∉ st'.changed →
    ∀ m, mappedNode st'.mapped2 i2.pos = some m → ∃ i1 f1, i1.pos = m ∧
      Paired i1 f1 i2 f2 first1 c2 ∧ SameUpToTails f1 f2 ∧ NoSymlinks cfg f2

/-- The same for one entry and the children of it. -/
structure EntrySpec (cfg : DiffConfig) (i1 i2 : NodeInfo) (f1 f2 : TreeNode) (path : List Nat)
    (st st' : DiffState) : Prop where
  closed : ClosedPath path st'.changed
  sound : ∀ p ∈ path.head?, p ∉ st'.changed → i1.data = i2.data ∧ SameUpToTails f1 f2 ∧
    isSymlink cfg i2 = false ∧ NoSymlinks cfg f2
  self : mappedNode st.mapped2 i2.pos = none → i2.pos ∉ st'.changed →
    ∀ m, mappedNode st'.mapped2 i2.pos = some m →
      i1.pos = m ∧ SameUpToTails f1 f2 ∧ NoSymlinks cfg f2
  below : (∀ x ∈ f2.positions, mappedNode st.mapped2 x = none) →
    ∀ j2 g2, Occurs j2 g2 f2 → j2.pos ∉ st'.changed →
    ∀ m, mappedNode st'.mapped2 j2.pos = some m → ∃ j1 g1, j1.pos = m ∧
      Paired j1 g1 j2 g2 f1 f2 ∧ SameUpToTails g1 g2 ∧ NoSymlinks cfg g2

section Entry

variable {cfg : DiffConfig} {i1 i2 : NodeInfo} {f1 f2 : TreeNode} {path : List Nat}
  {st : DiffState} {depth : Nat} {children : DiffState → DiffState}

section

variable (hnodup : path.Nodup) (hc : ClosedPath path st.changed)

include hnodup hc

theorem closed_recordDirDiff : ClosedPath path (recordDirDiff i1 i2 path st).changed := by
  unfold recordDirDiff
  split
  · exact closedPath_of_all (all_subtreeChangedParent hnodup hc)
  · exact hc

theorem closed_markSymlink : ClosedPath path (markSymlink cfg i2 path st).changed := by
  unfold markSymlink
  split
  · exact closed_subtreeChanged hnodup hc
  · exact hc

theorem markSymlink_unflagged {p : Nat}
    (hp : p ∈ path) (hun : p ∉ (markSymlink cfg i2 path st).changed) :
    isSymlink cfg i2 = false := by
  unfold markSymlink at hun
  split at hun
  · exact absurd (all_subtreeChangedParent hnodup hc p hp) hun
  · exact eq_false_of_ne_true ‹_›

theorem recordDirDiff_unflagged {p : Nat}
    (hp : p ∈ path) (hun : p ∉ (recordDirDiff i1 i2 path st).changed)
    (hmatch : EqualDir i1 i2 ∨ i1.dataEquals i2 = true) : i1.data = i2.data := by
  unfold recordDirDiff at hun
  split at hun
  · exact absurd (all_subtreeChangedParent hnodup hc p hp) hun
  · rename_i hsame
    apply @of_decide_eq_true (i1.data = i2.data)
    cases hmatch with
    | inl hdir => exact not_not.mp fun h => hsame ⟨hdir, h⟩
    | inr heq => exact heq

end

theorem EntrySpec.of_match (hmatch : EqualDir i1 i2 ∨ i1.dataEquals i2 = true)
    (hnodup : path.Nodup) (hdisjoint : ∀ x ∈ f2.positions, x ∉ path)
    (hself : i2.pos ∉ f2.positions) (hc : ClosedPath path st.changed)
    (hch : ∀ st : DiffState, st.changed ⊆ (children st).changed)
    (hsub : DiffSpec cfg (depth + 1) f1 f1 f2 (i2.pos :: path) (recordDirDiff i1 i2 path st)
      (children (recordDirDiff i1 i2 path st))) :
    EntrySpec cfg i1 i2 f1 f2 path st (diffEntry cfg children i1 i2 path st) := by
  have hcA : ClosedPath path (recordDirDiff i1 i2 path st).changed :=
    closed_recordDirDiff hnodup hc
  have hframe : ∀ x, x ∉ path → SameAt x st (recordDirDiff i1 i2 path st) :=
    fun x hx => sameAt_recordDirDiff hx
  have hunA : ∀ p ∈ path, p ∉ (recordDirDiff i1 i2 path st).changed → i1.data = i2.data :=
    fun p hp hun => recordDirDiff_unflagged hnodup hc hp hun hmatch
  have heq : diffEntry cfg children i1 i2 path st = markSymlink cfg i2 path
      (mapNodes i1 i2 (children (recordDirDiff i1 i2 path st))) := by
    unfold diffEntry matchOrModified
    rw [if_pos hmatch]
  have hmap : mappedNode (diffEntry cfg children i1 i2 path st).mapped2 i2.pos = some i1.pos :=
    mapped_diffEntry hmatch
  have hkeep : ∀ x, x ∉ path → x ≠ i2.pos → SameAt x
      (children (recordDirDiff i1 i2 path st)) (diffEntry cfg children i1 i2 path st) :=
    fun x hx hi => sameAt_children hmatch hx hi
  have hgrow := hch (recordDirDiff i1 i2 path st)
  generalize recordDirDiff i1 i2 path st = stA at *
  generalize children stA = sub at *
  have hgrowE : sub.changed ⊆ (diffEntry cfg children i1 i2 path st).changed := by
    rw [heq]
    exact @subset_markSymlink cfg i2 path (mapNodes i1 i2 sub)
  refine ⟨?_, ?_, ?_, ?_⟩
  · rw [heq]
    exact closed_markSymlink hnodup hsub.closed.2
  · intro p hhead hun
    have hpath : p ∈ path := List.mem_of_mem_head? hhead
    have hunsub : i2.pos ∉ sub.changed := fun h => hun (hgrowE (hsub.closed.1 h p hpath))
    obtain ⟨hsame, hlinks⟩ := hsub.sound (Nat.succ_ne_zero depth) i2.pos rfl hunsub
    refine ⟨hunA p hpath fun h => hun (hgrowE (hgrow h)), hsame, ?_, hlinks⟩
    rw [heq] at hun
    exact @markSymlink_unflagged cfg i2 path (mapNodes i1 i2 sub) hnodup hsub.closed.2 p hpath hun
  · intro _ hun m hm
    rw [hmap, Option.some.injEq] at hm
    exact ⟨hm, hsub.sound (Nat.succ_ne_zero depth) i2.pos rfl fun h => hun (hgrowE h)⟩
  · intro hnone j2 g2 hocc hun m hm
    have hmem := hocc.pos_mem
    have hsame := hkeep j2.pos (hdisjoint _ hmem) fun h => hself (h ▸ hmem)
    rw [hsame.mapped2] at hm
    refine hsub.mapped (fun _ _ h => h) ?_ j2 g2 hocc (fun h => hun (hgrowE h)) m hm
    intro x hx
    rw [(hframe x (hdisjoint x hx)).mapped2]
    exact hnone x hx

theorem EntrySpec.of_modified (hmatch : ¬ (EqualDir i1 i2 ∨ i1.dataEquals i2 = true))
    (hnodup : path.Nodup) (hpos : i2.pos ∉ path) (hdisjoint : ∀ x ∈ f2.positions, x ∉ path)
    (hc : ClosedPath path st.changed) :
    EntrySpec cfg i1 i2 f1 f2 path st (diffEntry cfg children i1 i2 path st) := by
  have hcA : ClosedPath path (recordDirDiff i1 i2 path st).changed :=
    closed_recordDirDiff hnodup hc
  have hall := all_subtreeChangedParent hnodup hcA
  have heq : diffEntry cfg children i1 i2 path st = markSymlink cfg i2 path (subtreeChanged path
      (recordModified cfg i1 i2 (recordDirDiff i1 i2 path st))) := by
    unfold diffEntry matchOrModified
    rw [if_neg hmatch]
  have hkeep : ∀ x, x ∉ path → SameAt x st (diffEntry cfg children i1 i2 path st) := by
    intro x hx
    rw [heq]
    apply SameAt.trans _ (sameAt_markSymlink hx)
    apply sameAt_subtreeChanged hx
    apply SameAt.trans (sameAt_recordDirDiff hx)
    exact .of_eq rfl rfl
  refine ⟨?_, ?_, ?_, ?_⟩
  · rw [heq]
    exact closed_markSymlink hnodup (closedPath_of_all hall)
  · intro p hhead hun
    rw [heq] at hun
    exact absurd (subset_markSymlink (hall p (List.mem_of_mem_head? hhead))) hun
  · intro hnone _ m hm
    rw [(hkeep _ hpos).mapped2, hnone] at hm
    cases hm
  · intro hnone j2 g2 hocc _ m hm
    have hmem := hocc.pos_mem
    rw [(hkeep _ (hdisjoint _ hmem)).mapped2, hnone _ hmem] at hm
    cases hm

end Entry

section Walk

variable {cfg : DiffConfig} {i1 i2 : NodeInfo} {f1 n1 f2 n2 first1 c1 : TreeNode}
  {path : List Nat} {depth : Nat} {st st' : DiffState}

theorem Paired.afterNew {j1 j2 : NodeInfo} {g1 g2 : TreeNode}
    (h : Paired j1 g1 j2 g2 first1 n2) : Paired j1 g1 j2 g2 first1 (.node i2 f2 n2) := by
  cases h with
  | here h1 h2 h => exact .here h1 (.after h2) h
  | down h1 h2 h hp => exact .down h1 (.after h2) h hp

theorem positions_disjoint (h : (path ++ (TreeNode.node i2 f2 n2).positions).Nodup) :
    (i2.pos ∉ path ∧ i2.pos ∉ f2.positions ∧ i2.pos ∉ n2.positions) ∧
    (∀ x ∈ f2.positions, x ∉ path ∧ x ∉ n2.positions) ∧
    (∀ x ∈ n2.positions, x ∉ path) ∧
    (path ++ n2.positions).Nodup ∧ (i2.pos :: path ++ f2.positions).Nodup := by
  rw [positions] at h
  simp only [List.nodup_append, List.nodup_cons, List.mem_cons, List.mem_append,
    List.cons_append] at h ⊢
  grind

theorem DiffSpec.of_found (hnodup : (path ++ (TreeNode.node i2 f2 n2).positions).Nodup)
    (hentry : SameEntry i1 i2) (hsib : Sibling i1 f1 first1 ∨ Sibling i1 f1 c1)
    (hrest : ∀ j g, Sibling j g n1 → Sibling j g first1 ∨ Sibling j g c1)
    (hpass : depth ≠ 0 → (∀ r ∈ path, r ∈ st.changed) ∨ c1 = .node i1 f1 n1)
    (he : EntrySpec cfg i1 i2 f1 f2 path st (diffEntry cfg
      (gatherDiffs cfg f2 (depth + 1) f1 f1 (i2.pos :: path)) i1 i2 path st))
    (hn : DiffSpec cfg depth first1 n1 n2 path (diffEntry cfg
      (gatherDiffs cfg f2 (depth + 1) f1 f1 (i2.pos :: path)) i1 i2 path st)
      (gatherDiffs cfg n2 depth first1 n1 path (diffEntry cfg
        (gatherDiffs cfg f2 (depth + 1) f1 f1 (i2.pos :: path)) i1 i2 path st))) :
    DiffSpec cfg depth first1 c1 (.node i2 f2 n2) path st
      (gatherDiffs cfg n2 depth first1 n1 path (diffEntry cfg
        (gatherDiffs cfg f2 (depth + 1) f1 f1 (i2.pos :: path)) i1 i2 path st)) := by
  obtain ⟨⟨hi, hif, hin⟩, hf, hnpath, -, -⟩ := positions_disjoint hnodup
  have hgrow : st.changed ⊆ (diffEntry cfg
      (gatherDiffs cfg f2 (depth + 1) f1 f1 (i2.pos :: path)) i1 i2 path st).changed :=
    subset_diffEntry fun _ => subset_gatherDiffs
  have hframe : ∀ x ∈ n2.positions, SameAt x st (diffEntry cfg
      (gatherDiffs cfg f2 (depth + 1) f1 f1 (i2.pos :: path)) i1 i2 path st) := by
    intro x hx
    have hxi : x ≠ i2.pos := fun h => hin (h ▸ hx)
    refine sameAt_diffEntry (hnpath x hx) hxi fun _ => sameAt_gatherDiffs ?_ fun h => (hf x h).2 hx
    exact fun h => (List.mem_cons.mp h).elim hxi (hnpath x hx)
  generalize diffEntry cfg (gatherDiffs cfg f2 (depth + 1) f1 f1 (i2.pos :: path)) i1 i2 path st
    = stE at *
  have hgrown : stE.changed ⊆ (gatherDiffs cfg n2 depth first1 n1 path stE).changed :=
    subset_gatherDiffs
  have hkeep : ∀ x, x ∉ path → x ∉ n2.positions →
      SameAt x stE (gatherDiffs cfg n2 depth first1 n1 path stE) := fun x h h' =>
    sameAt_gatherDiffs h h'
  generalize gatherDiffs cfg n2 depth first1 n1 path stE = st' at *
  refine ⟨hn.closed, ?_, ?_⟩
  · intro hd p hhead hun
    have hpath : p ∈ path := List.mem_of_mem_head? hhead
    have hunE : p ∉ stE.changed := fun h => hun (hgrown h)
    cases hpass hd with
    | inl hall => exact absurd (hgrow (hall p hpath)) hunE
    | inr hc1 =>
      obtain ⟨hdata, hsame, hlink, hlinks⟩ := he.sound p hhead hunE
      obtain ⟨hsamen, hlinksn⟩ := hn.sound hd p hhead hun
      rw [hc1, SameUpToTails]
      exact ⟨⟨hentry.2, hdata, hsame, hsamen⟩, hlink, hlinks, hlinksn⟩
  · intro hsub hnone j2 g2 hocc hun m hm
    have hfirst : Sibling i1 f1 first1 := hsib.elim id (hsub i1 f1)
    have hunE : j2.pos ∉ stE.changed := fun h => hun (hgrown h)
    cases hocc with
    | here =>
      rw [(hkeep _ hi hin).mapped2] at hm
      obtain ⟨hpos, hrest⟩ := he.self (hnone _ List.mem_cons_self) hunE m hm
      exact ⟨i1, f1, hpos, .here hfirst (.here _) hentry, hrest⟩
    | down _ hocc =>
      have hmem := hf _ hocc.pos_mem
      rw [(hkeep _ hmem.1 hmem.2).mapped2] at hm
      obtain ⟨j1, g1, hpos, hpair, hrest⟩ := he.below
        (fun x hx => hnone x (List.mem_cons_of_mem _ (List.mem_append_left _ hx)))
        j2 g2 hocc hunE m hm
      exact ⟨j1, g1, hpos, .down hfirst (.here _) hentry hpair, hrest⟩
    | after hocc =>
      have hnonen : ∀ x ∈ n2.positions, mappedNode stE.mapped2 x = none := by
        intro x hx
        rw [(hframe x hx).mapped2]
        exact hnone x (List.mem_cons_of_mem _ (List.mem_append_right _ hx))
      obtain ⟨j1, g1, hpos, hpair, hrest⟩ := hn.mapped
        (fun j g hj => (hrest j g hj).elim id (hsub j g)) hnonen j2 g2 hocc hun m hm
      exact ⟨j1, g1, hpos, hpair.afterNew, hrest⟩

theorem DiffSpec.of_missing {c : TreeNode}
    (hnodup : (path ++ (TreeNode.node i2 f2 n2).positions).Nodup)
    (hall : ∀ r ∈ path, r ∈ st.changed) (hrest : ∀ j g, Sibling j g c → Sibling j g c1)
    (hn : DiffSpec cfg depth first1 c n2 path st (gatherDiffs cfg n2 depth first1 c path st)) :
    DiffSpec cfg depth first1 c1 (.node i2 f2 n2) path st
      (gatherDiffs cfg n2 depth first1 c path st) := by
  obtain ⟨⟨hi, hif, hin⟩, hf, -, -, -⟩ := positions_disjoint hnodup
  have hkeep : ∀ x, x ∉ path → x ∉ n2.positions →
      SameAt x st (gatherDiffs cfg n2 depth first1 c path st) := fun x h h' =>
    sameAt_gatherDiffs h h'
  refine ⟨hn.closed, ?_, ?_⟩
  · intro _ p hhead hun
    exact absurd (subset_gatherDiffs (hall p (List.mem_of_mem_head? hhead))) hun
  · intro hsub hnone j2 g2 hocc hun m hm
    cases hocc with
    | here =>
      rw [(hkeep _ hi hin).mapped2, hnone _ List.mem_cons_self] at hm
      cases hm
    | down _ hocc =>
      have hmem := hocc.pos_mem
      rw [(hkeep _ (hf _ hmem).1 (hf _ hmem).2).mapped2,
        hnone _ (List.mem_cons_of_mem _ (List.mem_append_left _ hmem))] at hm
      cases hm
    | after hocc =>
      obtain ⟨j1, g1, hpos, hpair, hrest⟩ := hn.mapped
        (fun j g hj => hsub j g (hrest j g hj))
        (fun x hx => hnone x (List.mem_cons_of_mem _ (List.mem_append_right _ hx)))
        j2 g2 hocc hun m hm
      exact ⟨j1, g1, hpos, hpair.afterNew, hrest⟩

theorem DiffSpec.of_mapped2_eq {c2 : TreeNode} {st0 : DiffState}
    (h : st0.mapped2 = st.mapped2) (hs : DiffSpec cfg depth first1 c1 c2 path st st') :
    DiffSpec cfg depth first1 c1 c2 path st0 st' :=
  ⟨hs.closed, hs.sound, fun hsub hnone => hs.mapped hsub (h ▸ hnone)⟩

/-- Induction on the new list: the children of an entry, then the rest of the list. -/
theorem gatherDiffs_spec {c2 : TreeNode} (hnodup : (path ++ c2.positions).Nodup)
    (hc : ClosedPath path st.changed) (hfresh : ∀ x ∈ c2.positions, x ∉ st.changed) :
    DiffSpec cfg depth first1 c1 c2 path st (gatherDiffs cfg c2 depth first1 c1 path st) := by
  induction c2 generalizing depth first1 c1 path st with
  | null =>
    rw [gatherDiffs]
    refine ⟨hc, ?_, ?_⟩
    · intro _ _ _ _
      exact ⟨by cases c1 <;> trivial, trivial⟩
    · intro _ _ j2 g2 hocc
      cases hocc
  | node i2 f2 n2 ihf ihn =>
    obtain ⟨⟨hi, hif, hin⟩, hf, hnpath, hnodupn, hnodupf⟩ := positions_disjoint hnodup
    have hpathNodup := (List.nodup_append.mp hnodupn).1
    have hcP := @closed_nextPartner depth first1 c1 i2 path st hpathNodup hc
    obtain ⟨changed, hstate, -, hbound⟩ := @nextPartner_state depth first1 c1 i2 path st
    have hfreshP : ∀ x ∈ (TreeNode.node i2 f2 n2).positions, x ∉ path → x ∉ changed :=
      fun x hx hpath hmem => (hbound x hmem).elim (hfresh x hx) hpath
    simp only [positions, List.mem_cons, List.mem_append] at hfreshP
    rw [gatherDiffs]
    split
    · rename_i i1 f1 n1 stP heq
      have hpartner : (nextPartner depth first1 i2 path c1 st).1 = .found i1 f1 n1 := by rw [heq]
      obtain ⟨hentry, hsib, hrest⟩ := nextPartner_found hpartner
      have hpass := fun hd => nextPartner_unpassed hpathNodup hc hd hpartner
      rw [heq] at hcP hpass hstate
      simp only at hcP hpass hstate
      have hfreshn : ∀ x, x ∈ f2.positions ∨ x ∈ n2.positions → x ∉ stP.changed := by
        intro x hx
        rw [hstate]
        exact hfreshP x (.inr hx) (hx.elim (fun h => (hf x h).1) (hnpath x))
      have hfreshi : i2.pos ∉ stP.changed := by
        rw [hstate]
        exact hfreshP _ (.inl rfl) hi
      apply @DiffSpec.of_mapped2_eq _ _ _ _ _ stP
      · rw [hstate]
      have he : EntrySpec cfg i1 i2 f1 f2 path stP (diffEntry cfg
          (gatherDiffs cfg f2 (depth + 1) f1 f1 (i2.pos :: path)) i1 i2 path stP) := by
        by_cases hmatch : EqualDir i1 i2 ∨ i1.dataEquals i2 = true
        · refine .of_match hmatch hpathNodup (fun x hx => (hf x hx).1) hif hcP
            (fun _ => subset_gatherDiffs) (ihf hnodupf ⟨?_, closed_recordDirDiff hpathNodup hcP⟩ ?_)
          · exact fun h => absurd ((sameAt_recordDirDiff hi).flag.mp h) hfreshi
          · intro x hx h
            exact hfreshn x (.inl hx) ((sameAt_recordDirDiff (hf x hx).1).flag.mp h)
        · exact .of_modified hmatch hpathNodup hi (fun x hx => (hf x hx).1) hcP
      refine .of_found hnodup hentry hsib hrest hpass he (ihn hnodupn he.closed ?_)
      intro x hx
      have hxi : x ≠ i2.pos := fun h => hin (h ▸ hx)
      have hsame : SameAt x stP (diffEntry cfg
          (gatherDiffs cfg f2 (depth + 1) f1 f1 (i2.pos :: path)) i1 i2 path stP) := by
        refine sameAt_diffEntry (hnpath x hx) hxi fun _ =>
          sameAt_gatherDiffs ?_ fun h => (hf x h).2 hx
        exact fun h => (List.mem_cons.mp h).elim hxi (hnpath x hx)
      exact fun h => hfreshn x (.inr hx) (hsame.flag.mp h)
    · rename_i c stP heq
      have hpartner : (nextPartner depth first1 i2 path c1 st).1 = .missing c := by rw [heq]
      rw [heq] at hcP hstate
      simp only at hcP hstate
      apply @DiffSpec.of_mapped2_eq _ _ _ _ _
        (subtreeChanged path { stP with diffs := stP.diffs ++ [i2.id] })
      · rw [hstate]
        rfl
      refine .of_missing hnodup (all_subtreeChangedParent hpathNodup hcP)
        (nextPartner_missing hpartner)
        (ihn hnodupn (closedPath_of_all (all_subtreeChangedParent hpathNodup hcP)) ?_)
      intro x hx h
      cases mem_or_of_subtreeChangedParent h with
      | inl h =>
        rw [hstate] at h
        exact hfreshP x (.inr (.inr hx)) (hnpath x hx) h
      | inr h => exact hnpath x hx h

end Walk

end UrBackup.TreeDiff
