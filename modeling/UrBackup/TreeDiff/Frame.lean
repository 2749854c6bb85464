import UrBackup.TreeDiff.TreeDiff

/-! What the steps of the diff write and what they leave alone. Nothing here depends on the
order of the siblings. -/
namespace UrBackup.TreeDiff

open TreeNode

/-- The flag and the match of a place of the new tree are as before. -/
structure SameAt (x : Nat) (st st' : DiffState) : Prop where
  flag : x ∈ st'.changed ↔ x ∈ st.changed
  mapped2 : mappedNode st'.mapped2 x = mappedNode st.mapped2 x

theorem SameAt.refl (x : Nat) (st : DiffState) : SameAt x st st := ⟨Iff.rfl, rfl⟩

theorem SameAt.of_eq {x : Nat} {st st' : DiffState} (hc : st'.changed = st.changed)
    (hm : st'.mapped2 = st.mapped2) : SameAt x st st' := by
  refine ⟨?_, ?_⟩
  · rw [hc]
  · rw [hm]

theorem SameAt.trans {x : Nat} {st st' st'' : DiffState} (h : SameAt x st st')
    (h' : SameAt x st' st'') : SameAt x st st'' :=
  ⟨h'.flag.trans h.flag, h'.mapped2.trans h.mapped2⟩

theorem mappedNode_cons (a b x : Nat) (m : List (Nat × Nat)) :
    mappedNode ((a, b) :: m) x = if a = x then some b else mappedNode m x := by
  unfold mappedNode
  by_cases hx : a = x
  · rw [List.find?_cons_of_pos (by simpa using hx), if_pos hx]
    rfl
  · rw [List.find?_cons_of_neg (by simpa using hx), if_neg hx]

section Parents

variable {path changed : List Nat} {st : DiffState} {x : Nat}

theorem subset_subtreeChangedParent : changed ⊆ subtreeChangedParent path changed := by
  induction path generalizing changed with
  | nil => exact fun _ h => h
  | cons p ps ih =>
    rw [subtreeChangedParent]
    split
    · exact fun _ h => h
    · exact fun x hx => ih (List.mem_cons_of_mem _ hx)

theorem mem_or_of_subtreeChangedParent (h : x ∈ subtreeChangedParent path changed) :
    x ∈ changed ∨ x ∈ path := by
  induction path generalizing changed with
  | nil => exact .inl h
  | cons p ps ih =>
    rw [subtreeChangedParent] at h
    split at h
    · exact .inl h
    · cases ih h with
      | inl h =>
        cases List.mem_cons.mp h with
        | inl h => exact .inr (h ▸ List.mem_cons_self)
        | inr h => exact .inl h
      | inr h => exact .inr (List.mem_cons_of_mem _ h)

theorem sameAt_subtreeChanged {st0 : DiffState} (hx : x ∉ path)
    (h : SameAt x st0 st) : SameAt x st0 (subtreeChanged path st) := by
  apply h.trans
  refine ⟨⟨?_, ?_⟩, rfl⟩
  · intro h
    exact (mem_or_of_subtreeChangedParent h).resolve_right hx
  · intro h
    exact subset_subtreeChangedParent h

end Parents

section Partners

variable {depth : Nat} {first1 c1 : TreeNode} {i2 : NodeInfo} {path : List Nat} {st : DiffState}

theorem searchRoot_some {t : TreeNode} {i f n} (h : searchRoot i2 st t = some (i, f, n)) :
    Sibling i f t ∧ SameEntry i i2 ∧ ∀ j g, Sibling j g n → Sibling j g t := by
  induction t with
  | null => cases h
  | node j g m _ ih =>
    rw [searchRoot] at h
    split at h
    · rename_i hmatch
      simp only [Option.some.injEq, Prod.mk.injEq] at h
      obtain ⟨rfl, rfl, rfl⟩ := h
      have hname : i2.name = j.name := strcmp_eq_iff.mp (of_decide_eq_true hmatch.2.1)
      exact ⟨.here _, ⟨hmatch.1.symm, hname.symm⟩, fun _ _ hs => .after hs⟩
    · obtain ⟨hs, he, hn⟩ := ih h
      exact ⟨.after hs, he, fun j g hs => .after (hn j g hs)⟩

theorem searchRoot_guard {i f n}
    (h : (if depth = 0 then searchRoot i2 st first1 else none) = some (i, f, n)) :
    depth = 0 ∧ Sibling i f first1 ∧ SameEntry i i2 ∧ ∀ j g, Sibling j g n → Sibling j g first1 := by
  split at h
  · exact ⟨‹_›, searchRoot_some h⟩
  · cases h

theorem nextPartner_state : ∃ changed, (nextPartner depth first1 i2 path c1 st).2 =
    { st with changed := changed } ∧ st.changed ⊆ changed ∧
    ∀ x ∈ changed, x ∈ st.changed ∨ x ∈ path := by
  have hsame : ∃ changed, st = { st with changed := changed } ∧ st.changed ⊆ changed ∧
      ∀ x ∈ changed, x ∈ st.changed ∨ x ∈ path :=
    ⟨st.changed, rfl, fun _ h => h, fun _ h => .inl h⟩
  induction c1 generalizing st with
  | null =>
    rw [nextPartner]
    split <;> exact hsame
  | node i1 f1 n1 _ ih =>
    rw [nextPartner]
    split
    · exact hsame
    · split
      · exact hsame
      · split
        · obtain ⟨changed, heq, hsub, hbound⟩ := @ih (subtreeChanged path st)
            ⟨_, rfl, fun _ h => h, fun _ h => .inl h⟩
          refine ⟨changed, heq, fun x hx => hsub (subset_subtreeChangedParent hx), ?_⟩
          intro x hx
          cases hbound x hx with
          | inl h => exact mem_or_of_subtreeChangedParent h
          | inr h => exact .inr h
        · exact hsame

theorem nextPartner_found {i f n} (h : (nextPartner depth first1 i2 path c1 st).1 = .found i f n) :
    SameEntry i i2 ∧ (Sibling i f first1 ∨ Sibling i f c1) ∧
    ∀ j g, Sibling j g n → Sibling j g first1 ∨ Sibling j g c1 := by
  induction c1 generalizing st with
  | null =>
    rw [nextPartner] at h
    split at h
    · rename_i hsearch
      cases h
      obtain ⟨-, hs, he, hn⟩ := searchRoot_guard hsearch
      exact ⟨he, .inl hs, fun j g hj => .inl (hn j g hj)⟩
    · cases h
  | node i1 f1 n1 _ ih =>
    rw [nextPartner] at h
    split at h
    · rename_i heq
      cases h
      exact ⟨entryCompare_eq_iff.mp heq, .inr (.here _), fun j g hj => .inr (.after hj)⟩
    · split at h
      · rename_i hsearch
        cases h
        obtain ⟨-, hs, he, hn⟩ := searchRoot_guard hsearch
        exact ⟨he, .inl hs, fun j g hj => .inl (hn j g hj)⟩
      · split at h
        · obtain ⟨he, hs, hn⟩ := ih h
          exact ⟨he, hs.imp_right .after, fun j g hj => (hn j g hj).imp_right .after⟩
        · cases h

theorem nextPartner_missing {c} (h : (nextPartner depth first1 i2 path c1 st).1 = .missing c) :
    ∀ j g, Sibling j g c → Sibling j g c1 := by
  induction c1 generalizing st with
  | null =>
    rw [nextPartner] at h
    split at h
    · cases h
    · cases h
      exact fun _ _ hj => hj
  | node i1 f1 n1 _ ih =>
    rw [nextPartner] at h
    split at h
    · cases h
    · split at h
      · cases h
      · split at h
        · exact fun j g hj => .after (ih h j g hj)
        · cases h
          exact fun _ _ hj => hj

end Partners

section Entry

variable {cfg : DiffConfig} {i1 i2 : NodeInfo} {path : List Nat} {st : DiffState} {x : Nat}
  {children : DiffState → DiffState}

theorem subset_recordDirDiff : st.changed ⊆ (recordDirDiff i1 i2 path st).changed := by
  unfold recordDirDiff
  split
  · exact fun _ hx => subset_subtreeChangedParent hx
  · exact fun _ hx => hx

theorem subset_markSymlink : st.changed ⊆ (markSymlink cfg i2 path st).changed := by
  unfold markSymlink
  split
  · exact fun _ hx => subset_subtreeChangedParent hx
  · exact fun _ hx => hx

theorem subset_matchOrModified (hch : ∀ st : DiffState, st.changed ⊆ (children st).changed) :
    st.changed ⊆ (matchOrModified cfg children i1 i2 path st).changed := by
  unfold matchOrModified
  split
  · exact hch st
  · exact fun _ hx => subset_subtreeChangedParent hx

theorem subset_diffEntry (hch : ∀ st : DiffState, st.changed ⊆ (children st).changed) :
    st.changed ⊆ (diffEntry cfg children i1 i2 path st).changed := fun _ hx =>
  subset_markSymlink (subset_matchOrModified hch (subset_recordDirDiff hx))

theorem sameAt_recordDirDiff (hx : x ∉ path) : SameAt x st (recordDirDiff i1 i2 path st) := by
  unfold recordDirDiff
  split
  · exact sameAt_subtreeChanged hx (.of_eq rfl rfl)
  · exact .refl _ _

theorem sameAt_markSymlink (hx : x ∉ path) : SameAt x st (markSymlink cfg i2 path st) := by
  unfold markSymlink
  split
  · exact sameAt_subtreeChanged hx (.refl _ _)
  · exact .refl _ _

theorem sameAt_mapNodes (hx : x ≠ i2.pos) : SameAt x st (mapNodes i1 i2 st) := by
  refine ⟨Iff.rfl, ?_⟩
  rw [mapNodes, mappedNode_cons, if_neg (Ne.symm hx)]

theorem sameAt_diffEntry (hx : x ∉ path) (hi : x ≠ i2.pos)
    (hch : ∀ st, SameAt x st (children st)) :
    SameAt x st (diffEntry cfg children i1 i2 path st) := by
  unfold diffEntry
  apply SameAt.trans _ (sameAt_markSymlink hx)
  apply SameAt.trans (sameAt_recordDirDiff hx)
  unfold matchOrModified
  split
  · exact (hch _).trans (sameAt_mapNodes hi)
  · exact sameAt_subtreeChanged hx (.of_eq rfl rfl)

theorem sameAt_children (hmatch : EqualDir i1 i2 ∨ i1.dataEquals i2 = true) (hx : x ∉ path)
    (hi : x ≠ i2.pos) :
    SameAt x (children (recordDirDiff i1 i2 path st)) (diffEntry cfg children i1 i2 path st) := by
  unfold diffEntry matchOrModified
  rw [if_pos hmatch]
  exact (sameAt_mapNodes hi).trans (sameAt_markSymlink hx)

theorem mapped_diffEntry (hmatch : EqualDir i1 i2 ∨ i1.dataEquals i2 = true) :
    mappedNode (diffEntry cfg children i1 i2 path st).mapped2 i2.pos = some i1.pos := by
  have hmark : ∀ st : DiffState, (markSymlink cfg i2 path st).mapped2 = st.mapped2 := by
    intro st
    unfold markSymlink
    split <;> rfl
  unfold diffEntry matchOrModified
  rw [if_pos hmatch, hmark, mapNodes, mappedNode_cons, if_pos rfl]

end Entry

section Walk

variable {cfg : DiffConfig} {depth : Nat} {first1 c1 c2 : TreeNode} {path : List Nat}
  {st : DiffState} {x : Nat}

theorem subset_gatherDiffs : st.changed ⊆ (gatherDiffs cfg c2 depth first1 c1 path st).changed := by
  induction c2 generalizing depth first1 c1 path st with
  | null => exact fun _ hx => hx
  | node i2 f2 n2 ihf ihn =>
    rw [gatherDiffs]
    obtain ⟨changed, hstate, hsub, -⟩ := @nextPartner_state depth first1 c1 i2 path st
    split
    · rename_i heq
      rw [heq] at hstate
      cases hstate
      exact fun x hx => ihn (subset_diffEntry (fun _ => ihf) (hsub hx))
    · rename_i heq
      rw [heq] at hstate
      cases hstate
      exact fun x hx => ihn (subset_subtreeChangedParent (hsub hx))

theorem sameAt_gatherDiffs (hx : x ∉ path) (hx2 : x ∉ c2.positions) :
    SameAt x st (gatherDiffs cfg c2 depth first1 c1 path st) := by
  induction c2 generalizing depth first1 c1 path st with
  | null => exact .refl _ _
  | node i2 f2 n2 ihf ihn =>
    simp only [positions, List.mem_cons, List.mem_append, not_or] at hx2
    obtain ⟨hi, hf, hn⟩ := hx2
    have hpathf : x ∉ i2.pos :: path := fun h => (List.mem_cons.mp h).elim hi hx
    rw [gatherDiffs]
    obtain ⟨changed, hstate, hsub, hbound⟩ := @nextPartner_state depth first1 c1 i2 path st
    have hpartner : SameAt x st { st with changed := changed } :=
      ⟨⟨fun h => (hbound x h).resolve_right hx, fun h => hsub h⟩, rfl⟩
    split
    · rename_i heq
      rw [heq] at hstate
      cases hstate
      exact hpartner.trans ((sameAt_diffEntry hx hi fun _ => ihf hpathf hf).trans (ihn hx hn))
    · rename_i heq
      rw [heq] at hstate
      cases hstate
      refine hpartner.trans (SameAt.trans ?_ (ihn hx hn))
      exact sameAt_subtreeChanged hx (.of_eq rfl rfl)

end Walk

end UrBackup.TreeDiff
