import Mathlib.Data.List.Nodup
import Mathlib.Order.Basic

/-! File trees as the diff walks them: every node has a first child and a next sibling.
A node is known by its place in the vector of nodes, where the root has place 0. -/
namespace UrBackup

inductive NodeType where
  | file
  | dir
  deriving DecidableEq, Repr

/-- What the data pointer of a node points to: two numbers for a file, one for a directory. -/
inductive NodeData where
  | file (filesize lastMod : UInt64)
  | dir (lastMod : UInt64)
  deriving DecidableEq, Repr

structure NodeInfo where
  pos : Nat
  id : Nat
  name : List UInt8
  data : NodeData
  deriving DecidableEq, Repr

def NodeInfo.type (i : NodeInfo) : NodeType :=
  match i.data with
  | .file _ _ => .file
  | .dir _ => .dir

inductive TreeNode where
  | null
  | node (info : NodeInfo) (firstChild nextSibling : TreeNode)
  deriving DecidableEq, Repr

def strcmp : List UInt8 → List UInt8 → Ordering
  | [], [] => .eq
  | [], _ :: _ => .lt
  | _ :: _, [] => .gt
  | a :: as, b :: bs => if a = b then strcmp as bs else if a < b then .lt else .gt

def NodeInfo.nameCompare (i other : NodeInfo) : Ordering := strcmp i.name other.name

def NodeInfo.nameEquals (i other : NodeInfo) : Bool := strcmp i.name other.name = .eq

def NodeInfo.dataEquals (i other : NodeInfo) : Bool := i.data = other.data

theorem strcmp_eq_iff {a b : List UInt8} : strcmp a b = .eq ↔ a = b := by
  induction a generalizing b with
  | nil => cases b <;> simp [strcmp]
  | cons x a ih =>
    cases b with
    | nil => simp [strcmp]
    | cons y b =>
      by_cases hxy : x = y
      · simp [strcmp, hxy, ih]
      · by_cases hlt : x < y <;> simp [strcmp, hxy, hlt]

theorem strcmp_gt_iff {a b : List UInt8} : strcmp a b = .gt ↔ strcmp b a = .lt := by
  induction a generalizing b with
  | nil => cases b <;> simp [strcmp]
  | cons x a ih =>
    cases b with
    | nil => simp [strcmp]
    | cons y b =>
      by_cases hxy : x = y
      · simp [strcmp, hxy, ih]
      · have hyx : ¬ y = x := fun h => hxy h.symm
        simp only [strcmp, if_neg hxy, if_neg hyx]
        by_cases hlt : x < y
        · have hle : ¬ y < x := UInt8.not_lt.mpr (UInt8.le_of_lt hlt)
          simp only [if_pos hlt, if_neg hle, reduceCtorEq]
        · have hgt : y < x := UInt8.lt_of_le_of_ne (UInt8.not_lt.mp hlt) hyx
          simp only [if_neg hlt, if_pos hgt]

def entryCompare (i other : NodeInfo) : Ordering :=
  match i.type, other.type with
  | .file, .dir => .lt
  | .dir, .file => .gt
  | _, _ => i.nameCompare other

/-- Two nodes stand for the same entry of their directories. -/
def SameEntry (i other : NodeInfo) : Prop := i.type = other.type ∧ i.name = other.name

instance (i other : NodeInfo) : Decidable (SameEntry i other) :=
  inferInstanceAs (Decidable (_ ∧ _))

theorem entryCompare_eq_iff {i other : NodeInfo} :
    entryCompare i other = .eq ↔ SameEntry i other := by
  unfold entryCompare SameEntry NodeInfo.nameCompare
  cases i.type <;> cases other.type <;> simp [strcmp_eq_iff]

theorem entryCompare_gt_iff {a b : NodeInfo} :
    entryCompare a b = .gt ↔ entryCompare b a = .lt := by
  unfold entryCompare NodeInfo.nameCompare
  cases ha : a.type <;> cases hb : b.type <;> simp [strcmp_gt_iff]

theorem SameEntry.symm {a b : NodeInfo} (h : SameEntry a b) : SameEntry b a :=
  ⟨h.1.symm, h.2.symm⟩

theorem SameEntry.trans {a b c : NodeInfo} (h : SameEntry a b) (h' : SameEntry b c) :
    SameEntry a c := ⟨h.1.trans h'.1, h.2.trans h'.2⟩

theorem entryCompare_congr {a a' b b' : NodeInfo} (ha : SameEntry a a') (hb : SameEntry b b') :
    entryCompare a b = entryCompare a' b' := by
  unfold entryCompare NodeInfo.nameCompare
  rw [ha.1, hb.1, ha.2, hb.2]

namespace TreeNode

def size : TreeNode → Nat
  | null => 0
  | node _ f n => 1 + f.size + n.size

def positions : TreeNode → List Nat
  | null => []
  | node i f n => i.pos :: (f.positions ++ n.positions)

/-- A node stands in a list of siblings. -/
inductive Sibling (i : NodeInfo) (f : TreeNode) : TreeNode → Prop where
  | here (n : TreeNode) : Sibling i f (node i f n)
  | after {j : NodeInfo} {g n : TreeNode} (h : Sibling i f n) : Sibling i f (node j g n)

/-- A node stands in a list of siblings or below. -/
inductive Occurs (i : NodeInfo) (f : TreeNode) : TreeNode → Prop where
  | here (n : TreeNode) : Occurs i f (node i f n)
  | down {j : NodeInfo} {g : TreeNode} (n : TreeNode) (h : Occurs i f g) : Occurs i f (node j g n)
  | after {j : NodeInfo} {g n : TreeNode} (h : Occurs i f n) : Occurs i f (node j g n)

def siblings : TreeNode → List NodeInfo
  | null => []
  | node i _ n => i :: n.siblings

def infos : TreeNode → List NodeInfo
  | null => []
  | node i f n => i :: (f.infos ++ n.infos)

/-- The siblings of every list are in strictly increasing order. -/
def Sorted : TreeNode → Prop
  | null => True
  | node i f n => (∀ j ∈ n.siblings, entryCompare i j = .lt) ∧ f.Sorted ∧ n.Sorted

/-- The lists below the root are sorted, the list of the root may not be. -/
def SortedBelow : TreeNode → Prop
  | null => True
  | node _ f n => f.Sorted ∧ n.SortedBelow

/-- No two siblings of the list stand for the same entry. -/
def DistinctEntries : TreeNode → Prop
  | null => True
  | node i _ n => (∀ j ∈ n.siblings, ¬ SameEntry i j) ∧ n.DistinctEntries

/-- Files have no children. -/
def FilesAreLeaves : TreeNode → Prop
  | null => True
  | node i f n => (i.type = .file → f = null) ∧ f.FilesAreLeaves ∧ n.FilesAreLeaves

/-- Identical trees: same shape, names and types, and files with the same data. -/
def Same : TreeNode → TreeNode → Prop
  | null, null => True
  | node i f n, node i' f' n' =>
    SameEntry i i' ∧ (i.type = .file → i.data = i'.data) ∧ f.Same f' ∧ n.Same n'
  | _, _ => False

/-- Equal in all data but for siblings at the end of the old lists. -/
def SameUpToTails : TreeNode → TreeNode → Prop
  | _, null => True
  | null, node _ _ _ => False
  | node i f n, node i' f' n' =>
    i.name = i'.name ∧ i.data = i'.data ∧ f.SameUpToTails f' ∧ n.SameUpToTails n'

/-- A tree as the reader of a file list builds it: places and ids are numbers of the nodes,
and the root, which is not part of the list, has place 0. -/
structure ReadTree (t : TreeNode) : Prop where
  positions : (0 :: t.positions).Nodup
  ids : (t.infos.map NodeInfo.id).Nodup
  leaves : t.FilesAreLeaves

instance decidableSorted : (t : TreeNode) → Decidable t.Sorted
  | null => .isTrue trivial
  | node i f n =>
    have := decidableSorted f
    have := decidableSorted n
    inferInstanceAs (Decidable ((∀ j ∈ n.siblings, entryCompare i j = .lt) ∧ f.Sorted ∧ n.Sorted))

instance decidableSortedBelow : (t : TreeNode) → Decidable t.SortedBelow
  | null => .isTrue trivial
  | node _ f n =>
    have := decidableSortedBelow n
    inferInstanceAs (Decidable (f.Sorted ∧ n.SortedBelow))

instance decidableDistinctEntries : (t : TreeNode) → Decidable t.DistinctEntries
  | null => .isTrue trivial
  | node i _ n =>
    have := decidableDistinctEntries n
    inferInstanceAs (Decidable ((∀ j ∈ n.siblings, ¬ SameEntry i j) ∧ n.DistinctEntries))

instance decidableFilesAreLeaves : (t : TreeNode) → Decidable t.FilesAreLeaves
  | null => .isTrue trivial
  | node i f n =>
    have := decidableFilesAreLeaves f
    have := decidableFilesAreLeaves n
    inferInstanceAs (Decidable ((i.type = .file → f = null) ∧ f.FilesAreLeaves ∧ n.FilesAreLeaves))

section Members

variable {i j : NodeInfo} {f g t : TreeNode}

theorem Sibling.mem_siblings (h : Sibling i f t) : i ∈ t.siblings := by
  induction h with
  | here n => exact List.mem_cons_self
  | after _ ih => exact List.mem_cons_of_mem _ ih

theorem Sibling.occurs (h : Sibling i f t) : Occurs i f t := by
  induction h with
  | here n => exact .here n
  | after _ ih => exact .after ih

theorem Sibling.occurs_below (h : Sibling j g t) (ho : Occurs i f g) : Occurs i f t := by
  induction h with
  | here n => exact .down n ho
  | after _ ih => exact .after ih

theorem Sibling.sorted (h : Sibling i f t) (hs : t.Sorted) : f.Sorted := by
  induction h with
  | here n => exact hs.2.1
  | after _ ih => exact ih hs.2.2

theorem Sibling.sorted_below (h : Sibling i f t) (hs : t.SortedBelow) : f.Sorted := by
  induction h with
  | here n => exact hs.1
  | after _ ih => exact ih hs.2

theorem Sibling.leaves (h : Sibling i f t) (hl : t.FilesAreLeaves) : f.FilesAreLeaves := by
  induction h with
  | here n => exact hl.2.1
  | after _ ih => exact ih hl.2.2

theorem Occurs.type_dir (h : Occurs i f t) (hl : t.FilesAreLeaves) (hf : f ≠ null) :
    i.type = .dir := by
  induction h with
  | here n =>
    cases htype : i.type with
    | file => exact absurd (hl.1 htype) hf
    | dir => rfl
  | down n _ ih => exact ih hl.2.1
  | after _ ih => exact ih hl.2.2

theorem Occurs.mem_infos (h : Occurs i f t) : i ∈ t.infos := by
  induction h with
  | here n => exact List.mem_cons_self
  | down n _ ih => exact List.mem_cons_of_mem _ (List.mem_append_left _ ih)
  | after _ ih => exact List.mem_cons_of_mem _ (List.mem_append_right _ ih)

theorem Occurs.infos_subset (h : Occurs i f t) : f.infos ⊆ t.infos := by
  induction h with
  | here n => exact fun _ hk => List.mem_cons_of_mem _ (List.mem_append_left _ hk)
  | down n _ ih => exact fun _ hk => List.mem_cons_of_mem _ (List.mem_append_left _ (ih hk))
  | after _ ih => exact fun _ hk => List.mem_cons_of_mem _ (List.mem_append_right _ (ih hk))

theorem positions_eq (t : TreeNode) : t.positions = t.infos.map NodeInfo.pos := by
  induction t with
  | null => rfl
  | node i f n ihf ihn => rw [positions, infos, List.map_cons, List.map_append, ihf, ihn]

theorem Occurs.pos_mem (h : Occurs i f t) : i.pos ∈ t.positions := by
  rw [positions_eq]
  exact List.mem_map_of_mem h.mem_infos

theorem Occurs.positions_subset (h : Occurs i f t) : f.positions ⊆ t.positions := by
  rw [positions_eq, positions_eq]
  exact List.map_subset _ h.infos_subset

theorem Sibling.pos_not_below (hnodup : t.positions.Nodup) (h1 : Sibling i f t)
    (h2 : Sibling j g t) : i.pos ∉ g.positions := by
  induction h1 with
  | here n =>
    obtain ⟨hself, -⟩ := List.nodup_cons.mp hnodup
    rw [List.mem_append, not_or] at hself
    cases h2 with
    | here => exact hself.1
    | after h2 => exact fun h => hself.2 (h2.occurs.positions_subset h)
  | after h1 ih =>
    obtain ⟨-, hn, hdisjoint⟩ := List.nodup_append.mp (List.nodup_cons.mp hnodup).2
    cases h2 with
    | here => exact fun h => hdisjoint _ h _ h1.occurs.pos_mem rfl
    | after h2 => exact ih hn h2

theorem Occurs.unique {k : NodeInfo → Nat} (hk : (t.infos.map k).Nodup) (hi : Occurs i f t)
    (hj : Occurs j g t) (h : k i = k j) : i = j ∧ f = g := by
  induction t with
  | null => cases hi
  | node a f' n ihf ihn =>
    rw [infos, List.map_cons, List.map_append, List.nodup_cons, List.mem_append] at hk
    obtain ⟨hself, happend⟩ := hk
    obtain ⟨hf, hn, hdisjoint⟩ := List.nodup_append.mp happend
    have hmem : ∀ {x h s}, Occurs x h s → k x ∈ s.infos.map k := fun ho =>
      List.mem_map_of_mem ho.mem_infos
    cases hi with
    | here =>
      cases hj with
      | here => exact ⟨rfl, rfl⟩
      | down _ hj => exact absurd (.inl (h ▸ hmem hj)) hself
      | after hj => exact absurd (.inr (h ▸ hmem hj)) hself
    | down _ hi =>
      cases hj with
      | here => exact absurd (.inl (h ▸ hmem hi)) hself
      | down _ hj => exact ihf hf hi hj
      | after hj => exact absurd h (hdisjoint _ (hmem hi) _ (hmem hj))
    | after hi =>
      cases hj with
      | here => exact absurd (.inr (h ▸ hmem hi)) hself
      | down _ hj => exact absurd h.symm (hdisjoint _ (hmem hj) _ (hmem hi))
      | after hj => exact ihn hn hi hj

theorem Same.size_eq {t' : TreeNode} (h : t.Same t') : t.size = t'.size := by
  induction t generalizing t' with
  | null =>
    cases t' with
    | null => rfl
    | node => exact h.elim
  | node i f n ihf ihn =>
    cases t' with
    | null => exact h.elim
    | node i' f' n' => rw [size, size, ihf h.2.2.1, ihn h.2.2.2]

end Members

end TreeNode

end UrBackup
