import UrBackup.TreeDiff.TreeNode

/-! The diff of two file trees. The flags, the mapping and the result lists that the
source keeps in the nodes and in vectors are one state that is passed along. -/
namespace UrBackup

open TreeNode

structure DiffConfig where
  hasSymbit : Bool
  isWindows : Bool

/-- Places of `t2` whose subtree changed, the mapping of both trees, and the result lists. -/
structure DiffState where
  changed : List Nat
  mapped1 : List (Nat × Nat)
  mapped2 : List (Nat × Nat)
  diffs : List Nat
  modifiedInplaceIds : List Nat
  dirDiffs : List Nat
  deletedInplaceIds : List Nat
  deriving DecidableEq

namespace TreeDiff

def isSymlink (cfg : DiffConfig) (n : NodeInfo) : Bool :=
  let changeIndicator : UInt64 :=
    match n.data with
    | .file _ lastMod => lastMod
    | .dir lastMod => lastMod
  let symlinkBit : UInt64 := 0x4000000000000000
  let negBit : UInt64 := 0x8000000000000000
  let symlinkMask : UInt64 := 0x7000000000000000
  if cfg.hasSymbit then changeIndicator &&& symlinkBit ≠ 0
  else if cfg.isWindows then
    (changeIndicator &&& negBit = 0 ∨ n.type = .dir) ∧ changeIndicator &&& symlinkMask ≠ 0
  else changeIndicator &&& negBit ≠ 0

def subtreeChangedParent : List Nat → List Nat → List Nat
  | [], changed => changed
  | p :: ps, changed =>
    if p ∈ changed then changed else subtreeChangedParent ps (p :: changed)

/-- `path` leads from the parent of the node to the root. -/
def subtreeChanged (path : List Nat) (st : DiffState) : DiffState :=
  { st with changed := subtreeChangedParent path st.changed }

def mappedNode (mapped : List (Nat × Nat)) (pos : Nat) : Option Nat :=
  (mapped.find? fun e => e.1 = pos).map Prod.snd

def mapNodes (i1 i2 : NodeInfo) (st : DiffState) : DiffState :=
  { st with
    mapped2 := (i2.pos, i1.pos) :: st.mapped2
    mapped1 := (i1.pos, i2.pos) :: st.mapped1 }

def searchRoot (i2 : NodeInfo) (st : DiffState) : TreeNode → Option (NodeInfo × TreeNode × TreeNode)
  | .null => none
  | .node i f n =>
    if i2.type = i.type ∧ i2.nameEquals i = true ∧ mappedNode st.mapped1 i.pos = none then
      some (i, f, n)
    else searchRoot i2 st n

/-- The old entry that is compared with a new one, or where the old list stands when there
is none. -/
inductive Partner where
  | found (i1 : NodeInfo) (f1 n1 : TreeNode)
  | missing (c1 : TreeNode)

/-- The turns of the loop for one new entry: old entries in front of it are passed over. -/
def nextPartner (depth : Nat) (first1 : TreeNode) (i2 : NodeInfo) (path : List Nat) :
    TreeNode → DiffState → Partner × DiffState
  | .null, st =>
    match if depth = 0 then searchRoot i2 st first1 else none with
    | some (i, f, n) => (.found i f n, st)
    | none => (.missing .null, st)
  | .node i1 f1 n1, st =>
    if entryCompare i1 i2 = .eq then (.found i1 f1 n1, st)
    else
      match if depth = 0 then searchRoot i2 st first1 else none with
      | some (i, f, n) => (.found i f n, st)
      | none =>
        if entryCompare i1 i2 = .lt then
          nextPartner depth first1 i2 path n1 (subtreeChanged path st)
        else (.missing (.node i1 f1 n1), st)

def recordModified (cfg : DiffConfig) (i1 i2 : NodeInfo) (st : DiffState) : DiffState :=
  { st with
    modifiedInplaceIds :=
      if i1.type = i2.type then st.modifiedInplaceIds ++ [i2.id] else st.modifiedInplaceIds
    deletedInplaceIds :=
      if i1.type = i2.type ∧ isSymlink cfg i1 = isSymlink cfg i2 then
        st.deletedInplaceIds ++ [i1.id]
      else st.deletedInplaceIds
    diffs := st.diffs ++ [i2.id] }

def EqualDir (i1 i2 : NodeInfo) : Prop := i1.type = .dir ∧ i2.type = .dir

instance (i1 i2 : NodeInfo) : Decidable (EqualDir i1 i2) :=
  inferInstanceAs (Decidable (_ ∧ _))

def recordDirDiff (i1 i2 : NodeInfo) (path : List Nat) (st : DiffState) : DiffState :=
  if EqualDir i1 i2 ∧ ¬ i1.dataEquals i2 = true then
    subtreeChanged path { st with dirDiffs := st.dirDiffs ++ [i2.id] }
  else st

def matchOrModified (cfg : DiffConfig) (children : DiffState → DiffState) (i1 i2 : NodeInfo)
    (path : List Nat) (st : DiffState) : DiffState :=
  if EqualDir i1 i2 ∨ i1.dataEquals i2 = true then mapNodes i1 i2 (children st)
  else subtreeChanged path (recordModified cfg i1 i2 st)

def markSymlink (cfg : DiffConfig) (i2 : NodeInfo) (path : List Nat) (st : DiffState) : DiffState :=
  if isSymlink cfg i2 then subtreeChanged path st else st

/-- A new entry and its old one; `children` is the diff of what is below them. -/
def diffEntry (cfg : DiffConfig) (children : DiffState → DiffState) (i1 i2 : NodeInfo)
    (path : List Nat) (st : DiffState) : DiffState :=
  markSymlink cfg i2 path (matchOrModified cfg children i1 i2 path (recordDirDiff i1 i2 path st))

/-- `c2` and `c1` are what is left of the children of the two nodes, `first1` all children of
the old one and `path` the places of the new node and its parents. -/
def gatherDiffs (cfg : DiffConfig) : TreeNode → Nat → TreeNode → TreeNode → List Nat →
    DiffState → DiffState
  | .null, _, _, _, _, st => st
  | .node i2 f2 n2, depth, first1, c1, path, st =>
    match nextPartner depth first1 i2 path c1 st with
    | (.found i1 f1 n1, st) =>
      gatherDiffs cfg n2 depth first1 n1 path
        (diffEntry cfg (gatherDiffs cfg f2 (depth + 1) f1 f1 (i2.pos :: path)) i1 i2 path st)
    | (.missing c1, st) =>
      gatherDiffs cfg n2 depth first1 c1 path
        (subtreeChanged path { st with diffs := st.diffs ++ [i2.id] })

def gatherDeletes (mapped1 : List (Nat × Nat)) : TreeNode → List Nat
  | .null => []
  | .node i f n =>
    (if mappedNode mapped1 i.pos = none then [i.id] else []) ++
      gatherDeletes mapped1 f ++ gatherDeletes mapped1 n

/-- The loop of `getTreesize`, which stops over the limit. -/
def treesizeLoop (limit : Nat) : Nat → TreeNode → Nat
  | treesize, .null => treesize
  | treesize, .node _ f n =>
    let treesize := treesize + treesizeLoop limit 1 f
    if limit < treesize then treesize else treesizeLoop limit treesize n

def getTreesize (firstChild : TreeNode) (limit : Nat) : Nat := treesizeLoop limit 1 firstChild

def gatherLargeUnchangedSubtrees (st : DiffState) : TreeNode → List Nat
  | .null => []
  | .node i f n =>
    (if i.pos ∉ st.changed ∧ mappedNode st.mapped2 i.pos ≠ none ∧ 10 < getTreesize f 10 then
      [i.id]
    else gatherLargeUnchangedSubtrees st f) ++ gatherLargeUnchangedSubtrees st n

structure DiffResult where
  diffs : List Nat
  deletedIds : List Nat
  largeUnchangedSubtrees : List Nat
  modifiedInplaceIds : List Nat
  dirDiffs : List Nat
  deletedInplaceIds : List Nat

def diffState (cfg : DiffConfig) (t1 t2 : TreeNode) : DiffState :=
  gatherDiffs cfg t2 0 t1 t1 [0] ⟨[], [], [], [], [], [], []⟩

def diffTrees (cfg : DiffConfig) (t1 t2 : TreeNode) : DiffResult :=
  let st := diffState cfg t1 t2
  ⟨st.diffs.mergeSort, (gatherDeletes st.mapped1 t1).mergeSort,
    (gatherLargeUnchangedSubtrees st t2).mergeSort, st.modifiedInplaceIds.mergeSort,
    st.dirDiffs.mergeSort, st.deletedInplaceIds.mergeSort⟩

end TreeDiff

end UrBackup
