import UrBackup.FileList.Scan

/-! A list that is written from a forest of entries is read back as this forest. -/
namespace UrBackup

open FileList TransitionSystem

/-- The name of an entry: it ends where a zero is, and `..` closes a directory. -/
def ListName : Type := { name : List UInt8 // 0 ∉ name ∧ name ≠ dotDot }

/-- The entries of a directory, each with what follows it. -/
inductive Forest where
  | nil
  | file (name : ListName) (size lastModified : Int64) (rest : Forest)
  | dir (name : ListName) (lastModified : Int64) (children rest : Forest)

namespace Forest

/-- The items of the list, depth first, where `..` closes a directory. -/
def items : Forest → List SFile
  | nil => []
  | file name size lastModified rest => ⟨name.val, size, lastModified, false⟩ :: rest.items
  | dir name lastModified children rest =>
    ⟨name.val, 0, lastModified, true⟩ :: (children.items ++ ⟨dotDot, 0, 0, true⟩ :: rest.items)

def write (f : Forest) : List UInt8 := f.items.flatMap writeFileItem

def numNodes : Forest → Nat
  | nil => 0
  | file _ _ _ rest => rest.numNodes + 1
  | dir _ _ children rest => children.numNodes + rest.numNodes + 1

def numRoots : Forest → Nat
  | nil => 0
  | file _ _ _ rest => rest.numRoots + 1
  | dir _ _ _ rest => rest.numRoots + 1

def numBytes : Forest → Nat
  | nil => 0
  | file name _ _ rest => rest.numBytes + (name.val.length + 17)
  | dir name _ children rest => children.numBytes + rest.numBytes + (name.val.length + 9)

def first (place : Nat) : Forest → Option Nat
  | nil => none
  | _ => some place

/-- From a node on the getters walk a forest: `next` is its first node, `id` the number of its first
item in the list, `parent` the node that it is below. -/
def Walked (t : TreeReader) (list : List SFile) (parent : Nat) (next : Option Nat) (id : Nat) :
    Forest → Prop
  | nil => next = none
  | file name size lastModified rest => ∃ place n, next = some place ∧
      t.nodes[place]? = some n ∧ n.getName t = name.val ∧ n.nodeType = typeFile ∧
      n.getData t = BuildPass.int64Bytes size ++ BuildPass.int64Bytes lastModified ∧
      n.id = id ∧ list[id]? = some ⟨name.val, size, lastModified, false⟩ ∧
      n.parent = some parent ∧ n.getFirstChild place = none ∧
      rest.Walked t list parent n.nextSibling (id + 1)
  | dir name lastModified children rest => ∃ place n, next = some place ∧
      t.nodes[place]? = some n ∧ n.getName t = name.val ∧ n.nodeType = typeDir ∧
      n.getData t = BuildPass.int64Bytes lastModified ∧
      n.id = id ∧ list[id]? = some ⟨name.val, 0, lastModified, true⟩ ∧ n.parent = some parent ∧
      children.Walked t list place (n.getFirstChild place) (id + 1) ∧
      rest.Walked t list parent n.nextSibling (id + children.items.length + 2)

section Items

variable {list cfs cfs' : List SFile} {cf : SFile} {id : Nat}

theorem item_of_prefix (h : cf :: cfs <+: list.drop id) : list[id]? = some cf := by
  obtain ⟨more, hmore⟩ := h
  rw [← List.head?_drop, ← hmore, List.cons_append, List.head?_cons]

theorem prefix_drop (cfs : List SFile) (h : cfs ++ cfs' <+: list.drop id) :
    cfs' <+: list.drop (id + cfs.length) := by
  obtain ⟨more, hmore⟩ := h
  refine ⟨more, ?_⟩
  rw [← List.drop_drop, ← hmore, List.append_assoc, List.drop_left]

end Items

end Forest

namespace BuildPass

section Entry

theorem space_notMem_convert (i : Int64) : space ∉ convert i :=
  fun h => (ne_of_mem_convert h).2.1 rfl

theorem getuntilSpace_append {a b : List UInt8} (h : space ∉ a) :
    getuntilSpace (a ++ space :: b) = a := by
  rw [getuntilSpace, if_pos (List.mem_append_right a List.mem_cons_self),
    List.takeWhile_append_of_pos (by simpa using fun ch hch => ne_of_mem_of_not_mem hch h)]
  simp

theorem getafterSpace_append {a b : List UInt8} (h : space ∉ a) :
    getafterSpace (a ++ space :: b) = b := by
  rw [getafterSpace,
    List.dropWhile_append_of_pos (by simpa using fun ch hch => ne_of_mem_of_not_mem hch h)]
  simp

def entryBytes (cf : SFile) : List UInt8 :=
  if cf.isdir then int64Bytes cf.lastModified
  else int64Bytes cf.size ++ int64Bytes cf.lastModified

def entryType (cf : SFile) : UInt8 := if cf.isdir then typeDir else typeFile

theorem headD_itemData {cf : SFile} (hname : cf.name ≠ dotDot) :
    (itemData cf).headD 0 = entryType cf := by
  unfold itemData entryType
  rw [if_pos hname]
  split <;> rfl

theorem entryData_itemData {cf : SFile} (hname : cf.name ≠ dotDot) :
    entryData (entryType cf) (itemData cf).tail = entryBytes cf := by
  unfold itemData entryType entryBytes entryData
  rw [if_pos hname]
  split
  · have hzero : space ∉ Decimal.digits 0 := by decide
    rw [if_neg (by decide), List.tail_cons, getafterSpace_append hzero, osAtoi64_convert]
  · have hsize := space_notMem_convert cf.size
    rw [if_pos rfl, List.tail_cons, getuntilSpace_append hsize, getafterSpace_append hsize,
      osAtoi64_convert, osAtoi64_convert]

theorem entryBytes_length (cf : SFile) :
    (cf.name ++ [0] ++ entryBytes cf).length = CountPass.itemSize cf := by
  unfold entryBytes CountPass.itemSize
  split <;> simp [int64Bytes]

end Entry

/-- The second pass is in the directory `parent`; the entry before the next one, if there is one,
has no sibling yet. -/
structure Inside (s : BuildPass) (parent : Nat) : Prop where
  parents : s.parents.head? = some parent
  parent_lt : parent < s.nodes.length
  last : s.firstChild = false → ∃ last n, s.lastNodes.head? = some last ∧
    s.nodes[last]? = some n ∧ n.nextSibling = none

/-- What becomes of a node when `count` entries are added to `parent`, the first of them at
`first`. -/
def touch (s : BuildPass) (parent count : Nat) (first : Option Nat) (place : Nat)
    (n : TreeReaderNode) : TreeReaderNode :=
  { n with
    numChildren := if place = parent then n.numChildren + count else n.numChildren
    nextSibling := if s.firstChild = false ∧ s.lastNodes.head? = some place then first
      else n.nextSibling }

/-- An entry is added. -/
structure Added (s s' : BuildPass) (parent : Nat) (cf : SFile) : Prop where
  parents : s'.parents = if cf.isdir then s.nodes.length :: s.parents else s.parents
  lastNodes : s'.lastNodes = s.nodes.length :: if s.firstChild then s.lastNodes else s.lastNodes.tail
  firstChild : s'.firstChild = cf.isdir
  lines : s'.lines = s.lines + 1
  length : s'.nodes.length = s.nodes.length + 1
  stringbuffer : s'.stringbuffer = s.stringbuffer ++ (cf.name ++ [0] ++ entryBytes cf)
  old : ∀ place n, s.nodes[place]? = some n →
    s'.nodes[place]? = some (touch s parent 1 (some s.nodes.length) place n)
  new : s'.nodes[s.nodes.length]? = some ⟨some s.stringbuffer.length,
    some (s.stringbuffer.length + cf.name.length + 1), entryType cf, s.lines, none, some parent, 0⟩

section Steps

variable {sizes : Sizes} {s : BuildPass} {parent : Nat}

theorem Inside.exists_parents (hs : Inside s parent) : ∃ parents, s.parents = parent :: parents := by
  have hhead := hs.parents
  cases hparents : s.parents with
  | nil =>
    rw [hparents] at hhead
    cases hhead
  | cons p parents =>
    rw [hparents] at hhead
    cases hhead
    exact ⟨parents, rfl⟩

theorem Inside.exists_lastNodes (hs : Inside s parent) (hfirst : s.firstChild = false) :
    ∃ last lastNodes, s.lastNodes = last :: lastNodes ∧ last < s.nodes.length := by
  obtain ⟨last, n, hhead, hlast, -⟩ := hs.last hfirst
  cases hnodes : s.lastNodes with
  | nil =>
    rw [hnodes] at hhead
    cases hhead
  | cons l lastNodes =>
    rw [hnodes] at hhead
    cases hhead
    exact ⟨last, lastNodes, rfl, (List.getElem?_eq_some_iff.mp hlast).1⟩

theorem getElem?_linkNode (hs : Inside s parent) (nodes : List TreeReaderNode) (place : Nat) :
    (linkNode s nodes)[place]? =
      nodes[place]?.map (touch s parent 1 (some s.nodes.length) place) := by
  obtain ⟨parents, hparents⟩ := hs.exists_parents
  have hmodify : ∀ (l : List TreeReaderNode) (i : Nat) (f : TreeReaderNode → TreeReaderNode),
      (l.modify i f)[place]? = l[place]?.map fun n => if i = place then f n else n := by
    intro l i f
    rw [List.getElem?_modify]
    rfl
  unfold linkNode touch
  rw [hparents]
  simp only [hmodify]
  cases hfirst : s.firstChild with
  | true =>
    congr 1
    funext n
    by_cases hp : parent = place
    · simp [hp]
    · simp [hp, Ne.symm hp]
  | false =>
    obtain ⟨last, lastNodes, hlast, -⟩ := hs.exists_lastNodes hfirst
    simp only [hlast, hmodify, Option.map_map]
    congr 1
    funext n
    by_cases hp : parent = place <;> by_cases hl : last = place
    · simp [hp, hl]
    · simp [hp, hl]
    · simp [hp, hl, Ne.symm hp]
    · simp [hp, hl, Ne.symm hp]

theorem linkNode_length (s : BuildPass) (nodes : List TreeReaderNode) :
    (linkNode s nodes).length = nodes.length := by
  unfold linkNode
  split <;> split <;> simp

theorem touch_of_le (hs : Inside s parent) {place : Nat} (h : s.nodes.length ≤ place) (count : Nat)
    (first : Option Nat) (n : TreeReaderNode) : touch s parent count first place n = n := by
  have hparent : place ≠ parent := fun heq => absurd hs.parent_lt (by omega)
  have hlast : ¬ (s.firstChild = false ∧ s.lastNodes.head? = some place) := by
    rintro ⟨hfirst, hhead⟩
    obtain ⟨last, lastNodes, hlast, hlt⟩ := hs.exists_lastNodes hfirst
    rw [hlast, List.head?_cons, Option.some.injEq] at hhead
    omega
  unfold touch
  rw [if_neg hparent, if_neg hlast]

theorem finish_entry (hs : Inside s parent) {cf : SFile} (hname : cf.name ≠ dotDot)
    (hnodes : s.nodes.length < sizes.nodes)
    (hbuffer : s.stringbuffer.length + CountPass.itemSize cf ≤ sizes.stringbuffer) :
    ∃ s', finish sizes { s with name := cf.name, data := itemData cf } = some (between s') ∧
      Added s s' parent cf := by
  have hlength : (s.stringbuffer ++ (cf.name ++ [0]) ++ entryBytes cf).length ≤
      sizes.stringbuffer := by
    rw [List.append_assoc, List.length_append, entryBytes_length]
    exact hbuffer
  have hfirst : s.firstChild = true ∨ s.lastNodes ≠ [] := by
    cases hcases : s.firstChild with
    | true => exact .inl rfl
    | false =>
      obtain ⟨last, lastNodes, hlast, -⟩ := hs.exists_lastNodes hcases
      exact .inr (by rw [hlast]; exact List.cons_ne_nil _ _)
  let node : TreeReaderNode := ⟨some s.stringbuffer.length,
    some (s.stringbuffer.length + cf.name.length + 1), entryType cf, s.lines, none, some parent, 0⟩
  let s' : BuildPass := { s with
    nodes := s.linkNode (s.nodes ++ [node])
    stringbuffer := s.stringbuffer ++ (cf.name ++ [0]) ++ entryBytes cf
    lastNodes := s.nodes.length :: if s.firstChild then s.lastNodes else s.lastNodes.tail
    parents := if entryType cf = typeDir then s.nodes.length :: s.parents else s.parents
    firstChild := entryType cf = typeDir
    lines := s.lines + 1 }
  have htype : entryType cf = typeDir ↔ cf.isdir = true := by
    cases hdir : cf.isdir <;> simp [entryType, hdir, show typeFile ≠ typeDir by decide]
  refine ⟨s', ?_, ?_⟩
  · unfold finish
    rw [if_pos hname]
    unfold addNode
    simp only [headD_itemData hname, entryData_itemData hname]
    rw [if_pos ⟨hnodes, hlength, hfirst⟩, Option.map_some, hs.parents]
    rfl
  · refine ⟨?_, rfl, ?_, rfl, ?_, ?_, ?_, ?_⟩
    · simp only [s', htype]
    · simp only [s', htype, Bool.decide_eq_true]
    · simp only [s', linkNode_length, List.length_append, List.length_singleton]
    · simp only [s', List.append_assoc]
    · intro place n hn
      have hplace := (List.getElem?_eq_some_iff.mp hn).1
      simp only [s', getElem?_linkNode hs, List.getElem?_append_left hplace, hn, Option.map_some]
    · simp only [s', getElem?_linkNode hs, List.getElem?_concat_length, Option.map_some,
        touch_of_le hs (Nat.le_refl _), node]

theorem finish_up (sizes : Sizes) (hs : Inside s parent) (data : List UInt8) :
    finish sizes { s with name := dotDot, data } = some (between { s with
      parents := s.parents.tail
      lastNodes := if s.firstChild then s.lastNodes else s.lastNodes.tail
      firstChild := false
      lines := s.lines + 1 }) := by
  obtain ⟨parents, hparents⟩ := hs.exists_parents
  unfold finish
  rw [if_neg (not_not_intro rfl)]
  unfold closeDir
  simp only [hparents]
  cases hfirst : s.firstChild with
  | true => rfl
  | false =>
    obtain ⟨last, n, hhead, hlast, hnext⟩ := hs.last hfirst
    obtain ⟨l, lastNodes, hlastNodes, -⟩ := hs.exists_lastNodes hfirst
    rw [hlastNodes, List.head?_cons, Option.some.injEq] at hhead
    subst hhead
    have hsame : s.nodes.modify l (fun n => { n with nextSibling := none }) = s.nodes := by
      apply List.ext_getElem?
      intro place
      rw [List.getElem?_modify]
      by_cases hplace : l = place
      · subst hplace
        rw [hlast]
        simp [← hnext]
      · simp [hplace]
    simp only [hlastNodes, hsame, Bool.false_eq_true, if_false]
    rfl

end Steps

/-- A forest is added. -/
structure Grown (s s' : BuildPass) (parent : Nat) (f : Forest) : Prop where
  inside : Inside s' parent
  parents : s'.parents = s.parents
  lastNodes : (if s'.firstChild then s'.lastNodes else s'.lastNodes.tail) =
    if s.firstChild then s.lastNodes else s.lastNodes.tail
  lines : s'.lines = s.lines + f.items.length
  length : s'.nodes.length = s.nodes.length + f.numNodes
  bufferLength : s'.stringbuffer.length = s.stringbuffer.length + f.numBytes
  stringbuffer : s.stringbuffer <+: s'.stringbuffer
  old : ∀ place n, s.nodes[place]? = some n →
    s'.nodes[place]? = some (touch s parent f.numRoots (f.first s.nodes.length) place n)
  walked : ∀ t : TreeReader, s'.stringbuffer <+: t.stringbuffer →
    (∀ place, s.nodes.length ≤ place → place < s'.nodes.length →
      t.nodes[place]? = s'.nodes[place]?) →
    ∀ list, f.items <+: list.drop s.lines →
      f.Walked t list parent (f.first s.nodes.length) s.lines

section Forest

variable {sizes : Sizes} {s s₁ s₂ : BuildPass} {parent : Nat}

theorem grown_nil (hs : Inside s parent) : Grown s s parent .nil := by
  refine ⟨hs, rfl, rfl, rfl, rfl, rfl, List.prefix_rfl, ?_, fun _ _ _ _ _ => rfl⟩
  intro place n hn
  have hsame : touch s parent 0 none place n = n := by
    unfold touch
    rw [Nat.add_zero, ite_self]
    by_cases hlast : s.firstChild = false ∧ s.lastNodes.head? = some place
    · obtain ⟨last, n', hhead, hn', hnext⟩ := hs.last hlast.1
      rw [hlast.2, Option.some.injEq] at hhead
      subst hhead
      rw [hn, Option.some.injEq] at hn'
      subst hn'
      rw [if_pos hlast, ← hnext]
    · rw [if_neg hlast]
  rw [hn, Forest.numRoots, Forest.first, hsame]

theorem getName_of_prefix {t : TreeReader} {n : TreeReaderNode} {cf : SFile} (hzero : 0 ∉ cf.name)
    (hbuffer : s.stringbuffer ++ (cf.name ++ [0] ++ entryBytes cf) <+: t.stringbuffer)
    (hname : n.name = some s.stringbuffer.length) : n.getName t = cf.name := by
  obtain ⟨more, hmore⟩ := hbuffer
  unfold TreeReaderNode.getName
  rw [hname]
  simp only [← hmore, List.append_assoc, List.drop_left]
  rw [List.takeWhile_append_of_pos (by simpa using fun ch h => ne_of_mem_of_not_mem h hzero)]
  simp

theorem getData_of_prefix {t : TreeReader} {n : TreeReaderNode} {cf : SFile}
    (hbuffer : s.stringbuffer ++ (cf.name ++ [0] ++ entryBytes cf) <+: t.stringbuffer)
    (hdata : n.data = some (s.stringbuffer.length + cf.name.length + 1))
    (htype : n.nodeType = entryType cf) : n.getData t = entryBytes cf := by
  obtain ⟨more, hmore⟩ := hbuffer
  have hlength : n.getDataSize = (entryBytes cf).length := by
    unfold TreeReaderNode.getDataSize entryBytes entryType at *
    rw [htype]
    cases cf.isdir <;> simp [int64Bytes, show typeFile ≠ typeDir by decide]
  have hdrop : t.stringbuffer.drop (s.stringbuffer.length + cf.name.length + 1) =
      entryBytes cf ++ more := by
    have hsplit : t.stringbuffer =
        (s.stringbuffer ++ cf.name ++ [0]) ++ (entryBytes cf ++ more) := by
      simp only [← hmore, List.append_assoc]
    rw [hsplit]
    exact List.drop_left' (by simp [Nat.add_assoc])
  unfold TreeReaderNode.getData
  rw [hdata]
  simp only [hdrop, hlength, List.take_left]

theorem touch_touch {place count : Nat} {first : Option Nat} {n : TreeReaderNode}
    (hhead : s₁.lastNodes.head? = some s.nodes.length) (hplace : place < s.nodes.length) :
    touch s₁ parent count first place (touch s parent 1 (some s.nodes.length) place n) =
      touch s parent (count + 1) (some s.nodes.length) place n := by
  have hne : ¬ (s₁.firstChild = false ∧ s₁.lastNodes.head? = some place) := by
    rintro ⟨-, h⟩
    rw [hhead, Option.some.injEq] at h
    omega
  unfold touch
  rw [if_neg hne]
  by_cases hp : place = parent
  · simp [hp, Nat.add_comm, Nat.add_left_comm]
  · simp [hp]

theorem write_file (name : ListName) (size lastModified : Int64) (rest : Forest) :
    (Forest.file name size lastModified rest).write =
      writeFileItem ⟨name.val, size, lastModified, false⟩ ++ rest.write := List.flatMap_cons

theorem write_dir (name : ListName) (lastModified : Int64) (children rest : Forest) :
    (Forest.dir name lastModified children rest).write =
      writeFileItem ⟨name.val, 0, lastModified, true⟩ ++ (children.write ++
        (writeFileItem ⟨dotDot, 0, 0, true⟩ ++ rest.write)) := by
  simp only [Forest.write, Forest.items, List.flatMap_cons, List.flatMap_append]

theorem Added.inside {cf : SFile} (hs : Inside s parent) (h : Added s s₁ parent cf) :
    Inside s₁ (if cf.isdir then s.nodes.length else parent) := by
  refine ⟨?_, ?_, ?_⟩
  · rw [h.parents]
    cases cf.isdir with
    | false => exact hs.parents
    | true => rfl
  · rw [h.length]
    have hlt := hs.parent_lt
    cases cf.isdir with
    | false => exact Nat.lt_succ_of_lt hlt
    | true => exact Nat.lt_succ_self _
  · intro _
    exact ⟨s.nodes.length, _, by rw [h.lastNodes, List.head?_cons], h.new, rfl⟩

theorem grown_file {name : ListName} {size lastModified : Int64} {rest : Forest}
    (hs : Inside s parent) (h₁ : Added s s₁ parent ⟨name.val, size, lastModified, false⟩)
    (h₂ : Grown s₁ s₂ parent rest) : Grown s s₂ parent (.file name size lastModified rest) := by
  have hhead : s₁.lastNodes.head? = some s.nodes.length := by
    rw [h₁.lastNodes, List.head?_cons]
  have hinit : s.stringbuffer <+: s₁.stringbuffer := by
    rw [h₁.stringbuffer]
    exact List.prefix_append _ _
  refine ⟨h₂.inside, h₂.parents.trans h₁.parents, ?_, ?_, ?_, ?_, hinit.trans h₂.stringbuffer,
    ?_, ?_⟩
  · rw [h₂.lastNodes, h₁.firstChild, h₁.lastNodes]
    rfl
  · rw [h₂.lines, h₁.lines, Forest.items, List.length_cons]
    omega
  · rw [h₂.length, h₁.length, Forest.numNodes]
    omega
  · rw [h₂.bufferLength, h₁.stringbuffer, List.length_append, entryBytes_length, Forest.numBytes,
      CountPass.itemSize]
    simp only [Bool.false_eq_true, if_false]
    omega
  · intro place n hn
    rw [h₂.old place _ (h₁.old place n hn),
      touch_touch hhead (List.getElem?_eq_some_iff.mp hn).1]
    rfl
  · intro t hbuffer hnodes list hlist
    have hnew := h₂.old _ _ h₁.new
    have hlength := h₂.length
    have hlength₁ := h₁.length
    have hlt := hs.parent_lt
    have hbuffer₁ := h₂.stringbuffer.trans hbuffer
    rw [h₁.stringbuffer] at hbuffer₁
    refine ⟨s.nodes.length, _, rfl, (hnodes _ (Nat.le_refl _) (by omega)).trans hnew,
      getName_of_prefix name.property.1 hbuffer₁ rfl, rfl,
      getData_of_prefix hbuffer₁ rfl rfl, rfl, Forest.item_of_prefix hlist, rfl, ?_, ?_⟩
    · simp [TreeReaderNode.getFirstChild, touch, Nat.ne_of_gt hlt]
    · have hrest : rest.items <+: list.drop s₁.lines := by
        rw [h₁.lines]
        exact Forest.prefix_drop [_] hlist
      have hnext := h₂.walked t hbuffer (fun place hle => hnodes place (by omega)) list hrest
      rw [h₁.lines, h₁.length] at hnext
      simpa [touch, h₁.firstChild, hhead, h₁.length] using hnext

theorem first_numRoots (f : Forest) (place : Nat) :
    (if 0 < f.numRoots then some place else none) = f.first place := by
  cases f <;> simp [Forest.numRoots, Forest.first]

def closed (s : BuildPass) : BuildPass :=
  { s with
    parents := s.parents.tail
    lastNodes := if s.firstChild then s.lastNodes else s.lastNodes.tail
    firstChild := false
    lines := s.lines + 1 }

variable {s₃ : BuildPass}

theorem closed_inside {name : ListName} {lastModified : Int64} {children : Forest}
    (hs : Inside s parent) (h₁ : Added s s₁ parent ⟨name.val, 0, lastModified, true⟩)
    (h₂ : Grown s₁ s₂ s.nodes.length children) : Inside (closed s₂) parent := by
  have hhead : (closed s₂).lastNodes.head? = some s.nodes.length := by
    change (if s₂.firstChild then s₂.lastNodes else s₂.lastNodes.tail).head? = _
    rw [h₂.lastNodes, h₁.firstChild, h₁.lastNodes]
    rfl
  have hlt := hs.parent_lt
  refine ⟨?_, ?_, ?_⟩
  · change s₂.parents.tail.head? = _
    rw [h₂.parents, h₁.parents]
    exact hs.parents
  · change parent < s₂.nodes.length
    rw [h₂.length, h₁.length]
    omega
  · intro _
    refine ⟨s.nodes.length, _, hhead, h₂.old _ _ h₁.new, ?_⟩
    simp [touch, h₁.firstChild]

theorem grown_dir {name : ListName} {lastModified : Int64} {children rest : Forest}
    (hs : Inside s parent) (h₁ : Added s s₁ parent ⟨name.val, 0, lastModified, true⟩)
    (h₂ : Grown s₁ s₂ s.nodes.length children) (h₃ : Grown (closed s₂) s₃ parent rest) :
    Grown s s₃ parent (.dir name lastModified children rest) := by
  have hhead : (closed s₂).lastNodes.head? = some s.nodes.length := by
    change (if s₂.firstChild then s₂.lastNodes else s₂.lastNodes.tail).head? = _
    rw [h₂.lastNodes, h₁.firstChild, h₁.lastNodes]
    rfl
  have hinit : s.stringbuffer <+: s₁.stringbuffer := by
    rw [h₁.stringbuffer]
    exact List.prefix_append _ _
  have hlt := hs.parent_lt
  have hlength₁ := h₁.length
  have hlength₂ := h₂.length
  have hlength₃ := h₃.length
  have hclosed : (closed s₂).nodes.length = s₂.nodes.length := rfl
  have hfirst : s₁.firstChild = true := h₁.firstChild
  refine ⟨h₃.inside, ?_, ?_, ?_, ?_, ?_, hinit.trans (h₂.stringbuffer.trans h₃.stringbuffer),
    ?_, ?_⟩
  · rw [h₃.parents]
    change s₂.parents.tail = _
    rw [h₂.parents, h₁.parents]
    rfl
  · rw [h₃.lastNodes]
    change (if s₂.firstChild then s₂.lastNodes else s₂.lastNodes.tail).tail = _
    rw [h₂.lastNodes, hfirst, h₁.lastNodes]
    rfl
  · rw [h₃.lines]
    change s₂.lines + 1 + _ = _
    rw [h₂.lines, h₁.lines, Forest.items, List.length_cons, List.length_append, List.length_cons]
    omega
  · rw [Forest.numNodes]
    omega
  · rw [h₃.bufferLength]
    change s₂.stringbuffer.length + _ = _
    rw [h₂.bufferLength, h₁.stringbuffer, List.length_append, entryBytes_length, Forest.numBytes,
      CountPass.itemSize]
    simp only [if_true]
    omega
  · intro place n hn
    have hplace := (List.getElem?_eq_some_iff.mp hn).1
    have hchild := h₂.old place _ (h₁.old place n hn)
    rw [show touch s₁ s.nodes.length children.numRoots (children.first s₁.nodes.length) place
      (touch s parent 1 (some s.nodes.length) place n) =
        touch s parent 1 (some s.nodes.length) place n by
      simp [touch, hfirst, Nat.ne_of_lt hplace]] at hchild
    rw [h₃.old place _ hchild, touch_touch hhead hplace]
    rfl
  · intro t hbuffer hnodes list hlist
    have hnew := h₃.old _ _ (h₂.old _ _ h₁.new)
    have hbuffer₂ := h₃.stringbuffer.trans hbuffer
    have hbuffer₁ := h₂.stringbuffer.trans hbuffer₂
    rw [h₁.stringbuffer] at hbuffer₁
    have hchildren : ∀ place, s₁.nodes.length ≤ place → place < s₂.nodes.length →
        t.nodes[place]? = s₂.nodes[place]? := by
      intro place hle hplace
      obtain ⟨n, hn⟩ : ∃ n, s₂.nodes[place]? = some n := ⟨_, List.getElem?_eq_getElem hplace⟩
      rw [hnodes place (by omega) (by omega), h₃.old place n hn, hn]
      have hne : place ≠ parent := by omega
      have hne' : ¬ ((closed s₂).firstChild = false ∧
          (closed s₂).lastNodes.head? = some place) := by
        rintro ⟨-, h⟩
        rw [hhead, Option.some.injEq] at h
        omega
      unfold touch
      rw [if_neg hne, if_neg hne']
    refine ⟨s.nodes.length, _, rfl, (hnodes _ (Nat.le_refl _) (by omega)).trans hnew,
      getName_of_prefix name.property.1 hbuffer₁ rfl, rfl,
      getData_of_prefix hbuffer₁ rfl rfl, rfl, Forest.item_of_prefix hlist, rfl, ?_, ?_⟩
    · have hlist₂ : children.items <+: list.drop s₁.lines := by
        rw [h₁.lines]
        exact (List.prefix_append _ _).trans (Forest.prefix_drop [_] hlist)
      have hwalked := h₂.walked t hbuffer₂ hchildren list hlist₂
      rw [h₁.lines, h₁.length] at hwalked
      simpa [TreeReaderNode.getFirstChild, touch, Nat.ne_of_gt hlt, first_numRoots] using hwalked
    · have hlist₃ : rest.items <+: list.drop (closed s₂).lines := by
        change _ <+: list.drop (s₂.lines + 1)
        rw [h₂.lines, h₁.lines]
        have hitems : (⟨name.val, 0, lastModified, true⟩ :: (children.items ++
            [⟨dotDot, 0, 0, true⟩])) ++ rest.items <+: list.drop s.lines := by
          simpa [Forest.items] using hlist
        have hdrop := Forest.prefix_drop _ hitems
        simpa [Nat.add_assoc, Nat.add_comm, Nat.add_left_comm] using hdrop
      have hwalked := h₃.walked t hbuffer (fun place hle => hnodes place (by omega)) list hlist₃
      change rest.Walked t list parent (rest.first s₂.nodes.length) (s₂.lines + 1) at hwalked
      rw [h₂.lines, h₁.lines, show s.lines + 1 + children.items.length + 1 =
        s.lines + children.items.length + 2 by omega] at hwalked
      have hopen : (closed s₂).firstChild = false := rfl
      simpa [touch, hopen, hhead, hclosed] using hwalked

theorem run_write (f : Forest) (hs : Inside s parent)
    (hnodes : s.nodes.length + f.numNodes ≤ sizes.nodes)
    (hbuffer : s.stringbuffer.length + f.numBytes ≤ sizes.stringbuffer) :
    ∃ s', run (step sizes) (between s) f.write = some (between s') ∧ Grown s s' parent f := by
  induction f generalizing s parent with
  | nil => exact ⟨s, rfl, grown_nil hs⟩
  | file name size lastModified rest ih =>
    rw [Forest.numNodes] at hnodes
    rw [Forest.numBytes] at hbuffer
    obtain ⟨s₁, hfinish, h₁⟩ := finish_entry hs name.property.2 (by omega)
      (show s.stringbuffer.length + CountPass.itemSize ⟨name.val, size, lastModified, false⟩ ≤
        sizes.stringbuffer by simp only [CountPass.itemSize, Bool.false_eq_true, if_false]; omega)
    have hlength := congrArg List.length h₁.stringbuffer
    rw [List.length_append, entryBytes_length] at hlength
    simp only [CountPass.itemSize, Bool.false_eq_true, if_false] at hlength
    obtain ⟨s₂, hrun, h₂⟩ := ih (h₁.inside hs) (by rw [h₁.length]; omega) (by omega)
    refine ⟨s₂, ?_, grown_file hs h₁ h₂⟩
    rw [write_file]
    exact run_trans ((run_item sizes s _).trans hfinish) hrun
  | dir name lastModified children rest ihChildren ihRest =>
    rw [Forest.numNodes] at hnodes
    rw [Forest.numBytes] at hbuffer
    obtain ⟨s₁, hfinish, h₁⟩ := finish_entry hs name.property.2 (by omega)
      (show s.stringbuffer.length + CountPass.itemSize ⟨name.val, 0, lastModified, true⟩ ≤
        sizes.stringbuffer by simp only [CountPass.itemSize, if_true]; omega)
    have hlength := congrArg List.length h₁.stringbuffer
    rw [List.length_append, entryBytes_length] at hlength
    simp only [CountPass.itemSize, if_true] at hlength
    obtain ⟨s₂, hrun₂, h₂⟩ := ihChildren (h₁.inside hs) (by rw [h₁.length]; omega) (by omega)
    have hclosed := closed_inside hs h₁ h₂
    have hlength₂ := h₂.length
    rw [h₁.length] at hlength₂
    have hbuffer₂ := h₂.bufferLength
    obtain ⟨s₃, hrun₃, h₃⟩ := ihRest hclosed
      (show s₂.nodes.length + _ ≤ _ by omega) (show s₂.stringbuffer.length + _ ≤ _ by omega)
    refine ⟨s₃, ?_, grown_dir hs h₁ h₂ h₃⟩
    rw [write_dir]
    refine run_trans ((run_item sizes s _).trans hfinish) (run_trans hrun₂ (run_trans ?_ hrun₃))
    exact (run_item sizes s₂ _).trans (finish_up sizes h₂.inside _)

end Forest

end BuildPass

namespace CountPass

theorem run_write (f : Forest) (lines size : Nat) :
    run step ⟨.type, [], 0, lines, size⟩ f.write =
      some ⟨.type, [], 0, lines + f.numNodes, size + f.numBytes⟩ := by
  induction f generalizing lines size with
  | nil => rfl
  | file name fsize lastModified rest ih =>
    rw [BuildPass.write_file, run_append, run_item fun _ => name.property.2, if_pos name.property.2,
      Option.bind_some, ih, Forest.numNodes, Forest.numBytes]
    simp only [itemSize, Bool.false_eq_true, if_false]
    congr 2 <;> omega
  | dir name lastModified children rest ihChildren ihRest =>
    rw [BuildPass.write_dir, run_append, run_item (show true = false → _ from fun h => absurd h (by decide)),
      if_pos name.property.2, Option.bind_some, run_append, ihChildren, Option.bind_some,
      run_append, run_item (show true = false → _ from fun h => absurd h (by decide)), if_neg (not_not_intro rfl),
      Option.bind_some, ihRest, Forest.numNodes, Forest.numBytes]
    simp only [itemSize, if_true]
    congr 2 <;> omega

end CountPass

namespace ListReader

theorem run_items (parse : List UInt8 → ExtraParams) {cfs : List SFile}
    (hcfs : ∀ cf ∈ cfs, cf.isdir = true → cf.size = 0 ∧ (cf.name = dotDot → cf.lastModified = 0))
    (p : FileListParser) (entries : List SFile) :
    ∃ p', run (read parse) ⟨between p, entries⟩ (cfs.flatMap writeFileItem) =
      some ⟨between p', entries ++ cfs⟩ := by
  induction cfs generalizing p entries with
  | nil => exact ⟨p, by rw [List.append_nil]; rfl⟩
  | cons cf cfs ih =>
    have hcf := hcfs cf List.mem_cons_self
    obtain ⟨p₁, hitem⟩ := run_item parse p entries (fun h => (hcf h).1) fun h => (hcf h).2
    obtain ⟨p₂, hrest⟩ := ih (fun cf h => hcfs cf (List.mem_cons_of_mem _ h)) p₁ (entries ++ [cf])
    refine ⟨p₂, ?_⟩
    rw [List.flatMap_cons, run_trans hitem hrest, List.append_assoc, List.singleton_append]

end ListReader

theorem Forest.isdir_items {f : Forest} {cf : SFile} (h : cf ∈ f.items) (hdir : cf.isdir = true) :
    cf.size = 0 ∧ (cf.name = dotDot → cf.lastModified = 0) := by
  induction f with
  | nil => cases h
  | file name size lastModified rest ih =>
    rcases List.mem_cons.mp h with rfl | h
    · cases hdir
    · exact ih h
  | dir name lastModified children rest ihChildren ihRest =>
    rcases List.mem_cons.mp h with rfl | h
    · exact ⟨rfl, fun hname => absurd hname name.property.2⟩
    · rcases List.mem_append.mp h with h | h
      · exact ihChildren h
      · rcases List.mem_cons.mp h with rfl | h
        · exact ⟨rfl, fun _ => rfl⟩
        · exact ihRest h

namespace TreeReader

def rootName : List UInt8 := [114, 111, 111, 116]

/-- A tree is read from the list of a forest, the getters walk this forest from its root, and the
parser has returned as many entries before an item as the number of the item says. -/
theorem readTree_write (f : Forest) (parse : List UInt8 → ExtraParams) :
    (∃ t root, readTree f.write = some t ∧ t.nodes.length = f.numNodes + 1 ∧
      t.nodes[0]? = some root ∧ root.getName t = rootName ∧ root.parent = none ∧
      root.nextSibling = none ∧ f.Walked t f.items 0 (root.getFirstChild 0) 0) ∧
    ∀ (data : SFile) (extra : Option ExtraParams) (k : Nat), ∃ p,
      run (ListReader.read parse) ⟨⟨.type, [], data, extra⟩, []⟩
        ((f.items.take k).flatMap writeFileItem) = some ⟨p, f.items.take k⟩ := by
  constructor
  · let sizes : BuildPass.Sizes := ⟨0 + f.numNodes + 1, 0 + f.numBytes + 5⟩
    have hinside : BuildPass.Inside .initial 0 := ⟨rfl, by decide, nofun⟩
    obtain ⟨s, hrun, hgrown⟩ := @BuildPass.run_write sizes .initial 0 f hinside
      (show 1 + _ ≤ 0 + f.numNodes + 1 by omega) (show 5 + _ ≤ 0 + f.numBytes + 5 by omega)
    have hlength : s.nodes.length = 1 + f.numNodes := hgrown.length
    have hbuffer : s.stringbuffer.length = 5 + f.numBytes := hgrown.bufferLength
    obtain ⟨root, hroot, hrootNode⟩ : ∃ root, s.nodes[0]? = some root ∧
        root = ⟨some 0, none, 0, 0, none, none, 0 + f.numRoots⟩ := ⟨_, hgrown.old 0 _ rfl, rfl⟩
    have hsame : s.nodes.modify 0 (fun n => { n with nextSibling := none }) = s.nodes := by
      apply List.ext_getElem?
      intro place
      rw [List.getElem?_modify]
      by_cases hplace : 0 = place
      · subst hplace
        rw [hroot, hrootNode]
        rfl
      · simp [hplace]
    refine ⟨⟨s.nodes, s.stringbuffer⟩, root, ?_, ?_, hroot, ?_, ?_, ?_, ?_⟩
    · have hcount := CountPass.run_write f 0 0
      have hstart : CountPass.initial = ⟨.type, [], 0, 0, 0⟩ := rfl
      have hfirst : BuildPass.between .initial = .initial := rfl
      rw [hfirst] at hrun
      rw [readTree, hstart, hcount, Option.bind_some]
      simp only [sizes] at hrun
      simp only [hrun, Option.bind_some]
      rw [if_pos]
      · simp only [BuildPass.between, hsame]
      · exact ⟨show s.nodes.length = _ by omega, show s.stringbuffer.length = _ by omega⟩
    · exact hlength.trans (Nat.add_comm _ _)
    · obtain ⟨more, hmore⟩ := hgrown.stringbuffer
      rw [hrootNode]
      change (s.stringbuffer.drop 0).takeWhile (· ≠ 0) = rootName
      rw [← hmore]
      rfl
    · rw [hrootNode]
    · rw [hrootNode]
    · have hwalked := hgrown.walked ⟨s.nodes, s.stringbuffer⟩ List.prefix_rfl (fun _ _ _ => rfl)
        f.items List.prefix_rfl
      rw [hrootNode, TreeReaderNode.getFirstChild, Nat.zero_add, BuildPass.first_numRoots]
      exact hwalked
  · intro data extra k
    obtain ⟨p, hrun⟩ := ListReader.run_items parse
      (fun cf h => Forest.isdir_items (List.mem_of_mem_take h)) ⟨.type, [], data, extra⟩ []
    exact ⟨_, hrun⟩

end TreeReader

end UrBackup
