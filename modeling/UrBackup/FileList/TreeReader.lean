import UrBackup.FileList.FileListUtils
import UrBackup.Lib.ByteOrder

/-! The reader that makes a tree of a file list. The first pass counts, the second one fills the
vector of nodes and the string buffer, where the nodes' names and data are. -/
namespace UrBackup

open FileList

/-- The states of both passes, numbered 0, 1, 2, 3, 4, 5 and 10. -/
inductive ReadState where
  | type
  | quote
  | name
  | nameEnd
  | data
  | escape
  | line
  deriving DecidableEq

/-- The first pass. `ltype` is the type of the entry that is read. -/
structure CountPass where
  state : ReadState
  name : List UInt8
  ltype : UInt8
  lines : Nat
  stringbufferSize : Nat

namespace CountPass

def initial : CountPass := ⟨.type, [], 0, 0, 0⟩

def finish (s : CountPass) : CountPass :=
  let size := if s.ltype = typeFile then s.stringbufferSize + 16 else s.stringbufferSize
  if s.ltype ≠ typeDir ∨ s.name ≠ dotDot then
    let size := if s.ltype = typeDir then size + 8 else size
    ⟨.type, [], 0, s.lines + 1, size + s.name.length + 1⟩
  else ⟨.type, [], 0, s.lines, size⟩

def step (s : CountPass) (ch : UInt8) : Option CountPass :=
  match s.state with
  | .type =>
    if ch = typeFile ∨ ch = typeDir then some { s with ltype := ch, state := .quote }
    else if ch = typeUp then some { s with state := .line, ltype := typeDir, name := dotDot }
    else none
  | .quote => some { s with state := .name }
  | .name =>
    if ch = FileList.quote then some { s with state := .nameEnd }
    else if ch = backslash then some { s with state := .escape }
    else some { s with name := s.name ++ [ch] }
  | .escape =>
    let name := if ch ≠ FileList.quote ∧ ch ≠ backslash then s.name ++ [backslash] else s.name
    some { s with name := name ++ [ch], state := .name }
  | .nameEnd =>
    if ch = space then some { s with state := .data }
    else some (if ch = newline then s.finish else { s with state := .line })
  | .data => some (if ch = newline then s.finish else s)
  | .line => some (if ch = newline then s.finish else s)

end CountPass

/-- `TreeNode` with places in the string buffer and in the vector of nodes for its pointers. -/
structure TreeReaderNode where
  name : Option Nat
  data : Option Nat
  nodeType : UInt8
  id : Nat
  nextSibling : Option Nat
  parent : Option Nat
  numChildren : Nat
  deriving DecidableEq

/-- The second pass. `nodes` and `stringbuffer` are the parts of the vectors that are filled, up to
`idx` and `stringbuffer_pos`. -/
structure BuildPass where
  state : ReadState
  name : List UInt8
  data : List UInt8
  parents : List Nat
  lastNodes : List Nat
  firstChild : Bool
  lines : Nat
  nodes : List TreeReaderNode
  stringbuffer : List UInt8

namespace BuildPass

/-- What the first pass found to be the sizes of the vectors. -/
structure Sizes where
  nodes : Nat
  stringbuffer : Nat

/-- The root: `root` with a zero behind it is the first name. -/
def initial : BuildPass where
  state := .type
  name := []
  data := []
  parents := [0]
  lastNodes := [0]
  firstChild := true
  lines := 0
  nodes := [⟨some 0, none, 0, 0, none, none, 0⟩]
  stringbuffer := [114, 111, 111, 116, 0]

def int64Bytes (i : Int64) : List UInt8 := ByteOrder.littleEndian 8 i.toUInt64.toNat

def getuntilSpace (data : List UInt8) : List UInt8 :=
  if space ∈ data then data.takeWhile (· ≠ space) else []

def getafterSpace (data : List UInt8) : List UInt8 := (data.dropWhile (· ≠ space)).tail

def entryData (ch : UInt8) (sdata : List UInt8) : List UInt8 :=
  if ch = typeFile then
    int64Bytes (osAtoi64 (getuntilSpace sdata)) ++ int64Bytes (osAtoi64 (getafterSpace sdata))
  else int64Bytes (osAtoi64 (getafterSpace sdata))

/-- The next node is the sibling of the one before it and a child of its directory. -/
def linkNode (s : BuildPass) (nodes : List TreeReaderNode) : List TreeReaderNode :=
  let nodes := match s.firstChild, s.lastNodes with
    | false, last :: _ => nodes.modify last fun n => { n with nextSibling := some s.nodes.length }
    | _, _ => nodes
  match s.parents with
  | parent :: _ => nodes.modify parent fun n => { n with numChildren := n.numChildren + 1 }
  | [] => nodes

/-- An entry becomes the next node. Nothing is written behind the end of a vector. -/
def addNode (sizes : Sizes) (s : BuildPass) : Option BuildPass :=
  let idx := s.nodes.length
  let ch := s.data.headD 0
  let dataPos := s.stringbuffer.length + s.name.length + 1
  let stringbuffer := s.stringbuffer ++ (s.name ++ [0]) ++ entryData ch s.data.tail
  let node : TreeReaderNode :=
    ⟨some s.stringbuffer.length, some dataPos, ch, s.lines, none, s.parents.head?, 0⟩
  if idx < sizes.nodes ∧ stringbuffer.length ≤ sizes.stringbuffer ∧
      (s.firstChild ∨ s.lastNodes ≠ []) then
    some { s with
      nodes := s.linkNode (s.nodes ++ [node])
      stringbuffer
      lastNodes := idx :: if s.firstChild then s.lastNodes else s.lastNodes.tail
      parents := if ch = typeDir then idx :: s.parents else s.parents
      firstChild := ch = typeDir }
  else none

def closeDir (s : BuildPass) : Option BuildPass :=
  match s.parents with
  | [] => none
  | _ :: parents =>
    if s.firstChild then some { s with parents, firstChild := false }
    else match s.lastNodes with
      | [] => none
      | last :: lastNodes => some { s with
          nodes := s.nodes.modify last fun n => { n with nextSibling := none }
          parents, lastNodes, firstChild := false }

def finish (sizes : Sizes) (s : BuildPass) : Option BuildPass :=
  (if s.name ≠ dotDot then s.addNode sizes else s.closeDir).map fun s =>
    { s with name := [], data := [], state := .type, lines := s.lines + 1 }

def step (sizes : Sizes) (s : BuildPass) (ch : UInt8) : Option BuildPass :=
  match s.state with
  | .type =>
    if ch = typeFile ∨ ch = typeDir then some { s with data := s.data ++ [ch], state := .quote }
    else if ch = typeUp then some { s with name := dotDot, state := .line }
    else none
  | .quote => some { s with state := .name }
  | .name =>
    if ch = FileList.quote then some { s with state := .nameEnd }
    else if ch = backslash then some { s with state := .escape }
    else some { s with name := s.name ++ [ch] }
  | .escape =>
    let name := if ch ≠ FileList.quote ∧ ch ≠ backslash then s.name ++ [backslash] else s.name
    some { s with name := name ++ [ch], state := .name }
  | .nameEnd =>
    if ch = space then some { s with state := .data }
    else if ch = newline then s.finish sizes else some { s with state := .line }
  | .data => if ch = newline then s.finish sizes else some { s with data := s.data ++ [ch] }
  | .line => if ch = newline then s.finish sizes else some s

end BuildPass

/-- What a reader has read. -/
structure TreeReader where
  nodes : List TreeReaderNode
  stringbuffer : List UInt8

namespace TreeReader

open TransitionSystem

def readTree (file : List UInt8) : Option TreeReader :=
  (run CountPass.step .initial file).bind fun counted =>
    let sizes : BuildPass.Sizes := ⟨counted.lines + 1, counted.stringbufferSize + 5⟩
    (run (BuildPass.step sizes) .initial file).bind fun s =>
      -- the assertions at the end
      if s.nodes.length = sizes.nodes ∧ s.stringbuffer.length = sizes.stringbuffer then
        some ⟨s.nodes.modify 0 fun n => { n with nextSibling := none }, s.stringbuffer⟩
      else none

end TreeReader

namespace TreeReaderNode

def getFirstChild (n : TreeReaderNode) (place : Nat) : Option Nat :=
  if 0 < n.numChildren then some (place + 1) else none

def getDataSize (n : TreeReaderNode) : Nat := if n.nodeType = typeDir then 8 else 16

def getName (n : TreeReaderNode) (t : TreeReader) : List UInt8 :=
  match n.name with
  | some pos => (t.stringbuffer.drop pos).takeWhile (· ≠ 0)
  | none => []

def getData (n : TreeReaderNode) (t : TreeReader) : List UInt8 :=
  match n.data with
  | some pos => (t.stringbuffer.drop pos).take n.getDataSize
  | none => []

end TreeReaderNode

end UrBackup
