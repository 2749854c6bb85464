import Mathlib.Data.List.Infix
import UrBackup.FileList.FileListUtils
import UrBackup.Lib.LinkTree

/-! The names of the files of a backup on a Unix server, and the paths that are made of them. -/
namespace UrBackup

namespace FileNames

open FileList (dotDot)

def nul : UInt8 := 0
def dash : UInt8 := 45
def dot : UInt8 := 46
def slash : UInt8 := 47
def underscore : UInt8 := 95

def dots : List UInt8 := [dot]

/-- `.dir_metadata` -/
def metadataDirFn : List UInt8 := [46, 100, 105, 114, 95, 109, 101, 116, 97, 100, 97, 116, 97]

/-- `.symlink_void_dir` -/
def symlinkVoidDir : List UInt8 :=
  [46, 115, 121, 109, 108, 105, 110, 107, 95, 118, 111, 105, 100, 95, 100, 105, 114]

/-- `.symlink_void_file` -/
def symlinkVoidFile : List UInt8 :=
  [46, 115, 121, 109, 108, 105, 110, 107, 95, 118, 111, 105, 100, 95, 102, 105, 108, 101]

/-- `NAME_MAX` of Linux. -/
def nameMax : Nat := 255

def isHex (c : UInt8) : Bool := (48 ≤ c && c ≤ 57) || (97 ≤ c && c ≤ 102)

/-- What `GenerateHexMD5` returns. -/
structure HexDigest where
  chars : List UInt8
  length : chars.length = 32
  hex : ∀ c ∈ chars, isHex c = true

/-- `Tokenize`: an empty token stands between two separators and before one, but not at the end. -/
def tokenize (str seps : List UInt8) : List (List UInt8) :=
  let toks := str.splitOnP fun c => seps.contains c
  if toks.getLast? = some [] then toks.dropLast else toks

theorem tokenize_slash (str : List UInt8) : tokenize str [slash] =
    if (str.splitOn slash).getLast? = some [] then (str.splitOn slash).dropLast
    else str.splitOn slash := by
  have hsep : (fun c : UInt8 => [slash].contains c) = (· == slash) := by
    funext c
    exact Bool.eq_iff_iff.mpr (by simp)
  unfold tokenize
  rw [hsep]
  rfl

/-- `ExtractFilePath` with the separator `/`. The last byte is not looked at. -/
def extractFilePath (fulln : List UInt8) : List UInt8 :=
  ((fulln.dropLast.reverse.dropWhile (· ≠ slash)).drop 1).reverse

/-- `find_last_of` -/
def findLastOf (c : UInt8) (str : List UInt8) : Option Nat :=
  (str.reverse.findIdx? (· = c)).map fun i => str.length - 1 - i

def appendHash (fn : List UInt8) (hexMd5 : HexDigest) : List UInt8 :=
  match findLastOf dot fn with
  | some dotPos => fn.take dotPos ++ dash :: hexMd5.chars.take 10 ++ fn.drop dotPos
  | none => fn ++ dash :: hexMd5.chars.take 10

def fixFilenameForOS (generateHexMD5 : List UInt8 → HexDigest) (origFn : List UInt8) :
    List UInt8 :=
  let fn := origFn.map fun c => if c = slash then underscore else c
  if slash ∈ origFn then appendHash (fn.take (nameMax - 1 - 11)) (generateHexMD5 origFn)
  else if fn.length > nameMax - 1 then
    appendHash (fn.take (nameMax - 1 - 11)) (generateHexMD5 origFn)
  else fn

def escapeMetadataFn (fn : List UInt8) : List UInt8 :=
  if metadataDirFn.isPrefixOf fn then
    let num := fn.drop metadataDirFn.length
    if num = [] then fn ++ [48]
    else if num.all Decimal.isDigit then
      metadataDirFn ++ FileList.convert (FileList.osAtoi64 num + 1)
    else fn
  else fn

/-- What is left of a string that is passed with `c_str`. -/
def cStr (str : List UInt8) : List UInt8 := str.takeWhile (· ≠ nul)

def pathStep (component : List UInt8) : LinkTree.Step (List UInt8) :=
  if component = [] ∨ component = dots then .here
  else if component = dotDot then .up
  else .down component

def pathSteps (path : List UInt8) : List (LinkTree.Step (List UInt8)) :=
  ((cStr path).splitOn slash).map pathStep

/-- A path in which no component is `..`, unless the end of the C string makes it so. -/
def Plain (path : List UInt8) : Prop := dotDot ∉ path.splitOn slash

@[simp] theorem pathStep_eq_up {component : List UInt8} :
    pathStep component = .up ↔ component = dotDot := by
  unfold pathStep
  split
  next h =>
    refine ⟨nofun, ?_⟩
    rintro rfl
    exact absurd h (by decide)
  next =>
    split
    next h => exact ⟨fun _ => h, fun _ => rfl⟩
    next h => exact ⟨nofun, fun heq => absurd heq h⟩

theorem plain_append {path name : List UInt8} (hpath : Plain path) (hname : slash ∉ name)
    (hdots : name ≠ dotDot) : Plain (path ++ slash :: name) := by
  unfold Plain
  rw [List.splitOn_append_cons_self, List.splitOn_eq_singleton hname]
  intro hmem
  cases List.mem_append.mp hmem with
  | inl h => exact hpath h
  | inr h => exact hdots (List.mem_singleton.mp h).symm

theorem Plain.append {path path' : List UInt8} (hpath : Plain path) (hpath' : Plain path') :
    Plain (path ++ slash :: path') := by
  unfold Plain
  rw [List.splitOn_append_cons_self]
  intro hmem
  exact (List.mem_append.mp hmem).elim hpath hpath'

theorem plain_nil : Plain [] := by
  unfold Plain
  decide

@[simp] theorem cStr_nil : cStr [] = [] := rfl

@[simp] theorem cStr_slash (rest : List UInt8) : cStr (slash :: rest) = slash :: cStr rest := rfl

theorem cStr_append {str rest : List UInt8} (h : nul ∉ str) : cStr (str ++ rest) = str ++ cStr rest :=
  List.takeWhile_append_of_pos (by simpa using fun c hc => ne_of_mem_of_not_mem hc h)

theorem cStr_append_of_mem {str rest : List UInt8} (h : nul ∈ str) :
    cStr (str ++ rest) = cStr str := by
  obtain ⟨before, after, rfl, hbefore⟩ := List.eq_append_cons_of_mem h
  rw [List.append_assoc, cStr_append hbefore, cStr_append hbefore]
  simp [cStr]

theorem slash_notMem_cStr {str : List UInt8} (h : slash ∉ str) : slash ∉ cStr str :=
  fun hmem => h ((List.takeWhile_prefix _).subset hmem)

theorem head_cStr {str : List UInt8} {c : UInt8} (h : (cStr str).head? = some c) :
    str.head? = some c := by
  cases str with
  | nil => exact h
  | cons c' rest =>
    rw [cStr, List.takeWhile_cons] at h
    split at h
    · exact h
    · cases h

theorem pathSteps_up (rest : List UInt8) :
    pathSteps (dotDot ++ slash :: rest) = .up :: pathSteps rest := by
  rw [pathSteps, cStr_append (by decide), cStr_slash,
    List.splitOn_append_cons_self_of_not_mem (by decide)]
  rfl

/-- All but the last component of the beginning of a string are components before its last one.
Induction on the beginning, component by component. -/
theorem mem_splitOn_append (front rest : List UInt8) {component : List UInt8}
    (h : component ∈ (front.splitOn slash).dropLast) :
    component ∈ ((front ++ rest).splitOn slash).dropLast := by
  by_cases hmem : slash ∈ front
  · obtain ⟨before, after, hfront, hbefore⟩ := List.eq_append_cons_of_mem hmem
    have hlength : after.length < front.length := by
      rw [hfront, List.length_append, List.length_cons]
      omega
    rw [hfront, List.splitOn_append_cons_self_of_not_mem hbefore,
      List.dropLast_cons_of_ne_nil (List.splitOn_ne_nil slash after)] at h
    rw [hfront, List.append_assoc, List.cons_append,
      List.splitOn_append_cons_self_of_not_mem hbefore,
      List.dropLast_cons_of_ne_nil (List.splitOn_ne_nil slash (after ++ rest))]
    cases List.mem_cons.mp h with
    | inl heq => exact List.mem_cons.mpr (Or.inl heq)
    | inr hrest => exact List.mem_cons_of_mem before (mem_splitOn_append after rest hrest)
  · rw [List.splitOn_eq_singleton hmem] at h
    cases h
termination_by front.length

theorem up_notMem_pathSteps {path : List UInt8} (h : dotDot ∉ (path.splitOn slash).dropLast) :
    .up ∉ (pathSteps path).dropLast := by
  intro hmem
  rw [pathSteps, ← List.map_dropLast] at hmem
  obtain ⟨component, hcomponent, heq⟩ := List.mem_map.mp hmem
  rw [pathStep_eq_up] at heq
  subst heq
  apply h
  rw [← List.takeWhile_append_dropWhile (p := (· ≠ nul)) (l := path)]
  exact mem_splitOn_append (cStr path) _ hcomponent

theorem Plain.up_notMem {path : List UInt8} (h : Plain path) :
    .up ∉ (pathSteps path).dropLast :=
  up_notMem_pathSteps fun hmem => h (List.mem_of_mem_dropLast hmem)

theorem Plain.up_notMem_component {path name : List UInt8} (h : Plain path) (hname : slash ∉ name) :
    .up ∉ (pathSteps (path ++ slash :: name)).dropLast := by
  apply up_notMem_pathSteps
  rw [List.splitOn_append_cons_self, List.splitOn_eq_singleton hname, List.dropLast_concat]
  exact h

theorem Plain.below {path front : List UInt8} (h : Plain path) (hslash : slash ∉ front)
    (hlength : 2 < front.length) : Plain (slash :: (front ++ path)) := by
  have hhead : ∀ component, front ++ component ≠ dotDot := by
    intro component heq
    have := congrArg List.length heq
    rw [List.length_append] at this
    exact absurd this (by simp [dotDot]; omega)
  unfold Plain
  rw [← List.nil_append (slash :: _), List.splitOn_append_cons_self, List.splitOn_nil]
  intro hmem
  cases List.mem_append.mp hmem with
  | inl hnil => cases List.mem_singleton.mp hnil
  | inr hmem =>
    by_cases hpath : slash ∈ path
    · obtain ⟨before, after, rfl, hbefore⟩ := List.eq_append_cons_of_mem hpath
      unfold Plain at h
      rw [List.splitOn_append_cons_self_of_not_mem hbefore] at h
      rw [← List.append_assoc, List.splitOn_append_cons_self_of_not_mem (by simp [hslash, hbefore])]
        at hmem
      cases List.mem_cons.mp hmem with
      | inl heq => exact hhead before heq.symm
      | inr hafter => exact h (List.mem_cons_of_mem before hafter)
    · rw [List.splitOn_eq_singleton (by simp [hslash, hpath])] at hmem
      exact hhead path (List.mem_singleton.mp hmem).symm

theorem Plain.extractFilePath {path : List UInt8} (h : Plain path) :
    Plain (FileNames.extractFilePath path) := by
  cases hrest : path.dropLast.reverse.dropWhile (· ≠ slash) with
  | nil =>
    rw [FileNames.extractFilePath, hrest]
    exact plain_nil
  | cons c before =>
    have hc : c = slash := by
      have := List.head?_dropWhile_not (· ≠ slash) path.dropLast.reverse
      rw [hrest] at this
      simpa using this
    have hne : path ≠ [] := by
      rintro rfl
      cases hrest
    have hpath : path = before.reverse ++ slash ::
        ((path.dropLast.reverse.takeWhile (· ≠ slash)).reverse ++ [path.getLast hne]) := by
      calc path = path.dropLast ++ [path.getLast hne] := (List.dropLast_concat_getLast hne).symm
        _ = (path.dropLast.reverse.takeWhile (· ≠ slash) ++
              path.dropLast.reverse.dropWhile (· ≠ slash)).reverse ++ [path.getLast hne] := by
            rw [List.takeWhile_append_dropWhile, List.reverse_reverse]
        _ = _ := by
            rw [hrest, hc]
            simp
    rw [FileNames.extractFilePath, hrest]
    rw [Plain, hpath, List.splitOn_append_cons_self] at h
    exact fun hmem => h (List.mem_append_left _ hmem)

section Names

variable (generateHexMD5 : List UInt8 → HexDigest)

theorem dash_mem_appendHash (fn : List UInt8) (hexMd5 : HexDigest) :
    dash ∈ appendHash fn hexMd5 := by
  unfold appendHash
  split <;> simp

theorem slash_notMem_appendHash {fn : List UInt8} (hexMd5 : HexDigest) (h : slash ∉ fn) :
    slash ∉ appendHash fn hexMd5 := by
  have hhex : slash ∉ dash :: hexMd5.chars.take 10 := by
    intro hmem
    cases List.mem_cons.mp hmem with
    | inl heq => cases heq
    | inr hmem => cases hexMd5.hex slash (List.mem_of_mem_take hmem)
  unfold appendHash
  split
  next pos _ =>
    intro hmem
    cases List.mem_append.mp hmem with
    | inl hleft =>
      cases List.mem_append.mp hleft with
      | inl hfront => exact h (List.mem_of_mem_take hfront)
      | inr hmid => exact hhex hmid
    | inr hback => exact h (List.mem_of_mem_drop hback)
  next => exact fun hmem => (List.mem_append.mp hmem).elim h hhex

theorem fixFilenameForOS_cases (fn : List UInt8) :
    (slash ∉ fn ∧ fixFilenameForOS generateHexMD5 fn = fn) ∨
      ∃ fn', slash ∉ fn' ∧ fixFilenameForOS generateHexMD5 fn =
        appendHash fn' (generateHexMD5 fn) := by
  have hcut : ∀ n, slash ∉ (fn.map fun c => if c = slash then underscore else c).take n := by
    intro n hmem
    obtain ⟨c, _, hc⟩ := List.mem_map.mp (List.mem_of_mem_take hmem)
    split at hc
    · cases hc
    · exact absurd hc (by assumption)
  unfold fixFilenameForOS
  by_cases hslash : slash ∈ fn
  · exact Or.inr ⟨_, hcut _, if_pos hslash⟩
  · have hmap : (fn.map fun c => if c = slash then underscore else c) = fn :=
      (List.map_congr_left fun c hc => if_neg (ne_of_mem_of_not_mem hc hslash)).trans
        (List.map_id' fn)
    rw [if_neg hslash]
    split
    · exact Or.inr ⟨_, hcut _, rfl⟩
    · exact Or.inl ⟨hslash, hmap⟩

theorem slash_notMem_fixFilenameForOS (fn : List UInt8) :
    slash ∉ fixFilenameForOS generateHexMD5 fn := by
  obtain ⟨hslash, heq⟩ | ⟨fn', hslash, heq⟩ := fixFilenameForOS_cases generateHexMD5 fn
  · rwa [heq]
  · rw [heq]
    exact slash_notMem_appendHash _ hslash

theorem fixFilenameForOS_eq_or_dash (fn : List UInt8) :
    fixFilenameForOS generateHexMD5 fn = fn ∨ dash ∈ fixFilenameForOS generateHexMD5 fn := by
  obtain ⟨_, heq⟩ | ⟨fn', _, heq⟩ := fixFilenameForOS_cases generateHexMD5 fn
  · exact Or.inl heq
  · rw [heq]
    exact Or.inr (dash_mem_appendHash _ _)

theorem eq_of_fixFilenameForOS {fn name : List UInt8} (hname : dash ∉ name)
    (h : fixFilenameForOS generateHexMD5 fn = name) : fn = name := by
  cases fixFilenameForOS_eq_or_dash generateHexMD5 fn with
  | inl heq => exact heq.symm.trans h
  | inr hdash => exact absurd (h ▸ hdash) hname

theorem eq_dotDot_of_fixFilenameForOS {fn : List UInt8}
    (h : fixFilenameForOS generateHexMD5 fn = dotDot) : fn = dotDot :=
  eq_of_fixFilenameForOS generateHexMD5 (by decide) h

end Names

theorem slash_notMem_convert (i : Int64) : slash ∉ FileList.convert i := by
  have hdigits : ∀ n, slash ∉ Decimal.digits n := by
    intro n hmem
    cases Decimal.isDigit_of_mem_digits hmem
  unfold FileList.convert
  split
  · intro hmem
    cases List.mem_cons.mp hmem with
    | inl heq => cases heq
    | inr hmem => exact hdigits _ hmem
  · exact hdigits _

theorem slash_notMem_escapeMetadataFn {fn : List UInt8} (h : slash ∉ fn) :
    slash ∉ escapeMetadataFn fn := by
  unfold escapeMetadataFn
  split
  · dsimp only
    split
    · simpa using ⟨h, by decide⟩
    · split
      · intro hmem
        exact (List.mem_append.mp hmem).elim (by decide) (slash_notMem_convert _)
      · exact h
  · exact h

theorem eq_dotDot_of_escapeMetadataFn {fn : List UInt8} (h : escapeMetadataFn fn = dotDot) :
    fn = dotDot := by
  unfold escapeMetadataFn at h
  split at h
  next hprefix =>
    obtain ⟨num, rfl⟩ := List.isPrefixOf_iff_prefix.mp hprefix
    dsimp only at h
    split at h
    · cases h
    · split at h
      · cases h
      · exact h
  next => exact h

theorem Plain.escapeMetadataFn {fn : List UInt8} (h : Plain fn) :
    Plain (FileNames.escapeMetadataFn fn) := by
  unfold FileNames.escapeMetadataFn
  split
  next hprefix =>
    obtain ⟨num, rfl⟩ := List.isPrefixOf_iff_prefix.mp hprefix
    dsimp only
    split
    next hnum =>
      rw [List.drop_left] at hnum
      subst hnum
      unfold Plain
      decide
    · split
      · unfold Plain
        rw [List.splitOn_eq_singleton]
        · intro hmem
          cases List.mem_singleton.mp hmem
        · intro hmem
          exact (List.mem_append.mp hmem).elim (by decide) (slash_notMem_convert _)
      · exact h
  next => exact h

end FileNames

end UrBackup
