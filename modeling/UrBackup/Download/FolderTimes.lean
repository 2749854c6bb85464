import Mathlib.Data.List.Nodup
import UrBackup.Backup.FileNames
import UrBackup.Internet.Connector

/-! The times of the directories of a backup. They are set when all that is below a directory is
there, for which the entries are counted as they come. -/
namespace UrBackup

namespace FolderTimes

open FileNames (slash tokenize tokenize_slash)

structure FileTimes where
  created : Int
  modified : Int
  accessed : Int
  deriving DecidableEq

/-- A directory below which something has come. Without its own entry the number of its items is
minus one. -/
structure SFolderItem where
  path : Bytes
  osPath : Bytes
  times : FileTimes
  folderItems : Int
  countedItems : Int
  deriving DecidableEq

def SFolderItem.new (path : Bytes) : SFolderItem where
  path := path
  osPath := []
  times := ⟨0, 0, 0⟩
  folderItems := -1
  countedItems := 1

def SFolderItem.more (item : SFolderItem) : SFolderItem :=
  { item with countedItems := item.countedItems + 1 }

def SFolderItem.withOwn (item : SFolderItem) (osPath : Bytes) (times : FileTimes)
    (folderItems : Int) : SFolderItem := { item with osPath, times, folderItems }

/-- A call of `os_set_file_time`. -/
abbrev TimeCall := Bytes × FileTimes

/-- The directories that wait, and the calls that were made. -/
structure FolderState where
  savedFolderItems : List SFolderItem
  fileTimes : List TimeCall

/-- The loop over the saved directories in `addSingleFileItem`. -/
def countItem (dirPath : Bytes) : List SFolderItem → List SFolderItem × List TimeCall
  | [] => ([.new dirPath], [])
  | item :: items =>
    if item.path = dirPath then
      let item := item.more
      if item.countedItems = item.folderItems then (items, [(item.osPath, item.times)])
      else (item :: items, [])
    else (item :: (countItem dirPath items).1, (countItem dirPath items).2)

/-- The loop over the saved directories in `addFolderItem`. A directory that is not among them is
forgotten. -/
def ownItem (path osPath : Bytes) (times : FileTimes) (folderItems : Int) :
    List SFolderItem → List SFolderItem × List TimeCall
  | [] => ([], [])
  | item :: items =>
    if item.path = path then
      if item.countedItems = folderItems then (items, [(osPath, times)])
      else (item.withOwn osPath times folderItems :: items, [])
    else (item :: (ownItem path osPath times folderItems items).1,
      (ownItem path osPath times folderItems items).2)

def parentPaths (currPath : Bytes) : List Bytes → List Bytes
  | [] => []
  | tok :: toks =>
    let currPath := (if currPath = [] then currPath else currPath ++ [slash]) ++ tok
    currPath :: parentPaths currPath toks

namespace FolderState

def addSingleFileItem (dirPath : Bytes) (s : FolderState) : FolderState where
  savedFolderItems := (countItem dirPath s.savedFolderItems).1
  fileTimes := s.fileTimes ++ (countItem dirPath s.savedFolderItems).2

def addOwn (path osPath : Bytes) (times : FileTimes) (folderItems : Int) (s : FolderState) :
    FolderState where
  savedFolderItems := (ownItem path osPath times folderItems s.savedFolderItems).1
  fileTimes := s.fileTimes ++ (ownItem path osPath times folderItems s.savedFolderItems).2

def addFolderItem (path osPath : Bytes) (isDir : Bool) (times : FileTimes) (folderItems : Int)
    (s : FolderState) : FolderState :=
  let toks := tokenize path [slash]
  let s := (parentPaths [] toks.dropLast).foldl (fun s dir => s.addSingleFileItem dir) s
  if isDir then
    if folderItems = 0 then { s with fileTimes := s.fileTimes ++ [(osPath, times)] }
    else s.addOwn path osPath times folderItems
  else s

end FolderState

/-- An entry of the metadata, with the names of the path to it. -/
structure FolderEntry where
  names : List Bytes
  osPath : Bytes
  isDir : Bool
  times : FileTimes
  folderItems : Int
  named : names ≠ [] ∧ ∀ name ∈ names, name ≠ [] ∧ slash ∉ name

namespace FolderEntry

def path (e : FolderEntry) : Bytes := [slash].intercalate e.names

def add (e : FolderEntry) (s : FolderState) : FolderState :=
  s.addFolderItem e.path e.osPath e.isDir e.times e.folderItems

def Below (d e : FolderEntry) : Prop := d.names <+: e.names ∧ d.names ≠ e.names

instance (d e : FolderEntry) : Decidable (d.Below e) := instDecidableAnd

def call (d : FolderEntry) : TimeCall := (d.osPath, d.times)

end FolderEntry

def addAll (es : List FolderEntry) : FolderState := es.foldl (fun s e => e.add s) ⟨[], []⟩

/-- The entries of a tree in any order: each place has one entry and its own path in the file system,
everything on the way to an entry is a directory, and each directory says how many entries are below
it. -/
structure IsTree (es : List FolderEntry) : Prop where
  places : (es.map FolderEntry.names).Nodup
  osPaths : (es.map FolderEntry.osPath).Nodup
  parents : ∀ e ∈ es, ∀ i < e.names.length - 1,
    ∃ d ∈ es, d.isDir = true ∧ d.names = e.names.take (i + 1)
  items : ∀ d ∈ es, d.isDir = true → d.folderItems = es.countP fun e => d.Below e

/-- The time of each directory is set once, and not in front of the last entry below it and its own,
and no directory waits at the end. -/
structure Restored (es : List FolderEntry) : Prop where
  once : ∀ d ∈ es, d.isDir = true →
    (addAll es).fileTimes.filter (fun call => call.1 = d.osPath) = [d.call]
  late : ∀ d ∈ es, d.isDir = true → ∀ before, before <+: es →
    d.call ∈ (addAll before).fileTimes → d ∈ before ∧ ∀ e ∈ es, d.Below e → e ∈ before
  done : (addAll es).savedFolderItems = []

/-- The own entry of a directory comes behind some entry below it, if there are any. -/
def SomeFirst (es : List FolderEntry) : Prop :=
  ∀ d before after, es = before ++ d :: after → d.isDir = true → (∃ e ∈ after, d.Below e) →
    ∃ e ∈ before, d.Below e

/-! ### Paths -/

section Paths

variable {names : List Bytes}

def joined (names : List Bytes) : Bytes := [slash].intercalate names

theorem joined_concat (h : names ≠ []) (name : Bytes) :
    joined (names ++ [name]) = joined names ++ [slash] ++ name := by
  induction names with
  | nil => exact absurd rfl h
  | cons n names ih =>
    cases names with
    | nil => simp [joined, List.intercalate_cons_cons]
    | cons m names =>
      have hrest := ih (List.cons_ne_nil m names)
      simp only [joined, List.cons_append, List.intercalate_cons_cons] at hrest ⊢
      rw [hrest]
      simp only [List.append_assoc]

def Named (names : List Bytes) : Prop := ∀ name ∈ names, name ≠ [] ∧ slash ∉ name

theorem splitOn_joined (h : Named names) (hne : names ≠ []) :
    (joined names).splitOn slash = names :=
  List.splitOn_intercalate slash (fun name hname => (h name hname).2) hne

theorem joined_injective {names' : List Bytes} (h : Named names) (h' : Named names')
    (hne : names ≠ []) (hne' : names' ≠ []) (heq : joined names = joined names') : names = names' := by
  rw [← splitOn_joined h hne, heq, splitOn_joined h' hne']

theorem joined_ne_nil (h : Named names) (hne : names ≠ []) : joined names ≠ [] := by
  cases names with
  | nil => exact absurd rfl hne
  | cons name names =>
    have hname := (h name List.mem_cons_self).1
    cases names with
    | nil => simpa [joined] using hname
    | cons m names => simp [joined, List.intercalate_cons_cons]

theorem tokenize_joined (h : Named names) (hne : names ≠ []) :
    tokenize (joined names) [slash] = names := by
  rw [tokenize_slash, splitOn_joined h hne, if_neg]
  intro hlast
  exact (h [] (List.mem_of_getLast? hlast)).1 rfl

theorem parentPaths_eq {start toks : List Bytes} (h : Named (start ++ toks)) :
    parentPaths (joined start) toks =
      (List.range toks.length).map fun i => joined (start ++ toks.take (i + 1)) := by
  induction toks generalizing start with
  | nil => rfl
  | cons tok toks ih =>
    have hnext : (if joined start = [] then joined start else joined start ++ [slash]) ++ tok =
        joined (start ++ [tok]) := by
      by_cases hstart : start = []
      · subst hstart
        simp [joined]
      · have hne := joined_ne_nil (fun name hname => h name (List.mem_append_left _ hname)) hstart
        rw [if_neg hne, joined_concat hstart]
    have hrest : Named (start ++ [tok] ++ toks) := by
      rw [List.append_assoc]
      exact h
    rw [parentPaths, hnext, ih hrest, List.length_cons, List.range_succ_eq_map, List.map_cons,
      List.map_map]
    refine congrArg₂ _ (by simp) ?_
    apply List.map_congr_left
    intro i _
    simp [List.append_assoc]

theorem mem_dropLast_take {i : Nat} (h : i < names.dropLast.length) :
    names.dropLast.take (i + 1) = names.take (i + 1) := by
  rw [List.length_dropLast] at h
  rw [List.dropLast_eq_take, List.take_take, Nat.min_eq_left (by omega)]

def FolderEntry.parents (e : FolderEntry) : List Bytes :=
  (List.range e.names.dropLast.length).map fun i => joined (e.names.take (i + 1))

theorem parentPaths_path (e : FolderEntry) :
    parentPaths [] (tokenize e.path [slash]).dropLast = e.parents := by
  have hnamed : Named ([] ++ e.names.dropLast) := fun name hname =>
    e.named.2 name (List.mem_of_mem_dropLast hname)
  have heq := parentPaths_eq hnamed
  rw [FolderEntry.path, show [slash].intercalate e.names = joined e.names from rfl,
    tokenize_joined e.named.2 e.named.1]
  refine heq.trans ?_
  apply List.map_congr_left
  intro i hi
  rw [List.nil_append, mem_dropLast_take (List.mem_range.mp hi)]

theorem named_take (e : FolderEntry) (i : Nat) :
    Named (e.names.take (i + 1)) ∧ e.names.take (i + 1) ≠ [] := by
  refine ⟨fun name hname => e.named.2 name (List.mem_of_mem_take hname), ?_⟩
  rw [ne_eq, List.take_eq_nil_iff]
  exact fun h => h.elim (Nat.succ_ne_zero i) e.named.1

theorem FolderEntry.parents_nodup (e : FolderEntry) : e.parents.Nodup := by
  refine (List.nodup_map_iff_inj_on List.nodup_range).mpr ?_
  intro i hi j hj heq
  have htake := joined_injective (named_take e i).1 (named_take e j).1 (named_take e i).2
    (named_take e j).2 heq
  have hlength := congrArg List.length htake
  rw [List.mem_range, List.length_dropLast] at hi hj
  rw [List.length_take, List.length_take] at hlength
  omega

theorem FolderEntry.path_mem_parents {d e : FolderEntry} : d.path ∈ e.parents ↔ d.Below e := by
  constructor
  · intro h
    obtain ⟨i, hi, heq⟩ := List.mem_map.mp h
    have hnames : d.names = e.names.take (i + 1) :=
      (joined_injective (named_take e i).1 d.named.2 (named_take e i).2 d.named.1 heq).symm
    refine ⟨hnames ▸ List.take_prefix _ _, fun hsame => ?_⟩
    have hlength := congrArg List.length (hnames.symm.trans hsame)
    rw [List.mem_range, List.length_dropLast] at hi
    rw [List.length_take] at hlength
    omega
  · rintro ⟨hinit, hne⟩
    have hlt : d.names.length < e.names.length :=
      lt_of_le_of_ne hinit.length_le fun heq => hne (hinit.eq_of_length heq)
    have hpos := List.length_pos_iff.mpr d.named.1
    refine List.mem_map.mpr ⟨d.names.length - 1, ?_, ?_⟩
    · rw [List.mem_range, List.length_dropLast]
      omega
    · rw [Nat.sub_add_cancel hpos, ← List.prefix_iff_eq_take.mp hinit]
      rfl

theorem FolderEntry.path_injective {d e : FolderEntry} (h : d.path = e.path) : d.names = e.names :=
  joined_injective d.named.2 e.named.2 d.named.1 e.named.1 h

end Paths

/-! ### One directory of the list -/

section Items

variable {items : List SFolderItem} {path other : Bytes}

def itemAt (path : Bytes) (items : List SFolderItem) : Option SFolderItem :=
  items.find? fun item => item.path = path

def counted (path : Bytes) : Option SFolderItem → Option SFolderItem × List TimeCall
  | none => (some (.new path), [])
  | some item =>
    if item.more.countedItems = item.more.folderItems then
      (none, [(item.more.osPath, item.more.times)])
    else (some item.more, [])

def owned (osPath : Bytes) (times : FileTimes) (folderItems : Int) :
    Option SFolderItem → Option SFolderItem × List TimeCall
  | none => (none, [])
  | some item =>
    if item.countedItems = folderItems then (none, [(osPath, times)])
    else (some (item.withOwn osPath times folderItems), [])

theorem itemAt_cons_self {item : SFolderItem} (h : item.path = path) :
    itemAt path (item :: items) = some item :=
  List.find?_cons_of_pos (decide_eq_true h)

theorem itemAt_cons_ne {item : SFolderItem} (h : item.path ≠ path) :
    itemAt path (item :: items) = itemAt path items :=
  List.find?_cons_of_neg (by simpa using h)

theorem itemAt_none (h : path ∉ items.map SFolderItem.path) : itemAt path items = none := by
  apply List.find?_eq_none.mpr
  intro item hitem hpath
  exact h (List.mem_map.mpr ⟨item, hitem, of_decide_eq_true hpath⟩)

theorem itemAt_some {item : SFolderItem} (h : itemAt path items = some item) :
    item ∈ items ∧ item.path = path :=
  ⟨List.mem_of_find?_eq_some h, of_decide_eq_true
    (List.find?_some (p := fun item : SFolderItem => decide (item.path = path)) h)⟩

theorem itemAt_countItem_ne (h : other ≠ path) :
    itemAt other (countItem path items).1 = itemAt other items := by
  induction items with
  | nil => exact itemAt_cons_ne h.symm
  | cons item items ih =>
    unfold countItem
    by_cases hitem : item.path = path
    · have hne : item.path ≠ other := fun heq => h (heq.symm.trans hitem)
      rw [if_pos hitem]
      dsimp only
      split
      · exact (itemAt_cons_ne hne).symm
      · exact (@itemAt_cons_ne items other item.more hne).trans (itemAt_cons_ne hne).symm
    · rw [if_neg hitem]
      by_cases hother : item.path = other
      · exact (itemAt_cons_self hother).trans (itemAt_cons_self hother).symm
      · exact (itemAt_cons_ne hother).trans (ih.trans (itemAt_cons_ne hother).symm)

theorem itemAt_countItem (h : (items.map SFolderItem.path).Nodup) :
    (itemAt path (countItem path items).1, (countItem path items).2) =
      counted path (itemAt path items) := by
  induction items with
  | nil => exact congrArg (·, _) (itemAt_cons_self rfl)
  | cons item items ih =>
    obtain ⟨hnotMem, hnodup⟩ := List.nodup_cons.mp h
    unfold countItem
    by_cases hitem : item.path = path
    · rw [if_pos hitem, itemAt_cons_self hitem, counted]
      by_cases hdone : item.more.countedItems = item.more.folderItems
      · simp only [if_pos hdone, itemAt_none (hitem ▸ hnotMem)]
      · simp only [if_neg hdone, @itemAt_cons_self items path item.more hitem]
    · simp only [if_neg hitem, itemAt_cons_ne hitem]
      exact ih hnodup

theorem itemAt_ownItem_ne {osPath : Bytes} {times : FileTimes} {folderItems : Int}
    (h : other ≠ path) :
    itemAt other (ownItem path osPath times folderItems items).1 = itemAt other items := by
  induction items with
  | nil => rfl
  | cons item items ih =>
    unfold ownItem
    by_cases hitem : item.path = path
    · have hne : item.path ≠ other := fun heq => h (heq.symm.trans hitem)
      rw [if_pos hitem]
      split
      · exact (itemAt_cons_ne hne).symm
      · exact (@itemAt_cons_ne items other (item.withOwn osPath times folderItems) hne).trans
          (itemAt_cons_ne hne).symm
    · rw [if_neg hitem]
      by_cases hother : item.path = other
      · exact (itemAt_cons_self hother).trans (itemAt_cons_self hother).symm
      · exact (itemAt_cons_ne hother).trans (ih.trans (itemAt_cons_ne hother).symm)

theorem itemAt_ownItem {osPath : Bytes} {times : FileTimes} {folderItems : Int}
    (h : (items.map SFolderItem.path).Nodup) :
    (itemAt path (ownItem path osPath times folderItems items).1,
      (ownItem path osPath times folderItems items).2) =
      owned osPath times folderItems (itemAt path items) := by
  induction items with
  | nil => rfl
  | cons item items ih =>
    obtain ⟨hnotMem, hnodup⟩ := List.nodup_cons.mp h
    unfold ownItem
    by_cases hitem : item.path = path
    · rw [if_pos hitem, itemAt_cons_self hitem, owned]
      by_cases hdone : item.countedItems = folderItems
      · simp only [if_pos hdone, itemAt_none (hitem ▸ hnotMem)]
      · simp only [if_neg hdone,
          @itemAt_cons_self items path (item.withOwn osPath times folderItems) hitem]
    · simp only [if_neg hitem, itemAt_cons_ne hitem]
      exact ih hnodup

end Items

end FolderTimes

end UrBackup
