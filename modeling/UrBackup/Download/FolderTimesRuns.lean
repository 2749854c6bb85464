import Mathlib
import UrBackup.Download.FolderTimes

/-! When the times of all directories of a tree are set, for any order of its entries. -/
namespace UrBackup

namespace FolderTimes

section Items

variable {items : List SFolderItem} {path : Bytes}

theorem mem_countItem {item : SFolderItem} (h : item ∈ (countItem path items).1) :
    item = .new path ∨ item ∈ items ∨ ∃ old ∈ items, item = old.more := by
  induction items with
  | nil => exact .inl (List.mem_singleton.mp h)
  | cons i items ih =>
    unfold countItem at h
    by_cases hi : i.path = path
    · rw [if_pos hi] at h
      dsimp only at h
      split at h
      · exact .inr (.inl (List.mem_cons_of_mem i h))
      · rcases List.mem_cons.mp h with rfl | h
        · exact .inr (.inr ⟨i, List.mem_cons_self, rfl⟩)
        · exact .inr (.inl (List.mem_cons_of_mem i h))
    · rw [if_neg hi] at h
      rcases List.mem_cons.mp h with rfl | h
      · exact .inr (.inl List.mem_cons_self)
      · rcases ih h with hnew | hold | ⟨old, hold, hmore⟩
        · exact .inl hnew
        · exact .inr (.inl (List.mem_cons_of_mem i hold))
        · exact .inr (.inr ⟨old, List.mem_cons_of_mem i hold, hmore⟩)

theorem mem_ownItem {osPath : Bytes} {times : FileTimes} {folderItems : Int} {item : SFolderItem}
    (h : item ∈ (ownItem path osPath times folderItems items).1) :
    item ∈ items ∨ ∃ old ∈ items, old.path = path ∧ item = old.withOwn osPath times folderItems := by
  induction items with
  | nil => cases h
  | cons i items ih =>
    unfold ownItem at h
    by_cases hi : i.path = path
    · rw [if_pos hi] at h
      split at h
      · exact .inl (List.mem_cons_of_mem i h)
      · rcases List.mem_cons.mp h with rfl | h
        · exact .inr ⟨i, List.mem_cons_self, hi, rfl⟩
        · exact .inl (List.mem_cons_of_mem i h)
    · rw [if_neg hi] at h
      rcases List.mem_cons.mp h with rfl | h
      · exact .inl List.mem_cons_self
      · rcases ih h with hold | ⟨old, hold, hpath, hown⟩
        · exact .inl (List.mem_cons_of_mem i hold)
        · exact .inr ⟨old, List.mem_cons_of_mem i hold, hpath, hown⟩

/-- A new directory comes to the end of the list, and only if it was not in it. -/
theorem countItem_paths :
    ((countItem path items).1.map SFolderItem.path).Sublist (items.map SFolderItem.path) ∨
      (countItem path items).1.map SFolderItem.path = items.map SFolderItem.path ++ [path] ∧
        path ∉ items.map SFolderItem.path := by
  induction items with
  | nil => exact .inr ⟨rfl, List.not_mem_nil⟩
  | cons item items ih =>
    unfold countItem
    by_cases hitem : item.path = path
    · rw [if_pos hitem]
      dsimp only
      left
      split
      · exact List.sublist_cons_self _ _
      · exact List.Sublist.refl _
    · rw [if_neg hitem]
      rcases ih with hsub | ⟨heq, hnotMem⟩
      · exact .inl (hsub.cons_cons item.path)
      · refine .inr ⟨congrArg (item.path :: ·) heq, ?_⟩
        rw [List.map_cons, List.mem_cons]
        exact fun h => h.elim (fun h => hitem h.symm) hnotMem

theorem countItem_nodup (h : (items.map SFolderItem.path).Nodup) :
    ((countItem path items).1.map SFolderItem.path).Nodup := by
  rcases @countItem_paths items path with hsub | ⟨heq, hnotMem⟩
  · exact hsub.nodup h
  · rw [heq]
    exact List.nodup_append.mpr ⟨h, List.nodup_singleton path, fun p hp q hq heq' =>
      hnotMem (List.mem_singleton.mp hq ▸ heq' ▸ hp)⟩

theorem ownItem_paths {osPath : Bytes} {times : FileTimes} {folderItems : Int} :
    ((ownItem path osPath times folderItems items).1.map SFolderItem.path).Sublist
      (items.map SFolderItem.path) := by
  induction items with
  | nil => exact List.Sublist.refl _
  | cons item items ih =>
    unfold ownItem
    by_cases hitem : item.path = path
    · rw [if_pos hitem]
      split
      · exact List.sublist_cons_self _ _
      · exact List.Sublist.refl _
    · rw [if_neg hitem]
      exact ih.cons_cons item.path

end Items

/-! ### One directory among the others -/

section Tree

variable {es : List FolderEntry} {s : FolderState} {d e : FolderEntry}

theorem IsTree.eq_of_names (h : IsTree es) (hd : d ∈ es) (he : e ∈ es) (heq : d.names = e.names) :
    d = e := List.inj_on_of_nodup_map h.places hd he heq

theorem IsTree.eq_of_osPath (h : IsTree es) (hd : d ∈ es) (he : e ∈ es)
    (heq : d.osPath = e.osPath) : d = e := List.inj_on_of_nodup_map h.osPaths hd he heq

/-- Each directory waits once, has been counted, and has the path of its entry if it has come. -/
structure Kept (es : List FolderEntry) (s : FolderState) : Prop where
  nodup : (s.savedFolderItems.map SFolderItem.path).Nodup
  positive : ∀ item ∈ s.savedFolderItems, 1 ≤ item.countedItems
  dirs : ∀ item ∈ s.savedFolderItems, ∃ d ∈ es, d.isDir = true ∧ d.path = item.path ∧
    (item.folderItems = -1 ∨ d.osPath = item.osPath)

theorem Kept.addSingleFileItem (h : Kept es s) (hd : d ∈ es) (hdir : d.isDir = true) :
    Kept es (s.addSingleFileItem d.path) := by
  refine ⟨countItem_nodup h.nodup, ?_, ?_⟩
  · intro item hitem
    rcases mem_countItem hitem with rfl | hold | ⟨old, hold, rfl⟩
    · exact Int.le_refl 1
    · exact h.positive item hold
    · have hcounted := h.positive old hold
      simp only [SFolderItem.more]
      omega
  · intro item hitem
    rcases mem_countItem hitem with rfl | hold | ⟨old, hold, rfl⟩
    · exact ⟨d, hd, hdir, rfl, .inl rfl⟩
    · exact h.dirs item hold
    · exact h.dirs old hold

theorem Kept.addOwn (h : Kept es s) (hd : d ∈ es) (hdir : d.isDir = true) :
    Kept es (s.addOwn d.path d.osPath d.times d.folderItems) := by
  refine ⟨ownItem_paths.nodup h.nodup, ?_, ?_⟩
  · intro item hitem
    rcases mem_ownItem hitem with hold | ⟨old, hold, -, rfl⟩
    · exact h.positive item hold
    · exact h.positive old hold
  · intro item hitem
    rcases mem_ownItem hitem with hold | ⟨old, hold, hpath, rfl⟩
    · exact h.dirs item hold
    · exact ⟨d, hd, hdir, hpath.symm, .inr rfl⟩

/-- What the list and the calls have of one directory. -/
structure At where
  item : Option SFolderItem
  calls : List TimeCall

def FolderState.at (s : FolderState) (d : FolderEntry) : At where
  item := itemAt d.path s.savedFolderItems
  calls := s.fileTimes.filter fun call => call.1 = d.osPath

namespace At

def count (a : At) (path : Bytes) : At :=
  ⟨(FolderTimes.counted path a.item).1, a.calls ++ (FolderTimes.counted path a.item).2⟩

def own (a : At) (d : FolderEntry) : At :=
  if d.folderItems = 0 then ⟨a.item, a.calls ++ [d.call]⟩
  else ⟨(owned d.osPath d.times d.folderItems a.item).1,
    a.calls ++ (owned d.osPath d.times d.folderItems a.item).2⟩

def step (d : FolderEntry) (a : At) (e : FolderEntry) : At :=
  let a := if d.Below e then a.count d.path else a
  if e.names = d.names then a.own d else a

end At

theorem Kept.call_iff (htree : IsTree es) (h : Kept es s) (hd : d ∈ es) {path : Bytes}
    {call : TimeCall} (hcall : call ∈ (countItem path s.savedFolderItems).2) :
    call.1 = d.osPath ↔ path = d.path := by
  have hcounted : (countItem path s.savedFolderItems).2 =
      (counted path (itemAt path s.savedFolderItems)).2 := congrArg Prod.snd (itemAt_countItem h.nodup)
  rw [hcounted] at hcall
  cases hitem : itemAt path s.savedFolderItems with
  | none =>
    rw [hitem] at hcall
    cases hcall
  | some item =>
    rw [hitem, counted] at hcall
    split at hcall
    · rename_i hdone
      obtain rfl := List.mem_singleton.mp hcall
      obtain ⟨hmem, hpath⟩ := itemAt_some hitem
      obtain ⟨e, he, -, hepath, hos⟩ := h.dirs item hmem
      have hpos := h.positive item hmem
      have hosPath : e.osPath = item.osPath := by
        apply hos.resolve_left
        simp only [SFolderItem.more] at hdone
        omega
      constructor
      · intro heq
        have hsame := htree.eq_of_osPath he hd (hosPath.trans heq)
        rw [← hpath, ← hepath, hsame]
      · intro heq
        have hnames := FolderEntry.path_injective (hepath.trans (hpath.trans heq))
        exact hosPath.symm.trans (congrArg FolderEntry.osPath (htree.eq_of_names he hd hnames))
    · cases hcall

theorem Kept.at_count (htree : IsTree es) (h : Kept es s) (hd : d ∈ es) (path : Bytes) :
    (s.addSingleFileItem path).at d = if path = d.path then (s.at d).count d.path else s.at d := by
  have hcalls := fun call hcall => @Kept.call_iff es s d htree h hd path call hcall
  by_cases hpath : path = d.path
  · subst hpath
    have hitem : itemAt d.path (countItem d.path s.savedFolderItems).1 =
        (counted d.path (itemAt d.path s.savedFolderItems)).1 :=
      congrArg Prod.fst (itemAt_countItem h.nodup)
    have hcounted : (countItem d.path s.savedFolderItems).2 =
        (counted d.path (itemAt d.path s.savedFolderItems)).2 :=
      congrArg Prod.snd (itemAt_countItem h.nodup)
    have hall : (countItem d.path s.savedFolderItems).2.filter (fun call => call.1 = d.osPath) =
        (countItem d.path s.savedFolderItems).2 :=
      List.filter_eq_self.mpr fun call hcall => decide_eq_true ((hcalls call hcall).mpr rfl)
    rw [if_pos rfl]
    simp only [FolderState.at, FolderState.addSingleFileItem, At.count, List.filter_append, hall,
      hitem]
    rw [hcounted]
  · have hnone : (countItem path s.savedFolderItems).2.filter (fun call => call.1 = d.osPath) = [] :=
      List.filter_eq_nil_iff.mpr fun call hcall hos =>
        hpath ((hcalls call hcall).mp (of_decide_eq_true hos))
    rw [if_neg hpath]
    simp only [FolderState.at, FolderState.addSingleFileItem, List.filter_append, hnone,
      List.append_nil, itemAt_countItem_ne (Ne.symm hpath)]

theorem Kept.at_counts (htree : IsTree es) (hd : d ∈ es) {paths : List Bytes}
    (hnodup : paths.Nodup) (hdirs : ∀ path ∈ paths, ∃ e ∈ es, e.isDir = true ∧ e.path = path)
    (h : Kept es s) :
    Kept es (paths.foldl (fun s dir => s.addSingleFileItem dir) s) ∧
      (paths.foldl (fun s dir => s.addSingleFileItem dir) s).at d =
        if d.path ∈ paths then (s.at d).count d.path else s.at d := by
  induction paths generalizing s with
  | nil => exact ⟨h, (if_neg List.not_mem_nil).symm⟩
  | cons path paths ih =>
    obtain ⟨hnotMem, hrest⟩ := List.nodup_cons.mp hnodup
    obtain ⟨e, he, hdir, rfl⟩ := hdirs path List.mem_cons_self
    obtain ⟨hkept, hat⟩ := ih hrest (fun p hp => hdirs p (List.mem_cons_of_mem _ hp))
      (h.addSingleFileItem he hdir)
    refine ⟨hkept, hat.trans ?_⟩
    rw [h.at_count htree hd]
    by_cases hpath : e.path = d.path
    · rw [← hpath, if_neg hnotMem, if_pos rfl, if_pos List.mem_cons_self]
    · have hmem : d.path ∈ e.path :: paths ↔ d.path ∈ paths :=
        List.mem_cons.trans (or_iff_right fun h => hpath h.symm)
      rw [if_neg hpath]
      simp only [hmem]

theorem owned_call {osPath : Bytes} {times : FileTimes} {folderItems : Int}
    {item : Option SFolderItem} {call : TimeCall}
    (h : call ∈ (owned osPath times folderItems item).2) : call.1 = osPath := by
  cases item with
  | none => cases h
  | some item =>
    rw [owned] at h
    split at h
    · exact congrArg Prod.fst (List.mem_singleton.mp h)
    · cases h

theorem Kept.at_own (htree : IsTree es) (h : Kept es s) (hd : d ∈ es) (he : e ∈ es) :
    (if e.folderItems = 0 then { s with fileTimes := s.fileTimes ++ [e.call] }
      else s.addOwn e.path e.osPath e.times e.folderItems).at d =
      if e.names = d.names then (s.at d).own d else s.at d := by
  by_cases hnames : e.names = d.names
  · obtain rfl := htree.eq_of_names he hd hnames
    rw [if_pos rfl, At.own]
    by_cases hzero : e.folderItems = 0
    · rw [if_pos hzero, if_pos hzero]
      simp [FolderState.at, FolderEntry.call]
    · have hitem : itemAt e.path (ownItem e.path e.osPath e.times e.folderItems
          s.savedFolderItems).1 = (owned e.osPath e.times e.folderItems
            (itemAt e.path s.savedFolderItems)).1 := congrArg Prod.fst (itemAt_ownItem h.nodup)
      have hcalls : (ownItem e.path e.osPath e.times e.folderItems s.savedFolderItems).2 =
          (owned e.osPath e.times e.folderItems (itemAt e.path s.savedFolderItems)).2 :=
        congrArg Prod.snd (itemAt_ownItem h.nodup)
      rw [if_neg hzero, if_neg hzero]
      simp only [FolderState.at, FolderState.addOwn, List.filter_append, hitem, hcalls]
      congr 2
      apply List.filter_eq_self.mpr
      intro call hcall
      exact decide_eq_true (owned_call hcall)
  · have hpath : d.path ≠ e.path := fun heq => hnames (FolderEntry.path_injective heq).symm
    have hos : e.osPath ≠ d.osPath := fun heq =>
      hnames (congrArg FolderEntry.names (htree.eq_of_osPath he hd heq))
    rw [if_neg hnames]
    split
    · simp [FolderState.at, FolderEntry.call, hos]
    · have hnone : (ownItem e.path e.osPath e.times e.folderItems s.savedFolderItems).2.filter
          (fun call => call.1 = d.osPath) = [] := by
        apply List.filter_eq_nil_iff.mpr
        intro call hcall hcallOs
        have hcalls : (ownItem e.path e.osPath e.times e.folderItems s.savedFolderItems).2 =
            (owned e.osPath e.times e.folderItems (itemAt e.path s.savedFolderItems)).2 :=
          congrArg Prod.snd (itemAt_ownItem h.nodup)
        rw [hcalls] at hcall
        exact hos ((owned_call hcall).symm.trans (of_decide_eq_true hcallOs))
      simp only [FolderState.at, FolderState.addOwn, List.filter_append, hnone, List.append_nil,
        itemAt_ownItem_ne hpath]

theorem Kept.add (htree : IsTree es) (h : Kept es s) (he : e ∈ es) : Kept es (e.add s) ∧
    ∀ d ∈ es, d.isDir = true → (e.add s).at d = (s.at d).step d e := by
  have hdirs : ∀ path ∈ e.parents, ∃ p ∈ es, p.isDir = true ∧ p.path = path := by
    intro path hpath
    obtain ⟨i, hi, rfl⟩ := List.mem_map.mp hpath
    rw [List.mem_range, List.length_dropLast] at hi
    obtain ⟨p, hp, hdir, hnames⟩ := htree.parents e he i hi
    exact ⟨p, hp, hdir, congrArg joined hnames⟩
  have hcounts := fun d hd => @Kept.at_counts es s d htree hd e.parents e.parents_nodup hdirs h
  have hkept := (hcounts e he).1
  unfold FolderEntry.add FolderState.addFolderItem
  dsimp only
  rw [parentPaths_path]
  constructor
  · split
    · rename_i hdir
      split
      · exact ⟨hkept.nodup, hkept.positive, hkept.dirs⟩
      · exact hkept.addOwn he hdir
    · exact hkept
  · intro d hd hdirD
    have hat := (hcounts d hd).2
    simp only [FolderEntry.path_mem_parents] at hat
    rw [At.step, ← hat]
    by_cases hdir : e.isDir = true
    · rw [if_pos hdir]
      exact hkept.at_own htree hd he
    · have hnames : ¬ e.names = d.names := fun heq =>
        hdir (htree.eq_of_names he hd heq ▸ hdirD)
      rw [if_neg hdir, if_neg hnames]

theorem Kept.addAll (htree : IsTree es) {l : List FolderEntry} (hl : ∀ e ∈ l, e ∈ es)
    (h : Kept es s) : Kept es (l.foldl (fun s e => e.add s) s) ∧ ∀ d ∈ es, d.isDir = true →
      (l.foldl (fun s e => e.add s) s).at d = l.foldl (At.step d) (s.at d) := by
  induction l generalizing s with
  | nil => exact ⟨h, fun _ _ _ => rfl⟩
  | cons e l ih =>
    obtain ⟨hkept, hat⟩ := h.add htree (hl e List.mem_cons_self)
    obtain ⟨hkept', hat'⟩ := ih (fun e' he' => hl e' (List.mem_cons_of_mem e he')) hkept
    refine ⟨hkept', fun d hd hdir => (hat' d hd hdir).trans ?_⟩
    rw [hat d hd hdir]
    rfl

theorem at_addAll (htree : IsTree es) {l : List FolderEntry} (hl : ∀ e ∈ l, e ∈ es) :
    Kept es (addAll l) ∧ ∀ d ∈ es, d.isDir = true →
      (FolderTimes.addAll l).at d = l.foldl (At.step d) ⟨none, []⟩ := by
  have hstart : Kept es ⟨[], []⟩ := ⟨List.nodup_nil, fun _ h => absurd h List.not_mem_nil,
    fun _ h => absurd h List.not_mem_nil⟩
  exact hstart.addAll htree hl

end Tree

/-! ### The entries below one directory -/

section Counts

variable {d : FolderEntry} {l : List FolderEntry} {item : SFolderItem} {calls : List TimeCall}

def FolderEntry.below (d : FolderEntry) (l : List FolderEntry) : Nat := l.countP fun e => d.Below e

def SFolderItem.plus (item : SFolderItem) (n : Nat) : SFolderItem :=
  { item with countedItems := item.countedItems + n }

theorem plus_zero (item : SFolderItem) : item.plus 0 = item := by
  simp [SFolderItem.plus]

theorem more_plus (item : SFolderItem) (n : Nat) : item.more.plus n = item.plus (n + 1) := by
  simp only [SFolderItem.plus, SFolderItem.more]
  congr 1
  push_cast
  ring

theorem below_cons (d e : FolderEntry) (l : List FolderEntry) :
    d.below (e :: l) = (if d.Below e then 1 else 0) + d.below l := by
  unfold FolderEntry.below
  rw [List.countP_cons]
  by_cases h : d.Below e
  · simp [h, Nat.add_comm]
  · simp [h]

theorem below_append (d : FolderEntry) (l l' : List FolderEntry) :
    d.below (l ++ l') = d.below l + d.below l' := List.countP_append

theorem below_pos : 0 < d.below l ↔ ∃ e ∈ l, d.Below e := by
  simp [FolderEntry.below, List.countP_pos_iff]

theorem foldl_waits (hother : ∀ e ∈ l, e.names ≠ d.names)
    (hnot : ∀ n, 1 ≤ n → n ≤ d.below l → item.countedItems + (n : Int) ≠ item.folderItems) :
    l.foldl (At.step d) ⟨some item, calls⟩ = ⟨some (item.plus (d.below l)), calls⟩ := by
  induction l generalizing item with
  | nil =>
    rw [show d.below [] = 0 from rfl, plus_zero]
    rfl
  | cons e l ih =>
    have hrest : ∀ e ∈ l, e.names ≠ d.names := fun e' he' => hother e' (List.mem_cons_of_mem e he')
    rw [List.foldl_cons, At.step, if_neg (hother e List.mem_cons_self)]
    rw [below_cons] at hnot ⊢
    by_cases hbelow : d.Below e
    · simp only [if_pos hbelow] at hnot ⊢
      have hfirst : ¬ item.more.countedItems = item.more.folderItems :=
        hnot 1 (Nat.le_refl 1) (Nat.le_add_right 1 _)
      have hcount : At.count ⟨some item, calls⟩ d.path = ⟨some item.more, calls⟩ := by
        simp only [At.count, counted, if_neg hfirst, List.append_nil]
      have hnext := @ih item.more hrest ?_
      · rw [hcount, hnext, more_plus, Nat.add_comm 1]
      · intro n hn hle
        have := hnot (n + 1) (by omega) (by omega)
        simp only [SFolderItem.more]
        push_cast at this
        omega
    · simp only [if_neg hbelow, Nat.zero_add] at hnot ⊢
      exact ih hrest hnot

theorem foldl_idle (hother : ∀ e ∈ l, e.names ≠ d.names) (hnone : d.below l = 0) (a : At) :
    l.foldl (At.step d) a = a := by
  induction l with
  | nil => rfl
  | cons e l ih =>
    rw [below_cons] at hnone
    have hbelow : ¬ d.Below e := by
      intro h
      rw [if_pos h] at hnone
      omega
    rw [List.foldl_cons, At.step, if_neg (hother e List.mem_cons_self), if_neg hbelow]
    exact ih (fun e' he' => hother e' (List.mem_cons_of_mem e he')) (by omega)

theorem foldl_fills (hother : ∀ e ∈ l, e.names ≠ d.names) (hpos : 0 < d.below l)
    (hfull : item.countedItems + (d.below l : Int) = item.folderItems) :
    l.foldl (At.step d) ⟨some item, calls⟩ = ⟨none, calls ++ [(item.osPath, item.times)]⟩ := by
  induction l generalizing item with
  | nil => exact absurd hpos (Nat.lt_irrefl 0)
  | cons e l ih =>
    have hrest : ∀ e ∈ l, e.names ≠ d.names := fun e' he' => hother e' (List.mem_cons_of_mem e he')
    rw [List.foldl_cons, At.step, if_neg (hother e List.mem_cons_self)]
    rw [below_cons] at hpos hfull
    by_cases hbelow : d.Below e
    · simp only [if_pos hbelow] at hpos hfull ⊢
      by_cases hlast : d.below l = 0
      · have hdone : item.more.countedItems = item.more.folderItems := by
          rw [hlast] at hfull
          exact hfull
        have hcount : At.count ⟨some item, calls⟩ d.path =
            ⟨none, calls ++ [(item.osPath, item.times)]⟩ := by
          simp only [At.count, counted, if_pos hdone]
          rfl
        rw [hcount]
        exact foldl_idle hrest hlast _
      · have hmore : ¬ item.more.countedItems = item.more.folderItems := by
          simp only [SFolderItem.more]
          push_cast at hfull
          omega
        have hcount : At.count ⟨some item, calls⟩ d.path = ⟨some item.more, calls⟩ := by
          simp only [At.count, counted, if_neg hmore, List.append_nil]
        rw [hcount]
        apply ih hrest (Nat.pos_of_ne_zero hlast)
        simp only [SFolderItem.more]
        push_cast at hfull
        omega
    · simp only [if_neg hbelow, Nat.zero_add] at hpos hfull ⊢
      exact ih hrest hpos hfull

/-- Of a directory that does not wait the first of them makes one that cannot be full. -/
theorem foldl_new (hother : ∀ e ∈ l, e.names ≠ d.names) :
    l.foldl (At.step d) ⟨none, calls⟩ =
      ⟨if d.below l = 0 then none else some ((SFolderItem.new d.path).plus (d.below l - 1)), calls⟩ := by
  induction l with
  | nil => rfl
  | cons e l ih =>
    have hrest : ∀ e ∈ l, e.names ≠ d.names := fun e' he' => hother e' (List.mem_cons_of_mem e he')
    rw [List.foldl_cons, At.step, if_neg (hother e List.mem_cons_self), below_cons]
    by_cases hbelow : d.Below e
    · simp only [if_pos hbelow]
      have hcount : At.count ⟨none, calls⟩ d.path = ⟨some (.new d.path), calls⟩ := by
        simp only [At.count, counted, List.append_nil]
      rw [hcount, foldl_waits hrest, if_neg (by omega), Nat.add_sub_cancel_left]
      intro n hn hle
      simp only [SFolderItem.new]
      omega
    · simp only [if_neg hbelow, Nat.zero_add]
      exact ih hrest

/-- A directory in its place in the order: what comes in front of it and behind it. -/
structure Placed (d : FolderEntry) (before after : List FolderEntry) : Prop where
  front : ∀ e ∈ before, e.names ≠ d.names
  behind : ∀ e ∈ after, e.names ≠ d.names
  items : d.folderItems = d.below before + d.below after

variable {before after : List FolderEntry}

theorem below_self (d : FolderEntry) : ¬ d.Below d := fun h => h.2 rfl

theorem step_self (d : FolderEntry) (a : At) : a.step d d = a.own d := by
  rw [At.step, if_neg (below_self d), if_pos rfl]

theorem Placed.forgotten (h : Placed d before after) (hbefore : d.below before = 0)
    (hafter : 0 < d.below after) (hrest : l <+: after) :
    (before ++ d :: l).foldl (At.step d) ⟨none, []⟩ =
      ⟨if d.below l = 0 then none else some ((SFolderItem.new d.path).plus (d.below l - 1)), []⟩ := by
  have hitems := h.items
  have hown : At.own ⟨none, []⟩ d = ⟨none, []⟩ := by
    rw [At.own, if_neg (by omega)]
    rfl
  rw [List.foldl_append, foldl_idle h.front hbefore, List.foldl_cons, step_self, hown]
  exact foldl_new fun e he => h.behind e (hrest.subset he)

/-- Otherwise its time is set with the last of its entries. -/
theorem Placed.kept (h : Placed d before after) (hsome : 0 < d.below after → 0 < d.below before)
    (hrest : l <+: after) :
    (before ++ d :: l).foldl (At.step d) ⟨none, []⟩ =
      if d.below l = d.below after then ⟨none, [d.call]⟩
      else ⟨some (((SFolderItem.new d.path).plus (d.below before - 1)).withOwn d.osPath d.times
        d.folderItems |>.plus (d.below l)), []⟩ := by
  have hitems := h.items
  have hother : ∀ e ∈ l, e.names ≠ d.names := fun e he => h.behind e (hrest.subset he)
  have hle : d.below l ≤ d.below after := by
    obtain ⟨rest, rfl⟩ := hrest
    rw [below_append]
    exact Nat.le_add_right _ _
  rw [List.foldl_append, foldl_new h.front, List.foldl_cons, step_self]
  by_cases hnone : d.below after = 0
  · have hzero : d.below l = 0 := by omega
    have hown : At.own ⟨if d.below before = 0 then none else
        some ((SFolderItem.new d.path).plus (d.below before - 1)), []⟩ d = ⟨none, [d.call]⟩ := by
      by_cases hbefore : d.below before = 0
      · rw [if_pos hbefore, At.own, if_pos (by omega)]
        rfl
      · have hfull : ((SFolderItem.new d.path).plus (d.below before - 1)).countedItems =
            d.folderItems := by
          simp only [SFolderItem.plus, SFolderItem.new]
          omega
        rw [if_neg hbefore, At.own, if_neg (by omega)]
        simp only [owned, if_pos hfull]
        rfl
    rw [hown, if_pos (by omega)]
    exact foldl_idle hother hzero _
  · have hbefore := hsome (Nat.pos_of_ne_zero hnone)
    have hshort : ¬ ((SFolderItem.new d.path).plus (d.below before - 1)).countedItems =
        d.folderItems := by
      simp only [SFolderItem.plus, SFolderItem.new]
      omega
    have hown : At.own ⟨if d.below before = 0 then none else
        some ((SFolderItem.new d.path).plus (d.below before - 1)), []⟩ d =
        ⟨some (((SFolderItem.new d.path).plus (d.below before - 1)).withOwn d.osPath d.times
          d.folderItems), []⟩ := by
      rw [if_neg hbefore.ne', At.own, if_neg (by omega)]
      simp only [owned, if_neg hshort, List.append_nil]
    rw [hown]
    by_cases hall : d.below l = d.below after
    · rw [if_pos hall]
      apply foldl_fills hother (by omega)
      simp only [SFolderItem.withOwn, SFolderItem.plus, SFolderItem.new]
      omega
    · rw [if_neg hall]
      apply foldl_waits hother
      intro n hn hle'
      simp only [SFolderItem.withOwn, SFolderItem.plus, SFolderItem.new]
      omega

end Counts

section Orders

variable {es : List FolderEntry} {d : FolderEntry} {before after : List FolderEntry}

theorem IsTree.placed (htree : IsTree es) (hes : es = before ++ d :: after) (hdir : d.isDir = true) :
    Placed d before after := by
  have hd : d ∈ es := hes ▸ List.mem_append_right before List.mem_cons_self
  have hplaces := htree.places
  have hitems := htree.items d hd hdir
  rw [hes, List.map_append, List.map_cons] at hplaces
  obtain ⟨-, hbehind, hdisjoint⟩ := List.nodup_append.mp hplaces
  have hnotMem := (List.nodup_cons.mp hbehind).1
  refine ⟨?_, ?_, ?_⟩
  · exact fun e he heq => hdisjoint e.names (List.mem_map_of_mem he) d.names List.mem_cons_self heq
  · exact fun e he heq => hnotMem (heq ▸ List.mem_map_of_mem he)
  · have hsum : d.below es = d.below before + d.below after := by
      rw [hes, below_append, below_cons, if_neg (below_self d), Nat.zero_add]
    rw [hitems]
    exact_mod_cast hsum

theorem SomeFirst.counted (h : SomeFirst es) (hes : es = before ++ d :: after)
    (hdir : d.isDir = true) (hafter : 0 < d.below after) : 0 < d.below before :=
  below_pos.mpr (h d before after hes hdir (below_pos.mp hafter))

theorem SomeFirst.at_end (htree : IsTree es) (h : SomeFirst es) (hd : d ∈ es)
    (hdir : d.isDir = true) : (addAll es).at d = ⟨none, [d.call]⟩ := by
  obtain ⟨before, after, hes⟩ := List.append_of_mem hd
  have hkept := (htree.placed hes hdir).kept (h.counted hes hdir) List.prefix_rfl
  rw [if_pos rfl, ← hes] at hkept
  rw [((at_addAll htree fun _ he => he).2 d hd hdir), hkept]

theorem SomeFirst.late (htree : IsTree es) (h : SomeFirst es) (hd : d ∈ es)
    (hdir : d.isDir = true) {part : List FolderEntry} (hpart : part <+: es)
    (hcall : d.call ∈ (addAll part).fileTimes) : d ∈ part ∧ ∀ e ∈ es, d.Below e → e ∈ part := by
  have hat := (at_addAll htree fun _ he => hpart.subset he).2 d hd hdir
  have hcalls : ((addAll part).at d).calls ≠ [] :=
    List.ne_nil_of_mem (List.mem_filter.mpr ⟨hcall, decide_eq_true rfl⟩)
  rw [hat] at hcalls
  by_cases hmem : d ∈ part
  · refine ⟨hmem, ?_⟩
    obtain ⟨rest, hrest⟩ := hpart
    obtain ⟨before, l, rfl⟩ := List.append_of_mem hmem
    have hes : es = before ++ d :: (l ++ rest) := by
      rw [← hrest, List.append_assoc, List.cons_append]
    have hkept := (htree.placed hes hdir).kept (h.counted hes hdir) (List.prefix_append l rest)
    rw [hkept, below_append] at hcalls
    have hnone : d.below rest = 0 := by
      by_contra hsome
      rw [if_neg (by omega)] at hcalls
      exact hcalls rfl
    intro e he hbelow
    rw [← hrest] at he
    rcases List.mem_append.mp he with he | he
    · exact he
    · have hpos := below_pos.mpr ⟨e, he, hbelow⟩
      omega
  · have hother : ∀ e ∈ part, e.names ≠ d.names := fun e he heq =>
      hmem (htree.eq_of_names (hpart.subset he) hd heq ▸ he)
    rw [foldl_new hother] at hcalls
    exact absurd rfl hcalls

/-- The times of all directories of a tree are set right exactly if for each of them some entry below
it comes in front of its own, unless nothing is below it. -/
theorem restored_iff (es : List FolderEntry) (htree : IsTree es) : Restored es ↔ SomeFirst es := by
  obtain ⟨hkept, hat⟩ := @at_addAll es htree es fun _ he => he
  constructor
  · intro h d before after hes hdir hafter
    by_contra hnone
    have hd : d ∈ es := hes ▸ List.mem_append_right before List.mem_cons_self
    have hbefore : d.below before = 0 := by
      by_contra hpos
      exact hnone (below_pos.mp (Nat.pos_of_ne_zero hpos))
    have hpos := below_pos.mpr hafter
    have hlost := (htree.placed hes hdir).forgotten hbefore hpos List.prefix_rfl
    rw [if_neg hpos.ne', ← hes, ← hat d hd hdir] at hlost
    have hitem := congrArg At.item hlost
    simp only [FolderState.at, h.done] at hitem
    cases hitem
  · intro h
    refine ⟨?_, ?_, ?_⟩
    · exact fun d hd hdir => congrArg At.calls (h.at_end htree hd hdir)
    · exact fun d hd hdir part hpart hcall => h.late htree hd hdir hpart hcall
    · by_contra hsome
      obtain ⟨item, hitem⟩ := List.exists_mem_of_ne_nil _ hsome
      obtain ⟨d, hd, hdir, hpath, -⟩ := hkept.dirs item hitem
      have hnone := congrArg At.item (h.at_end htree hd hdir)
      exact List.find?_eq_none.mp hnone item hitem (decide_eq_true hpath.symm)

end Orders

/-! ### A directory with one file -/

def dirEntry : FolderEntry where
  names := [[97]]
  osPath := [97]
  isDir := true
  times := ⟨1, 2, 3⟩
  folderItems := 1
  named := by decide

def fileEntry : FolderEntry where
  names := [[97], [98]]
  osPath := [97, 47, 98]
  isDir := false
  times := ⟨4, 5, 6⟩
  folderItems := 0
  named := by decide

theorem restored_file_first :
    IsTree [fileEntry, dirEntry] ∧ (Restored [fileEntry, dirEntry] ↔ SomeFirst [fileEntry, dirEntry]) :=
  ⟨⟨by decide, by decide, by decide, by decide⟩,
    restored_iff _ ⟨by decide, by decide, by decide, by decide⟩⟩

/-- The entry of the directory comes first and is forgotten. -/
theorem dir_first_not_restored : IsTree [dirEntry, fileEntry] ∧ ¬ Restored [dirEntry, fileEntry] ∧
    (addAll [dirEntry, fileEntry]).fileTimes = [] ∧
      (addAll [dirEntry, fileEntry]).savedFolderItems ≠ [] := by
  have hsaved : (addAll [dirEntry, fileEntry]).savedFolderItems ≠ [] := by decide
  exact ⟨⟨by decide, by decide, by decide, by decide⟩, fun h => hsaved h.done, by decide, hsaved⟩

end FolderTimes

end UrBackup
