import UrBackup.Files.FilesDao
import Mathlib.Algebra.Order.Field.Rat
import Mathlib.Tactic.Linarith

/-! Inserting into and deleting from the chains of the `files` table. A rank that grows
along the newer links shows that no chain ever closes to a ring. -/
namespace UrBackup.FilesTable

/-- No chain of newer links returns to its start. -/
def Ranked (t : FilesTable) : Prop :=
  ∃ rank : Int → ℚ, ∀ a ea, t.find? a = some ea → ea.nextEntry ≠ 0 → rank a < rank ea.nextEntry

/-- Row ids are positive, and the links are mutual and without rings. -/
structure Chained (t : FilesTable) : Prop where
  positive : ∀ id e, t.find? id = some e → 0 < id
  linked : WellLinked t
  ranked : Ranked t

/-- An entry that can be inserted: in front of all others, or behind its older neighbour. -/
structure Fits (t : FilesTable) (e : FileEntry) : Prop where
  first : e.prevEntry = 0 → e.nextEntry = 0
  behind : e.prevEntry ≠ 0 →
    ∃ ep, t.find? e.prevEntry = some ep ∧ ep.key = e.key ∧ ep.nextEntry = e.nextEntry

theorem lt_nextRowId {t : FilesTable} {id : Int} {e : FileEntry} (h : t.find? id = some e) :
    id < t.nextRowId := by
  have hmem := OrderedMap.find?_eq_some_iff.mp h
  unfold nextRowId
  cases hlast : t.entries.getLast? with
  | none =>
    rw [List.getLast?_eq_none_iff.mp hlast] at hmem
    cases hmem
  | some last =>
    obtain ⟨front, hfront⟩ := List.getLast?_eq_some_iff.mp hlast
    have hsorted := t.sorted
    rw [hfront] at hmem hsorted
    simp only
    rcases List.mem_append.mp hmem with hm | hm
    · have hlt := (List.pairwise_append.mp hsorted).2.2 _ hm last (by simp)
      simp only at hlt
      omega
    · rw [← List.mem_singleton.mp hm]
      simp only
      omega

theorem find?_nextRowId (t : FilesTable) : t.find? t.nextRowId = none := by
  rw [Option.eq_none_iff_forall_ne_some]
  intro e he
  exact lt_irrefl _ (lt_nextRowId he)

theorem nextRowId_pos {t : FilesTable} (h : ∀ id e, t.find? id = some e → 0 < id) :
    0 < t.nextRowId := by
  cases hlast : t.entries.getLast? with
  | none =>
    unfold nextRowId
    rw [hlast]
    exact Int.one_pos
  | some last =>
    have hfind : t.find? last.1 = some last.2 :=
      OrderedMap.find?_eq_some_iff.mpr (List.mem_of_getLast? hlast)
    exact (h _ _ hfind).trans (lt_nextRowId hfind)

theorem find?_setNextEntryIf {t : FilesTable} (hzero : t.find? 0 = none) (nextEntry id a : Int) :
    (if id ≠ 0 then setNextEntry t nextEntry id else t).find? a =
      (t.find? a).map fun e => { e with nextEntry := if a = id then nextEntry else e.nextEntry } := by
  unfold setNextEntry
  rw [find?_updateIf]
  by_cases ha : id = a
  · rw [if_pos ha]
    subst ha
    cases hfind : t.find? id with
    | none => rfl
    | some e =>
      have hne : id ≠ 0 := fun h => by rw [h, hzero] at hfind; cases hfind
      simp only [Option.map_some, hne, ne_eq, not_false_eq_true, if_true]
  · rw [if_neg ha]
    simp only [if_neg (Ne.symm ha), Option.map_id']

theorem find?_setPrevEntryIf {t : FilesTable} (hzero : t.find? 0 = none) (prevEntry id a : Int) :
    (if id ≠ 0 then setPrevEntry t prevEntry id else t).find? a =
      (t.find? a).map fun e => { e with prevEntry := if a = id then prevEntry else e.prevEntry } := by
  unfold setPrevEntry
  rw [find?_updateIf]
  by_cases ha : id = a
  · rw [if_pos ha]
    subst ha
    cases hfind : t.find? id with
    | none => rfl
    | some e =>
      have hne : id ≠ 0 := fun h => by rw [h, hzero] at hfind; cases hfind
      simp only [Option.map_some, hne, ne_eq, not_false_eq_true, if_true]
  · rw [if_neg ha]
    simp only [if_neg (Ne.symm ha), Option.map_id']

/-- The links of row `a` once the row `older` leads to `next` and the row `newer` back to `prev`. -/
def patch (older next newer prev a : Int) (e : FileEntry) : FileEntry :=
  { e with
    nextEntry := if a = older then next else e.nextEntry
    prevEntry := if a = newer then prev else e.prevEntry }

@[simp] theorem patch_key (older next newer prev a : Int) (e : FileEntry) :
    (patch older next newer prev a e).key = e.key := rfl

theorem find?_addFileEntryExternal {t : FilesTable} (h : Chained t) {e : FileEntry}
    (hfits : Fits t e) (a : Int) :
    (addFileEntryExternal t e).1.find? a =
      if a = t.nextRowId then some e
      else (t.find? a).map (patch e.prevEntry t.nextRowId e.nextEntry t.nextRowId a) := by
  have hpos := nextRowId_pos h.positive
  have hprev : e.prevEntry ≠ t.nextRowId := by
    intro hen
    obtain ⟨ep, hep, -⟩ := hfits.behind (by omega)
    rw [hen, find?_nextRowId] at hep
    cases hep
  have hnext : e.nextEntry ≠ t.nextRowId := by
    intro hen
    have hp : e.prevEntry ≠ 0 := fun hp => by have := hfits.first hp; omega
    obtain ⟨ep, hep, -, hback⟩ := hfits.behind hp
    obtain ⟨eb, hb, -⟩ := h.linked.next _ _ hep (by omega)
    rw [hback, hen, find?_nextRowId] at hb
    cases hb
  have hzero : (t.insert t.nextRowId e).find? 0 = none := by
    rw [OrderedMap.find?_insert, if_neg hpos.ne', h.linked.noZero]
  simp only [addFileEntryExternal]
  rw [find?_setPrevEntryIf, find?_setNextEntryIf hzero, OrderedMap.find?_insert, Option.map_map]
  · by_cases ha : a = t.nextRowId
    · rw [if_pos ha, if_pos ha.symm, ha]
      simp only [Option.map_some, Function.comp_apply, if_neg hprev.symm, if_neg hnext.symm]
    · rw [if_neg ha, if_neg (Ne.symm ha)]
      rfl
  · rw [find?_setNextEntryIf hzero, hzero]
    rfl

section Insert

variable {t : FilesTable} {e : FileEntry}

theorem Fits.newer (h : Chained t) (hfits : Fits t e) (hne : e.nextEntry ≠ 0) :
    e.prevEntry ≠ 0 ∧ ∃ en, t.find? e.nextEntry = some en ∧ en.key = e.key ∧
      en.prevEntry = e.prevEntry := by
  have hp : e.prevEntry ≠ 0 := fun hp => hne (hfits.first hp)
  obtain ⟨ep, hep, hkey, hback⟩ := hfits.behind hp
  obtain ⟨en, hen, hkey', hprev⟩ := h.linked.next _ _ hep (by rw [hback]; exact hne)
  rw [hback] at hen
  exact ⟨hp, en, hen, hkey'.trans hkey, hprev⟩

theorem ne_nextRowId {a : Int} {ea : FileEntry} (ha : t.find? a = some ea) : a ≠ t.nextRowId :=
  (lt_nextRowId ha).ne

theorem Chained.ne_zero (h : Chained t) {a : Int} {ea : FileEntry} (ha : t.find? a = some ea) :
    a ≠ 0 := (h.positive a ea ha).ne'

theorem wellLinked_add (h : Chained t) (hfits : Fits t e) :
    WellLinked (addFileEntryExternal t e).1 := by
  have hfind := find?_addFileEntryExternal h hfits
  have hnew : (addFileEntryExternal t e).1.find? t.nextRowId = some e := by
    rw [hfind, if_pos rfl]
  have hold : ∀ a ea, t.find? a = some ea → (addFileEntryExternal t e).1.find? a =
      some (patch e.prevEntry t.nextRowId e.nextEntry t.nextRowId a ea) := by
    intro a ea ha
    rw [hfind, if_neg (ne_nextRowId ha), ha]
    rfl
  refine ⟨?_, ?_, ?_⟩
  · rw [hfind, if_neg (nextRowId_pos h.positive).ne, h.linked.noZero]
    rfl
  · intro a ea' ha' hne
    by_cases ha : a = t.nextRowId
    · rw [ha, hnew, Option.some.injEq] at ha'
      rw [← ha'] at hne ⊢
      obtain ⟨-, en, hen, hkey, -⟩ := hfits.newer h hne
      refine ⟨_, hold _ _ hen, hkey, ?_⟩
      rw [ha]
      exact if_pos rfl
    · rw [hfind, if_neg ha] at ha'
      obtain ⟨ea, hea, rfl⟩ := Option.map_eq_some_iff.mp ha'
      by_cases hp : a = e.prevEntry
      · obtain ⟨ep, hep, hkey, -⟩ := hfits.behind (hp ▸ h.ne_zero hea)
        rw [← hp, hea, Option.some.injEq] at hep
        have hnext : (patch e.prevEntry t.nextRowId e.nextEntry t.nextRowId a ea).nextEntry =
            t.nextRowId := if_pos hp
        rw [hnext]
        exact ⟨e, hnew, by rw [patch_key, hep, hkey], hp.symm⟩
      · have hnext : (patch e.prevEntry t.nextRowId e.nextEntry t.nextRowId a ea).nextEntry =
            ea.nextEntry := if_neg hp
        rw [hnext] at hne ⊢
        obtain ⟨eb, hb, hkey, hback⟩ := h.linked.next a ea hea hne
        refine ⟨_, hold _ _ hb, hkey, ?_⟩
        have hq : ea.nextEntry ≠ e.nextEntry := by
          intro hq
          obtain ⟨-, en, hen, -, hprev⟩ := hfits.newer h (hq ▸ hne)
          rw [← hq, hb, Option.some.injEq] at hen
          exact hp (hback.symm.trans (hen ▸ hprev))
        exact (if_neg hq).trans hback
  · intro b eb' hb' hne
    by_cases hb : b = t.nextRowId
    · rw [hb, hnew, Option.some.injEq] at hb'
      rw [← hb'] at hne ⊢
      obtain ⟨ep, hep, hkey, -⟩ := hfits.behind hne
      refine ⟨_, hold _ _ hep, hkey, ?_⟩
      rw [hb]
      exact if_pos rfl
    · rw [hfind, if_neg hb] at hb'
      obtain ⟨eb, heb, rfl⟩ := Option.map_eq_some_iff.mp hb'
      by_cases hq : b = e.nextEntry
      · obtain ⟨-, en, hen, hkey, -⟩ := hfits.newer h (hq ▸ h.ne_zero heb)
        rw [← hq, heb, Option.some.injEq] at hen
        have hprev : (patch e.prevEntry t.nextRowId e.nextEntry t.nextRowId b eb).prevEntry =
            t.nextRowId := if_pos hq
        rw [hprev]
        exact ⟨e, hnew, by rw [patch_key, hen, hkey], hq.symm⟩
      · have hprev : (patch e.prevEntry t.nextRowId e.nextEntry t.nextRowId b eb).prevEntry =
            eb.prevEntry := if_neg hq
        rw [hprev] at hne ⊢
        obtain ⟨ea, ha, hkey, hback⟩ := h.linked.prev b eb heb hne
        refine ⟨_, hold _ _ ha, hkey, ?_⟩
        have hp : eb.prevEntry ≠ e.prevEntry := by
          intro hp
          obtain ⟨ep, hep, -, hnext⟩ := hfits.behind (hp ▸ hne)
          rw [← hp, ha, Option.some.injEq] at hep
          exact hq (hback.symm.trans (hep ▸ hnext))
        exact (if_neg hp).trans hback

theorem ranked_add (h : Chained t) (hfits : Fits t e) : Ranked (addFileEntryExternal t e).1 := by
  obtain ⟨rank, hrank⟩ := h.ranked
  refine ⟨fun a => if a = t.nextRowId then
    (if e.nextEntry = 0 then rank e.prevEntry + 1
      else (rank e.prevEntry + rank e.nextEntry) / 2) else rank a, ?_⟩
  intro a ea' ha' hne
  rw [find?_addFileEntryExternal h hfits] at ha'
  by_cases ha : a = t.nextRowId
  · rw [if_pos ha, Option.some.injEq] at ha'
    rw [← ha'] at hne ⊢
    obtain ⟨hp, en, hen, -, -⟩ := hfits.newer h hne
    obtain ⟨ep, hep, -, hnext⟩ := hfits.behind hp
    have hlt := hrank _ _ hep (by rw [hnext]; exact hne)
    rw [hnext] at hlt
    simp only [if_pos ha, if_neg hne, if_neg (ne_nextRowId hen)]
    linarith
  · rw [if_neg ha] at ha'
    obtain ⟨ea, hea, rfl⟩ := Option.map_eq_some_iff.mp ha'
    by_cases hp : a = e.prevEntry
    · have hnext : (patch e.prevEntry t.nextRowId e.nextEntry t.nextRowId a ea).nextEntry =
          t.nextRowId := if_pos hp
      rw [hnext]
      simp only [if_neg ha, if_true]
      by_cases hq : e.nextEntry = 0
      · rw [if_pos hq, hp]
        linarith
      · obtain ⟨ep, hep, -, hback⟩ := hfits.behind (hp ▸ h.ne_zero hea)
        have hlt := hrank _ _ hep (by rw [hback]; exact hq)
        rw [hback] at hlt
        rw [if_neg hq, hp]
        linarith
    · have hnext : (patch e.prevEntry t.nextRowId e.nextEntry t.nextRowId a ea).nextEntry =
          ea.nextEntry := if_neg hp
      rw [hnext] at hne ⊢
      obtain ⟨eb, hb, -, -⟩ := h.linked.next a ea hea hne
      simp only [if_neg ha, if_neg (ne_nextRowId hb)]
      exact hrank a ea hea hne

theorem chained_add (h : Chained t) (hfits : Fits t e) :
    Chained (addFileEntryExternal t e).1 := by
  refine ⟨?_, wellLinked_add h hfits, ranked_add h hfits⟩
  intro a ea ha
  rw [find?_addFileEntryExternal h hfits] at ha
  by_cases hn : a = t.nextRowId
  · rw [hn]
    exact nextRowId_pos h.positive
  · rw [if_neg hn] at ha
    obtain ⟨ea₀, ha₀, -⟩ := Option.map_eq_some_iff.mp ha
    exact h.positive a ea₀ ha₀

end Insert

section Delete

variable {t : FilesTable} {e : FileEntry} {id : Int}

def unlink (t : FilesTable) (e : FileEntry) : FilesTable :=
  let t := if e.nextEntry ≠ 0 then setPrevEntry t e.prevEntry e.nextEntry else t
  if e.prevEntry ≠ 0 then setNextEntry t e.nextEntry e.prevEntry else t

theorem find?_unlink (hzero : t.find? 0 = none) (e : FileEntry) (a : Int) :
    (unlink t e).find? a =
      (t.find? a).map (patch e.prevEntry e.nextEntry e.nextEntry e.prevEntry a) := by
  unfold unlink
  rw [find?_setNextEntryIf, find?_setPrevEntryIf hzero, Option.map_map]
  · rfl
  · rw [find?_setPrevEntryIf hzero, hzero]
    rfl

theorem find?_delete (hzero : t.find? 0 = none) (e : FileEntry) (id a : Int) :
    (delFileEntry (unlink t e) id).find? a =
      if a = id then none
      else (t.find? a).map (patch e.prevEntry e.nextEntry e.nextEntry e.prevEntry a) := by
  unfold delFileEntry
  rw [OrderedMap.find?_erase, find?_unlink hzero]
  by_cases ha : a = id
  · rw [if_pos ha, if_pos ha.symm]
  · rw [if_neg ha, if_neg (Ne.symm ha)]

section

variable (h : Chained t) (hid : t.find? id = some e)

include h hid

theorem Chained.next_ne_self : e.nextEntry ≠ id := by
  intro hself
  obtain ⟨rank, hrank⟩ := h.ranked
  have hlt := hrank id e hid (by rw [hself]; exact h.ne_zero hid)
  rw [hself] at hlt
  exact lt_irrefl _ hlt

theorem Chained.prev_ne_self : e.prevEntry ≠ id := by
  intro hself
  obtain ⟨ea, ha, -, hback⟩ := h.linked.prev id e hid (by rw [hself]; exact h.ne_zero hid)
  rw [hself, hid, Option.some.injEq] at ha
  rw [← ha] at hback
  exact h.next_ne_self hid hback

theorem wellLinked_delete : WellLinked (delFileEntry (unlink t e) id) := by
  have hfind := find?_delete h.linked.noZero e id
  have hold : ∀ a ea, t.find? a = some ea → a ≠ id → (delFileEntry (unlink t e) id).find? a =
      some (patch e.prevEntry e.nextEntry e.nextEntry e.prevEntry a ea) := by
    intro a ea ha hne
    rw [hfind, if_neg hne, ha]
    rfl
  refine ⟨?_, ?_, ?_⟩
  · rw [hfind, h.linked.noZero]
    exact ite_self none
  · intro a ea' ha' hne
    rw [hfind] at ha'
    split at ha'
    · cases ha'
    rename_i haid
    obtain ⟨ea, hea, rfl⟩ := Option.map_eq_some_iff.mp ha'
    by_cases hp : a = e.prevEntry
    · have hnext : (patch e.prevEntry e.nextEntry e.nextEntry e.prevEntry a ea).nextEntry =
          e.nextEntry := if_pos hp
      rw [hnext] at hne ⊢
      obtain ⟨en, hen, hkey, -⟩ := h.linked.next id e hid hne
      obtain ⟨ep, hep, hkey', -⟩ := h.linked.prev id e hid (hp ▸ h.ne_zero hea)
      rw [← hp, hea, Option.some.injEq] at hep
      refine ⟨_, hold _ _ hen (h.next_ne_self hid), ?_, (if_pos rfl).trans hp.symm⟩
      rw [patch_key, patch_key, hkey, hep, hkey']
    · have hnext : (patch e.prevEntry e.nextEntry e.nextEntry e.prevEntry a ea).nextEntry =
          ea.nextEntry := if_neg hp
      rw [hnext] at hne ⊢
      obtain ⟨eb, hb, hkey, hback⟩ := h.linked.next a ea hea hne
      have hne' : ea.nextEntry ≠ id := by
        intro hself
        rw [hself, hid, Option.some.injEq] at hb
        exact hp (hback.symm.trans (congrArg FileEntry.prevEntry hb.symm))
      refine ⟨_, hold _ _ hb hne', hkey, ?_⟩
      have hq : ea.nextEntry ≠ e.nextEntry := by
        intro hq
        obtain ⟨en, hen, -, hprev⟩ := h.linked.next id e hid (hq ▸ hne)
        rw [← hq, hb, Option.some.injEq] at hen
        rw [← hen, hback] at hprev
        exact haid hprev
      exact (if_neg hq).trans hback
  · intro b eb' hb' hne
    rw [hfind] at hb'
    split at hb'
    · cases hb'
    rename_i hbid
    obtain ⟨eb, heb, rfl⟩ := Option.map_eq_some_iff.mp hb'
    by_cases hq : b = e.nextEntry
    · have hprev : (patch e.prevEntry e.nextEntry e.nextEntry e.prevEntry b eb).prevEntry =
          e.prevEntry := if_pos hq
      rw [hprev] at hne ⊢
      obtain ⟨ep, hep, hkey, -⟩ := h.linked.prev id e hid hne
      obtain ⟨en, hen, hkey', -⟩ := h.linked.next id e hid (hq ▸ h.ne_zero heb)
      rw [← hq, heb, Option.some.injEq] at hen
      refine ⟨_, hold _ _ hep (h.prev_ne_self hid), ?_, (if_pos rfl).trans hq.symm⟩
      rw [patch_key, patch_key, hkey, hen, hkey']
    · have hprev : (patch e.prevEntry e.nextEntry e.nextEntry e.prevEntry b eb).prevEntry =
          eb.prevEntry := if_neg hq
      rw [hprev] at hne ⊢
      obtain ⟨ea, ha, hkey, hback⟩ := h.linked.prev b eb heb hne
      have hne' : eb.prevEntry ≠ id := by
        intro hself
        rw [hself, hid, Option.some.injEq] at ha
        exact hq (hback.symm.trans (congrArg FileEntry.nextEntry ha.symm))
      refine ⟨_, hold _ _ ha hne', hkey, ?_⟩
      have hp : eb.prevEntry ≠ e.prevEntry := by
        intro hp
        obtain ⟨ep, hep, -, hnext⟩ := h.linked.prev id e hid (hp ▸ hne)
        rw [← hp, ha, Option.some.injEq] at hep
        rw [← hep, hback] at hnext
        exact hbid hnext
      exact (if_neg hp).trans hback

theorem ranked_delete : Ranked (delFileEntry (unlink t e) id) := by
  obtain ⟨rank, hrank⟩ := h.ranked
  refine ⟨rank, ?_⟩
  intro a ea' ha' hne
  rw [find?_delete h.linked.noZero] at ha'
  split at ha'
  · cases ha'
  obtain ⟨ea, hea, rfl⟩ := Option.map_eq_some_iff.mp ha'
  by_cases hp : a = e.prevEntry
  · have hnext : (patch e.prevEntry e.nextEntry e.nextEntry e.prevEntry a ea).nextEntry =
        e.nextEntry := if_pos hp
    rw [hnext] at hne ⊢
    obtain ⟨ep, hep, -, hback⟩ := h.linked.prev id e hid (hp ▸ h.ne_zero hea)
    have hlow := hrank _ _ hep (by rw [hback]; exact h.ne_zero hid)
    rw [hback] at hlow
    rw [hp]
    exact hlow.trans (hrank id e hid hne)
  · have hnext : (patch e.prevEntry e.nextEntry e.nextEntry e.prevEntry a ea).nextEntry =
        ea.nextEntry := if_neg hp
    rw [hnext] at hne ⊢
    exact hrank a ea hea hne

theorem chained_delete : Chained (delFileEntry (unlink t e) id) := by
  refine ⟨?_, wellLinked_delete h hid, ranked_delete h hid⟩
  intro a ea ha
  rw [find?_delete h.linked.noZero] at ha
  split at ha
  · cases ha
  · obtain ⟨ea₀, ha₀, -⟩ := Option.map_eq_some_iff.mp ha
    exact h.positive a ea₀ ha₀

end

end Delete

section PointedTo

variable {t : FilesTable}

def mark (pointedTo : Bool) (id a : Int) (e : FileEntry) : FileEntry :=
  { e with pointedTo := if id = a then pointedTo else e.pointedTo }

theorem find?_mark (t : FilesTable) (pointedTo : Bool) (id a : Int) :
    (setPointedTo t pointedTo id).find? a = (t.find? a).map (mark pointedTo id a) := by
  rw [find?_setPointedTo]
  by_cases ha : id = a
  · rw [if_pos ha]
    congr 1
    funext e
    simp only [mark, if_pos ha]
  · rw [if_neg ha]
    have hsame : mark pointedTo id a = fun e => e := by
      funext e
      simp only [mark, if_neg ha]
    rw [hsame, Option.map_id']

theorem chained_setPointedTo (h : Chained t) (pointedTo : Bool) (id : Int) :
    Chained (setPointedTo t pointedTo id) := by
  have hfind := find?_mark t pointedTo id
  have hold : ∀ a ea, t.find? a = some ea → (setPointedTo t pointedTo id).find? a =
      some (mark pointedTo id a ea) := by
    intro a ea ha
    rw [hfind, ha]
    rfl
  refine ⟨?_, ⟨?_, ?_, ?_⟩, ?_⟩
  · intro a ea ha
    rw [hfind] at ha
    obtain ⟨ea₀, ha₀, -⟩ := Option.map_eq_some_iff.mp ha
    exact h.positive a ea₀ ha₀
  · rw [hfind, h.linked.noZero]
    rfl
  · intro a ea ha hne
    rw [hfind] at ha
    obtain ⟨ea₀, ha₀, rfl⟩ := Option.map_eq_some_iff.mp ha
    obtain ⟨eb, hb, hkey, hback⟩ := h.linked.next a ea₀ ha₀ hne
    exact ⟨_, hold _ _ hb, hkey, hback⟩
  · intro b eb hb hne
    rw [hfind] at hb
    obtain ⟨eb₀, hb₀, rfl⟩ := Option.map_eq_some_iff.mp hb
    obtain ⟨ea, ha, hkey, hback⟩ := h.linked.prev b eb₀ hb₀ hne
    exact ⟨_, hold _ _ ha, hkey, hback⟩
  · obtain ⟨rank, hrank⟩ := h.ranked
    refine ⟨rank, ?_⟩
    intro a ea ha hne
    rw [hfind] at ha
    obtain ⟨ea₀, ha₀, rfl⟩ := Option.map_eq_some_iff.mp ha
    exact hrank a ea₀ ha₀ hne

end PointedTo

end UrBackup.FilesTable
