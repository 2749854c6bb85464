import UrBackup.FileIndex.Lookup

/-! The lookup that prefers one client. A layer answers with the entry of the least
client from the wanted one on, or, one step back from a later key, with the greatest
client in front of it; the first layer that answers decides. -/
namespace UrBackup.FileIndex

open SIndexKey

/-- The entry a layer answers with, from the order of its keys alone. -/
structure Answers (key : SIndexKey) (m : OrderedMap SIndexKey Int) (e : SIndexKey × Int) :
    Prop where
  mem : e ∈ m.entries
  sameFile : e.1.isEqualWithoutClientid key = true
  nearest : ∀ e' ∈ m.entries, e'.1.isEqualWithoutClientid key = true →
    if key.clientid ≤ e.1.clientid then key.clientid ≤ e'.1.clientid → e.1.clientid ≤ e'.1.clientid
    else e'.1.clientid ≤ e.1.clientid
  reached : key.clientid ≤ e.1.clientid ∨ ∃ e' ∈ m.entries, key ≤ e'.1

theorem eq_of_clientid_eq {m : OrderedMap SIndexKey Int} {key : SIndexKey} {e e' : SIndexKey × Int}
    (he : e ∈ m.entries) (he' : e' ∈ m.entries) (hf : e.1.isEqualWithoutClientid key = true)
    (hf' : e'.1.isEqualWithoutClientid key = true) (hc : e.1.clientid = e'.1.clientid) :
    e = e' := by
  have hkey : e.1 = e'.1 := by rw [eq_withClient hf, eq_withClient hf', hc]
  have hfind : m.find? e.1 = some e.2 := OrderedMap.find?_eq_some_iff.mpr he
  have hfind' : m.find? e'.1 = some e'.2 := OrderedMap.find?_eq_some_iff.mpr he'
  rw [hkey, hfind'] at hfind
  exact Prod.ext hkey (Option.some.inj hfind).symm

theorem Answers.unique {key : SIndexKey} {m : OrderedMap SIndexKey Int} {e e' : SIndexKey × Int}
    (h : Answers key m e) (h' : Answers key m e') : e = e' := by
  apply eq_of_clientid_eq h.mem h'.mem h.sameFile h'.sameFile
  have hn := h.nearest e' h'.mem h'.sameFile
  have hn' := h'.nearest e h.mem h.sameFile
  by_cases hc : key.clientid ≤ e.1.clientid
  · by_cases hc' : key.clientid ≤ e'.1.clientid
    · rw [if_pos hc] at hn
      rw [if_pos hc'] at hn'
      exact le_antisymm (hn hc') (hn' hc)
    · rw [if_neg hc'] at hn'
      exact absurd (hc.trans hn') hc'
  · by_cases hc' : key.clientid ≤ e'.1.clientid
    · rw [if_neg hc] at hn
      exact absurd (hc'.trans hn) hc
    · rw [if_neg hc] at hn
      rw [if_neg hc'] at hn'
      exact le_antisymm hn' hn

theorem answers_lowerBound {key startKey : SIndexKey} {value : Int} {m : OrderedMap SIndexKey Int}
    {rest : List (SIndexKey × Int)} (hlb : m.lowerBound key = (startKey, value) :: rest)
    (hf : startKey.isEqualWithoutClientid key = true) : Answers key m (startKey, value) := by
  have hmem : (startKey, value) ∈ m.lowerBound key := by rw [hlb]; exact List.mem_cons_self
  have hle : key ≤ startKey := OrderedMap.le_of_mem_lowerBound hmem
  have hf' := hf
  rw [isEqualWithoutClientid_comm] at hf'
  have hclient : key.clientid ≤ startKey.clientid := (le_iff_clientid_le hf').mp hle
  refine ⟨OrderedMap.mem_entries_of_mem_lowerBound hmem, hf, ?_, .inl hclient⟩
  intro e' he' hsame
  rw [if_pos hclient]
  intro hc
  have hsame' := hsame
  rw [isEqualWithoutClientid_comm] at hsame'
  have hhead := OrderedMap.head_lowerBound_le hlb he' ((le_iff_clientid_le hsame').mpr hc)
  refine (le_iff_clientid_le ?_).mp hhead
  rw [isEqualWithoutClientid_iff] at hf hsame ⊢
  exact ⟨hf.1.trans hsame.1.symm, hf.2.trans hsame.2.symm⟩

theorem answers_before {key startKey prevKey : SIndexKey} {value prevValue : Int}
    {m : OrderedMap SIndexKey Int} {rest : List (SIndexKey × Int)}
    (hlb : m.lowerBound key = (startKey, value) :: rest)
    (hf : ¬ startKey.isEqualWithoutClientid key = true)
    (hlast : (m.before key).getLast? = some (prevKey, prevValue))
    (hfp : prevKey.isEqualWithoutClientid key = true) : Answers key m (prevKey, prevValue) := by
  have hmem : (startKey, value) ∈ m.lowerBound key := by rw [hlb]; exact List.mem_cons_self
  have hmemp : (prevKey, prevValue) ∈ m.before key := List.mem_of_getLast? hlast
  have hlt : ¬ key.clientid ≤ prevKey.clientid :=
    not_le.mpr ((lt_iff_clientid_lt hfp).mp (OrderedMap.lt_of_mem_before hmemp))
  refine ⟨OrderedMap.mem_entries_of_mem_before hmemp, hfp, ?_,
    .inr ⟨_, OrderedMap.mem_entries_of_mem_lowerBound hmem, OrderedMap.le_of_mem_lowerBound hmem⟩⟩
  intro e' he' hsame
  rw [if_neg hlt]
  have hsmall : e'.1 < key := by
    by_contra hge
    have hhead := OrderedMap.head_lowerBound_le hlb he' (not_lt.mp hge)
    have hle : key ≤ startKey := OrderedMap.le_of_mem_lowerBound hmem
    have hkey : key.isEqualWithoutClientid e'.1 = true := by
      rw [isEqualWithoutClientid_comm]
      exact hsame
    have hstart := isEqualWithoutClientid_of_le_of_le hkey hle hhead
    rw [isEqualWithoutClientid_iff] at hstart hsame
    exact hf (isEqualWithoutClientid_iff.mpr
      ⟨hstart.1.trans hsame.1, hstart.2.trans hsame.2⟩)
  refine (le_iff_clientid_le ?_).mp (OrderedMap.le_getLast_before hlast he' hsmall)
  rw [isEqualWithoutClientid_iff] at hfp hsame ⊢
  exact ⟨hsame.1.trans hfp.1.symm, hsame.2.trans hfp.2.symm⟩

theorem answers_of_getFromCachePreferClient {key : SIndexKey} {m : CacheBuffer} {v : Int}
    (h : getFromCachePreferClient key m = some v) : ∃ e, Answers key m e ∧ e.2 = v := by
  unfold getFromCachePreferClient at h
  cases hlb : m.lowerBound key with
  | nil =>
    rw [hlb] at h
    cases h
  | cons e rest =>
    rw [hlb] at h
    simp only at h
    split at h
    · rename_i hf
      cases h
      exact ⟨_, answers_lowerBound hlb hf, rfl⟩
    · rename_i hf
      cases hlast : (m.before key).getLast? with
      | none =>
        rw [hlast] at h
        cases h
      | some prev =>
        rw [hlast] at h
        simp only at h
        split at h
        · rename_i hfp
          cases h
          exact ⟨_, answers_before hlb hf hlast hfp, rfl⟩
        · cases h

theorem getFromCachePreferClient_ne_none {key : SIndexKey} {m : CacheBuffer} {e : SIndexKey × Int}
    (h : Answers key m e) : getFromCachePreferClient key m ≠ none := by
  have hkey : key.isEqualWithoutClientid e.1 = true := by
    rw [isEqualWithoutClientid_comm]
    exact h.sameFile
  unfold getFromCachePreferClient
  cases hlb : m.lowerBound key with
  | nil =>
    have hbound : ∃ e' ∈ m.entries, key ≤ e'.1 := by
      rcases h.reached with hc | hlater
      · exact ⟨e, h.mem, (le_iff_clientid_le hkey).mpr hc⟩
      · exact hlater
    obtain ⟨e', he', hle⟩ := hbound
    have hmem := OrderedMap.mem_lowerBound_iff.mpr ⟨he', hle⟩
    rw [hlb] at hmem
    cases hmem
  | cons start rest =>
    have hmem : start ∈ m.lowerBound key := by rw [hlb]; exact List.mem_cons_self
    simp only
    split
    · intro hnone
      cases hnone
    · rename_i hf
      have hlt : e.1 < key := by
        by_contra hge
        have hhead := OrderedMap.head_lowerBound_le hlb h.mem (not_lt.mp hge)
        have hstart := isEqualWithoutClientid_of_le_of_le hkey
          (OrderedMap.le_of_mem_lowerBound hmem) hhead
        have hsame := h.sameFile
        rw [isEqualWithoutClientid_iff] at hstart hsame
        exact hf (isEqualWithoutClientid_iff.mpr
          ⟨hstart.1.trans hsame.1, hstart.2.trans hsame.2⟩)
      have hbefore := OrderedMap.mem_before_iff.mpr ⟨h.mem, hlt⟩
      cases hlast : (m.before key).getLast? with
      | none =>
        rw [List.getLast?_eq_none_iff] at hlast
        rw [hlast] at hbefore
        cases hbefore
      | some prev =>
        have hle := OrderedMap.le_getLast_before hlast h.mem hlt
        have hprev := OrderedMap.lt_of_mem_before (List.mem_of_getLast? hlast)
        have hfp := isEqualWithoutClientid_of_le_of_le h.sameFile hle hprev.le
        simp only [hfp, if_true]
        intro hnone
        cases hnone

theorem getFromCachePreferClient_eq_some_iff {key : SIndexKey} {m : CacheBuffer} {v : Int} :
    getFromCachePreferClient key m = some v ↔ ∃ e, Answers key m e ∧ e.2 = v := by
  constructor
  · exact answers_of_getFromCachePreferClient
  · rintro ⟨e, he, rfl⟩
    obtain ⟨v, hv⟩ := Option.ne_none_iff_exists'.mp (getFromCachePreferClient_ne_none he)
    obtain ⟨e', he', rfl⟩ := answers_of_getFromCachePreferClient hv
    rw [hv, he.unique he']

theorem getPreferClient_eq (t : Table) (key : SIndexKey) :
    getPreferClient t key = (getFromCachePreferClient key t).getD 0 := by
  unfold getPreferClient Cursor.setRange getFromCachePreferClient
  cases hlb : t.lowerBound key with
  | nil => rfl
  | cons start rest =>
    simp only [preferClientLoop]
    split
    · rfl
    · simp only [Cursor.prev]
      rw [← List.head?_reverse]
      cases (t.before key).reverse with
      | nil => rfl
      | cons prev passed =>
        simp only [List.head?_cons, preferClientLoop]
        split <;> rfl

def layers (ix : FileIndex) : List (OrderedMap SIndexKey Int) :=
  [ix.activeCacheBuffer, ix.otherCacheBuffer, ix.table]

theorem layered_eq_findSome? (ix : FileIndex) (key : SIndexKey) :
    ix.layered key = ix.layers.findSome? fun m => m.find? key := by
  simp only [layered, layers, List.findSome?_cons, List.findSome?_nil]
  cases ix.activeCacheBuffer.find? key with
  | some v => rfl
  | none =>
    cases ix.otherCacheBuffer.find? key with
    | some v => rfl
    | none => cases ix.table.find? key <;> rfl

/-- The first layer that answers, behind `newer` ones that do not. -/
structure FirstAnswer (ix : FileIndex) (key : SIndexKey) (newer : List (OrderedMap SIndexKey Int))
    (e : SIndexKey × Int) : Prop where
  answers : ∃ m older, ix.layers = newer ++ m :: older ∧ Answers key m e
  silent : ∀ m ∈ newer, ∀ e', ¬ Answers key m e'

theorem getWithCachePreferClient_eq (ix : FileIndex) (key : SIndexKey) :
    ix.getWithCachePreferClient key =
      (ix.layers.findSome? (getFromCachePreferClient key)).getD 0 := by
  simp only [getWithCachePreferClient, layers, List.findSome?_cons, List.findSome?_nil,
    getPreferClient_eq]
  cases getFromCachePreferClient key ix.activeCacheBuffer with
  | some v => rfl
  | none =>
    cases getFromCachePreferClient key ix.otherCacheBuffer with
    | some v => rfl
    | none => cases getFromCachePreferClient key ix.table <;> rfl

theorem silent_iff {key : SIndexKey} {m : CacheBuffer} :
    getFromCachePreferClient key m = none ↔ ∀ e, ¬ Answers key m e := by
  constructor
  · intro h e he
    exact getFromCachePreferClient_ne_none he h
  · intro h
    rw [Option.eq_none_iff_forall_ne_some]
    intro v hv
    obtain ⟨e, he, -⟩ := answers_of_getFromCachePreferClient hv
    exact h e he

theorem FirstAnswer.value {ix : FileIndex} {key : SIndexKey}
    {newer : List (OrderedMap SIndexKey Int)} {e : SIndexKey × Int}
    (h : ix.FirstAnswer key newer e) : ix.getWithCachePreferClient key = e.2 := by
  obtain ⟨m, older, hlayers, hans⟩ := h.answers
  have hsome : ix.layers.findSome? (getFromCachePreferClient key) = some e.2 := by
    rw [List.findSome?_eq_some_iff]
    refine ⟨newer, m, older, hlayers, getFromCachePreferClient_eq_some_iff.mpr ⟨e, hans, rfl⟩, ?_⟩
    intro m' hm'
    exact silent_iff.mpr (h.silent m' hm')
  rw [getWithCachePreferClient_eq, hsome]
  rfl

theorem firstAnswer_or_zero (ix : FileIndex) (key : SIndexKey) :
    (∃ newer e, ix.FirstAnswer key newer e) ∨
      (∀ newer e, ¬ ix.FirstAnswer key newer e) ∧ ix.getWithCachePreferClient key = 0 := by
  cases hfind : ix.layers.findSome? (getFromCachePreferClient key) with
  | some v =>
    obtain ⟨newer, m, older, hlayers, hval, hsilent⟩ := List.findSome?_eq_some_iff.mp hfind
    obtain ⟨e, hans, -⟩ := answers_of_getFromCachePreferClient hval
    refine .inl ⟨newer, e, ⟨m, older, hlayers, hans⟩, ?_⟩
    intro m' hm'
    exact silent_iff.mp (hsilent m' hm')
  | none =>
    refine .inr ⟨?_, ?_⟩
    · intro newer e h
      obtain ⟨m, older, hlayers, hans⟩ := h.answers
      refine silent_iff.mp (List.findSome?_eq_none_iff.mp hfind m ?_) e hans
      rw [hlayers]
      exact List.mem_append_right _ List.mem_cons_self
    · rw [getWithCachePreferClient_eq, hfind]
      rfl

/-- A newer layer holds another value for the key. -/
def Shadowed (newer : List (OrderedMap SIndexKey Int)) (e : SIndexKey × Int) : Prop :=
  ∃ m ∈ newer, ∃ v, (e.1, v) ∈ m.entries ∧ v ≠ e.2

theorem logical_of_not_shadowed {ix : FileIndex} {key : SIndexKey}
    {newer : List (OrderedMap SIndexKey Int)} {e : SIndexKey × Int}
    (h : ix.FirstAnswer key newer e) (hnot : ¬ Shadowed newer e) : ix.logical e.1 = e.2 := by
  obtain ⟨m, older, hlayers, hans⟩ := h.answers
  have hm : m.find? e.1 = some e.2 := OrderedMap.find?_eq_some_iff.mpr hans.mem
  rw [logical, layered_eq_findSome?, hlayers, List.findSome?_append, List.findSome?_cons, hm]
  cases hnew : newer.findSome? fun m => m.find? e.1 with
  | none => rfl
  | some v =>
    obtain ⟨m', hm', hv⟩ := List.exists_of_findSome?_eq_some hnew
    by_contra hne
    exact hnot ⟨m', hm', v, OrderedMap.find?_eq_some_iff.mp hv, hne⟩

/-- What the lookup is for. -/
structure PrefersClient (ix : FileIndex) (key : SIndexKey) (ret : Int) : Prop where
  own : ix.logical key ≠ 0 → ret = ix.logical key
  another : ix.logical key = 0 → (∃ c, ix.logical (key.withClient c) ≠ 0) →
    ∃ c, ix.logical (key.withClient c) ≠ 0 ∧ ret = ix.logical (key.withClient c)
  zero : ret = 0 → ∀ c, ix.logical (key.withClient c) = 0

/-- The first answer is a deletion mark, or hides the own entry of an older layer, or
is an entry that a newer layer has replaced. -/
inductive Misleads (ix : FileIndex) (key : SIndexKey) (newer : List (OrderedMap SIndexKey Int))
    (e : SIndexKey × Int) : Prop where
  | deletionMark (h : e.2 = 0)
  | hidesOwn (hown : ix.logical key ≠ 0) (hother : e.1 ≠ key) (hid : e.2 ≠ ix.logical key)
  | replaced (hown : ix.logical key = 0) (hnewer : Shadowed newer e)
      (hid : ∀ c, ix.logical (key.withClient c) ≠ e.2)

/-- Some client has the file, and no layer answers or the first answer misleads. -/
def LookupGoesWrong (ix : FileIndex) (key : SIndexKey) : Prop :=
  (∃ c, ix.logical (key.withClient c) ≠ 0) ∧
    ((∀ newer e, ¬ ix.FirstAnswer key newer e) ∨
      ∃ newer e, ix.FirstAnswer key newer e ∧ ix.Misleads key newer e)

theorem FirstAnswer.logical_own {ix : FileIndex} {key : SIndexKey}
    {newer : List (OrderedMap SIndexKey Int)} {e : SIndexKey × Int}
    (h : ix.FirstAnswer key newer e) (hkey : e.1 = key) : ix.logical key = e.2 := by
  rw [← hkey]
  refine logical_of_not_shadowed h ?_
  rintro ⟨m, hm, v, hv, -⟩
  rw [hkey] at hv
  refine h.silent m hm (key, v) ⟨hv, by simp, ?_, .inl le_rfl⟩
  intro e' _ _
  rw [if_pos le_rfl]
  exact id

theorem prefersClient_iff (ix : FileIndex) (key : SIndexKey) :
    ix.PrefersClient key (ix.getWithCachePreferClient key) ↔ ¬ ix.LookupGoesWrong key := by
  rcases firstAnswer_or_zero ix key with ⟨newer, e, hfirst⟩ | ⟨hnone, hzero⟩
  · rw [hfirst.value]
    constructor
    · rintro hspec ⟨⟨c, hc⟩, hnone | ⟨newer', e', hfirst', hbad⟩⟩
      · exact hnone newer e hfirst
      · have hval : e'.2 = e.2 := by rw [← hfirst.value, ← hfirst'.value]
        cases hbad with
        | deletionMark h => exact hc (hspec.zero (hval ▸ h) c)
        | hidesOwn hown hother hid => exact hid (hval.trans (hspec.own hown))
        | replaced hown hnewer hid =>
          obtain ⟨c', -, hret⟩ := hspec.another hown ⟨c, hc⟩
          exact hid c' (hret.symm.trans hval.symm)
    · intro hok
      have hgood : ∀ c, ix.logical (key.withClient c) ≠ 0 → ¬ ix.Misleads key newer e :=
        fun c hc hbad => hok ⟨⟨c, hc⟩, .inr ⟨newer, e, hfirst, hbad⟩⟩
      refine ⟨?_, ?_, ?_⟩
      · intro hown
        by_contra hne
        by_cases hkey : e.1 = key
        · exact hne (hfirst.logical_own hkey).symm
        · exact hgood key.clientid hown (.hidesOwn hown hkey hne)
      · rintro hown ⟨c, hc⟩
        by_contra hnot
        have hid : ∀ c', ix.logical (key.withClient c') ≠ e.2 := by
          intro c' hc'
          refine hnot ⟨c', ?_, hc'.symm⟩
          intro hdel
          exact hgood c hc (.deletionMark (hc'.symm.trans hdel))
        refine hgood c hc (.replaced hown ?_ hid)
        by_contra hshadow
        have hlog := logical_of_not_shadowed hfirst hshadow
        obtain ⟨m, older, -, hans⟩ := hfirst.answers
        rw [eq_withClient hans.sameFile] at hlog
        exact hid e.1.clientid hlog
      · intro hret c
        by_contra hc
        exact hgood c hc (.deletionMark hret)
  · rw [hzero]
    constructor
    · rintro hspec ⟨⟨c, hc⟩, -⟩
      exact hc (hspec.zero rfl c)
    · intro hok
      have hdead : ∀ c, ix.logical (key.withClient c) = 0 := by
        intro c
        by_contra hc
        exact hok ⟨⟨c, hc⟩, .inl hnone⟩
      exact ⟨fun hown => absurd (hdead key.clientid) hown,
        fun _ hlive => absurd (hdead hlive.choose) hlive.choose_spec, fun _ => hdead⟩

def singleEntry (key : SIndexKey) (id : Int) : FileIndex :=
  ⟨.empty, .empty, .one, OrderedMap.empty.insert key id⟩

/-- The only entry stands in front of the lower bound, which is the end of the table. -/
theorem lookup_misses_smaller_client :
    ¬ ∀ (ix : FileIndex) (key : SIndexKey),
      ix.PrefersClient key (ix.getWithCachePreferClient key) := by
  intro hclaim
  have hspec := hclaim (singleEntry ⟨Vector.replicate 16 1, 4096, 1⟩ 7)
    ⟨Vector.replicate 16 1, 4096, 2⟩
  have hdead := hspec.zero (by decide) 1
  revert hdead
  decide

end UrBackup.FileIndex
