import Mathlib.Order.Lattice
import Mathlib.Data.List.Pairwise
import Mathlib.Order.Basic
import Mathlib.Data.List.TakeWhile

/-! Ordered maps as strictly sorted association lists. Besides lookup and update
the positional queries of a search tree are kept: the range that starts at the
lower bound of a key and the range in front of it. -/

/-- A finite map whose entries are listed in strictly increasing key order. -/
structure OrderedMap (κ ν : Type*) [LinearOrder κ] where
  entries : List (κ × ν)
  sorted : entries.Pairwise (fun a b => a.1 < b.1)
  deriving DecidableEq

namespace OrderedMap

variable {κ ν γ : Type*} [LinearOrder κ]

section Lists

def findEntry (k : κ) : List (κ × ν) → Option ν
  | [] => none
  | (k', v) :: es => if k' = k then some v else findEntry k es

def insertEntry (k : κ) (v : ν) : List (κ × ν) → List (κ × ν)
  | [] => [(k, v)]
  | (k', v') :: es =>
    if k < k' then (k, v) :: (k', v') :: es
    else if k' = k then (k, v) :: es
    else (k', v') :: insertEntry k v es

theorem mem_insertEntry {k : κ} {v : ν} {es : List (κ × ν)} {e : κ × ν}
    (h : e ∈ insertEntry k v es) : e = (k, v) ∨ e ∈ es := by
  induction es with
  | nil => simpa [insertEntry] using h
  | cons e' es ih =>
    unfold insertEntry at h
    split_ifs at h with h₁ h₂
    · simpa using h
    · rcases List.mem_cons.mp h with rfl | h
      · exact .inl rfl
      · exact .inr (List.mem_cons_of_mem _ h)
    · rcases List.mem_cons.mp h with rfl | h
      · exact .inr List.mem_cons_self
      · exact (ih h).imp_right (List.mem_cons_of_mem _)

theorem insertEntry_sorted {k : κ} {v : ν} {es : List (κ × ν)}
    (h : es.Pairwise (fun a b => a.1 < b.1)) :
    (insertEntry k v es).Pairwise (fun a b => a.1 < b.1) := by
  induction es with
  | nil => exact List.pairwise_singleton _ _
  | cons e' es ih =>
    obtain ⟨hhead, htail⟩ := List.pairwise_cons.mp h
    unfold insertEntry
    split_ifs with h₁ h₂
    · refine List.pairwise_cons.mpr ⟨?_, h⟩
      intro e he
      rcases List.mem_cons.mp he with rfl | he
      · exact h₁
      · exact lt_trans h₁ (hhead e he)
    · exact List.pairwise_cons.mpr ⟨fun e he => h₂ ▸ hhead e he, htail⟩
    · refine List.pairwise_cons.mpr ⟨?_, ih htail⟩
      intro e he
      rcases mem_insertEntry he with rfl | he
      · exact lt_of_le_of_ne (not_lt.mp h₁) h₂
      · exact hhead e he

theorem findEntry_insertEntry (k k' : κ) (v : ν) (es : List (κ × ν)) :
    findEntry k' (insertEntry k v es) = if k = k' then some v else findEntry k' es := by
  induction es with
  | nil => rfl
  | cons e es ih =>
    unfold insertEntry
    by_cases h₁ : k < e.1
    · simp only [if_pos h₁, findEntry]
    · by_cases h₂ : e.1 = k
      · simp only [if_neg h₁, if_pos h₂, findEntry]
        by_cases h₃ : k = k'
        · simp only [if_pos h₃]
        · simp only [if_neg h₃, if_neg (h₂ ▸ h₃ : ¬ e.1 = k')]
      · simp only [if_neg h₁, if_neg h₂, findEntry, ih]
        by_cases h₃ : k = k'
        · rw [if_neg (h₃ ▸ h₂), if_pos h₃]
          simp only [if_pos h₃]
        · simp only [if_neg h₃]

theorem findEntry_eq_some {k : κ} {v : ν} {es : List (κ × ν)}
    (h : es.Pairwise (fun a b => a.1 < b.1)) : findEntry k es = some v ↔ (k, v) ∈ es := by
  induction es with
  | nil => simp [findEntry]
  | cons e es ih =>
    obtain ⟨hhead, htail⟩ := List.pairwise_cons.mp h
    obtain ⟨k', v'⟩ := e
    by_cases hk : k' = k
    · subst hk
      have hout : (k', v) ∉ es := fun hm => lt_irrefl k' (hhead (k', v) hm)
      simp [findEntry, hout, eq_comm]
    · have hne : (k, v) ≠ (k', v') := fun he => hk (Prod.mk.inj he).1.symm
      simp [findEntry, hk, ih htail, hne]

theorem findEntry_filter (p : κ → Bool) (k : κ) (es : List (κ × ν)) :
    findEntry k (es.filter fun e => p e.1) = if p k then findEntry k es else none := by
  induction es with
  | nil => simp [findEntry]
  | cons e es ih =>
    by_cases hp : p e.1 = true
    · rw [List.filter_cons_of_pos (p := fun e : κ × ν => p e.1) hp]
      by_cases hk : e.1 = k
      · subst hk; simp [findEntry, hp]
      · simp [findEntry, hk, ih]
    · rw [List.filter_cons_of_neg (p := fun e : κ × ν => p e.1) hp, ih]
      by_cases hk : e.1 = k
      · subst hk; simp [hp]
      · simp [findEntry, hk]

theorem findEntry_none {k : κ} {es : List (κ × ν)} (h : ∀ e ∈ es, e.1 ≠ k) :
    findEntry k es = none := by
  induction es with
  | nil => rfl
  | cons e es ih =>
    rw [findEntry, if_neg (h e List.mem_cons_self)]
    exact ih fun e he => h e (List.mem_cons_of_mem _ he)

theorem findEntry_map {κ' : Type*} [LinearOrder κ'] (f : κ → κ') (k : κ) (es : List (κ × ν))
    (h : ∀ e ∈ es, f e.1 = f k → e.1 = k) :
    findEntry (f k) (es.map fun e => (f e.1, e.2)) = findEntry k es := by
  induction es with
  | nil => rfl
  | cons e es ih =>
    have htail := ih fun e he => h e (List.mem_cons_of_mem _ he)
    by_cases hk : e.1 = k
    · simp [findEntry, hk]
    · have hf : f e.1 ≠ f k := fun hf => hk (h e List.mem_cons_self hf)
      simp [findEntry, hk, hf, htail]

/-- On a list where the predicate never returns, stopping and skipping agree. -/
theorem takeWhile_eq_filter {α : Type*} {p : α → Bool} {es : List α}
    (h : es.Pairwise fun a b => p b = true → p a = true) : es.takeWhile p = es.filter p := by
  induction es with
  | nil => rfl
  | cons e es ih =>
    obtain ⟨hhead, htail⟩ := List.pairwise_cons.mp h
    by_cases hp : p e = true
    · rw [List.takeWhile_cons_of_pos hp, List.filter_cons_of_pos hp, ih htail]
    · rw [List.takeWhile_cons_of_neg hp, List.filter_cons_of_neg hp, eq_comm,
        List.filter_eq_nil_iff]
      exact fun e' he' hp' => hp (hhead e' he' hp')

end Lists

def empty : OrderedMap κ ν := ⟨[], List.Pairwise.nil⟩

def isEmpty (m : OrderedMap κ ν) : Bool := m.entries.isEmpty

def size (m : OrderedMap κ ν) : Nat := m.entries.length

def find? (m : OrderedMap κ ν) (k : κ) : Option ν := findEntry k m.entries

def insert (m : OrderedMap κ ν) (k : κ) (v : ν) : OrderedMap κ ν :=
  ⟨insertEntry k v m.entries, insertEntry_sorted m.sorted⟩

def erase (m : OrderedMap κ ν) (k : κ) : OrderedMap κ ν :=
  ⟨m.entries.filter fun e => e.1 ≠ k, m.sorted.filter _⟩

def insertAll (m : OrderedMap κ ν) (es : List (κ × ν)) : OrderedMap κ ν :=
  es.foldl (fun m e => m.insert e.1 e.2) m

def filterValues (m : OrderedMap κ ν) (p : ν → Bool) : OrderedMap κ ν :=
  ⟨m.entries.filter fun e => p e.2, m.sorted.filter _⟩

/-- The entries that remain in front of an iterator at the lower bound of `k`. -/
def lowerBound (m : OrderedMap κ ν) (k : κ) : List (κ × ν) :=
  m.entries.dropWhile fun e => e.1 < k

/-- The entries an iterator at the lower bound of `k` has passed. -/
def before (m : OrderedMap κ ν) (k : κ) : List (κ × ν) :=
  m.entries.takeWhile fun e => e.1 < k

@[simp] theorem find?_empty (k : κ) : (empty : OrderedMap κ ν).find? k = none := rfl

theorem find?_insert (m : OrderedMap κ ν) (k k' : κ) (v : ν) :
    (m.insert k v).find? k' = if k = k' then some v else m.find? k' :=
  findEntry_insertEntry k k' v m.entries

theorem find?_erase (m : OrderedMap κ ν) (k k' : κ) :
    (m.erase k).find? k' = if k = k' then none else m.find? k' := by
  unfold find? erase
  have h := findEntry_filter (fun x => decide (x ≠ k)) k' m.entries
  rw [h]
  by_cases hk : k = k'
  · subst hk; simp
  · simp [hk, Ne.symm hk]

theorem find?_eq_some_iff {m : OrderedMap κ ν} {k : κ} {v : ν} :
    m.find? k = some v ↔ (k, v) ∈ m.entries := findEntry_eq_some m.sorted

theorem find?_eq_none_iff {m : OrderedMap κ ν} {k : κ} :
    m.find? k = none ↔ ∀ v, (k, v) ∉ m.entries := by
  rw [Option.eq_none_iff_forall_ne_some]
  exact forall_congr' fun v => not_congr find?_eq_some_iff

theorem ext {m m' : OrderedMap κ ν} (h : ∀ k, m.find? k = m'.find? k) : m = m' := by
  have hmem : ∀ e, e ∈ m.entries ↔ e ∈ m'.entries := by
    rintro ⟨k, v⟩
    rw [← find?_eq_some_iff, ← find?_eq_some_iff, h]
  have hnodup : ∀ m : OrderedMap κ ν, m.entries.Nodup := fun m =>
    m.sorted.imp fun hlt heq => (heq ▸ hlt).ne rfl
  have hperm := (List.perm_ext_iff_of_nodup (hnodup m) (hnodup m')).mpr hmem
  have hentries : m.entries = m'.entries := by
    apply hperm.eq_of_pairwise _ m.sorted m'.sorted
    intro a b _ _ hab hba
    exact absurd (hab.trans hba) (lt_irrefl _)
  cases m
  cases m'
  simp only at hentries
  subst hentries
  rfl

theorem find?_insertAll (m : OrderedMap κ ν) {es : List (κ × ν)}
    (h : es.Pairwise fun a b => a.1 ≠ b.1) (k : κ) :
    (m.insertAll es).find? k = (findEntry k es).or (m.find? k) := by
  induction es generalizing m with
  | nil => simp [insertAll, findEntry]
  | cons e es ih =>
    obtain ⟨hhead, htail⟩ := List.pairwise_cons.mp h
    have hstep : (m.insertAll (e :: es)).find? k =
        (findEntry k es).or ((m.insert e.1 e.2).find? k) := ih (m.insert e.1 e.2) htail
    rw [hstep, find?_insert, findEntry]
    by_cases hk : e.1 = k
    · rw [if_pos hk, if_pos hk, findEntry_none fun e' he' heq => hhead e' he' (hk.trans heq.symm)]
      rfl
    · rw [if_neg hk, if_neg hk]

theorem find?_filterValues (m : OrderedMap κ ν) (p : ν → Bool) (k : κ) :
    (m.filterValues p).find? k = (m.find? k).filter p := by
  ext v
  rw [Option.filter_eq_some_iff, find?_eq_some_iff, find?_eq_some_iff]
  simp [filterValues]

theorem entries_keys_ne (m : OrderedMap κ ν) : m.entries.Pairwise fun a b => a.1 ≠ b.1 :=
  m.sorted.imp fun h => h.ne

theorem find?_of_isEmpty {m : OrderedMap κ ν} (h : m.isEmpty = true) (k : κ) :
    m.find? k = none := by
  unfold find?
  rw [List.isEmpty_iff.mp h]
  rfl

theorem before_append_lowerBound (m : OrderedMap κ ν) (k : κ) :
    m.before k ++ m.lowerBound k = m.entries := List.takeWhile_append_dropWhile

theorem lt_of_mem_before {m : OrderedMap κ ν} {k : κ} {e : κ × ν} (h : e ∈ m.before k) :
    e.1 < k := by
  simpa using List.mem_takeWhile_imp h

theorem mem_entries_of_mem_before {m : OrderedMap κ ν} {k : κ} {e : κ × ν}
    (h : e ∈ m.before k) : e ∈ m.entries :=
  (List.takeWhile_sublist _).subset h

theorem mem_entries_of_mem_lowerBound {m : OrderedMap κ ν} {k : κ} {e : κ × ν}
    (h : e ∈ m.lowerBound k) : e ∈ m.entries :=
  (List.dropWhile_sublist _).subset h

theorem lowerBound_sorted (m : OrderedMap κ ν) (k : κ) :
    (m.lowerBound k).Pairwise (fun a b => a.1 < b.1) :=
  m.sorted.sublist (List.dropWhile_sublist _)

theorem before_sorted (m : OrderedMap κ ν) (k : κ) :
    (m.before k).Pairwise (fun a b => a.1 < b.1) :=
  m.sorted.sublist (List.takeWhile_sublist _)

theorem le_of_mem_lowerBound {m : OrderedMap κ ν} {k : κ} {e : κ × ν}
    (h : e ∈ m.lowerBound k) : k ≤ e.1 := by
  have hsorted := m.lowerBound_sorted k
  cases hlb : m.lowerBound k with
  | nil => rw [hlb] at h; cases h
  | cons e₀ es =>
    have hhead : ¬ e₀.1 < k := by
      have := List.head_dropWhile_not (fun e : κ × ν => decide (e.1 < k)) (l := m.entries)
        (by rw [show m.entries.dropWhile _ = _ from hlb]; simp)
      have heq : (List.dropWhile (fun e : κ × ν => decide (e.1 < k)) m.entries) = e₀ :: es := hlb
      simpa [heq] using this
    rw [hlb] at h hsorted
    rcases List.mem_cons.mp h with rfl | h
    · exact not_lt.mp hhead
    · exact (not_lt.mp hhead).trans ((List.pairwise_cons.mp hsorted).1 e h).le

theorem mem_lowerBound_iff {m : OrderedMap κ ν} {k : κ} {e : κ × ν} :
    e ∈ m.lowerBound k ↔ e ∈ m.entries ∧ k ≤ e.1 := by
  constructor
  · exact fun h => ⟨mem_entries_of_mem_lowerBound h, le_of_mem_lowerBound h⟩
  · rintro ⟨h, hk⟩
    rw [← m.before_append_lowerBound k] at h
    rcases List.mem_append.mp h with h | h
    · exact absurd (lt_of_mem_before h) (not_lt.mpr hk)
    · exact h

theorem mem_before_iff {m : OrderedMap κ ν} {k : κ} {e : κ × ν} :
    e ∈ m.before k ↔ e ∈ m.entries ∧ e.1 < k := by
  constructor
  · exact fun h => ⟨mem_entries_of_mem_before h, lt_of_mem_before h⟩
  · rintro ⟨h, hk⟩
    rw [← m.before_append_lowerBound k] at h
    rcases List.mem_append.mp h with h | h
    · exact h
    · exact absurd hk (not_lt.mpr (le_of_mem_lowerBound h))

theorem head_lowerBound_le {m : OrderedMap κ ν} {k : κ} {e₀ e : κ × ν} {es : List (κ × ν)}
    (hlb : m.lowerBound k = e₀ :: es) (he : e ∈ m.entries) (hk : k ≤ e.1) : e₀.1 ≤ e.1 := by
  have hmem : e ∈ m.lowerBound k := mem_lowerBound_iff.mpr ⟨he, hk⟩
  have hsorted := m.lowerBound_sorted k
  rw [hlb] at hmem hsorted
  rcases List.mem_cons.mp hmem with rfl | h
  · exact le_rfl
  · exact ((List.pairwise_cons.mp hsorted).1 e h).le

theorem le_getLast_before {m : OrderedMap κ ν} {k : κ} {e₀ e : κ × ν}
    (hlast : (m.before k).getLast? = some e₀) (he : e ∈ m.entries) (hk : e.1 < k) :
    e.1 ≤ e₀.1 := by
  have hmem : e ∈ m.before k := mem_before_iff.mpr ⟨he, hk⟩
  have hsorted := m.before_sorted k
  obtain ⟨front, hfront⟩ := List.getLast?_eq_some_iff.mp hlast
  rw [hfront] at hmem hsorted
  rcases List.mem_append.mp hmem with h | h
  · exact ((List.pairwise_append.mp hsorted).2.2 e h e₀ (by simp)).le
  · rw [List.mem_singleton.mp h]

section Entries

theorem entries_nodup (m : OrderedMap κ ν) : m.entries.Nodup :=
  m.sorted.imp fun hlt heq => (heq ▸ hlt).ne rfl

theorem insert_perm {m : OrderedMap κ ν} {k : κ} (h : m.find? k = none) (v : ν) :
    (m.insert k v).entries.Perm ((k, v) :: m.entries) := by
  have hnot : (k, v) ∉ m.entries := find?_eq_none_iff.mp h v
  apply (List.perm_ext_iff_of_nodup (entries_nodup _)
    (List.nodup_cons.mpr ⟨hnot, entries_nodup m⟩)).mpr
  rintro ⟨k', v'⟩
  rw [← find?_eq_some_iff, find?_insert, List.mem_cons, Prod.mk.injEq, ← find?_eq_some_iff]
  by_cases hk : k = k'
  · rw [if_pos hk, ← hk, h]
    simp [eq_comm]
  · rw [if_neg hk]
    simp [Ne.symm hk]

theorem erase_perm {m : OrderedMap κ ν} {k : κ} {v : ν} (h : m.find? k = some v) :
    ((k, v) :: (m.erase k).entries).Perm m.entries := by
  have hnot : (k, v) ∉ (m.erase k).entries := by
    rw [← find?_eq_some_iff, find?_erase, if_pos rfl]
    exact fun hnone => nomatch hnone
  apply (List.perm_ext_iff_of_nodup (List.nodup_cons.mpr ⟨hnot, entries_nodup _⟩)
    (entries_nodup m)).mpr
  rintro ⟨k', v'⟩
  rw [List.mem_cons, Prod.mk.injEq, ← find?_eq_some_iff, ← find?_eq_some_iff, find?_erase]
  by_cases hk : k = k'
  · rw [if_pos hk, ← hk, h]
    simp [eq_comm]
  · rw [if_neg hk]
    simp [Ne.symm hk]

variable {μ : Type*}

def mapValues (f : ν → μ) (m : OrderedMap κ ν) : OrderedMap κ μ where
  entries := m.entries.map fun e => (e.1, f e.2)
  sorted := List.pairwise_map.mpr m.sorted

theorem find?_mapValues (f : ν → μ) (m : OrderedMap κ ν) (k : κ) :
    (m.mapValues f).find? k = (m.find? k).map f := by
  ext v
  rw [find?_eq_some_iff, Option.map_eq_some_iff]
  constructor
  · intro hmem
    obtain ⟨e, he, heq⟩ := List.mem_map.mp hmem
    obtain ⟨rfl, rfl⟩ := Prod.mk.inj heq
    exact ⟨e.2, find?_eq_some_iff.mpr he, rfl⟩
  · rintro ⟨v', hv', rfl⟩
    exact List.mem_map.mpr ⟨(k, v'), find?_eq_some_iff.mp hv', rfl⟩

theorem entries_map_congr {f : ν → μ} {m m' : OrderedMap κ ν}
    (h : ∀ k, (m'.find? k).map f = (m.find? k).map f) :
    m'.entries.map (fun e => f e.2) = m.entries.map fun e => f e.2 := by
  have hsame : m'.mapValues f = m.mapValues f := by
    apply ext
    intro k
    rw [find?_mapValues, find?_mapValues, h]
  have hentries := congrArg (fun m => m.entries.map Prod.snd) hsame
  simpa [mapValues, Function.comp_def] using hentries

end Entries

end OrderedMap
