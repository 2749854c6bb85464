import UrBackup.Backup.FileNames
import UrBackup.Internet.Connector

/-! The rights that groups and classes of a directory server give, as one text of the settings. -/
namespace UrBackup

namespace LdapRights

open FileNames (slash tokenize tokenize_slash)

abbrev LdapMap := OrderedMap Bytes Bytes

/-- `==>` -/
def arrow : Bytes := [61, 61, 62]

/-- `find`: the place where a text occurs first. -/
def find (str : Bytes) : Bytes → Option Nat
  | [] => if str = [] then some 0 else none
  | c :: data => if str.isPrefixOf (c :: data) then some 0 else (find str data).map (· + 1)

def getuntil (str data : Bytes) : Bytes :=
  match find str data with
  | some off => data.take off
  | none => []

def getafterinc (str data : Bytes) : Bytes :=
  match find str data with
  | some pos => data.drop pos
  | none => []

def getafter (str data : Bytes) : Bytes := (getafterinc str data).drop str.length

/-- Each turn of the loop cuts the whole text, not the mapping that it has come to. -/
def parseLdapMap (data : Bytes) : LdapMap :=
  let mappings := tokenize data [slash]
  mappings.foldl (fun ret _ => ret.insert (getuntil arrow data) (getafter arrow data))
    OrderedMap.empty

def ldapMapToString (ldapMap : LdapMap) : Bytes :=
  ldapMap.entries.foldl (fun ret e => (if ret = [] then ret else ret ++ [slash]) ++
    (e.1 ++ arrow ++ e.2)) []

/-- A text that contains none of the two separators. -/
def Plain (s : Bytes) : Prop := slash ∉ s ∧ ¬ arrow <:+: s

/-- A mapping that can stand in a text of mappings. -/
structure Mapping where
  source : Bytes
  target : Bytes
  noSlash : slash ∉ source ∧ slash ∉ target
  noArrow : ¬ arrow <:+: source

/-- A map from non-empty strings, without a separator in its keys and values. -/
structure PlainMap where
  map : LdapMap
  plain : ∀ e ∈ map.entries, e.1 ≠ [] ∧ Plain e.1 ∧ Plain e.2

namespace Mapping

def entry (m : Mapping) : Bytes × Bytes := (m.source, m.target)

def text (m : Mapping) : Bytes := m.source ++ arrow ++ m.target

end Mapping

def mappingsText (ms : List Mapping) : Bytes := [slash].intercalate (ms.map Mapping.text)

/-- Each source gets the target of its own mapping, of the last one if it has several. -/
def assigned (ms : List Mapping) : LdapMap := OrderedMap.empty.insertAll (ms.map Mapping.entry)

/-! ### The first arrow of a text -/

theorem not_arrow_prefix {c : UInt8} {source : Bytes} (h : ¬ arrow <:+: c :: source) (rest : Bytes) :
    arrow.isPrefixOf (c :: source ++ arrow ++ rest) = false := by
  apply Bool.eq_false_iff.mpr
  intro hprefix
  have hp := List.isPrefixOf_iff_prefix.mp hprefix
  match source with
  | [] => simp [arrow, List.cons_prefix_cons] at hp
  | [d] => simp [arrow, List.cons_prefix_cons] at hp
  | d :: e :: source =>
    apply h
    have hshort : arrow <+: c :: d :: e :: source := by
      simp only [arrow, List.cons_append, List.cons_prefix_cons, List.nil_prefix] at hp ⊢
      exact ⟨hp.1, hp.2.1, hp.2.2.1, trivial⟩
    exact hshort.isInfix

theorem find_arrow {source : Bytes} (h : ¬ arrow <:+: source) (rest : Bytes) :
    find arrow (source ++ arrow ++ rest) = some source.length := by
  induction source with
  | nil => rfl
  | cons c source ih =>
    have hno : ¬ arrow <:+: source := fun hin => h (hin.trans (List.suffix_cons c source).isInfix)
    have hfirst := not_arrow_prefix h rest
    simp only [List.cons_append] at hfirst ⊢
    simp only [find, hfirst, ih hno]
    rfl

theorem getuntil_arrow {source : Bytes} (h : ¬ arrow <:+: source) (rest : Bytes) :
    getuntil arrow (source ++ arrow ++ rest) = source := by
  simp only [getuntil, find_arrow h rest]
  rw [List.append_assoc, List.take_left]

theorem getafter_arrow {source : Bytes} (h : ¬ arrow <:+: source) (rest : Bytes) :
    getafter arrow (source ++ arrow ++ rest) = rest := by
  simp only [getafter, getafterinc, find_arrow h rest]
  rw [List.append_assoc, List.drop_left, List.drop_left]

/-! ### What the parser makes of a text -/

theorem insert_again (m : LdapMap) (source target : Bytes) :
    (m.insert source target).insert source target = m.insert source target := by
  apply OrderedMap.ext
  intro k
  simp only [OrderedMap.find?_insert]
  split <;> rfl

theorem foldl_insert_again (mappings : List Bytes) (m : LdapMap) (source target : Bytes) :
    mappings.foldl (fun ret _ => ret.insert source target) (m.insert source target) =
      m.insert source target := by
  induction mappings with
  | nil => rfl
  | cons mapping mappings ih => simpa [insert_again] using ih

theorem tokenize_ne_nil {data : Bytes} (h : data ≠ []) : tokenize data [slash] ≠ [] := by
  rw [tokenize_slash]
  split
  · rename_i hlast
    intro hnil
    have hsplit : data.splitOn slash = [[]] := by
      rw [← List.dropLast_append_getLast? [] hlast, hnil, List.nil_append]
    apply h
    rw [← @List.intercalate_splitOn _ data _ _ slash, hsplit]
    rfl
  · exact List.splitOn_ne_nil slash data

theorem parseLdapMap_of_ne_nil {data : Bytes} (h : data ≠ []) :
    parseLdapMap data = OrderedMap.empty.insert (getuntil arrow data) (getafter arrow data) := by
  unfold parseLdapMap
  obtain ⟨mapping, mappings, hm⟩ := List.exists_cons_of_ne_nil (tokenize_ne_nil h)
  simp only [hm, List.foldl_cons]
  exact foldl_insert_again mappings _ _ _

def behind : List Mapping → Bytes
  | [] => []
  | ms => slash :: mappingsText ms

theorem mappingsText_cons (m : Mapping) (ms : List Mapping) :
    mappingsText (m :: ms) = m.source ++ arrow ++ (m.target ++ behind ms) := by
  cases ms with
  | nil => simp [mappingsText, Mapping.text, behind]
  | cons m' ms => simp [mappingsText, Mapping.text, behind, List.intercalate_cons_cons]

theorem behind_cons (m : Mapping) (ms : List Mapping) :
    behind (m :: ms) = slash :: (m.source ++ arrow ++ (m.target ++ behind ms)) :=
  congrArg (slash :: ·) (mappingsText_cons m ms)

theorem parseLdapMap_mappingsText (m : Mapping) (ms : List Mapping) :
    parseLdapMap (mappingsText (m :: ms)) =
      OrderedMap.empty.insert m.source (m.target ++ behind ms) := by
  have hne : mappingsText (m :: ms) ≠ [] := by
    rw [mappingsText_cons]
    simp [arrow]
  rw [parseLdapMap_of_ne_nil hne, mappingsText_cons, getuntil_arrow m.noArrow,
    getafter_arrow m.noArrow]

theorem assigned_noSlash {ms : List Mapping} {source target : Bytes}
    (h : (assigned ms).find? source = some target) : slash ∉ target := by
  have hall : ∀ (ms : List Mapping) (start : LdapMap),
      (∀ k v, start.find? k = some v → slash ∉ v) →
      ∀ k v, (start.insertAll (ms.map Mapping.entry)).find? k = some v → slash ∉ v := by
    intro ms
    induction ms with
    | nil => exact fun start hstart => hstart
    | cons m ms ih =>
      intro start hstart
      apply ih (start.insert m.source m.target)
      intro k v hk
      rw [OrderedMap.find?_insert] at hk
      split at hk
      · exact Option.some.inj hk ▸ m.noSlash.2
      · exact hstart k v hk
  refine hall ms OrderedMap.empty ?_ source target h
  intro k v hk
  exact absurd hk (by simp)

theorem parseLdapMap_assigned (ms : List Mapping) :
    parseLdapMap (mappingsText ms) = assigned ms ↔ ms.length ≤ 1 := by
  match ms with
  | [] => exact ⟨fun _ => Nat.zero_le 1, fun _ => rfl⟩
  | [m] =>
    refine ⟨fun _ => Nat.le_refl 1, fun _ => ?_⟩
    rw [parseLdapMap_mappingsText, behind, List.append_nil]
    rfl
  | m :: m' :: ms =>
    constructor
    · intro heq
      have hfound : (assigned (m :: m' :: ms)).find? m.source =
          some (m.target ++ behind (m' :: ms)) := by
        rw [← heq, parseLdapMap_mappingsText, OrderedMap.find?_insert, if_pos rfl]
      refine absurd ?_ (assigned_noSlash hfound)
      exact List.mem_append_right m.target List.mem_cons_self
    · intro hlength
      exact absurd hlength (by simp)

/-! ### The printed maps -/

namespace PlainMap

variable (m : PlainMap)

def mappings : List Mapping :=
  m.map.entries.attach.map fun e =>
    { source := e.1.1
      target := e.1.2
      noSlash := ⟨(m.plain e.1 e.2).2.1.1, (m.plain e.1 e.2).2.2.1⟩
      noArrow := (m.plain e.1 e.2).2.1.2 }

theorem mappings_entry : m.mappings.map Mapping.entry = m.map.entries := by
  rw [mappings, List.map_map]
  exact List.attach_map_subtype_val m.map.entries

theorem assigned_mappings : assigned m.mappings = m.map := by
  apply OrderedMap.ext
  intro k
  rw [assigned, mappings_entry, OrderedMap.find?_insertAll _ m.map.entries_keys_ne,
    OrderedMap.find?_empty, Option.or_none]
  rfl

end PlainMap

theorem foldl_text (ms : List Mapping) {ret : Bytes} (h : ret ≠ []) :
    (ms.map Mapping.entry).foldl (fun ret e => (if ret = [] then ret else ret ++ [slash]) ++
      (e.1 ++ arrow ++ e.2)) ret = ret ++ behind ms := by
  induction ms generalizing ret with
  | nil => simp [behind]
  | cons m ms ih =>
    rw [List.map_cons, List.foldl_cons, if_neg h, ih (by simp), behind_cons]
    simp [Mapping.entry]

theorem ldapMapToString_eq (m : PlainMap) : ldapMapToString m.map = mappingsText m.mappings := by
  rw [ldapMapToString, ← m.mappings_entry]
  cases hms : m.mappings with
  | nil => rfl
  | cons mapping ms =>
    rw [List.map_cons, List.foldl_cons, if_pos rfl, mappingsText_cons,
      foldl_text ms (by simp [arrow])]
    simp [Mapping.entry]

theorem parseLdapMap_ldapMapToString (m : PlainMap) :
    parseLdapMap (ldapMapToString m.map) = m.map ↔ m.map.size ≤ 1 := by
  have hlength : m.mappings.length = m.map.size := by
    rw [OrderedMap.size, ← m.mappings_entry, List.length_map]
  have hassigned := parseLdapMap_assigned m.mappings
  rwa [m.assigned_mappings, ← ldapMapToString_eq, hlength] at hassigned

/-- A printed map is read back, and a text is read mapping by mapping, exactly if there is at most
one mapping. -/
theorem parse_single_mapping (m : PlainMap) (ms : List Mapping) :
    (parseLdapMap (ldapMapToString m.map) = m.map ↔ m.map.size ≤ 1) ∧
      (parseLdapMap (mappingsText ms) = assigned ms ↔ ms.length ≤ 1) :=
  ⟨parseLdapMap_ldapMapToString m, parseLdapMap_assigned ms⟩

/-- `a==>b/c==>d` becomes the one mapping of `a` to `b/c==>d`. -/
def twoGroups : LdapMap := (OrderedMap.empty.insert [97] [98]).insert [99] [100]

theorem two_groups_merged : (∀ e ∈ twoGroups.entries, e.1 ≠ [] ∧ slash ∉ e.1 ∧ slash ∉ e.2 ∧
      ¬ arrow <:+: e.1 ∧ ¬ arrow <:+: e.2) ∧
    parseLdapMap (ldapMapToString twoGroups) ≠ twoGroups ∧
    (parseLdapMap (ldapMapToString twoGroups)).entries =
      [([97], [98, 47, 99, 61, 61, 62, 100])] := by
  decide

end LdapRights

end UrBackup
