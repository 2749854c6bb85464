import UrBackup.FileIndex.Lookup
import UrBackup.Lib.Loop

/-! The walk over the index that returns the clients of one file after the other. -/
namespace UrBackup

namespace FileIndex

/-- `MDB_NEXT` -/
def Cursor.next (c : Cursor) : Option Cursor :=
  match c.rest with
  | [] => none
  | e :: es => some ⟨c.current :: c.passed, e, es⟩

theorem Cursor.next_rest {c c' : Cursor} (h : c.next = some c') : c'.rest.length < c.rest.length := by
  unfold Cursor.next at h
  split at h
  · cases h
  · rename_i hrest
    cases h
    simp [hrest]

/-- The cursor of a walk; there is none if the table is empty. -/
structure Iteration where
  itCursor : Option Cursor
  hasError : Bool

def startIteration (t : Table) (hasError : Bool) : Iteration :=
  match Cursor.setRange t .zero with
  | some c => ⟨some c, hasError⟩
  | none => ⟨none, true⟩

/-- The entries behind the first one of a file. The client is taken from `key`, which is not what
the cursor reads. -/
def entriesLoop (startKey key : SIndexKey) (ret : OrderedMap ClientId Int) (c : Cursor) :
    OrderedMap ClientId Int × Bool × Cursor :=
  match _h : c.next with
  | none => (ret, false, c)
  | some c' =>
    if ¬ startKey.isEqualWithoutClientid c'.current.1 then (ret, true, c')
    else entriesLoop startKey key (ret.insert key.clientid c'.current.2) c'
  termination_by c.rest.length
  decreasing_by exact Cursor.next_rest _h

/-- The clients of the file at the cursor, and whether `has_next` is left as it is. -/
def getNextEntriesIteration (it : Iteration) : OrderedMap ClientId Int × Bool × Iteration :=
  match it.itCursor with
  | none => (.empty, false, { it with hasError := true })
  | some c =>
    let startKey := c.current.1
    let (ret, hasNext, c') := entriesLoop startKey .zero
      (OrderedMap.empty.insert startKey.clientid c.current.2) c
    (ret, hasNext, { it with itCursor := some c' })

def iterationTurn (s : Iteration × List (OrderedMap ClientId Int)) :
    List (OrderedMap ClientId Int) ⊕ (Iteration × List (OrderedMap ClientId Int)) :=
  let (ret, hasNext, it) := getNextEntriesIteration s.1
  if hasNext then .inr (it, s.2 ++ [ret]) else .inl (s.2 ++ [ret])

/-- One map for each file of the table, in the order of the keys, with all clients of the file. -/
def YieldsFiles (t : Table) (rets : List (OrderedMap ClientId Int)) : Prop :=
  ∃ files : List SIndexKey, files.Pairwise (· < ·) ∧
    (∀ k, k ∈ files ↔ k.clientid = 0 ∧ ∃ e ∈ t.entries, e.1.isEqualWithoutClientid k = true) ∧
    List.Forall₂ (fun k ret => ∀ c, ret.find? c = t.find? (k.withClient c)) files rets

section Groups

abbrev Entries := List (SIndexKey × Int)

def fileGroups : Entries → List Entries
  | [] => []
  | e :: es =>
    (e :: es.takeWhile fun e' => e.1.isEqualWithoutClientid e'.1) ::
      fileGroups (es.dropWhile fun e' => e.1.isEqualWithoutClientid e'.1)
  termination_by es => es.length
  decreasing_by exact Nat.lt_succ_of_le (List.length_dropWhile_le _ es)

def returned : Entries → OrderedMap ClientId Int
  | [] => .empty
  | e :: es =>
    es.foldl (fun ret e' => ret.insert SIndexKey.zero.clientid e'.2)
      (OrderedMap.empty.insert e.1.clientid e.2)

def clients (es : Entries) : OrderedMap ClientId Int :=
  OrderedMap.empty.insertAll (es.map fun e => (e.1.clientid, e.2))

theorem entriesLoop_eq (startKey key : SIndexKey) (ret : OrderedMap ClientId Int)
    (passed : Entries) (current : SIndexKey × Int) (es : Entries) :
    ∃ passed', entriesLoop startKey key ret ⟨passed, current, es⟩ =
      ((es.takeWhile fun e => startKey.isEqualWithoutClientid e.1).foldl
          (fun ret e => ret.insert key.clientid e.2) ret,
        match es.dropWhile fun e => startKey.isEqualWithoutClientid e.1 with
        | [] => (false, passed')
        | e :: es' => (true, ⟨passed'.passed, e, es'⟩)) := by
  induction es generalizing ret passed current with
  | nil =>
    refine ⟨⟨passed, current, []⟩, ?_⟩
    rw [entriesLoop]
    rfl
  | cons e es ih =>
    rw [entriesLoop]
    simp only [Cursor.next]
    by_cases hsame : startKey.isEqualWithoutClientid e.1 = true
    · obtain ⟨passed', hrest⟩ := ih (ret.insert key.clientid e.2) (current :: passed) e
      refine ⟨passed', ?_⟩
      rw [if_neg (not_not.mpr hsame), hrest, List.takeWhile_cons_of_pos (by exact hsame),
        List.dropWhile_cons_of_pos (by exact hsame)]
      rfl
    · refine ⟨⟨current :: passed, e, es⟩, ?_⟩
      rw [if_pos hsame, List.takeWhile_cons_of_neg (by exact hsame),
        List.dropWhile_cons_of_neg (by exact hsame)]
      rfl

/-- The walk returns one map for each file. Induction on the number of entries that are left. -/
theorem iteration_ends (passed : Entries) (e : SIndexKey × Int) (es : Entries) (err : Bool)
    (rets : List (OrderedMap ClientId Int)) :
    Loop.Ends iterationTurn (⟨some ⟨passed, e, es⟩, err⟩, rets)
      (rets ++ (fileGroups (e :: es)).map returned) := by
  induction hn : es.length using Nat.strong_induction_on generalizing passed e es rets with
  | _ n ih =>
    obtain ⟨passed', hloop⟩ := entriesLoop_eq e.1 .zero
      (OrderedMap.empty.insert e.1.clientid e.2) passed e es
    have hturn := iterationTurn.eq_1 (⟨some ⟨passed, e, es⟩, err⟩, rets)
    simp only [getNextEntriesIteration, hloop] at hturn
    rw [fileGroups, List.map_cons, List.append_cons]
    cases hrest : es.dropWhile fun e' => e.1.isEqualWithoutClientid e'.1 with
    | nil =>
      rw [hrest] at hturn
      rw [fileGroups, List.map_nil, List.append_nil]
      exact .done hturn
    | cons e' es' =>
      rw [hrest] at hturn
      refine .turn hturn (ih es'.length ?_ _ e' es' _ rfl)
      have hle := List.length_dropWhile_le (fun e' => e.1.isEqualWithoutClientid e'.1) es
      rw [hrest, List.length_cons] at hle
      omega

end Groups

section Keys

theorem same_trans {a b c : SIndexKey} (hab : a.isEqualWithoutClientid b = true)
    (hbc : b.isEqualWithoutClientid c = true) : a.isEqualWithoutClientid c = true := by
  rw [SIndexKey.isEqualWithoutClientid_iff] at *
  exact ⟨hab.1.trans hbc.1, hab.2.trans hbc.2⟩

theorem same_symm {a b : SIndexKey} (h : a.isEqualWithoutClientid b = true) :
    b.isEqualWithoutClientid a = true := by
  rw [SIndexKey.isEqualWithoutClientid_comm]
  exact h

theorem withClient_lt {a b : SIndexKey} (h : a < b) (hother : a.isEqualWithoutClientid b = false)
    (c c' : ClientId) : a.withClient c < b.withClient c' := by
  rw [SIndexKey.lt_iff] at h ⊢
  rcases h with hhash | ⟨hhash, hsize | ⟨hsize, -⟩⟩
  · exact .inl hhash
  · exact .inr ⟨hhash, .inl hsize⟩
  · rw [SIndexKey.isEqualWithoutClientid_iff.mpr ⟨hhash, hsize⟩] at hother
    cases hother

end Keys

section Sorted

variable {e : SIndexKey × Int} {es : Entries}

theorem not_same_of_mem_dropWhile (h : (e :: es).Pairwise fun a b => a.1 < b.1)
    {e' : SIndexKey × Int} (he' : e' ∈ es.dropWhile fun b => e.1.isEqualWithoutClientid b.1) :
    e.1.isEqualWithoutClientid e'.1 = false := by
  obtain ⟨hhead, htail⟩ := List.pairwise_cons.mp h
  cases hdrop : es.dropWhile fun b => e.1.isEqualWithoutClientid b.1 with
  | nil =>
    rw [hdrop] at he'
    cases he'
  | cons d ds =>
    have hfirst : ¬ e.1.isEqualWithoutClientid d.1 = true := by
      have hnot := List.head_dropWhile_not (fun b : SIndexKey × Int =>
        e.1.isEqualWithoutClientid b.1) (l := es) (by rw [hdrop]; exact List.cons_ne_nil d ds)
      simp only [hdrop, List.head_cons] at hnot
      simp [hnot]
    have hsorted : (d :: ds).Pairwise fun a b => a.1 < b.1 := by
      rw [← hdrop]
      exact htail.sublist (List.dropWhile_sublist _)
    have hd : d ∈ es := (List.dropWhile_sublist _).subset (hdrop ▸ List.mem_cons_self)
    rw [hdrop] at he'
    by_contra hsame
    have hle : d.1 ≤ e'.1 := by
      rcases List.mem_cons.mp he' with rfl | he'
      · exact le_rfl
      · exact ((List.pairwise_cons.mp hsorted).1 e' he').le
    have hbetween := SIndexKey.isEqualWithoutClientid_of_le_of_le
      (Bool.of_not_eq_false hsame) (hhead d hd).le hle
    exact hfirst (same_trans (Bool.of_not_eq_false hsame) (same_symm hbetween))

theorem same_of_mem_takeWhile {e' : SIndexKey × Int}
    (h : e' ∈ e :: es.takeWhile fun b => e.1.isEqualWithoutClientid b.1) :
    e'.1.isEqualWithoutClientid e.1 = true := by
  rw [SIndexKey.isEqualWithoutClientid_comm]
  rcases List.mem_cons.mp h with rfl | h
  · simp
  · exact List.mem_takeWhile_imp (p := fun b : SIndexKey × Int =>
      e.1.isEqualWithoutClientid b.1) h

def fileKey (g : Entries) : SIndexKey :=
  match g with
  | [] => .zero
  | e :: _ => e.1.withClient 0

theorem entries_split (e : SIndexKey × Int) (es : Entries) :
    e :: es = (e :: es.takeWhile fun b => e.1.isEqualWithoutClientid b.1) ++
      es.dropWhile fun b => e.1.isEqualWithoutClientid b.1 := by
  rw [List.cons_append, List.takeWhile_append_dropWhile]

theorem mem_fileKeys {k : SIndexKey} : k ∈ (fileGroups es).map fileKey ↔
    k.clientid = 0 ∧ ∃ e ∈ es, e.1.isEqualWithoutClientid k = true := by
  induction es using fileGroups.induct with
  | case1 => simp [fileGroups]
  | case2 e es ih =>
    have hkey : k = e.1.withClient 0 ↔
        k.clientid = 0 ∧ e.1.isEqualWithoutClientid k = true := by
      constructor
      · rintro rfl
        exact ⟨rfl, same_symm (SIndexKey.isEqualWithoutClientid_withClient e.1 0)⟩
      · rintro ⟨hzero, hsame⟩
        rw [SIndexKey.eq_withClient (same_symm hsame), hzero]
    rw [fileGroups, List.map_cons, List.mem_cons, ih]
    change k = e.1.withClient 0 ∨ _ ↔ _
    rw [hkey]
    constructor
    · rintro (⟨hzero, hsame⟩ | ⟨hzero, e', he', hsame⟩)
      · exact ⟨hzero, e, List.mem_cons_self, hsame⟩
      · exact ⟨hzero, e', List.mem_cons_of_mem _ ((List.dropWhile_sublist _).subset he'), hsame⟩
    · rintro ⟨hzero, e', he', hsame⟩
      rw [entries_split e es, List.mem_append] at he'
      rcases he' with he' | he'
      · refine .inl ⟨hzero, ?_⟩
        exact same_trans (same_symm (same_of_mem_takeWhile he')) hsame
      · exact .inr ⟨hzero, e', he', hsame⟩

theorem fileKeys_sorted (h : es.Pairwise fun a b => a.1 < b.1) :
    ((fileGroups es).map fileKey).Pairwise (· < ·) := by
  induction es using fileGroups.induct with
  | case1 =>
    rw [fileGroups]
    exact List.Pairwise.nil
  | case2 e es ih =>
    rw [fileGroups, List.map_cons]
    have hrest := (List.pairwise_cons.mp h).2.sublist (List.dropWhile_sublist
      fun b => e.1.isEqualWithoutClientid b.1)
    refine List.pairwise_cons.mpr ⟨?_, ih hrest⟩
    intro k hk
    obtain ⟨hzero, e', he', hsame⟩ := mem_fileKeys.mp hk
    have hlt := (List.pairwise_cons.mp h).1 e' ((List.dropWhile_sublist _).subset he')
    rw [SIndexKey.eq_withClient (same_symm hsame), hzero]
    exact withClient_lt hlt (not_same_of_mem_dropWhile h he') 0 0

theorem clients_spec (h : es.Pairwise fun a b => a.1 < b.1) :
    List.Forall₂ (fun k ret => ∀ c, ret.find? c = OrderedMap.findEntry (k.withClient c) es)
      ((fileGroups es).map fileKey) ((fileGroups es).map clients) := by
  induction es using fileGroups.induct with
  | case1 =>
    rw [fileGroups]
    exact .nil
  | case2 e es ih =>
    have hrest := (List.pairwise_cons.mp h).2.sublist (List.dropWhile_sublist
      fun b => e.1.isEqualWithoutClientid b.1)
    rw [fileGroups, List.map_cons, List.map_cons]
    refine .cons ?_ ?_
    · intro c
      have hsame : ∀ e' ∈ e :: es.takeWhile fun b => e.1.isEqualWithoutClientid b.1,
          e'.1.isEqualWithoutClientid e.1 = true := fun e' he' => same_of_mem_takeWhile he'
      have hfile : (e :: es.takeWhile fun b => e.1.isEqualWithoutClientid b.1).Pairwise
          fun a b => a.1 < b.1 := by
        rw [entries_split e es] at h
        exact (List.pairwise_append.mp h).1
      change (clients _).find? c = OrderedMap.findEntry (e.1.withClient c) (e :: es)
      unfold clients
      rw [OrderedMap.find?_insertAll _ (clients_ne hfile hsame), findEntry_clients c hsame]
      ext v
      simp only [OrderedMap.find?_empty, Option.or_none]
      rw [OrderedMap.findEntry_eq_some hfile, OrderedMap.findEntry_eq_some h]
      conv_rhs => rw [entries_split e es, List.mem_append]
      refine ⟨.inl, fun hmem => hmem.resolve_right ?_⟩
      intro hmem
      have hsame := same_symm (SIndexKey.isEqualWithoutClientid_withClient e.1 c)
      exact Bool.eq_false_iff.mp (not_same_of_mem_dropWhile h hmem) hsame
    · have hkeys : ∀ k ∈ (fileGroups (es.dropWhile fun b => e.1.isEqualWithoutClientid b.1)).map
          fileKey, e.1.isEqualWithoutClientid k = false := by
        intro k hk
        obtain ⟨-, e', he', hsame⟩ := mem_fileKeys.mp hk
        refine Bool.eq_false_iff.mpr fun hk => ?_
        exact Bool.eq_false_iff.mp (not_same_of_mem_dropWhile h he')
          (same_trans hk (same_symm hsame))
      refine ((List.forall₂_and_left _ _).mpr ⟨hkeys, ih hrest⟩).imp ?_
      rintro k ret ⟨hother, hret⟩ c
      rw [hret c]
      ext v
      rw [OrderedMap.findEntry_eq_some hrest, OrderedMap.findEntry_eq_some h]
      conv_rhs => rw [entries_split e es, List.mem_append]
      refine ⟨.inr, fun hmem => hmem.resolve_left ?_⟩
      intro hmem
      have hsame := same_trans (same_symm (same_of_mem_takeWhile hmem))
        (SIndexKey.isEqualWithoutClientid_withClient k c)
      exact Bool.eq_false_iff.mp hother hsame

end Sorted

section Result

variable {t : Table} {rets rets' : List (OrderedMap ClientId Int)}

theorem yieldsFiles_clients (t : Table) : YieldsFiles t ((fileGroups t.entries).map clients) :=
  ⟨_, fileKeys_sorted t.sorted, fun _ => mem_fileKeys, clients_spec t.sorted⟩

theorem YieldsFiles.unique (h : YieldsFiles t rets) (h' : YieldsFiles t rets') : rets = rets' := by
  obtain ⟨files, hsorted, hmem, hrets⟩ := h
  obtain ⟨files', hsorted', hmem', hrets'⟩ := h'
  have hnodup : ∀ {l : List SIndexKey}, l.Pairwise (· < ·) → l.Nodup := fun hl =>
    hl.imp fun hlt => hlt.ne
  have hperm : files.Perm files' :=
    (List.perm_ext_iff_of_nodup (hnodup hsorted) (hnodup hsorted')).mpr fun k =>
      (hmem k).trans (hmem' k).symm
  have hfiles : files = files' := by
    apply hperm.eq_of_pairwise _ hsorted hsorted'
    intro a b _ _ hab hba
    exact absurd (hab.trans hba) (lt_irrefl _)
  subst hfiles
  clear hmem hmem' hsorted hsorted' hnodup hperm
  induction hrets generalizing rets' with
  | nil =>
    cases hrets'
    rfl
  | cons hret _ ih =>
    cases hrets' with
    | cons hret' hrest' =>
      congr 1
      · apply OrderedMap.ext
        intro c
        rw [hret c, hret' c]
      · exact ih hrest'

theorem returned_other {c : ClientId} (hc : c ≠ 0) (es : Entries) (ret : OrderedMap ClientId Int) :
    (es.foldl (fun ret e' => ret.insert SIndexKey.zero.clientid e'.2) ret).find? c =
      ret.find? c := by
  induction es generalizing ret with
  | nil => rfl
  | cons e es ih =>
    have hkey : SIndexKey.zero.clientid ≠ c := Ne.symm hc
    rw [List.foldl_cons, ih, OrderedMap.find?_insert, if_neg hkey]

theorem returned_eq_clients_iff {e : SIndexKey × Int} {es : Entries}
    (hsorted : (e :: es).Pairwise fun a b => a.1 < b.1)
    (hsame : ∀ e' ∈ e :: es, e'.1.isEqualWithoutClientid e.1 = true) :
    returned (e :: es) = clients (e :: es) ↔ es = [] := by
  constructor
  · intro heq
    cases es with
    | nil => rfl
    | cons e' es =>
      have hmem : e' ∈ e :: e' :: es := List.mem_cons_of_mem _ List.mem_cons_self
      have hlt : e.1.clientid < e'.1.clientid :=
        (SIndexKey.lt_iff_clientid_lt (same_symm (hsame e' hmem))).mp
          ((List.pairwise_cons.mp hsorted).1 e' List.mem_cons_self)
      have hfound : (returned (e :: e' :: es)).find? e'.1.clientid =
          (clients (e :: e' :: es)).find? e'.1.clientid := by rw [heq]
      rw [returned, returned_other (Fin.pos_iff_ne_zero.mp (Nat.zero_le _ |>.trans_lt hlt)),
        OrderedMap.find?_insert, if_neg hlt.ne, clients,
        OrderedMap.find?_insertAll _ (clients_ne hsorted hsame), findEntry_clients _ hsame,
        ← SIndexKey.eq_withClient (hsame e' hmem),
        (OrderedMap.findEntry_eq_some hsorted).mpr hmem] at hfound
      cases hfound
  · rintro rfl
    rfl

theorem returned_eq_iff {es : Entries} (h : es.Pairwise fun a b => a.1 < b.1) :
    (fileGroups es).map returned = (fileGroups es).map clients ↔
      es.Pairwise fun a b => a.1.isEqualWithoutClientid b.1 = false := by
  induction es using fileGroups.induct with
  | case1 => simp [fileGroups]
  | case2 e es ih =>
    have hrest := (List.pairwise_cons.mp h).2.sublist (List.dropWhile_sublist
      fun b => e.1.isEqualWithoutClientid b.1)
    have hfile := h
    rw [entries_split e es] at hfile
    have hone := returned_eq_clients_iff (List.pairwise_append.mp hfile).1
      fun e' he' => same_of_mem_takeWhile he'
    rw [fileGroups, List.map_cons, List.map_cons, List.cons.injEq, hone, ih hrest,
      List.pairwise_cons]
    constructor
    · rintro ⟨hnone, hothers⟩
      have hall : (es.dropWhile fun b => e.1.isEqualWithoutClientid b.1) = es := by
        have hsplit := List.takeWhile_append_dropWhile (l := es)
          (p := fun b : SIndexKey × Int => e.1.isEqualWithoutClientid b.1)
        rw [hnone] at hsplit
        exact hsplit
      rw [hall] at hothers
      exact ⟨fun e' he' => not_same_of_mem_dropWhile h (hall.symm ▸ he'), hothers⟩
    · rintro ⟨hnone, hothers⟩
      refine ⟨?_, hothers.sublist (List.dropWhile_sublist _)⟩
      cases es with
      | nil => rfl
      | cons e' es =>
        rw [List.takeWhile_cons_of_neg]
        simp [hnone e' List.mem_cons_self]

theorem iteration_result (t : Table) (err : Bool) :
    Loop.Ends iterationTurn (startIteration t err, [])
      (if t.entries = [] then [.empty] else (fileGroups t.entries).map returned) := by
  have hall : t.lowerBound .zero = t.entries := by
    unfold OrderedMap.lowerBound
    rw [List.dropWhile_eq_self_iff]
    intro _
    simpa using SIndexKey.zero_le _
  have hstart : startIteration t err = match t.entries with
      | [] => ⟨none, true⟩
      | e :: es => ⟨some ⟨(t.before .zero).reverse, e, es⟩, err⟩ := by
    unfold startIteration Cursor.setRange
    rw [hall]
    cases t.entries <;> rfl
  rw [hstart]
  cases hentries : t.entries with
  | nil =>
    rw [if_pos rfl]
    exact .done rfl
  | cons e es =>
    rw [if_neg (List.cons_ne_nil e es)]
    exact iteration_ends _ e es err []

theorem yieldsFiles_iff (t : Table) (err : Bool) :
    (∃ rets, Loop.Ends iterationTurn (startIteration t err, []) rets ∧ YieldsFiles t rets) ↔
      t.entries ≠ [] ∧ t.entries.Pairwise fun a b => a.1.isEqualWithoutClientid b.1 = false := by
  have hresult := iteration_result t err
  constructor
  · rintro ⟨rets, hends, hyields⟩
    have heq := hyields.unique (yieldsFiles_clients t)
    rw [hends.unique hresult] at heq
    by_cases hempty : t.entries = []
    · rw [if_pos hempty, hempty, fileGroups] at heq
      cases heq
    · rw [if_neg hempty] at heq
      exact ⟨hempty, (returned_eq_iff t.sorted).mp heq⟩
  · rintro ⟨hne, hsingle⟩
    rw [if_neg hne, (returned_eq_iff t.sorted).mpr hsingle] at hresult
    exact ⟨_, hresult, yieldsFiles_clients t⟩

/-- One client of a file is enough for the walk to return that file as it is, two are not. -/
theorem yields_files_iff_one_client (t : Table) (hasError : Bool) :
    (∃ rets, Loop.Ends iterationTurn (startIteration t hasError, []) rets ∧
      YieldsFiles t rets) ↔
    t.entries ≠ [] ∧ ∀ a ∈ t.entries, ∀ b ∈ t.entries,
      a.1.isEqualWithoutClientid b.1 = true → a = b := by
  rw [yieldsFiles_iff]
  refine and_congr_right fun _ => ?_
  constructor
  · intro hsingle a ha b hb
    have hsymm : Std.Symm fun a b : SIndexKey × Int =>
        a.1.isEqualWithoutClientid b.1 = true → a = b :=
      ⟨fun a b h hsame => (h (same_symm hsame)).symm⟩
    have hone : t.entries.Pairwise fun a b =>
        a.1.isEqualWithoutClientid b.1 = true → a = b :=
      hsingle.imp fun hother hsame => absurd hsame (Bool.eq_false_iff.mp hother)
    exact hone.forall_of_forall (fun _ _ _ => rfl) ha hb
  · intro hone
    refine (List.Pairwise.and_mem.mp t.sorted).imp ?_
    rintro a b ⟨ha, hb, hlt⟩
    refine Bool.eq_false_iff.mpr fun hsame => ?_
    exact hlt.ne (congrArg Prod.fst (hone a ha b hb hsame))

def sharedFile : Table where
  entries := [(⟨Vector.replicate 16 7, 4096, 1⟩, 5), (⟨Vector.replicate 16 7, 4096, 2⟩, 6)]
  sorted := by
    refine List.pairwise_pair.mpr ((SIndexKey.lt_iff_clientid_lt ?_).mpr ?_)
    · exact SIndexKey.isEqualWithoutClientid_iff.mpr ⟨rfl, rfl⟩
    · decide

theorem second_client_is_lost : ¬ ∀ (t : Table) (hasError : Bool), ∃ rets,
    Loop.Ends iterationTurn (startIteration t hasError, []) rets ∧ YieldsFiles t rets := by
  intro h
  have hsingle := ((yieldsFiles_iff sharedFile false).mp (h sharedFile false)).2
  have hother := (List.pairwise_cons.mp hsingle).1 _ List.mem_cons_self
  exact Bool.eq_false_iff.mp hother (SIndexKey.isEqualWithoutClientid_iff.mpr ⟨rfl, rfl⟩)

end Result

end FileIndex

end UrBackup
