import UrBackup.Files.RemoveBackupLedger

/-! Removing a backup row by row and removing it in one transaction, as runs: both delete the
same entries of the ledger in the same order. -/
namespace UrBackup

open FilesTable

namespace Sweep

/-- The ledger without the rows that were taken out but are still in the table. -/
def ledger (sw : Sweep) (gone : List Int) : Ledger :=
  ⟨fun a => if a ∈ gone then none else sw.rows a, sw.store.index.index.logical⟩

/-- The removal of a backup after the rows in `gone`. -/
structure Going (backupid : Int) (gone : List Int) (sw : Sweep) : Prop where
  unread : ∀ row ∈ sw.todo, sw.store.files.find? row.1 = some row.2
  range : ∀ row ∈ sw.todo, sw.correction.needsCorrection row.1 = true
  nodup : (sw.todo.map Prod.fst).Nodup
  fresh : ∀ row ∈ sw.todo, row.1 ∉ gone
  owned : ∀ a, (sw.store.files.find? a).map FileEntry.backupid = some backupid ↔
    (sw.store.files.find? a).isSome = true ∧ (a ∈ gone ∨ a ∈ sw.todo.map Prod.fst)
  bounded : sw.Bounded
  writer : ∃ p, WriterState.Splits sw.store.index p

section Rows

variable {rows rows' : Int → Option FileEntry} {id a : Int} {e : FileEntry}

theorem update_congr {id : Option Int} {f : FileEntry → FileEntry} (h : rows a = rows' a) :
    Ledger.update rows id f a = Ledger.update rows' id f a := by
  unfold Ledger.update
  rw [h]

theorem rowsWithout_congr (h : rows a = rows' a) :
    Ledger.rowsWithout rows id e a = Ledger.rowsWithout rows' id e a := by
  unfold Ledger.rowsWithout
  rw [update_congr (update_congr (update_congr h))]

theorem update_none {id : Option Int} {f : FileEntry → FileEntry} (h : rows a = none) :
    Ledger.update rows id f a = none := by
  unfold Ledger.update
  rw [h]
  exact ite_self _

theorem rowsWithout_none (h : rows a = none) : Ledger.rowsWithout rows id e a = none := by
  unfold Ledger.rowsWithout
  rw [update_none (update_none (update_none h)), ite_self]

end Rows

theorem correct_consume {c : SInMemCorrection} {id a : Int} (h : a ≠ id) (e : FileEntry) :
    (c.consume id).correct a e = c.correct a e := by
  simp only [SInMemCorrection.correct, SInMemCorrection.consume, OrderedMap.find?_erase,
    if_neg h.symm]

section Next

variable {backupid : Int} {gone : List Int} {sw sw' : Sweep}

/-- The rows that are still to come are as they were, so each is taken out with the values it
would have had in the table. -/
theorem next_going (h : Going backupid gone sw) (hs : sw.next = some sw') :
    ∃ id, sw.todo.map Prod.fst = id :: sw'.todo.map Prod.fst ∧
      Going backupid (id :: gone) sw' ∧ sw'.ledger (id :: gone) = (sw.ledger gone).delete id := by
  unfold next at hs
  split at hs
  · cases hs
  · rename_i id e todo htodo
    have hmem : (id, e) ∈ sw.todo := htodo ▸ List.mem_cons_self
    have hfind := h.unread _ hmem
    have hrange := h.range _ hmem
    have hnodup := h.nodup
    rw [htodo, List.map_cons, List.nodup_cons] at hnodup
    have hbounded : Bounded { sw with
        correction := sw.correction.consume id
        todo
        modifiedFileEntryIndex :=
          sw.modifiedFileEntryIndex || (sw.correction.correct id e).pointedTo } := by
      intro a ha r
      have hne : a ≠ id := by
        rintro rfl
        exact absurd (hrange.symm.trans ha) Bool.noConfusion
      exact (correct_consume hne r).trans (h.bounded a ha r)
    obtain ⟨hsame, hrows, hindex, htouched⟩ := deleteFileSQL_spec hbounded hs
    have hin : ∀ row ∈ sw'.todo, row ∈ sw.todo := by
      rw [hsame.todo, htodo]
      exact fun row hrow => List.mem_cons_of_mem _ hrow
    have hisSome : ∀ a, (sw'.store.files.find? a).isSome = (sw.store.files.find? a).isSome := by
      intro a
      have hback := congrArg Option.isSome (hsame.backup a)
      rwa [Option.isSome_map, Option.isSome_map] at hback
    refine ⟨id, by rw [htodo, List.map_cons, hsame.todo], ?_, ?_⟩
    · constructor
      · intro row hrow
        rw [hsame.kept row.1 (h.range row (hin row hrow))]
        exact h.unread row (hin row hrow)
      · intro row hrow
        exact (hsame.needs row.1).trans (h.range row (hin row hrow))
      · rw [hsame.todo]
        exact hnodup.2
      · intro row hrow
        rw [List.mem_cons, not_or]
        refine ⟨?_, h.fresh row (hin row hrow)⟩
        rintro rfl
        rw [hsame.todo] at hrow
        exact hnodup.1 (List.mem_map.mpr ⟨row, hrow, rfl⟩)
      · intro a
        have hown := h.owned a
        rw [htodo, List.map_cons, List.mem_cons, or_left_comm, ← or_assoc, ← List.mem_cons] at hown
        rw [hsame.backup a, hisSome a, hsame.todo]
        exact hown
      · exact hsame.bounded hbounded
      · exact htouched.splits h.writer
    · have hid : (sw.ledger gone).rows id = some (sw.correction.correct id e) := by
        simp only [ledger, rows, if_neg (h.fresh _ hmem), hfind, Option.map_some]
      unfold Ledger.delete
      rw [hid]
      simp only [ledger, Ledger.mk.injEq]
      refine ⟨?_, hindex⟩
      funext a
      by_cases ha : a = id
      · rw [ha, if_pos List.mem_cons_self, Ledger.rowsWithout, if_pos rfl]
      · by_cases hgone : a ∈ gone
        · rw [if_pos (List.mem_cons_of_mem _ hgone)]
          exact (rowsWithout_none (if_pos hgone)).symm
        · rw [if_neg fun hcons => hgone ((List.mem_cons.mp hcons).resolve_left ha), hrows a ha]
          apply rowsWithout_congr
          simp only [if_neg hgone, rows]
          congr 1
          funext r
          exact correct_consume ha r

end Next

end Sweep

namespace Store

theorem indexStep_ledger {s s' : Store} {e : WriterEvent}
    (hwriter : ∃ p, WriterState.Splits s.index p) (h : s.indexStep e = some s') :
    s'.ledger = s.ledger ∧ s'.files = s.files ∧ ∃ p, WriterState.Splits s'.index p := by
  obtain ⟨p, hsplit⟩ := hwriter
  unfold indexStep at h
  split at h
  · cases h
  · rename_i hput
    obtain ⟨index, hindex, rfl⟩ := Option.map_eq_some_iff.mp h
    obtain ⟨p', hsplit', -⟩ := WriterState.splits_step hsplit hindex
    refine ⟨?_, rfl, p', hsplit'⟩
    simp only [ledger, Ledger.mk.injEq, true_and]
    funext key
    exact WriterState.step_logical hsplit hindex hput key

end Store

namespace Sweep

variable {backupid : Int} {gone : List Int} {sw sw' : Sweep}

def target (sw : Sweep) (gone : List Int) : Ledger :=
  (sw.todo.map Prod.fst).foldl Ledger.delete (sw.ledger gone)

theorem step_going {e : SweepEvent} (h : Going backupid gone sw) (hs : sw.step e = some sw') :
    ∃ gone', Going backupid gone' sw' ∧ sw'.target gone' = sw.target gone := by
  cases e with
  | next =>
    obtain ⟨id, htodo, hgoing, hledger⟩ := next_going h hs
    refine ⟨id :: gone, hgoing, ?_⟩
    rw [target, hledger, target, htodo, List.foldl_cons]
  | index e =>
    obtain ⟨s, hindex, rfl⟩ := Option.map_eq_some_iff.mp hs
    obtain ⟨hledger, hfiles, hwriter⟩ := Store.indexStep_ledger h.writer hindex
    refine ⟨gone, ⟨?_, h.range, h.nodup, h.fresh, ?_, h.bounded, hwriter⟩, ?_⟩
    · intro row hrow
      simp only [hfiles]
      exact h.unread row hrow
    · intro a
      simp only [hfiles]
      exact h.owned a
    · have hindex : s.index.index.logical = sw.store.index.index.logical :=
        congrArg Ledger.index hledger
      simp only [target, ledger, rows, hfiles, hindex]

theorem run_going {es : List SweepEvent} (h : Going backupid gone sw)
    (hrun : TransitionSystem.run step sw es = some sw') :
    ∃ gone', Going backupid gone' sw' ∧ sw'.target gone' = sw.target gone := by
  refine @TransitionSystem.run_invariant _ _ step
    (fun sw' => ∃ gone', Going backupid gone' sw' ∧ sw'.target gone' = sw.target gone)
    ?_ sw sw' es ⟨gone, h, rfl⟩ hrun
  rintro sw₁ e sw₂ ⟨gone₁, hgoing, htarget⟩ hs
  obtain ⟨gone₂, hgoing₂, htarget₂⟩ := step_going hgoing hs
  exact ⟨gone₂, hgoing₂, htarget₂.trans htarget⟩

section Finish

variable {ν : Type*}

theorem find?_foldl_update (f : ν → FileEntry → FileEntry) {es : List (Int × ν)}
    (hkeys : es.Pairwise fun a b => a.1 ≠ b.1) (t : FilesTable) (a : Int) :
    (es.foldl (fun t e => FilesTable.update t e.1 (f e.2)) t).find? a =
      (t.find? a).map fun r =>
        ((OrderedMap.findEntry a es).map fun v => f v r).getD r := by
  induction es generalizing t with
  | nil => simp [OrderedMap.findEntry]
  | cons e es ih =>
    obtain ⟨hhead, htail⟩ := List.pairwise_cons.mp hkeys
    rw [List.foldl_cons, ih htail, find?_update, OrderedMap.findEntry]
    by_cases ha : e.1 = a
    · have hnone : OrderedMap.findEntry a es = none :=
        OrderedMap.findEntry_none fun e' he' heq => hhead e' he' (ha.trans heq.symm)
      rw [if_pos ha, if_pos ha, hnone, Option.map_map]
      rfl
    · rw [if_neg ha, if_neg ha]

theorem find?_writeCorrections (c : SInMemCorrection) (t : FilesTable) (a : Int) :
    (writeCorrections c t).find? a = (t.find? a).map (c.correct a) := by
  have hnext := find?_foldl_update (fun v r => { r with nextEntry := v }) c.nextEntries.entries_keys_ne
  have hprev := find?_foldl_update (fun v r => { r with prevEntry := v }) c.prevEntries.entries_keys_ne
  have hpoint := find?_foldl_update (fun v r => { r with pointedTo := v }) c.pointedTo.entries_keys_ne
  unfold writeCorrections
  simp only
  refine (hpoint _ a).trans ?_
  refine (congrArg (Option.map _) (hprev _ a)).trans ?_
  refine (congrArg (Option.map _) (congrArg (Option.map _) (hnext t a))).trans ?_
  rw [Option.map_map, Option.map_map]
  congr 1
  funext r
  simp only [Function.comp_apply, SInMemCorrection.correct, OrderedMap.find?]
  cases OrderedMap.findEntry a c.nextEntries.entries <;>
    cases OrderedMap.findEntry a c.prevEntries.entries <;>
      cases OrderedMap.findEntry a c.pointedTo.entries <;> rfl

theorem finish_ledger (h : Going backupid gone sw) (htodo : sw.todo = []) :
    (sw.finish backupid).ledger = sw.ledger gone := by
  simp only [Store.ledger, finish, ledger, Ledger.mk.injEq, and_true]
  funext a
  have hown := h.owned a
  rw [deleteFiles, OrderedMap.find?_filterValues, find?_writeCorrections, rows]
  cases hfind : sw.store.files.find? a with
  | none => simp
  | some e =>
    rw [hfind, htodo] at hown
    simp only [Option.map_some, Option.some.injEq, Option.isSome_some, true_and, List.map_nil,
      List.not_mem_nil, or_false] at hown
    have hback : (sw.correction.correct a e).backupid = e.backupid := rfl
    by_cases hgone : a ∈ gone
    · rw [if_pos hgone, Option.map_some, Option.filter_some, hback, hown.mpr hgone]
      simp
    · have hne : e.backupid ≠ backupid := fun heq => hgone (hown.mp heq)
      rw [if_neg hgone, Option.map_some, Option.filter_some, hback]
      simp [hne]

end Finish

end Sweep

namespace Store

variable {s s₁ s₂ : Store} {backupid : Int} {rows : List (Int × FileEntry)}

/-- The cursor yields every row of the backup once. -/
def Cursor (s : Store) (backupid : Int) (rows : List (Int × FileEntry)) : Prop :=
  rows.Perm (s.files.entries.filter fun row => row.2.backupid = backupid)

/-- Calls that delete the entries in this order, with the index at work in between. -/
inductive Deletes : List Int → List StoreEvent → Prop
  | nil : Deletes [] []
  | delete (id : Int) {ids : List Int} {es : List StoreEvent} (h : Deletes ids es) :
      Deletes (id :: ids) (.delete id :: es)
  | index (e : WriterEvent) {ids : List Int} {es : List StoreEvent} (h : Deletes ids es) :
      Deletes ids (.index e :: es)

theorem mem_cursor (h : Cursor s backupid rows) {row : Int × FileEntry} :
    row ∈ rows ↔ s.files.find? row.1 = some row.2 ∧ row.2.backupid = backupid := by
  rw [List.Perm.mem_iff h, List.mem_filter, ← OrderedMap.find?_eq_some_iff, decide_eq_true_iff]

theorem minMax_spec {t : FilesTable} {row : Int × FileEntry} (hfind : t.find? row.1 = some row.2)
    (hback : row.2.backupid = backupid) :
    (t.getBackupIdMinMax backupid).1 ≤ row.1 ∧ row.1 ≤ (t.getBackupIdMinMax backupid).2 := by
  have hmem : row ∈ t.entries.filter fun row => row.2.backupid = backupid :=
    List.mem_filter.mpr ⟨OrderedMap.find?_eq_some_iff.mp hfind, decide_eq_true hback⟩
  have hsorted := t.sorted.filter fun row => row.2.backupid = backupid
  unfold getBackupIdMinMax
  simp only
  generalize t.entries.filter (fun row => decide (row.2.backupid = backupid)) = es at hmem hsorted
  constructor
  · cases es with
    | nil => cases hmem
    | cons first es =>
      rcases List.mem_cons.mp hmem with rfl | hrest
      · exact le_refl _
      · exact le_of_lt ((List.pairwise_cons.mp hsorted).1 row hrest)
  · cases hlast : es.getLast? with
    | none =>
      rw [List.getLast?_eq_none_iff.mp hlast] at hmem
      cases hmem
    | some last =>
      obtain ⟨front, rfl⟩ := List.getLast?_eq_some_iff.mp hlast
      rcases List.mem_append.mp hmem with hfront | hrest
      · exact le_of_lt ((List.pairwise_append.mp hsorted).2.2 row hfront last (by simp))
      · rw [List.mem_singleton.mp hrest]
        exact le_refl _

theorem start_correct (s : Store) (backupid : Int) (rows : List (Int × FileEntry)) (a : Int)
    (e : FileEntry) : (Sweep.start s backupid rows).correction.correct a e = e := rfl

theorem start_going (hwriter : ∃ p, WriterState.Splits s.index p)
    (hcursor : Cursor s backupid rows) :
    Sweep.Going backupid [] (Sweep.start s backupid rows) := by
  constructor
  · exact fun row hrow => ((mem_cursor hcursor).mp hrow).1
  · intro row hrow
    obtain ⟨hfind, hback⟩ := (mem_cursor hcursor).mp hrow
    exact decide_eq_true (minMax_spec hfind hback)
  · have hkeys := (s.files.entries_keys_ne.filter fun row => row.2.backupid = backupid)
    exact (hcursor.map Prod.fst).nodup_iff.mpr (List.pairwise_map.mpr hkeys)
  · exact fun _ _ => List.not_mem_nil
  · intro a
    rw [Option.map_eq_some_iff]
    constructor
    · rintro ⟨e, hfind, hback⟩
      refine ⟨Option.isSome_of_eq_some hfind, .inr (List.mem_map.mpr ⟨(a, e), ?_, rfl⟩)⟩
      exact (mem_cursor hcursor).mpr ⟨hfind, hback⟩
    · rintro ⟨-, hmem⟩
      obtain ⟨row, hrow, rfl⟩ := List.mem_map.mp (hmem.resolve_left List.not_mem_nil)
      exact ⟨row.2, (mem_cursor hcursor).mp hrow⟩
  · exact fun a _ e => start_correct s backupid rows a e
  · exact hwriter

theorem start_target (s : Store) (backupid : Int) (rows : List (Int × FileEntry)) :
    (Sweep.start s backupid rows).target [] = (rows.map Prod.fst).foldl Ledger.delete s.ledger := by
  have hrows : (Sweep.start s backupid rows).rows = s.files.find? := by
    funext a
    exact Option.map_id' ..
  unfold Sweep.target Sweep.ledger
  rw [hrows]
  rfl

theorem deletes_ledger {ids : List Int} {es : List StoreEvent}
    (hwriter : ∃ p, WriterState.Splits s.index p) (hdel : Deletes ids es)
    (hrun : TransitionSystem.run step s es = some s₁) :
    s₁.ledger = ids.foldl Ledger.delete s.ledger := by
  induction hdel generalizing s with
  | nil =>
    cases hrun
    rfl
  | delete id _ ih =>
    obtain ⟨s', hstep, hrest⟩ := TransitionSystem.run_cons hrun
    rw [List.foldl_cons, ← deleteFileSQL_ledger hstep]
    exact ih ((deleteFileSQL_touched hstep).splits hwriter) hrest
  | index e _ ih =>
    obtain ⟨s', hstep, hrest⟩ := TransitionSystem.run_cons hrun
    obtain ⟨hledger, -, hwriter'⟩ := indexStep_ledger hwriter hstep
    rw [← hledger]
    exact ih hwriter' hrest

theorem indexRun_ledger {es : List WriterEvent} (hwriter : ∃ p, WriterState.Splits s.index p)
    (hrun : TransitionSystem.run indexStep s es = some s₁) : s₁.ledger = s.ledger := by
  have hkept : s₁.ledger = s.ledger ∧ ∃ p, WriterState.Splits s₁.index p := by
    refine @TransitionSystem.run_invariant _ _ indexStep
      (fun s' => s'.ledger = s.ledger ∧ ∃ p, WriterState.Splits s'.index p) ?_ s s₁ es
      ⟨rfl, hwriter⟩ hrun
    rintro s' e s'' ⟨hledger, hwriter'⟩ hstep
    obtain ⟨hledger', -, hwriter''⟩ := indexStep_ledger hwriter' hstep
    exact ⟨hledger'.trans hledger, hwriter''⟩
  exact hkept.1

theorem removeFileBackupSql_ledger {t : ThreadId} {es : List SweepEvent} {es' : List WriterEvent}
    (hwriter : ∃ p, WriterState.Splits s.index p) (hcursor : Cursor s backupid rows)
    (hremove : s.removeFileBackupSql backupid rows t es es' = some s₁) :
    s₁.ledger = (rows.map Prod.fst).foldl Ledger.delete s.ledger := by
  obtain ⟨sw, hrun, hend⟩ := Option.bind_eq_some_iff.mp hremove
  obtain ⟨gone, hgoing, htarget⟩ := Sweep.run_going (start_going hwriter hcursor) hrun
  rw [start_target] at htarget
  split at hend
  · rename_i htodo
    have hfinish : (sw.finish backupid).ledger = (rows.map Prod.fst).foldl Ledger.delete s.ledger := by
      rw [Sweep.finish_ledger hgoing htodo, ← htarget, Sweep.target, htodo]
      rfl
    have hwriter' : ∃ p, WriterState.Splits (sw.finish backupid).index p := hgoing.writer
    split at hend
    · exact (indexRun_ledger hwriter' hend).trans hfinish
    · cases hend
      exact hfinish
  · cases hend

theorem deletes_consistent {H : Set (List UInt8)} {ids : List Int} {es : List StoreEvent}
    (h : Consistent H s) (hdel : Deletes ids es)
    (hrun : TransitionSystem.run step s es = some s₁) : Consistent H s₁ := by
  induction hdel generalizing s with
  | nil =>
    cases hrun
    exact h
  | delete id _ ih =>
    obtain ⟨s', hstep, hrest⟩ := TransitionSystem.run_cons hrun
    exact ih (deleteFileSQL_consistent h hstep) hrest
  | index e _ ih =>
    obtain ⟨s', hstep, hrest⟩ := TransitionSystem.run_cons hrun
    exact ih (indexStep_consistent h hstep) hrest

theorem files_eq_of_ledger (h : s₁.ledger = s₂.ledger) : s₁.files = s₂.files :=
  OrderedMap.ext fun a => congrFun (congrArg Ledger.rows h) a

theorem rows_delete_none {l : Ledger} {id a : Int} (h : l.rows a = none ∨ a = id) :
    (l.delete id).rows a = none := by
  unfold Ledger.delete
  cases hid : l.rows id with
  | none =>
    rcases h with h | rfl
    · exact h
    · exact hid
  | some e =>
    rcases h with h | rfl
    · exact Sweep.rowsWithout_none h
    · exact if_pos rfl

theorem rows_deletes_none {ids : List Int} {l : Ledger} {a : Int} (h : l.rows a = none ∨ a ∈ ids) :
    (ids.foldl Ledger.delete l).rows a = none := by
  induction ids generalizing l with
  | nil => exact h.resolve_right List.not_mem_nil
  | cons id ids ih =>
    apply ih
    rcases h with h | h
    · exact .inl (rows_delete_none (.inl h))
    · rcases List.mem_cons.mp h with rfl | h
      · exact .inl (rows_delete_none (.inr rfl))
      · exact .inr h

/-- Removing a backup leaves the table and the index that deleting its rows one by one leaves,
and no link and no index entry leads to a row that is gone. -/
theorem removeFileBackupSql_eq_deletes {t : ThreadId} {es : List SweepEvent}
    {es' : List WriterEvent} {ds : List StoreEvent}
    (hwriter : ∃ p, WriterState.Splits s.index p) (hcursor : Cursor s backupid rows)
    (hremove : s.removeFileBackupSql backupid rows t es es' = some s₁)
    (hdeletes : Deletes (rows.map Prod.fst) ds)
    (hrun : TransitionSystem.run step s ds = some s₂) :
    s₁.files = s₂.files ∧ s₁.index.index.logical = s₂.index.index.logical ∧
      (∀ row ∈ rows, s₁.files.find? row.1 = none) ∧
      (Consistent Set.univ s → WellLinked s₁.files ∧ Indexed s₁.files s₁.index.index) := by
  have hledger := removeFileBackupSql_ledger hwriter hcursor hremove
  have heq : s₁.ledger = s₂.ledger := hledger.trans (deletes_ledger hwriter hdeletes hrun).symm
  have hfiles := files_eq_of_ledger heq
  have hindex : s₁.index.index.logical = s₂.index.index.logical := congrArg Ledger.index heq
  refine ⟨hfiles, hindex, ?_, ?_⟩
  · intro row hrow
    have hnone := @rows_deletes_none (rows.map Prod.fst) s.ledger row.1
      (.inr (List.mem_map.mpr ⟨row, hrow, rfl⟩))
    rw [← hledger] at hnone
    exact hnone
  · intro hcons
    obtain ⟨hfilesok, hindexed, -⟩ := deletes_consistent hcons hdeletes hrun
    rw [hfiles]
    refine ⟨hfilesok.chained.linked, ?_⟩
    unfold Indexed
    rw [hindex]
    exact hindexed

theorem Consistent.mono {H H' : Set (List UInt8)} (h : Consistent H s) (hsub : H ⊆ H') :
    Consistent H' s :=
  ⟨⟨h.files.chained, h.files.small, fun id e he => hsub (h.files.hashes id e he)⟩, h.indexed,
    h.writer⟩

/-- A file of the first backup, with a copy in the second backup and one more in the first. -/
def sharedFile (backupid : Int) : NewFile :=
  ⟨backupid, 1, 0, "a", "h", List.replicate 64 7, 4096, 4096, 1⟩

def sharedRun : List StoreEvent :=
  [.addNew (sharedFile 1) false, .addFound (sharedFile 2) 1 .initial true,
    .addFound (sharedFile 1) 1 .initial true]

def flushed : List WriterEvent := [.writerWake false, .writerWrite, .writerCommit, .writerClear]

theorem removeFileBackupSql_eq_deletes_sharedRun :
    ∃ s s₁ s₂ rows, TransitionSystem.run step initial sharedRun = some s ∧
      s.removeFileBackupSql 1 rows 0 [.next, .index (.writerWake true), .next]
        (.writerWrite :: .writerCommit :: .writerClear :: flushed) = some s₁ ∧
      TransitionSystem.run step s [.delete 1, .delete 3] = some s₂ ∧
      s₁.files = s₂.files ∧ WellLinked s₁.files ∧ Indexed s₁.files s₁.index.index := by
  obtain ⟨s, hs⟩ : ∃ s, TransitionSystem.run step initial sharedRun = some s := ⟨_, rfl⟩
  have hcons : Consistent {List.replicate 64 7} s := by
    apply run_consistent _ _ hs
    · rintro h rfl
      decide
    · intro e he
      simp only [sharedRun, List.mem_cons, List.not_mem_nil, or_false] at he
      rcases he with rfl | rfl | rfl <;> exact rfl
  have hdone : ∃ s₁ s₂ a b, s.removeFileBackupSql 1 [(1, a), (3, b)] 0
        [.next, .index (.writerWake true), .next]
        (.writerWrite :: .writerCommit :: .writerClear :: flushed) = some s₁ ∧
      TransitionSystem.run step s [.delete 1, .delete 3] = some s₂ ∧
      Cursor s 1 [(1, a), (3, b)] := by
    cases hs
    exact ⟨_, _, _, _, rfl, rfl, .refl _⟩
  obtain ⟨s₁, s₂, a, b, hremove, hdelete, hcursor⟩ := hdone
  obtain ⟨hfiles, -, -, hvalid⟩ := removeFileBackupSql_eq_deletes hcons.writer hcursor hremove
    (.delete 1 (.delete 3 .nil)) hdelete
  obtain ⟨hlinked, hindexed⟩ := hvalid (hcons.mono (Set.subset_univ _))
  exact ⟨s, s₁, s₂, _, hs, hremove, hdelete, hfiles, hlinked, hindexed⟩

def smallEntry : FileEntry := ⟨1, "a", "h", List.replicate 64 7, 100, 100, 1, 0, 0, 0, true, 1⟩

def smallStore : Store where
  files := OrderedMap.empty.insert 1 smallEntry
  index := (WriterState.initial.putDelayed smallEntry.key 1).getD .initial
  incoming := []

/-- The entry of a small file goes and stays in the index. -/
theorem removeFileBackupSql_dangles :
    WellLinked smallStore.files ∧ Indexed smallStore.files smallStore.index.index ∧
      (∃ p, WriterState.Splits smallStore.index p) ∧ Cursor smallStore 1 [(1, smallEntry)] ∧
      ∃ s₁, smallStore.removeFileBackupSql 1 [(1, smallEntry)] 0 [.next] flushed = some s₁ ∧
        s₁.files.find? 1 = none ∧ s₁.index.index.logical smallEntry.key = 1 := by
  have hput : WriterState.initial.putDelayed smallEntry.key 1 = some smallStore.index := rfl
  have hlogical : ∀ key, smallStore.index.index.logical key =
      if smallEntry.key = key then 1 else 0 := by
    intro key
    rw [WriterState.putDelayed_index hput, FileIndex.logical_putDelayed]
    rfl
  refine ⟨?_, ?_, ?_, .refl _, _, rfl, rfl, ?_⟩
  · decide
  · intro key hne
    rw [hlogical] at hne ⊢
    by_cases hkey : smallEntry.key = key
    · rw [if_pos hkey]
      exact ⟨smallEntry, rfl, hkey, rfl⟩
    · exact absurd (if_neg hkey) hne
  · exact ⟨_, (WriterState.splits_putDelayed WriterState.splits_initial rfl).1⟩
  · decide

end Store

end UrBackup
