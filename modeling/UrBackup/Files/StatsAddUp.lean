import UrBackup.Files.Holders
import UrBackup.Lib.Run

/-! The statistics after a pass are the usage of the clients: every add and delete logs what it
changes, as long as a search misses no other client. -/
namespace UrBackup

open FilesTable Shares ServerUpdateStats

namespace Store

/-- The log grows by what the usage of the clients changes. -/
def Accounts (s s' : Store) : Prop :=
  ∃ added, s'.incoming = s.incoming ++ added ∧
    ∀ c, s'.files.bytesUsed c = s.files.bytesUsed c + (added.map fun entry => effect entry c.val).sum

section Accounting

variable {s s' : Store}

theorem accounts_one {entry : IncomingFile} (hlog : s'.incoming = s.incoming ++ [entry])
    (h : ∀ c, s'.files.bytesUsed c = s.files.bytesUsed c + effect entry c.val) :
    Accounts s s' := by
  refine ⟨[entry], hlog, ?_⟩
  intro c
  rw [List.map_singleton, List.sum_singleton]
  exact h c

theorem accounts_none (hlog : s'.incoming = s.incoming)
    (h : ∀ c, s'.files.bytesUsed c = s.files.bytesUsed c) : Accounts s s' := by
  refine ⟨[], by rw [hlog, List.append_nil], ?_⟩
  intro c
  rw [h c]
  exact (Int.add_zero _).symm

end Accounting

section Add

variable {s s' : Store} {f : NewFile}

/-- How a client and its new entry come into the log: once, before its first row. -/
structure Joins (s : Store) (f : NewFile) (prevEntry : Int) (incoming : List IncomingFile) :
    Prop where
  joined : f.clientid ∉ s.files.clientsOf f.file → prevEntry = 0 ∧
    ∃ entry, incoming = s.incoming ++ [entry] ∧ ∀ c, effect entry c.val =
      share f.filesize.val (insert f.clientid (s.files.clientsOf f.file)) c -
        share f.filesize.val (s.files.clientsOf f.file) c
  there : f.clientid ∈ s.files.clientsOf f.file → prevEntry ≠ 0 ∧ incoming = s.incoming

theorem effect_incomingFile {clients : String} {L : List ClientId}
    (hclients : parseClients clients = L.map fun c => (c.val : Int)) (hnodup : L.Nodup)
    (hnew : f.clientid ∉ L) (c : ClientId) :
    effect (incomingFile f clients) c.val =
      share f.filesize.val (insert f.clientid L.toFinset) c - share f.filesize.val L.toFinset c :=
  @effect_join (incomingFile f clients) L rfl hclients hnodup hnew c

theorem placeNew_joins (h : Held s) (hlarge : linkFileMinSize ≤ f.filesize.val)
    (hcollision : s.NoCollision f.file) {prevEntryClientid : Int}
    (hzero : prevEntryClientid = 0 → s.files.clientsOf f.file = ∅) (updateFileindex : Bool) :
    Joins s f (s.placeNew f prevEntryClientid updateFileindex).prevEntry
      (s.placeNew f prevEntryClientid updateFileindex).incoming := by
  have hholders := @Held.mem_holders s f.file h hlarge hcollision f.clientid
  unfold placeNew
  by_cases hclient : prevEntryClientid = 0
  · rw [if_neg (not_not.mpr hclient)]
    dsimp only
    rw [if_pos rfl]
    have hempty := hzero hclient
    refine ⟨fun _ => ⟨rfl, _, rfl, ?_⟩, ?_⟩
    · have heffect := @effect_incomingFile f "" [] rfl List.nodup_nil List.not_mem_nil
      rw [hempty]
      exact heffect
    · intro hmem
      rw [hempty] at hmem
      exact absurd hmem (Finset.notMem_empty _)
  · rw [if_pos hclient]
    have hfirst := clientsLoop_allClients s f.clientid f.shahash f.filesize
    have hlist := parseClients_holders s f.file f.clientid
    cases hloop : clientsLoop f.clientid (0, "") (s.allClients f.shahash f.filesize).entries with
    | mk prevEntry clients =>
      rw [hloop] at hfirst
      have hindex : prevEntry = s.index.index.logical f.key := hfirst
      have hparse : parseClients clients = (s.holders f.file).map fun c => (c.val : Int) := by
        rw [← hlist]
        exact congrArg (fun r => parseClients r.2) hloop.symm
      have hkey : f.clientid ∈ s.files.clientsOf f.file ↔ prevEntry ≠ 0 := by
        rw [← hholders, Store.mem_holders]
        exact not_congr (Eq.congr_left hfirst.symm)
      dsimp only
      by_cases hprev : prevEntry = 0
      · rw [if_pos hprev]
        have hnew : f.clientid ∉ s.files.clientsOf f.file := fun hmem => hkey.mp hmem hprev
        refine ⟨fun _ => ⟨rfl, _, rfl, ?_⟩, fun hmem => absurd hmem hnew⟩
        have heffect := effect_incomingFile hparse (holders_nodup s f.file)
          (fun hmem => hnew (hholders.mp hmem))
        rw [h.toFinset_holders hlarge hcollision] at heffect
        exact heffect
      · rw [if_neg hprev]
        have hne : s.index.index.logical f.key ≠ 0 := fun hzero => hprev (hfirst.trans hzero)
        obtain ⟨e, he, -⟩ := h.consistent.indexed f.key hne
        have hget : getFileEntry s.files prevEntry = some e := by
          rw [hindex]
          exact he
        rw [hget]
        exact ⟨fun hnew => absurd (hkey.mpr hprev) hnew, fun _ => ⟨hprev, rfl⟩⟩

theorem place_joins (h : Held s) (hlarge : linkFileMinSize ≤ f.filesize.val)
    (hcollision : s.NoCollision f.file) {prevEntry prevEntryClientid nextEntry : Int}
    (hfound : Found s f prevEntry prevEntryClientid nextEntry)
    (hzero : prevEntryClientid = 0 → s.files.clientsOf f.file = ∅) (updateFileindex : Bool)
    {place : Placement}
    (hplace : place = if prevEntryClientid ≠ f.clientid.val ∨ prevEntry = 0 then
      s.placeNew f prevEntryClientid updateFileindex
      else ⟨prevEntry, nextEntry, updateFileindex, s.incoming⟩) :
    Joins s f place.prevEntry place.incoming := by
  by_cases hnew : prevEntryClientid ≠ f.clientid.val ∨ prevEntry = 0
  · rw [hplace, if_pos hnew]
    exact placeNew_joins h hlarge hcollision hzero updateFileindex
  · rw [hplace, if_neg hnew]
    rw [not_or, not_not] at hnew
    rcases hfound with ⟨hnone, -, -⟩ | ⟨hne, e, he, hkey, hclient, -⟩
    · exact absurd hnone hnew.2
    · have hsame : e.clientid = f.clientid :=
        Fin.ext (Int.ofNat_inj.mp (hclient.symm.trans hnew.1))
      rw [hsame] at hkey
      have hmem : f.clientid ∈ s.files.clientsOf f.file := by
        rw [mem_clientsOf, ← hcollision.held_eq he hkey]
        exact mem_rows.mpr ⟨_, e, he, rfl⟩
      exact ⟨fun hnot => absurd hmem hnot, fun _ => ⟨hne, rfl⟩⟩

theorem unpoint_eq (s : Store) (f : NewFile) (prevEntry : Int) :
    s.unpoint f prevEntry = s.files ∨ ∃ id, s.unpoint f prevEntry = setPointedTo s.files false id := by
  unfold unpoint
  split
  · exact .inr ⟨_, rfl⟩
  · dsimp only
    split
    · exact .inr ⟨_, rfl⟩
    · exact .inl rfl

theorem addFileSQL_inv {prevEntry prevEntryClientid nextEntry : Int} {updateFileindex : Bool}
    (hlarge : linkFileMinSize ≤ f.filesize.val)
    (hs : s.addFileSQL f prevEntry prevEntryClientid nextEntry updateFileindex = some s') :
    ∃ place put files,
      (place = if prevEntryClientid ≠ f.clientid.val ∨ prevEntry = 0 then
        s.placeNew f prevEntryClientid updateFileindex
        else ⟨prevEntry, nextEntry, updateFileindex, s.incoming⟩) ∧
      (put = false → prevEntryClientid = f.clientid.val ∧ prevEntry ≠ 0) ∧
      (files = s.files ∨ ∃ id, files = setPointedTo s.files false id) ∧
      s'.files = (addFileEntryExternal files (f.entry place.nextEntry place.prevEntry put)).1 ∧
      s'.incoming = place.incoming ∧
      ∀ key, s'.index.index.logical key =
        if put = true ∧ f.key = key then files.nextRowId else s.index.index.logical key := by
  unfold addFileSQL at hs
  rw [if_neg (not_lt.mpr hlarge)] at hs
  simp only [decide_eq_true_eq] at hs
  generalize hplace : (if prevEntryClientid ≠ f.clientid.val ∨ prevEntry = 0 then
      s.placeNew f prevEntryClientid updateFileindex
      else ⟨prevEntry, nextEntry, updateFileindex, s.incoming⟩ : Placement) = place at hs
  generalize hput : (decide (prevEntryClientid ≠ f.clientid.val ∨ prevEntry = 0) ||
    place.updateFileindex) = put at hs
  generalize hfiles : (if place.updateFileindex = true ∧ place.prevEntry ≠ 0 then
      s.unpoint f place.prevEntry else s.files) = files at hs
  refine ⟨place, put, files, rfl, ?_, ?_, ?_⟩
  · intro hfalse
    rw [hfalse, Bool.or_eq_false_iff, decide_eq_false_iff_not, not_or, not_not] at hput
    exact hput.1
  · rw [← hfiles]
    split
    · exact unpoint_eq s f place.prevEntry
    · exact .inl rfl
  · cases put with
    | true =>
      rw [if_pos rfl] at hs
      obtain ⟨index, hindex, rfl⟩ := Option.map_eq_some_iff.mp hs
      refine ⟨rfl, rfl, fun key => ?_⟩
      dsimp only
      rw [WriterState.putDelayed_index hindex, FileIndex.logical_putDelayed]
      exact if_congr (and_iff_right rfl).symm rfl rfl
    | false =>
      rw [if_neg Bool.false_ne_true, Option.some.injEq] at hs
      rw [← hs]
      exact ⟨rfl, rfl, fun key => (if_neg fun h => Bool.false_ne_true h.1).symm⟩

theorem addFileSQL_accounts (h : Held s) (hlarge : linkFileMinSize ≤ f.filesize.val)
    (hcollision : s.NoCollision f.file) (hclient : f.clientid ≠ 0)
    {prevEntry prevEntryClientid nextEntry : Int} {updateFileindex : Bool}
    (hfound : Found s f prevEntry prevEntryClientid nextEntry)
    (hzero : prevEntryClientid = 0 → s.files.clientsOf f.file = ∅)
    (hs : s.addFileSQL f prevEntry prevEntryClientid nextEntry updateFileindex = some s') :
    Held s' ∧ Accounts s s' := by
  have hconsistent := addFileSQL_consistent h.consistent trivial hfound hs
  obtain ⟨place, put, files, hplace, hput, hmarks, hfiles, hlog, hlogical⟩ :=
    addFileSQL_inv hlarge hs
  have hjoins := place_joins h hlarge hcollision hfound hzero updateFileindex hplace
  have hfits := fits_place h.consistent hfound updateFileindex put hplace
  have hstarts : Starts s.files (f.entry place.nextEntry place.prevEntry put) := by
    refine ⟨fun hsmall => absurd hsmall (not_lt.mpr hlarge), ?_, ?_, fun _ => hclient⟩
    · intro _ hprev a ea ha hkey
      exact (hjoins.there (hcollision.mem_clientsOf.mpr ⟨a, ea, ha, hkey⟩)).1 hprev
    · intro _ a ea ha hkey
      exact hcollision _ (mem_rows.mpr ⟨a, ea, ha, rfl⟩) hkey
  -- taking a mark away changes neither the chains nor what the clients have
  have hspec : Chained files ∧ OneChain files ∧
      Fits files (f.entry place.nextEntry place.prevEntry put) ∧
      Starts files (f.entry place.nextEntry place.prevEntry put) ∧ files.rows = s.files.rows := by
    rcases hmarks with rfl | ⟨id, rfl⟩
    · exact ⟨h.consistent.files.chained, h.chain, hfits, hstarts, rfl⟩
    · exact ⟨chained_setPointedTo h.consistent.files.chained false id,
        oneChain_setPointedTo h.chain false id, fits_setPointedTo hfits false,
        hstarts.setPointedTo false id, rows_setPointedTo s.files false id⟩
  obtain ⟨hchained, hone, hfits', hstarts', hrows⟩ := hspec
  have hperm : s'.files.rows.Perm ((f.file, f.clientid) :: s.files.rows) := by
    rw [hfiles, ← hrows]
    exact rows_add files _
  have hkept (key : SIndexKey) (hne : s.index.index.logical key ≠ 0) :
      s'.index.index.logical key ≠ 0 := by
    rw [hlogical]
    split
    · exact (nextRowId_pos hchained.positive).ne'
    · exact hne
  refine ⟨⟨hconsistent, hfiles ▸ oneChain_add hchained hone hfits' hstarts', ?_⟩, ?_⟩
  · intro id e he hsize
    have hrow : e.held ∈ s'.files.rows := mem_rows.mpr ⟨id, e, he, rfl⟩
    rcases List.mem_cons.mp (hperm.mem_iff.mp hrow) with hnew | hold
    · rw [FileEntry.key_congr hnew]
      by_cases hmem : f.clientid ∈ s.files.clientsOf f.file
      · exact hkept _ (Store.mem_holders.mp ((h.mem_holders hlarge hcollision).mpr hmem))
      · have hput' : put = true := by
          by_contra hfalse
          obtain ⟨hsame, hne⟩ := hput (Bool.eq_false_iff.mpr hfalse)
          rw [hplace, if_neg (not_or.mpr ⟨not_not.mpr hsame, hne⟩)] at hjoins
          exact hne (hjoins.joined hmem).1
        rw [hlogical, if_pos ⟨hput', rfl⟩]
        exact (nextRowId_pos hchained.positive).ne'
    · obtain ⟨id', e', he', hheld⟩ := mem_rows.mp hold
      have hkey : e'.key = e.key := by rw [e'.key_eq, e.key_eq, hheld]
      have hsame : e'.filesize = e.filesize := congrArg SIndexKey.filesize hkey
      exact hkept _ (hkey ▸ h.covered id' e' he' (hsame ▸ hsize))
  · by_cases hmem : f.clientid ∈ s.files.clientsOf f.file
    · apply accounts_none (hlog.trans (hjoins.there hmem).2)
      intro c
      rw [bytesUsed_cons_large hperm hlarge, Finset.insert_eq_of_mem hmem, Int.sub_self,
        Int.add_zero]
    · obtain ⟨-, entry, hentry, heffect⟩ := hjoins.joined hmem
      apply accounts_one (hlog.trans hentry)
      intro c
      rw [heffect]
      exact bytesUsed_cons_large hperm hlarge c

theorem addFileSQL_small_accounts (h : Held s) (hsmall : f.filesize.val < linkFileMinSize)
    {updateFileindex : Bool} (hs : s.addFileSQL f 0 0 0 updateFileindex = some s') :
    Held s' ∧ Accounts s s' := by
  have hconsistent := addFileSQL_small h.consistent trivial hsmall hs
  unfold addFileSQL at hs
  rw [if_pos hsmall, if_pos ⟨rfl, rfl, rfl⟩, Option.some.injEq] at hs
  have hfits := fits_nil s.files f false
  have hlarge (e : FileEntry) (hsize : linkFileMinSize ≤ e.filesize.val)
      (heq : e.filesize = f.filesize) : False :=
    absurd hsmall (not_lt.mpr (heq ▸ hsize))
  have hstarts : Starts s.files (f.entry 0 0 false) :=
    ⟨fun _ => rfl, fun hsize => (hlarge _ hsize rfl).elim, fun hsize => (hlarge _ hsize rfl).elim,
      fun hsize => (hlarge _ hsize rfl).elim⟩
  have hperm : s'.files.rows.Perm ((f.file, f.clientid) :: s.files.rows) := by
    rw [← hs]
    exact rows_add s.files _
  refine ⟨⟨hconsistent, ?_, ?_⟩, ?_⟩
  · rw [← hs]
    exact oneChain_add h.consistent.files.chained h.chain hfits hstarts
  · intro id e he hsize
    have hrow : e.held ∈ s'.files.rows := mem_rows.mpr ⟨id, e, he, rfl⟩
    rcases List.mem_cons.mp (hperm.mem_iff.mp hrow) with hnew | hold
    · exact (hlarge e hsize (congrArg (fun row => row.1.2) hnew)).elim
    · obtain ⟨id', e', he', hheld⟩ := mem_rows.mp hold
      have hkey : e'.key = e.key := by rw [e'.key_eq, e.key_eq, hheld]
      have hsame : e'.filesize = e.filesize := congrArg SIndexKey.filesize hkey
      have hcovered := h.covered id' e' he' (hsame ▸ hsize)
      rw [← hs]
      exact hkey ▸ hcovered
  · refine @accounts_one _ _ (incomingFile f "") ?_ ?_
    · rw [← hs]
    · intro c
      have heffect := @effect_incomingFile f "" [] rfl List.nodup_nil List.not_mem_nil c
      rw [heffect]
      refine (bytesUsed_cons_small hperm hsmall c).trans ?_
      rw [List.toFinset_nil, share_empty, Int.sub_zero]
      rfl

end Add

section Delete

variable {s s' : Store} {id : Int} {e : FileEntry}

theorem effect_outgoingFile {clients : String} {L : List ClientId} {withBackupstat : Bool}
    (hclients : parseClients clients = L.map fun c => (c.val : Int)) (hnodup : L.Nodup)
    (hold : e.clientid ∈ L) (c : ClientId) :
    effect (outgoingFile e clients withBackupstat) c.val =
      share e.filesize.val (L.toFinset.erase e.clientid) c - share e.filesize.val L.toFinset c := by
  have hdirection : (outgoingFile e clients withBackupstat).direction ≠ .incoming := by
    cases withBackupstat <;> exact fun h => IncomingDirection.noConfusion h
  exact @effect_leave (outgoingFile e clients withBackupstat) L hdirection hclients hnodup hold c

theorem rows_after (h : Consistent Set.univ s) (hid : s.files.find? id = some e) :
    s.files.rows.Perm (e.held :: (delFileEntry (unlink s.files e) id).rows) :=
  (rows_delete h.files.chained.linked.noZero hid).symm

theorem mem_rows_after (h : Consistent Set.univ s) {a : Int} {ea : FileEntry}
    (ha : (delFileEntry (unlink s.files e) id).find? a = some ea) :
    a ≠ id ∧ ∃ ea₀, s.files.find? a = some ea₀ ∧ ea₀.held = ea.held := by
  rw [find?_delete h.files.chained.linked.noZero] at ha
  split at ha
  next => cases ha
  next hne =>
    obtain ⟨ea₀, ha₀, rfl⟩ := Option.map_eq_some_iff.mp ha
    exact ⟨hne, ea₀, ha₀, rfl⟩

theorem dropLast_accounts (h : Held s) (hid : s.files.find? id = some e)
    (hlarge : linkFileMinSize ≤ e.filesize.val) (hprev : e.prevEntry = 0) (hnext : e.nextEntry = 0)
    {withBackupstat : Bool} (hs : s.dropLast id e withBackupstat = some s') :
    (∀ key, key ≠ e.key → s'.index.index.logical key = s.index.index.logical key) ∧
      ∃ entry, s'.incoming = s.incoming ++ [entry] ∧ ∀ c, effect entry c.val =
        share e.filesize.val ((s.files.clientsOf e.held.1).erase e.clientid) c -
          share e.filesize.val (s.files.clientsOf e.held.1) c := by
  have hcovered := h.covered id e hid hlarge
  obtain ⟨e', he', hkey, -⟩ := h.consistent.indexed e.key hcovered
  have hindex : s.index.index.logical e.key = id :=
    h.chain.only h.consistent.files.chained hid hlarge hprev hnext he' hkey
  have hne : id ≠ 0 := fun hzero => hcovered (hindex.trans hzero)
  have hall : (s.allClients e.shahash e.filesize).isEmpty = false :=
    @allClients_isEmpty s e.clientid _ _ hcovered
  have htarget : (s.targetEntry e).1 = id := by
    rw [targetEntry, hall]
    exact (clientsLoop_allClients s e.clientid e.shahash e.filesize).trans hindex
  have hlist : parseClients (s.targetEntry e).2 =
      (s.holders e.held.1).map fun c => (c.val : Int) := by
    rw [targetEntry, hall]
    exact parseClients_holders s e.held.1 e.clientid
  have hcollision := h.noCollision hid hlarge
  have hmem : e.clientid ∈ s.holders e.held.1 :=
    (h.mem_holders hlarge hcollision).mpr (mem_clientsOf.mpr (mem_rows.mpr ⟨id, e, hid, rfl⟩))
  have heffect := @effect_outgoingFile e _ _ withBackupstat hlist
    (holders_nodup s e.held.1) hmem
  rw [h.toFinset_holders hlarge hcollision] at heffect
  have hclients : (if (s.targetEntry e).1 = 0 then
      (if (s.targetEntry e).2.isEmpty then (s.targetEntry e).2 else (s.targetEntry e).2 ++ ",") ++
        toString e.clientid.val else (s.targetEntry e).2) = (s.targetEntry e).2 :=
    if_neg (htarget ▸ hne)
  unfold dropLast at hs
  dsimp only at hs
  rw [hclients] at hs
  split at hs
  · obtain ⟨index, hput, rfl⟩ := Option.map_eq_some_iff.mp hs
    refine ⟨?_, _, rfl, heffect⟩
    intro key hother
    dsimp only
    rw [WriterState.putDelayed_index hput, FileIndex.logical_putDelayed, if_neg (Ne.symm hother)]
  · rw [Option.some.injEq] at hs
    rw [← hs]
    exact ⟨fun _ _ => rfl, _, rfl, heffect⟩

theorem pointToNeighbour_frame (h : Consistent Set.univ s) (hid : s.files.find? id = some e)
    (hlinks : ¬ (e.prevEntry = 0 ∧ e.nextEntry = 0)) (hs : s.pointToNeighbour id e = some s') :
    s'.incoming = s.incoming ∧
      (s'.files = s.files ∨ ∃ a, s'.files = setPointedTo s.files true a) ∧
      ∀ key, s.index.index.logical key ≠ 0 → s'.index.index.logical key ≠ 0 := by
  have hput {value : Int} {index : WriterState} (hvalue : value ≠ 0)
      (hindex : s.index.putDelayed e.key value = some index) (key : SIndexKey)
      (hne : s.index.index.logical key ≠ 0) : index.index.logical key ≠ 0 := by
    rw [WriterState.putDelayed_index hindex, FileIndex.logical_putDelayed]
    split
    · exact hvalue
    · exact hne
  unfold pointToNeighbour at hs
  split at hs
  next hnext =>
    obtain ⟨index, hindex, rfl⟩ := Option.map_eq_some_iff.mp hs
    exact ⟨rfl, .inr ⟨_, rfl⟩, hput hnext.1 hindex⟩
  next hnext =>
    have hprev : e.prevEntry ≠ 0 := by
      intro hzero
      refine hnext ⟨fun hnone => hlinks ⟨hzero, hnone⟩, h.files.chained.next_ne_self hid⟩
    split at hs
    · obtain ⟨index, hindex, rfl⟩ := Option.map_eq_some_iff.mp hs
      exact ⟨rfl, .inr ⟨_, rfl⟩, hput hprev hindex⟩
    · cases hs
      exact ⟨rfl, .inl rfl, fun _ hne => hne⟩

section

variable (h : Held s) (hid : s.files.find? id = some e)

include h hid

theorem mem_clientsOf_after (hlarge : linkFileMinSize ≤ e.filesize.val)
    (hlinks : ¬ (e.prevEntry = 0 ∧ e.nextEntry = 0)) :
    e.clientid ∈ (delFileEntry (unlink s.files e) id).clientsOf e.held.1 := by
  have hchained := h.consistent.files.chained
  have hother : ∃ a ea, s.files.find? a = some ea ∧ ea.key = e.key ∧ a ≠ id := by
    by_cases hnext : e.nextEntry = 0
    · obtain ⟨ep, hep, hkey, -⟩ := hchained.linked.prev id e hid fun hprev => hlinks ⟨hprev, hnext⟩
      exact ⟨_, ep, hep, hkey, hchained.prev_ne_self hid⟩
    · obtain ⟨en, hen, hkey, -⟩ := hchained.linked.next id e hid hnext
      exact ⟨_, en, hen, hkey, hchained.next_ne_self hid⟩
  obtain ⟨a, ea, ha, hkey, hne⟩ := hother
  have hheld := (h.noCollision hid hlarge).held_eq ha hkey
  have hafter : (delFileEntry (unlink s.files e) id).find? a =
      some (patch e.prevEntry e.nextEntry e.nextEntry e.prevEntry a ea) := by
    rw [find?_delete hchained.linked.noZero, if_neg hne, ha]
    rfl
  exact mem_clientsOf.mpr (mem_rows.mpr ⟨a, _, hafter, hheld⟩)

theorem delete_small_accounts (hsmall : e.filesize.val < linkFileMinSize) {withBackupstat : Bool}
    (hs : s.deleteFileSQLEntry id e withBackupstat = some s') : Held s' ∧ Accounts s s' := by
  have hchained := h.consistent.files.chained
  have hconsistent := deleteFileSQLEntry_consistent h.consistent hid hs
  have hlast := h.chain.small_last hchained hid hsmall
  have hunlink := @unlink_of_no_links e s.files hlast.1 hlast.2
  have hperm := rows_after h.consistent hid
  unfold deleteFileSQLEntry at hs
  rw [if_pos hlast, if_pos hsmall, Option.some.injEq] at hs
  have hfiles : s'.files = delFileEntry (unlink s.files e) id := by
    rw [← hs, hunlink]
  rw [← hfiles] at hperm
  refine ⟨⟨hconsistent, ?_, ?_⟩, ?_⟩
  · rw [hfiles]
    exact oneChain_delete hchained h.chain hid
  · intro a ea ha hsize
    rw [hfiles] at ha
    obtain ⟨-, ea₀, ha₀, hheld⟩ := mem_rows_after h.consistent ha
    have hkey : ea₀.key = ea.key := by rw [ea₀.key_eq, ea.key_eq, hheld]
    have hsame : ea₀.filesize = ea.filesize := congrArg SIndexKey.filesize hkey
    have hcovered := h.covered a ea₀ ha₀ (hsame ▸ hsize)
    rw [← hs]
    exact hkey ▸ hcovered
  · refine @accounts_one _ _ (outgoingFile e (toString e.clientid.val) withBackupstat) ?_ ?_
    · rw [← hs]
    · intro c
      have heffect := @effect_outgoingFile e _ [e.clientid] withBackupstat
        (parseClients_toString e.clientid.val) (List.nodup_singleton _) List.mem_cons_self c
      have herase : [e.clientid].toFinset.erase e.clientid = ∅ := by
        rw [List.toFinset_cons, List.toFinset_nil, Finset.erase_insert (Finset.notMem_empty _)]
      have husage := bytesUsed_cons_small hperm hsmall c
      have hshare : share e.filesize.val [e.clientid].toFinset c =
          share e.held.1.2.val {e.held.2} c := rfl
      rw [heffect, herase, share_empty, husage, hshare]
      omega

theorem delete_last_accounts (hlarge : linkFileMinSize ≤ e.filesize.val)
    (hlast : e.prevEntry = 0 ∧ e.nextEntry = 0)
    {withBackupstat : Bool} (hs : s.deleteFileSQLEntry id e withBackupstat = some s') :
    Held s' ∧ Accounts s s' := by
  have hchained := h.consistent.files.chained
  have hconsistent := deleteFileSQLEntry_consistent h.consistent hid hs
  have hperm := rows_after h.consistent hid
  unfold deleteFileSQLEntry at hs
  rw [if_pos hlast, if_neg (not_lt.mpr hlarge)] at hs
  obtain ⟨s₁, hdrop, rfl⟩ := Option.map_eq_some_iff.mp hs
  obtain ⟨-, hfiles, -⟩ := dropLast_spec h.consistent hid hdrop
  obtain ⟨hlogical, entry, hlog, heffect⟩ :=
    dropLast_accounts h hid hlarge hlast.1 hlast.2 hdrop
  refine ⟨⟨hconsistent, ?_, ?_⟩, ?_⟩
  · dsimp only
    rw [hfiles]
    exact oneChain_delete hchained h.chain hid
  · intro a ea ha hsize
    dsimp only at ha ⊢
    rw [hfiles] at ha
    obtain ⟨hne, ea₀, ha₀, hheld⟩ := mem_rows_after h.consistent ha
    have hkey : ea₀.key = ea.key := by rw [ea₀.key_eq, ea.key_eq, hheld]
    have hsame : ea₀.filesize = ea.filesize := congrArg SIndexKey.filesize hkey
    have hother : ea.key ≠ e.key := fun heq =>
      hne (h.chain.only hchained hid hlarge hlast.1 hlast.2 ha₀ (hkey.trans heq))
    rw [hlogical _ hother]
    exact hkey ▸ h.covered a ea₀ ha₀ (hsame ▸ hsize)
  · refine @accounts_one _ _ entry hlog ?_
    intro c
    dsimp only
    rw [hfiles]
    have hgone : e.clientid ∉ (delFileEntry (unlink s.files e) id).clientsOf e.held.1 := by
      rw [mem_clientsOf, mem_rows]
      rintro ⟨a, ea, ha, hheld⟩
      obtain ⟨hne, ea₀, ha₀, hheld₀⟩ := mem_rows_after h.consistent ha
      have hkey : ea₀.key = e.key := by
        rw [ea₀.key_eq, hheld₀, hheld]
        rfl
      exact hne (h.chain.only hchained hid hlarge hlast.1 hlast.2 ha₀ hkey)
    have hbefore : (s.files.clientsOf e.held.1).erase e.clientid =
        (delFileEntry (unlink s.files e) id).clientsOf e.held.1 := by
      rw [clientsOf_cons hperm]
      exact Finset.erase_insert hgone
    have husage : s.files.bytesUsed c = (delFileEntry (unlink s.files e) id).bytesUsed c +
        (share e.filesize.val (s.files.clientsOf e.held.1) c -
          share e.filesize.val ((delFileEntry (unlink s.files e) id).clientsOf e.held.1) c) := by
      rw [clientsOf_cons hperm]
      exact bytesUsed_cons_large hperm hlarge c
    rw [heffect, hbefore, husage]
    omega

theorem delete_linked_accounts (hlinks : ¬ (e.prevEntry = 0 ∧ e.nextEntry = 0))
    {withBackupstat : Bool}
    (hs : s.deleteFileSQLEntry id e withBackupstat = some s') : Held s' ∧ Accounts s s' := by
  have hchained := h.consistent.files.chained
  have hlarge : linkFileMinSize ≤ e.filesize.val :=
    not_lt.mp fun hsmall => hlinks (h.chain.small_last hchained hid hsmall)
  have hconsistent := deleteFileSQLEntry_consistent h.consistent hid hs
  unfold deleteFileSQLEntry at hs
  rw [if_neg hlinks] at hs
  obtain ⟨s₁, hmove, rfl⟩ := Option.map_eq_some_iff.mp hs
  have hspec : s₁.incoming = s.incoming ∧ Consistent Set.univ s₁ ∧ OneChain s₁.files ∧
      s₁.files.find? id = some e ∧ s₁.files.rows = s.files.rows ∧
      ∀ key, s.index.index.logical key ≠ 0 → s₁.index.index.logical key ≠ 0 := by
    cases hpoint : e.pointedTo with
    | true =>
      rw [hpoint, if_pos rfl] at hmove
      obtain ⟨hcons, -, hid'⟩ := pointToNeighbour_spec h.consistent hid hpoint hlinks hmove
      obtain ⟨hlog, hmarks, hkept⟩ := pointToNeighbour_frame h.consistent hid hlinks hmove
      refine ⟨hlog, hcons, ?_, hid', ?_, hkept⟩
      · rcases hmarks with heq | ⟨a, heq⟩
        · exact heq ▸ h.chain
        · exact heq ▸ oneChain_setPointedTo h.chain true a
      · rcases hmarks with heq | ⟨a, heq⟩
        · rw [heq]
        · rw [heq, rows_setPointedTo]
    | false =>
      rw [hpoint, if_neg Bool.false_ne_true, Option.some.injEq] at hmove
      rw [← hmove]
      exact ⟨rfl, h.consistent, h.chain, hid, rfl, fun _ hne => hne⟩
  obtain ⟨hlog, hcons, hone, hid', hrows, hkept⟩ := hspec
  have hcovered (a : Int) (ea : FileEntry) (ha : s₁.files.find? a = some ea)
      (hsize : linkFileMinSize ≤ ea.filesize.val) : s₁.index.index.logical ea.key ≠ 0 := by
    have hrow : ea.held ∈ s.files.rows := by
      rw [← hrows]
      exact mem_rows.mpr ⟨a, ea, ha, rfl⟩
    obtain ⟨b, eb, hb, hheld⟩ := mem_rows.mp hrow
    have hkey : eb.key = ea.key := by rw [eb.key_eq, ea.key_eq, hheld]
    have hsame : eb.filesize = ea.filesize := congrArg SIndexKey.filesize hkey
    exact hkept _ (hkey ▸ h.covered b eb hb (hsame ▸ hsize))
  have hheld : Held s₁ := ⟨hcons, hone, hcovered⟩
  refine ⟨⟨hconsistent, oneChain_delete hcons.files.chained hone hid', ?_⟩, ?_⟩
  · intro a ea ha hsize
    obtain ⟨-, ea₀, ha₀, hheld₀⟩ := mem_rows_after hcons ha
    have hkey : ea₀.key = ea.key := by rw [ea₀.key_eq, ea.key_eq, hheld₀]
    have hsame : ea₀.filesize = ea.filesize := congrArg SIndexKey.filesize hkey
    exact hkey ▸ hcovered a ea₀ ha₀ (hsame ▸ hsize)
  · refine accounts_none hlog ?_
    intro c
    have hperm := rows_after hcons hid'
    rw [hrows] at hperm
    have hmem := mem_clientsOf_after hheld hid' hlarge hlinks
    have husage := bytesUsed_cons_large hperm hlarge c
    have hinsert : insert e.held.2 ((delFileEntry (unlink s₁.files e) id).clientsOf e.held.1) =
        (delFileEntry (unlink s₁.files e) id).clientsOf e.held.1 := Finset.insert_eq_of_mem hmem
    rw [hinsert, Int.sub_self, Int.add_zero] at husage
    exact husage.symm

end

theorem deleteFileSQL_accounts (h : Held s) (hs : s.deleteFileSQL id = some s') :
    Held s' ∧ Accounts s s' := by
  unfold deleteFileSQL at hs
  split at hs
  next e hid =>
    by_cases hlinks : e.prevEntry = 0 ∧ e.nextEntry = 0
    · by_cases hsmall : e.filesize.val < linkFileMinSize
      · exact delete_small_accounts h hid hsmall hs
      · exact delete_last_accounts h hid (not_lt.mp hsmall) hlinks hs
    · exact delete_linked_accounts h hid hlinks hs
  next =>
    cases hs
    exact ⟨h, accounts_none rfl fun _ => rfl⟩

end Delete

/-- An add for which the search misses nothing: a new file is new for every client, and no other
file has its key. -/
def Known (s : Store) : StoreEvent → Prop
  | .addNew f _ => linkFileMinSize ≤ f.filesize.val →
      f.clientid ≠ 0 ∧ s.NoCollision f.file ∧ ∀ row ∈ s.files.rows, row.1 ≠ f.file
  | .addFound f _ _ _ => linkFileMinSize ≤ f.filesize.val →
      f.clientid ≠ 0 ∧ s.NoCollision f.file ∧ bytesInIndex ≤ f.shahash.length
  | _ => True

instance (s : Store) (file : SharedFile) : Decidable (s.NoCollision file) :=
  inferInstanceAs (Decidable (∀ row ∈ s.files.rows, fileKey row.1 0 = fileKey file 0 →
    row.1.1 = file.1))

instance (s : Store) (e : StoreEvent) : Decidable (s.Known e) :=
  match e with
  | .addNew f _ => inferInstanceAs (Decidable (linkFileMinSize ≤ f.filesize.val →
      f.clientid ≠ 0 ∧ s.NoCollision f.file ∧ ∀ row ∈ s.files.rows, row.1 ≠ f.file))
  | .addFound f _ _ _ => inferInstanceAs (Decidable (linkFileMinSize ≤ f.filesize.val →
      f.clientid ≠ 0 ∧ s.NoCollision f.file ∧ bytesInIndex ≤ f.shahash.length))
  | .delete _ => .isTrue trivial
  | .index _ => .isTrue trivial

section Steps

variable {s s' : Store} {f : NewFile}

theorem clientsOf_eq_empty {file : SharedFile} (h : ∀ row ∈ s.files.rows, row.1 ≠ file) :
    s.files.clientsOf file = ∅ := by
  apply Finset.eq_empty_of_forall_notMem
  intro c hc
  exact h _ (mem_clientsOf.mp hc) rfl

theorem findFileHash_ne_zero {clientid : ClientId} {st st' : SFindState} {id : Int} {e : FileEntry}
    (h : s.findFileHash f.shahash f.filesize clientid st = some (some (id, e), st')) : id ≠ 0 := by
  unfold findFileHash at h
  obtain ⟨entryid, st₁, saveOrig⟩ := s.nextCandidate f.shahash f.filesize clientid st
  dsimp only at h
  split at h
  next => cases h
  next hne =>
    split at h
    · cases h
    · split at h
      · cases h
      · split at h
        · cases h
        · cases h
          exact hne

theorem addFound_accounts (h : Held s) {clientid : ClientId} {st : SFindState}
    {updateFileindex : Bool} (hknown : s.Known (.addFound f clientid st updateFileindex))
    (hs : s.step (.addFound f clientid st updateFileindex) = some s') : Held s' ∧ Accounts s s' := by
  unfold step at hs
  dsimp only at hs
  split at hs
  next id e st' hfind =>
    by_cases hlarge : linkFileMinSize ≤ f.filesize.val
    · obtain ⟨hclient, hcollision, hlong⟩ := hknown hlarge
      obtain ⟨hne, hid, hkey⟩ := findFileHash_found hlong hfind
      have hsize : e.filesize = f.filesize := congrArg SIndexKey.filesize hkey
      have hother : e.clientid ≠ 0 := h.chain.clients id e hid (hsize ▸ hlarge)
      refine addFileSQL_accounts h hlarge hcollision hclient (.inr ⟨hne, e, hid, hkey, rfl, rfl⟩)
        (fun hzero => ?_) hs
      exact absurd (Fin.ext (Int.ofNat_inj.mp hzero)) hother
    · unfold addFileSQL at hs
      rw [if_pos (not_le.mp hlarge),
        if_neg fun hargs => findFileHash_ne_zero hfind hargs.2.1] at hs
      cases hs
  next => cases hs

theorem step_accounts {e : StoreEvent} (h : Held s) (hknown : s.Known e)
    (hs : s.step e = some s') : Held s' ∧ Accounts s s' := by
  cases e with
  | addNew f updateFileindex =>
    by_cases hlarge : linkFileMinSize ≤ f.filesize.val
    · obtain ⟨hclient, hcollision, hnew⟩ := hknown hlarge
      exact addFileSQL_accounts h hlarge hcollision hclient (.inl ⟨rfl, rfl, rfl⟩)
        (fun _ => clientsOf_eq_empty hnew) hs
    · exact addFileSQL_small_accounts h (not_le.mp hlarge) hs
  | addFound f clientid st updateFileindex => exact addFound_accounts h hknown hs
  | delete id => exact deleteFileSQL_accounts h hs
  | index e =>
    have hcons := indexStep_consistent h.consistent hs
    unfold step indexStep at hs
    dsimp only at hs
    split at hs
    next => cases hs
    next hput =>
      obtain ⟨index, hindex, rfl⟩ := Option.map_eq_some_iff.mp hs
      obtain ⟨p, hsplit⟩ := h.consistent.writer
      refine ⟨⟨hcons, h.chain, ?_⟩, accounts_none rfl fun _ => rfl⟩
      intro a ea ha hsize
      rw [WriterState.step_logical hsplit hindex hput]
      exact h.covered a ea ha hsize

theorem held_initial : Held initial := by
  refine ⟨consistent_initial _, ⟨?_, ?_, ?_, ?_⟩, ?_⟩
  · intro id e he
    cases he
  · intro a b ea eb ha
    cases ha
  · intro a b ea eb ha
    cases ha
  · intro id e he
    cases he
  · intro id e he
    cases he

end Steps

end Store

namespace FileStats

/-- The statistics and the log together make up the usage. -/
structure Balanced (s : FileStats) : Prop where
  held : s.store.Held
  balance : ∀ c : ClientId, s.bytesUsedFiles c.val +
    (s.store.incoming.map fun entry => effect entry c.val).sum = s.store.files.bytesUsed c

/-- The adds of a run miss nothing. -/
def Known (s : FileStats) : StatsEvent → Prop
  | .store e => s.store.Known e
  | .updateFiles => True

instance (s : FileStats) (e : StatsEvent) : Decidable (s.Known e) :=
  match e with
  | .store e => inferInstanceAs (Decidable (s.store.Known e))
  | .updateFiles => .isTrue trivial

theorem balanced_initial : Balanced initial := by
  refine ⟨Store.held_initial, ?_⟩
  intro c
  rw [bytesUsed_eq_zero fun _ hrow => absurd hrow List.not_mem_nil]
  rfl

theorem balanced_step {s s' : FileStats} {e : StatsEvent} (h : Balanced s) (hknown : s.Known e)
    (hs : s.step e = some s') : Balanced s' := by
  cases e with
  | store e =>
    obtain ⟨store, hstore, rfl⟩ := Option.map_eq_some_iff.mp hs
    obtain ⟨hheld, added, hlog, husage⟩ := Store.step_accounts h.held hknown hstore
    refine ⟨hheld, ?_⟩
    intro c
    dsimp only
    rw [hlog, husage c, List.map_append, List.sum_append, ← h.balance c, Int.add_assoc]
  | updateFiles =>
    cases hs
    refine ⟨⟨⟨h.held.consistent.files, h.held.consistent.indexed, h.held.consistent.writer⟩,
      h.held.chain, h.held.covered⟩, ?_⟩
    intro c
    dsimp only
    rw [updateFiles_eq, List.map_nil, List.sum_nil, Int.add_zero]
    exact h.balance c

/-- After a pass each client has in the statistics what it uses. -/
theorem statistics_add_up {es : List StatsEvent} {s s' : FileStats}
    (hrun : TransitionSystem.run step initial es = some s)
    (hknown : TransitionSystem.Guarded step Known initial es)
    (hpass : s.step .updateFiles = some s') (c : ClientId) :
    s'.bytesUsedFiles c.val = s'.store.files.bytesUsed c ∧ 0 ≤ s'.bytesUsedFiles c.val ∧
      ((∀ row ∈ s'.store.files.rows, row.2 ≠ c) → s'.bytesUsedFiles c.val = 0) := by
  have hbalanced := TransitionSystem.guarded_run_invariant
    (fun _ _ _ h hknown hs => balanced_step h hknown hs) balanced_initial hknown hrun
  have hafter := (@balanced_step s s' .updateFiles hbalanced trivial hpass).balance c
  cases hpass
  dsimp only at hafter ⊢
  rw [List.map_nil, List.sum_nil, Int.add_zero] at hafter
  rw [hafter]
  exact ⟨rfl, bytesUsed_nonneg _ c, bytesUsed_eq_zero⟩

def copyOf (clientid : ClientId) : NewFile := { Store.copiedFile with clientid }

/-- The second client comes first, so the search of the first one finds it. -/
def foundRun : List StatsEvent :=
  [.store (.addNew (copyOf 2) false), .store (.addFound (copyOf 1) 1 .initial false)]

theorem statistics_add_up_foundRun :
    ∃ s s', TransitionSystem.run step initial foundRun = some s ∧
      s.step .updateFiles = some s' ∧ s'.bytesUsedFiles 1 = 2048 := by
  have hsome : ((TransitionSystem.run step initial foundRun).map
      fun s => s.store.files.bytesUsed 1) = some 2048 := by decide +kernel
  obtain ⟨s, hrun, husage⟩ := Option.map_eq_some_iff.mp hsome
  have hknown : TransitionSystem.Guarded step Known initial foundRun := by decide +kernel
  refine ⟨s, _, hrun, rfl, ?_⟩
  have hadds := (statistics_add_up hrun hknown rfl 1).1
  exact hadds.trans husage

/-- A file is added as a new one when the search for it has found none. -/
def Searched (s : FileStats) : StatsEvent → Prop
  | .store (.addNew f _) => linkFileMinSize ≤ f.filesize.val →
      (s.store.findFileHash f.shahash f.filesize f.clientid .initial).map Prod.fst = some none
  | _ => True

instance (s : FileStats) (e : StatsEvent) : Decidable (s.Searched e) :=
  match e with
  | .store (.addNew f _) => inferInstanceAs (Decidable (linkFileMinSize ≤ f.filesize.val →
      (s.store.findFileHash f.shahash f.filesize f.clientid .initial).map Prod.fst = some none))
  | .store (.addFound ..) => .isTrue trivial
  | .store (.delete _) => .isTrue trivial
  | .store (.index _) => .isTrue trivial
  | .updateFiles => .isTrue trivial

def missedRun : List StatsEvent :=
  [.store (.addNew (copyOf 1) false), .store (.addNew (copyOf 2) false)]

/-- Both clients are charged with the whole file. -/
theorem missed_client_is_not_shared :
    ¬ ∀ (es : List StatsEvent) (s s' : FileStats), TransitionSystem.run step initial es = some s →
      TransitionSystem.Guarded step Searched initial es → s.step .updateFiles = some s' →
      ∀ c : ClientId, s'.bytesUsedFiles c.val = s'.store.files.bytesUsed c := by
  intro hclaim
  have hsome : ((TransitionSystem.run step initial missedRun).bind fun s =>
      (s.step .updateFiles).map fun s' => (s'.bytesUsedFiles 1, s'.store.files.bytesUsed 1)) =
      some (4096, 2048) := by decide +kernel
  obtain ⟨s, hrun, hpass⟩ := Option.bind_eq_some_iff.mp hsome
  obtain ⟨s', hstep, husage⟩ := Option.map_eq_some_iff.mp hpass
  have hsearched : TransitionSystem.Guarded step Searched initial missedRun := by decide +kernel
  obtain ⟨hstats, hused⟩ := Prod.mk.inj husage
  have heq := hclaim missedRun s s' hrun hsearched hstep 1
  rw [hused] at heq
  exact absurd (hstats.symm.trans heq) (by decide)

end FileStats

end UrBackup
