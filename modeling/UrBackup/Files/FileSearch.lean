import UrBackup.Files.StoreInvariant
import UrBackup.Lib.LinkedChain

/-! Searching for copies of a file, call after call: the chain of the client that the index
prefers, then the chains of all clients that the index lists. -/
namespace UrBackup

open LinkedChain

namespace FilesTable

def neighbour (t : FilesTable) (link : FileEntry → Int) (id : Int) : Option Int :=
  (t.find? id).bind fun e => if link e = 0 then none else some (link e)

abbrev newer (t : FilesTable) : Int → Option Int := neighbour t FileEntry.nextEntry

abbrev older (t : FilesTable) : Int → Option Int := neighbour t FileEntry.prevEntry

theorem neighbour_eq_some {t : FilesTable} {link : FileEntry → Int} {a b : Int} :
    neighbour t link a = some b ↔ ∃ e, t.find? a = some e ∧ link e ≠ 0 ∧ link e = b := by
  unfold neighbour
  rw [Option.bind_eq_some_iff]
  apply exists_congr
  intro e
  by_cases hzero : link e = 0
  · simp [hzero]
  · simp [hzero]

theorem neighbour_eq_none {t : FilesTable} {link : FileEntry → Int} {a : Int} {e : FileEntry}
    (h : t.find? a = some e) : neighbour t link a = none ↔ link e = 0 := by
  rw [neighbour, h]
  by_cases hzero : link e = 0
  · simp [hzero]
  · simp [hzero]

end FilesTable

open FilesTable

/-- The hash and the size as the search compares them. -/
def FileEntry.IsFile (pHash : List UInt8) (filesize : FileSize) (e : FileEntry) : Prop :=
  e.shahash.take pHash.length = pHash ∧ e.filesize = filesize

/-- Links are mutual between entries of one file and client, and never close to a ring. -/
structure FilesTable.FileLinks (t : FilesTable) : Prop where
  noZero : t.find? 0 = none
  next : ∀ a ea, t.find? a = some ea → ea.nextEntry ≠ 0 →
    ∃ eb, t.find? ea.nextEntry = some eb ∧ Store.SameFile ea eb ∧ eb.prevEntry = a
  prev : ∀ b eb, t.find? b = some eb → eb.prevEntry ≠ 0 →
    ∃ ea, t.find? eb.prevEntry = some ea ∧ Store.SameFile ea eb ∧ ea.nextEntry = b
  ranked : Ranked t

namespace Store

def clientEntry (s : Store) (pHash : List UInt8) (filesize : FileSize) (c : ClientId) : Int :=
  s.index.index.logical (SIndexKey.ofHash pHash filesize c)

/-- The entries of a client with the file form one chain, and the index names one of them. -/
structure Searchable (s : Store) (pHash : List UInt8) (filesize : FileSize) : Prop where
  links : s.files.FileLinks
  indexed : ∀ c, s.clientEntry pHash filesize c ≠ 0 →
    ∃ e, s.files.find? (s.clientEntry pHash filesize c) = some e ∧ e.IsFile pHash filesize ∧
      e.clientid = c
  chain : ∀ id e, s.files.find? id = some e → e.IsFile pHash filesize →
    s.clientEntry pHash filesize e.clientid ≠ 0 ∧
      InChain s.files.newer (s.clientEntry pHash filesize e.clientid) id

/-- What the calls with one state return, until the first that finds nothing. -/
inductive Search (s : Store) (pHash : List UInt8) (filesize : FileSize) (clientid : ClientId) :
    SFindState → List (Int × FileEntry) → Prop
  | done {st st' : SFindState} (h : s.findFileHash pHash filesize clientid st = some (none, st')) :
      Search s pHash filesize clientid st []
  | found {st st' : SFindState} {r : Int × FileEntry} {rs : List (Int × FileEntry)}
      (h : s.findFileHash pHash filesize clientid st = some (some r, st'))
      (rest : Search s pHash filesize clientid st' rs) :
      Search s pHash filesize clientid st (r :: rs)

/-- The search ends and returns every entry of the file before. -/
def SearchComplete (s : Store) (pHash : List UInt8) (filesize : FileSize) (clientid : ClientId) :
    Prop :=
  ∃ rs, s.Search pHash filesize clientid .initial rs ∧
    ∀ id e, s.files.find? id = some e → e.IsFile pHash filesize → (id, e) ∈ rs

def clientEntries (s : Store) (pHash : List UInt8) (filesize : FileSize) :
    List (ClientId × Int) :=
  (s.index.index.getAllClientsWithCache (SIndexKey.ofHash pHash filesize 0) false).entries

def firstCandidate (s : Store) (pHash : List UInt8) (filesize : FileSize) (clientid : ClientId) :
    Int :=
  s.index.index.getWithCachePreferClient (SIndexKey.ofHash pHash filesize clientid)

/-- The index names the first entry of the chain. -/
def IndexedFirst (s : Store) (id : Int) : Prop := s.files.older id = none

/-- The index names the last entry of the chain. -/
def IndexedLast (s : Store) (id : Int) : Prop := s.files.newer id = none

instance (s : Store) (id : Int) : Decidable (s.IndexedFirst id) :=
  inferInstanceAs (Decidable (_ = none))

instance (s : Store) (id : Int) : Decidable (s.IndexedLast id) :=
  inferInstanceAs (Decidable (_ = none))

/-- The clients behind the first one are walked in one direction only. -/
def OneDirection (s : Store) (own : ClientId) : List (ClientId × Int) → Prop
  | [] => True
  | (_, first) :: others => ∀ c id, (c, id) ∈ others → c ≠ own →
      if s.IndexedFirst first then s.IndexedFirst id else s.IndexedLast id

/-- The first call finds the file if anybody has it, and no client behind the first one that
the index lists has entries on the side that the search does not walk. -/
structure Reaches (s : Store) (pHash : List UInt8) (filesize : FileSize) (clientid : ClientId) :
    Prop where
  asserted : ∀ e, s.files.find? (s.firstCandidate pHash filesize clientid) = some e →
    e.shahash.take pHash.length = pHash → e.filesize = filesize
  finds : ∀ id e, s.files.find? id = some e → e.IsFile pHash filesize →
    ∃ e₀, s.files.find? (s.firstCandidate pHash filesize clientid) = some e₀ ∧
      e₀.IsFile pHash filesize
  walked : ∀ e₀, s.files.find? (s.firstCandidate pHash filesize clientid) = some e₀ →
    s.OneDirection e₀.clientid (s.clientEntries pHash filesize)

section Links

variable {t : FilesTable} {id id' : Int} {e e' : FileEntry} {pHash : List UInt8}
  {filesize : FileSize}

theorem newer_row (h : t.FileLinks) (hid : t.find? id = some e) (hnext : t.newer id = some id') :
    ∃ e', t.find? id' = some e' ∧ SameFile e e' ∧ e'.prevEntry = id := by
  obtain ⟨e₀, he, hne, rfl⟩ := neighbour_eq_some.mp hnext
  rw [hid, Option.some.injEq] at he
  exact he ▸ h.next id e hid (he ▸ hne)

theorem older_row (h : t.FileLinks) (hid : t.find? id = some e) (hprev : t.older id = some id') :
    ∃ e', t.find? id' = some e' ∧ SameFile e' e ∧ e'.nextEntry = id := by
  obtain ⟨e₀, he, hne, rfl⟩ := neighbour_eq_some.mp hprev
  rw [hid, Option.some.injEq] at he
  exact he ▸ h.prev id e hid (he ▸ hne)

theorem id_ne_zero (h : t.FileLinks) (hid : t.find? id = some e) : id ≠ 0 := by
  rintro rfl
  rw [h.noZero] at hid
  cases hid

theorem mutual_links (h : t.FileLinks) : Mutual t.newer t.older := by
  intro a b
  constructor
  · intro hnext
    obtain ⟨ea, ha, -, -⟩ := neighbour_eq_some.mp hnext
    obtain ⟨eb, hb, -, hback⟩ := newer_row h ha hnext
    exact neighbour_eq_some.mpr ⟨eb, hb, by rw [hback]; exact id_ne_zero h ha, hback⟩
  · intro hprev
    obtain ⟨eb, hb, -, -⟩ := neighbour_eq_some.mp hprev
    obtain ⟨ea, ha, -, hback⟩ := older_row h hb hprev
    exact neighbour_eq_some.mpr ⟨ea, ha, by rw [hback]; exact id_ne_zero h hb, hback⟩

theorem IsFile.of_sameFile (h : SameFile e e') (hfile : e.IsFile pHash filesize) :
    e'.IsFile pHash filesize := by
  unfold FileEntry.IsFile at hfile ⊢
  rwa [← h.1, ← h.2.1]

/-- A link of an entry leads to an entry of the same file and client. -/
def KeepsFile (t : FilesTable) (link : FileEntry → Int) : Prop :=
  ∀ a ea, t.find? a = some ea → link ea ≠ 0 → ∃ eb, t.find? (link ea) = some eb ∧ SameFile ea eb

theorem keepsFile_next (h : t.FileLinks) : KeepsFile t FileEntry.nextEntry := by
  intro a ea ha hne
  obtain ⟨eb, hb, hsame, -⟩ := h.next a ea ha hne
  exact ⟨eb, hb, hsame⟩

theorem keepsFile_prev (h : t.FileLinks) : KeepsFile t FileEntry.prevEntry := by
  intro b eb hb hne
  obtain ⟨ea, ha, hsame, -⟩ := h.prev b eb hb hne
  exact ⟨ea, ha, hsame.1.symm, hsame.2.1.symm, hsame.2.2.symm⟩

theorem mem_rowIds (hid : t.find? id = some e) : id ∈ (t.entries.map Prod.fst).toFinset := by
  rw [List.mem_toFinset, List.mem_map]
  exact ⟨(id, e), OrderedMap.find?_eq_some_iff.mp hid, rfl⟩

theorem exists_newer (h : t.FileLinks) (id : Int) : ∃ l, Walk t.newer id l := by
  obtain ⟨rank, hrank⟩ := h.ranked
  apply @exists_walk _ _ _ _ rank (t.entries.map Prod.fst).toFinset
  · intro a b hlink
    obtain ⟨ea, ha, -, -⟩ := neighbour_eq_some.mp hlink
    obtain ⟨eb, hb, -, -⟩ := newer_row h ha hlink
    exact mem_rowIds hb
  · intro a b hlink
    obtain ⟨ea, ha, hne, rfl⟩ := neighbour_eq_some.mp hlink
    exact hrank a ea ha hne

theorem exists_older (h : t.FileLinks) (id : Int) : ∃ l, Walk t.older id l := by
  obtain ⟨rank, hrank⟩ := h.ranked
  apply @exists_walk _ _ _ _ (fun a => OrderDual.toDual (rank a)) (t.entries.map Prod.fst).toFinset
  · intro a b hlink
    obtain ⟨ea, ha, -, -⟩ := neighbour_eq_some.mp hlink
    obtain ⟨eb, hb, -, -⟩ := older_row h ha hlink
    exact mem_rowIds hb
  · intro a b hlink
    obtain ⟨eb, hb, hne, rfl⟩ := neighbour_eq_some.mp ((mutual_links h b a).mpr hlink)
    exact hrank b eb hb hne

end Links

section Calls

variable {s : Store} {pHash : List UInt8} {filesize : FileSize} {clientid : ClientId}
  {st st₁ : SFindState} {id : Int} {e : FileEntry} {saveOrig : Bool}

theorem findFileHash_row
    (hnext : s.nextCandidate pHash filesize clientid st = (id, st₁, saveOrig)) (hid : id ≠ 0)
    (he : s.files.find? id = some e) (hfile : e.IsFile pHash filesize) :
    s.findFileHash pHash filesize clientid st = some (some (id, e), { st₁ with
      prev := some e, origPrev := if saveOrig then e.prevEntry else st₁.origPrev }) := by
  have hget : getFileEntry s.files id = some e := he
  simp only [findFileHash, hnext, if_neg hid, hget, hfile.1, hfile.2, ne_eq, not_true_eq_false,
    if_false]

theorem findFileHash_end
    (hnext : s.nextCandidate pHash filesize clientid st = (0, st₁, saveOrig)) :
    s.findFileHash pHash filesize clientid st = some (none, st₁) := by
  simp only [findFileHash, hnext, if_true]

theorem Search.unique {rs rs' : List (Int × FileEntry)}
    (h : s.Search pHash filesize clientid st rs) (h' : s.Search pHash filesize clientid st rs') :
    rs = rs' := by
  induction h generalizing rs' with
  | done h =>
    cases h' with
    | done => rfl
    | found h' _ =>
      rw [h] at h'
      cases h'
  | found h _ ih =>
    cases h' with
    | done h' =>
      rw [h] at h'
      cases h'
    | found h' rest' =>
      rw [h] at h'
      cases h'
      rw [ih rest']

end Calls

def rowsOf (t : FilesTable) (l : List Int) : List (Int × FileEntry) :=
  l.filterMap fun id => (t.find? id).map (id, ·)

theorem mem_rowsOf {t : FilesTable} {l : List Int} {id : Int} {e : FileEntry} :
    (id, e) ∈ rowsOf t l ↔ id ∈ l ∧ t.find? id = some e := by
  simp only [rowsOf, List.mem_filterMap, Option.map_eq_some_iff, Prod.mk.injEq]
  constructor
  · rintro ⟨id', hmem, e', he, rfl, rfl⟩
    exact ⟨hmem, he⟩
  · rintro ⟨hmem, he⟩
    exact ⟨id, hmem, e, he, rfl, rfl⟩

theorem rowsOf_cons {t : FilesTable} {l : List Int} {id : Int} {e : FileEntry}
    (h : t.find? id = some e) : rowsOf t (id :: l) = (id, e) :: rowsOf t l :=
  List.filterMap_cons_some (by rw [h]; rfl)

section Walks

variable {s : Store} {pHash : List UInt8} {filesize : FileSize} {clientid : ClientId}
  {link : FileEntry → Int} {phase : FindPhase} {origPrev : Int}

/-- While there is a link to follow the search follows it. -/
def FollowsLink (s : Store) (pHash : List UInt8) (filesize : FileSize) (clientid : ClientId)
    (link : FileEntry → Int) (phase : FindPhase) : Prop :=
  ∀ origPrev e client, link e ≠ 0 →
    s.nextCandidate pHash filesize clientid ⟨phase, origPrev, some e, client⟩ =
      (link e, ⟨phase, origPrev, some e, client⟩, false)

theorem follows_next (h : phase = .ownNewer ∨ phase = .clientNewer) :
    s.FollowsLink pHash filesize clientid FileEntry.nextEntry phase := by
  intro origPrev e client hne
  rcases h with rfl | rfl
  · simp [nextCandidate, hne]
  · simp [nextCandidate, hne]

theorem follows_prev (h : phase = .ownOlder ∨ phase = .clientOlder) :
    s.FollowsLink pHash filesize clientid FileEntry.prevEntry phase := by
  intro origPrev e client hne
  rcases h with rfl | rfl
  · simp [nextCandidate, hne]
  · simp [nextCandidate, hne]

/-- The search returns what is left of the chain on one side. Induction on the walk. -/
theorem search_along {client : List (ClientId × Int)} {id : Int} {l : List Int} {e : FileEntry}
    {rs : List (Int × FileEntry)} (hkeep : KeepsFile s.files link)
    (hphase : s.FollowsLink pHash filesize clientid link phase)
    (hwalk : Walk (s.files.neighbour link) id l) (hid : s.files.find? id = some e)
    (hfile : e.IsFile pHash filesize)
    (hend : ∀ e', link e' = 0 →
      s.Search pHash filesize clientid ⟨phase, origPrev, some e', client⟩ rs) :
    s.Search pHash filesize clientid ⟨phase, origPrev, some e, client⟩ (rowsOf s.files l ++ rs) := by
  induction hwalk generalizing e with
  | last hnone => exact hend e ((neighbour_eq_none hid).mp hnone)
  | step hlink _ ih =>
    obtain ⟨e₀, he₀, hne, rfl⟩ := neighbour_eq_some.mp hlink
    rw [hid, Option.some.injEq] at he₀
    subst he₀
    obtain ⟨eb, hb, hsame⟩ := hkeep _ e hid hne
    have hfile' := IsFile.of_sameFile hsame hfile
    rw [rowsOf_cons hb]
    exact .found (findFileHash_row (hphase origPrev e client hne) hne hb hfile')
      (ih hb hfile')

/-- At the end of a chain the search goes on with the next client. -/
def SwitchesAtEnd (s : Store) (pHash : List UInt8) (filesize : FileSize) (clientid : ClientId)
    (link : FileEntry → Int) (phase : FindPhase) (origPrev : Int) : Prop :=
  ∀ e client, link e = 0 →
    s.nextCandidate pHash filesize clientid ⟨phase, origPrev, some e, client⟩ =
      switchToNextClient ⟨phase, origPrev, some e, client⟩

theorem switchesAtEnd_newer :
    s.SwitchesAtEnd pHash filesize clientid FileEntry.nextEntry .clientNewer 0 := by
  intro e client hzero
  simp [nextCandidate, hzero]

theorem switchesAtEnd_older :
    s.SwitchesAtEnd pHash filesize clientid FileEntry.prevEntry .clientOlder origPrev := by
  intro e client hzero
  simp [nextCandidate, hzero]

/-- Every id of the list is an entry of the file. -/
def NamesFile (s : Store) (pHash : List UInt8) (filesize : FileSize)
    (clients : List (ClientId × Int)) : Prop :=
  ∀ c id, (c, id) ∈ clients → ∃ e, s.files.find? id = some e ∧ e.IsFile pHash filesize

/-- Of the clients behind the current one the search returns one side of each chain.
Induction on the clients. -/
theorem search_others {others : List (ClientId × Int)} (hlinks : s.files.FileLinks)
    (hkeep : KeepsFile s.files link) (hwalk : ∀ id, ∃ l, Walk (s.files.neighbour link) id l)
    (hphase : s.FollowsLink pHash filesize clientid link phase)
    (hswitch : s.SwitchesAtEnd pHash filesize clientid link phase origPrev)
    (hnames : s.NamesFile pHash filesize others) (current : ClientId × Int) :
    ∃ rs, (∀ e', link e' = 0 → s.Search pHash filesize clientid
        ⟨phase, origPrev, some e', current :: others⟩ rs) ∧
      ∀ id e, (id, e) ∈ rs ↔ s.files.find? id = some e ∧
        ∃ c i, (c, i) ∈ others ∧ LinkedChain.Follows (s.files.neighbour link) i id := by
  induction others generalizing current with
  | nil =>
    refine ⟨[], fun e' hzero => .done (findFileHash_end (hswitch e' _ hzero)), ?_⟩
    simp
  | cons other others ih =>
    obtain ⟨c, i⟩ := other
    obtain ⟨e, he, hfile⟩ := hnames c i List.mem_cons_self
    obtain ⟨l, hl⟩ := hwalk i
    obtain ⟨rs, hsearch, hmem⟩ := ih (fun c id hid => hnames c id (List.mem_cons_of_mem _ hid))
      (c, i)
    refine ⟨rowsOf s.files (i :: l) ++ rs, ?_, ?_⟩
    · intro e' hzero
      rw [rowsOf_cons he]
      exact .found (findFileHash_row (hswitch e' _ hzero) (id_ne_zero hlinks he) he hfile)
        (search_along hkeep hphase hl he hfile hsearch)
    · intro id e'
      rw [List.mem_append, mem_rowsOf, hl.mem_iff, hmem]
      constructor
      · rintro (⟨hfollow, hid⟩ | ⟨hid, c', i', hmem', hfollow⟩)
        · exact ⟨hid, c, i, List.mem_cons_self, hfollow⟩
        · exact ⟨hid, c', i', List.mem_cons_of_mem _ hmem', hfollow⟩
      · rintro ⟨hid, c', i', hmem', hfollow⟩
        rcases List.mem_cons.mp hmem' with heq | hmem'
        · cases heq
          exact .inl ⟨hfollow, hid⟩
        · exact .inr ⟨hid, c', i', hmem', hfollow⟩

theorem search_chain {turned : FindPhase} {client : List (ClientId × Int)} {id : Int}
    {l l' : List Int} {e : FileEntry} {rs : List (Int × FileEntry)} (hlinks : s.files.FileLinks)
    (hnext : s.FollowsLink pHash filesize clientid FileEntry.nextEntry phase)
    (hprev : s.FollowsLink pHash filesize clientid FileEntry.prevEntry turned)
    (hturn : ∀ origPrev e' client, origPrev ≠ 0 → e'.nextEntry = 0 →
      s.nextCandidate pHash filesize clientid ⟨phase, origPrev, some e', client⟩ =
        (origPrev, ⟨turned, origPrev, some e', client⟩, false))
    (hnewer : Walk s.files.newer id l) (holder : Walk s.files.older id l')
    (hid : s.files.find? id = some e) (hfile : e.IsFile pHash filesize)
    (hfirst : e.prevEntry = 0 → ∀ e', e'.nextEntry = 0 →
      s.Search pHash filesize clientid ⟨phase, e.prevEntry, some e', client⟩ rs)
    (hlater : e.prevEntry ≠ 0 → ∀ e', e'.prevEntry = 0 →
      s.Search pHash filesize clientid ⟨turned, e.prevEntry, some e', client⟩ rs) :
    s.Search pHash filesize clientid ⟨phase, e.prevEntry, some e, client⟩
      (rowsOf s.files l ++ (rowsOf s.files l' ++ rs)) := by
  apply search_along (keepsFile_next hlinks) hnext hnewer hid hfile
  intro e' hend
  cases holder with
  | last hnone =>
    exact hfirst ((neighbour_eq_none hid).mp hnone) e' hend
  | step hlink hrest =>
    obtain ⟨e₀, he₀, hne, rfl⟩ := neighbour_eq_some.mp hlink
    rw [hid, Option.some.injEq] at he₀
    subst he₀
    obtain ⟨eb, hb, hsame⟩ := keepsFile_prev hlinks id e hid hne
    have hfile' := IsFile.of_sameFile hsame hfile
    rw [rowsOf_cons hb]
    exact .found (findFileHash_row (hturn _ e' client hne hend) hne hb hfile')
      (search_along (keepsFile_prev hlinks) hprev hrest hb hfile' (hlater hne))

theorem mem_chain {id id' : Int} {l l' : List Int} (hlinks : s.files.FileLinks)
    (hnewer : Walk s.files.newer id l) (holder : Walk s.files.older id l') :
    id' ∈ id :: l ∨ id' ∈ l' ↔ InChain s.files.newer id id' := by
  rw [inChain_iff (mutual_links hlinks), ← hnewer.mem_iff, ← holder.mem_iff, List.mem_cons,
    List.mem_cons]
  constructor
  · rintro ((h | h) | h)
    · exact .inl (.inl h)
    · exact .inl (.inr h)
    · exact .inr (.inr h)
  · rintro ((h | h) | (h | h))
    · exact .inl (.inl h)
    · exact .inl (.inr h)
    · exact .inl (.inl h)
    · exact .inr h

/-- The entries that are returned of the clients that the index lists. -/
def Walked (s : Store) (id : Int) : List (ClientId × Int) → Prop
  | [] => False
  | (_, first) :: others => InChain s.files.newer first id ∨ ∃ c i, (c, i) ∈ others ∧
      if s.IndexedFirst first then LinkedChain.Follows s.files.newer i id
      else LinkedChain.Follows s.files.older i id

theorem switchToAllClients_eq (st : SFindState) :
    s.switchToAllClients pHash filesize st =
      (firstEntry (s.clientEntries pHash filesize),
        { st with state := .clientNewer, client := s.clientEntries pHash filesize },
        !(s.clientEntries pHash filesize).isEmpty) := rfl

theorem search_all (hlinks : s.files.FileLinks)
    (hnames : s.NamesFile pHash filesize (s.clientEntries pHash filesize)) :
    ∃ rs, (∀ st, s.nextCandidate pHash filesize clientid st =
        s.switchToAllClients pHash filesize st → s.Search pHash filesize clientid st rs) ∧
      ∀ id e, (id, e) ∈ rs ↔ s.files.find? id = some e ∧
        s.Walked id (s.clientEntries pHash filesize) := by
  cases hentries : s.clientEntries pHash filesize with
  | nil =>
    refine ⟨[], ?_, ?_⟩
    · intro st hst
      rw [switchToAllClients_eq, hentries] at hst
      exact .done (findFileHash_end hst)
    · simp [Walked]
  | cons client others =>
    obtain ⟨c, i⟩ := client
    rw [hentries] at hnames
    obtain ⟨e, he, hfile⟩ := hnames c i List.mem_cons_self
    have hothers : s.NamesFile pHash filesize others :=
      fun c id hid => hnames c id (List.mem_cons_of_mem _ hid)
    obtain ⟨l, hl⟩ := exists_newer hlinks i
    obtain ⟨l', hl'⟩ := exists_older hlinks i
    have hfirst : s.IndexedFirst i ↔ e.prevEntry = 0 := neighbour_eq_none he
    -- The first chain decides in which state, and with which `orig_prev`, the others are met.
    have hrest : ∃ rs, (∀ id e, (id, e) ∈ rs ↔ s.files.find? id = some e ∧
        ∃ c i', (c, i') ∈ others ∧ if s.IndexedFirst i then
          LinkedChain.Follows s.files.newer i' id else LinkedChain.Follows s.files.older i' id) ∧
        (e.prevEntry = 0 → ∀ e', e'.nextEntry = 0 → s.Search pHash filesize clientid
          ⟨.clientNewer, e.prevEntry, some e', (c, i) :: others⟩ rs) ∧
        (e.prevEntry ≠ 0 → ∀ e', e'.prevEntry = 0 → s.Search pHash filesize clientid
          ⟨.clientOlder, e.prevEntry, some e', (c, i) :: others⟩ rs) := by
      by_cases hzero : e.prevEntry = 0
      · obtain ⟨rs, hsearch, hmem⟩ := search_others hlinks (keepsFile_next hlinks)
          (exists_newer hlinks) (follows_next (.inr rfl)) (@switchesAtEnd_newer s pHash filesize
            clientid) hothers (c, i)
        refine ⟨rs, ?_, ?_, fun hne => absurd hzero hne⟩
        · simp only [if_pos (hfirst.mpr hzero)]
          exact hmem
        · rw [hzero]
          exact fun _ => hsearch
      · obtain ⟨rs, hsearch, hmem⟩ := search_others hlinks (keepsFile_prev hlinks)
          (exists_older hlinks) (follows_prev (.inr rfl)) (@switchesAtEnd_older s pHash filesize
            clientid e.prevEntry) hothers (c, i)
        refine ⟨rs, ?_, fun heq => absurd heq hzero, fun _ => hsearch⟩
        simp only [if_neg (mt hfirst.mp hzero)]
        exact hmem
    obtain ⟨rs, hmem, hnext, hprev⟩ := hrest
    refine ⟨rowsOf s.files (i :: l) ++ (rowsOf s.files l' ++ rs), ?_, ?_⟩
    · intro st hst
      rw [switchToAllClients_eq, hentries] at hst
      rw [rowsOf_cons he]
      refine .found (findFileHash_row hst (id_ne_zero hlinks he) he hfile) ?_
      refine search_chain hlinks (follows_next (.inr rfl)) (follows_prev (.inr rfl)) ?_ hl hl' he
        hfile hnext hprev
      intro origPrev e' client hne hend
      simp [nextCandidate, hne, hend]
    · intro id e'
      rw [List.mem_append, List.mem_append, mem_rowsOf, mem_rowsOf, hmem, Walked,
        ← mem_chain hlinks hl hl']
      tauto

end Walks

section Complete

variable {s : Store} {pHash : List UInt8} {filesize : FileSize} {clientid : ClientId}

theorem mem_clientEntries {c : ClientId} {id : Int} :
    (c, id) ∈ s.clientEntries pHash filesize ↔
      s.clientEntry pHash filesize c = id ∧ s.clientEntry pHash filesize c ≠ 0 := by
  rw [clientEntries, ← OrderedMap.find?_eq_some_iff,
    s.index.index.find?_getAllClientsWithCache rfl c]
  change (if s.clientEntry pHash filesize c = 0 then none
    else some (s.clientEntry pHash filesize c)) = some id ↔ _
  by_cases hzero : s.clientEntry pHash filesize c = 0
  · simp [hzero]
  · simp [hzero]

theorem Searchable.listed (h : s.Searchable pHash filesize) {c : ClientId} {id : Int}
    (hmem : (c, id) ∈ s.clientEntries pHash filesize) :
    ∃ e, s.files.find? id = some e ∧ e.IsFile pHash filesize ∧ e.clientid = c := by
  obtain ⟨rfl, hne⟩ := mem_clientEntries.mp hmem
  exact h.indexed c hne

theorem Searchable.namesFile (h : s.Searchable pHash filesize) :
    s.NamesFile pHash filesize (s.clientEntries pHash filesize) := by
  intro c id hmem
  obtain ⟨e, he, hfile, -⟩ := h.listed hmem
  exact ⟨e, he, hfile⟩

theorem Searchable.client_eq (h : s.Searchable pHash filesize) {id id' : Int} {e e' : FileEntry}
    (hchain : InChain s.files.newer id id') (hid : s.files.find? id = some e)
    (hid' : s.files.find? id' = some e') : e'.clientid = e.clientid := by
  have hkeep := @InChain.keeps _ _ _ _ _ (fun id => (s.files.find? id).map FileEntry.clientid)
    (fun a b hlink => by
      obtain ⟨ea, ha, -, -⟩ := neighbour_eq_some.mp hlink
      obtain ⟨eb, hb, hsame, -⟩ := newer_row h.links ha hlink
      simp only [ha, hb, Option.map_some, hsame.2.2]) hchain
  simpa only [hid, hid', Option.map_some, Option.some.injEq] using hkeep

theorem Searchable.inChain (h : s.Searchable pHash filesize) {id id' : Int} {e e' : FileEntry}
    (hid : s.files.find? id = some e) (hfile : e.IsFile pHash filesize)
    (hid' : s.files.find? id' = some e') (hfile' : e'.IsFile pHash filesize)
    (hclient : e.clientid = e'.clientid) : InChain s.files.newer id id' :=
  ((h.chain id e hid hfile).2.symm _ _).trans _ _ _ (hclient ▸ (h.chain id' e' hid' hfile').2)

theorem nextCandidate_initial :
    s.nextCandidate pHash filesize clientid .initial =
      (s.firstCandidate pHash filesize clientid, { SFindState.initial with state := .ownNewer },
        true) := rfl

theorem search_initial (h : s.Searchable pHash filesize) {e₀ : FileEntry}
    (he₀ : s.files.find? (s.firstCandidate pHash filesize clientid) = some e₀)
    (hfile : e₀.IsFile pHash filesize) :
    ∃ rs, s.Search pHash filesize clientid .initial rs ∧
      ∀ id e, (id, e) ∈ rs ↔ s.files.find? id = some e ∧
        (InChain s.files.newer (s.firstCandidate pHash filesize clientid) id ∨
          s.Walked id (s.clientEntries pHash filesize)) := by
  obtain ⟨l, hl⟩ := exists_newer h.links (s.firstCandidate pHash filesize clientid)
  obtain ⟨l', hl'⟩ := exists_older h.links (s.firstCandidate pHash filesize clientid)
  obtain ⟨rs, hsearch, hmem⟩ := @search_all s pHash filesize clientid h.links h.namesFile
  refine ⟨rowsOf s.files (s.firstCandidate pHash filesize clientid :: l) ++
    (rowsOf s.files l' ++ rs), ?_, ?_⟩
  · rw [rowsOf_cons he₀]
    refine .found (findFileHash_row nextCandidate_initial (id_ne_zero h.links he₀) he₀ hfile) ?_
    refine search_chain h.links (follows_next (.inl rfl)) (follows_prev (.inl rfl)) ?_ hl hl' he₀
      hfile ?_ ?_
    · intro origPrev e' client hne hend
      simp [nextCandidate, hne, hend]
    · intro hzero e' hend
      apply hsearch
      simp [nextCandidate, hzero, hend]
    · intro _ e' hend
      apply hsearch
      simp [nextCandidate, hend]
  · intro id e
    rw [List.mem_append, List.mem_append, mem_rowsOf, mem_rowsOf, hmem,
      ← mem_chain h.links hl hl']
    tauto

theorem not_follows_newer (h : s.files.FileLinks) {id id' : Int}
    (hlink : s.files.older id = some id') : ¬ LinkedChain.Follows s.files.newer id id' := by
  obtain ⟨rank, hrank⟩ := h.ranked
  refine @not_follows_of_link _ _ _ _ _ _ rank ?_ ((mutual_links h id' id).mpr hlink)
  intro a b hab
  obtain ⟨ea, ha, hne, rfl⟩ := neighbour_eq_some.mp hab
  exact hrank a ea ha hne

theorem not_follows_older (h : s.files.FileLinks) {id id' : Int}
    (hlink : s.files.newer id = some id') : ¬ LinkedChain.Follows s.files.older id id' :=
  fun hfollow => not_follows_newer h ((mutual_links h id id').mp hlink)
    (hfollow.reverse (mutual_links h).symm)

theorem covers_iff (h : s.Searchable pHash filesize) {first : Int} {e₀ : FileEntry}
    (he₀ : s.files.find? first = some e₀) (hfile₀ : e₀.IsFile pHash filesize) :
    (∀ id e, s.files.find? id = some e → e.IsFile pHash filesize →
        InChain s.files.newer first id ∨ s.Walked id (s.clientEntries pHash filesize)) ↔
      s.OneDirection e₀.clientid (s.clientEntries pHash filesize) := by
  have hlisted := fun c id => @Searchable.listed s pHash filesize h c id
  have hdistinct := OrderedMap.entries_keys_ne
    (s.index.index.getAllClientsWithCache (SIndexKey.ofHash pHash filesize 0) false)
  change (s.clientEntries pHash filesize).Pairwise _ at hdistinct
  have hmem := fun c id => @mem_clientEntries s pHash filesize c id
  have hentry : ∀ id e, s.files.find? id = some e → e.IsFile pHash filesize →
      (e.clientid, s.clientEntry pHash filesize e.clientid) ∈ s.clientEntries pHash filesize :=
    fun id e hid hfile => (hmem _ _).mpr ⟨rfl, (h.chain id e hid hfile).1⟩
  cases hentries : s.clientEntries pHash filesize with
  | nil =>
    refine ⟨fun _ => trivial, fun _ id e hid hfile => ?_⟩
    have hin := hentry id e hid hfile
    rw [hentries] at hin
    cases hin
  | cons client others =>
    obtain ⟨c₁, i₁⟩ := client
    rw [hentries] at hlisted hdistinct hmem hentry
    obtain ⟨e₁, he₁, hfile₁, hclient₁⟩ := hlisted c₁ i₁ List.mem_cons_self
    constructor
    · intro hall c id hid hown
      obtain ⟨e, he, hfile, hclient⟩ := hlisted c id (List.mem_cons_of_mem _ hid)
      have hne : c₁ ≠ c := (List.pairwise_cons.mp hdistinct).1 _ hid
      -- A neighbour of the indexed entry can only be returned by the walk of its own client.
      have hown_walk : ∀ j ej, s.files.find? j = some ej → SameFile ej e →
          if s.IndexedFirst i₁ then LinkedChain.Follows s.files.newer id j
          else LinkedChain.Follows s.files.older id j := by
        intro j ej hj hsame
        have hjc : ej.clientid = c := hsame.2.2.trans hclient
        have hfilej : ej.IsFile pHash filesize :=
          IsFile.of_sameFile ⟨hsame.1.symm, hsame.2.1.symm, hsame.2.2.symm⟩ hfile
        rcases hall j ej hj hfilej with hin | hin | ⟨c', i', hmem', hfollow⟩
        · exact absurd (hjc.symm.trans (h.client_eq hin he₀ hj)) hown
        · exact absurd (hclient₁.symm.trans ((h.client_eq hin he₁ hj).symm.trans hjc)) hne
        · obtain ⟨e', he', -, hclient'⟩ := hlisted c' i' (List.mem_cons_of_mem _ hmem')
          have hin : InChain s.files.newer i' j := by
            by_cases hfirst : s.IndexedFirst i₁
            · rw [if_pos hfirst] at hfollow
              exact hfollow.inChain
            · rw [if_neg hfirst] at hfollow
              exact hfollow.inChain_prev (mutual_links h.links)
          have hcc : c' = c :=
            hclient'.symm.trans ((h.client_eq hin he' hj).symm.trans hjc)
          have hii : i' = id := by
            rw [← ((hmem c' i').mp (List.mem_cons_of_mem _ hmem')).1,
              ← ((hmem c id).mp (List.mem_cons_of_mem _ hid)).1, hcc]
          rw [hii] at hfollow
          exact hfollow
      by_cases hfirst : s.IndexedFirst i₁
      · rw [if_pos hfirst]
        by_contra hlink
        obtain ⟨j, hj⟩ := Option.ne_none_iff_exists'.mp hlink
        obtain ⟨ej, hej, hsame, -⟩ := older_row h.links he hj
        have hfollow := hown_walk j ej hej hsame
        rw [if_pos hfirst] at hfollow
        exact not_follows_newer h.links hj hfollow
      · rw [if_neg hfirst]
        by_contra hlink
        obtain ⟨j, hj⟩ := Option.ne_none_iff_exists'.mp hlink
        obtain ⟨ej, hej, hsame, -⟩ := newer_row h.links he hj
        have hfollow := hown_walk j ej hej ⟨hsame.1.symm, hsame.2.1.symm, hsame.2.2.symm⟩
        rw [if_neg hfirst] at hfollow
        exact not_follows_older h.links hj hfollow
    · intro hone id e hid hfile
      by_cases hown : e.clientid = e₀.clientid
      · exact .inl (h.inChain he₀ hfile₀ hid hfile hown.symm)
      · right
        have hchain := (h.chain id e hid hfile).2
        rcases List.mem_cons.mp (hentry id e hid hfile) with heq | hother
        · left
          rw [← (Prod.mk.inj heq).2]
          exact hchain
        · refine .inr ⟨_, _, hother, ?_⟩
          have hside := hone _ _ hother hown
          by_cases hfirst : s.IndexedFirst i₁
          · rw [if_pos hfirst] at hside ⊢
            exact hchain.follows_of_first (mutual_links h.links) hside
          · rw [if_neg hfirst] at hside ⊢
            rcases (inChain_iff (mutual_links h.links)).mp hchain with hf | hf
            · rcases Relation.ReflTransGen.cases_head hf with heq | ⟨j, hj, -⟩
              · exact heq ▸ .refl
              · rw [IndexedLast, hj] at hside
                cases hside
            · exact hf

theorem findFileHash_some {st st' : SFindState} {id : Int} {e : FileEntry}
    (h : s.findFileHash pHash filesize clientid st = some (some (id, e), st')) :
    (s.nextCandidate pHash filesize clientid st).1 = id ∧ s.files.find? id = some e ∧
      e.IsFile pHash filesize := by
  unfold findFileHash at h
  generalize s.nextCandidate pHash filesize clientid st = candidate at h ⊢
  obtain ⟨entryid, st₁, saveOrig⟩ := candidate
  simp only at h ⊢
  split at h
  · simp at h
  split at h
  · simp at h
  rename_i e' he'
  split at h
  · simp at h
  rename_i hhash
  split at h
  · cases h
  rename_i hsize
  simp only [Option.some.injEq, Prod.mk.injEq] at h
  obtain ⟨⟨rfl, rfl⟩, -⟩ := h
  exact ⟨rfl, he', by_contra fun hne => hhash hne, by_contra fun hne => hsize hne⟩

/-- A first call that does not fail its assertion, and finds nothing of the file, ends the
search. -/
theorem search_nil
    (hassert : ∀ e, s.files.find? (s.firstCandidate pHash filesize clientid) = some e →
      e.shahash.take pHash.length = pHash → e.filesize = filesize)
    (hnone : ∀ e, s.files.find? (s.firstCandidate pHash filesize clientid) = some e →
      ¬ e.IsFile pHash filesize) : s.Search pHash filesize clientid .initial [] := by
  have hcall : ∃ st', s.findFileHash pHash filesize clientid .initial = some (none, st') := by
    simp only [findFileHash, nextCandidate_initial]
    by_cases hzero : s.firstCandidate pHash filesize clientid = 0
    · exact ⟨_, if_pos hzero⟩
    · rw [if_neg hzero]
      cases hrow : getFileEntry s.files (s.firstCandidate pHash filesize clientid) with
      | none => exact ⟨_, rfl⟩
      | some e =>
        have hhash : e.shahash.take pHash.length ≠ pHash :=
          fun hhash => hnone e hrow ⟨hhash, hassert e hrow hhash⟩
        exact ⟨_, if_pos hhash⟩
  obtain ⟨st', hst'⟩ := hcall
  exact .done hst'

/-- The first call does not come to the failed assertion when the search ends. -/
theorem asserted_of_search {rs : List (Int × FileEntry)} (hlinks : s.files.FileLinks)
    (h : s.Search pHash filesize clientid .initial rs) {e : FileEntry}
    (he : s.files.find? (s.firstCandidate pHash filesize clientid) = some e)
    (hhash : e.shahash.take pHash.length = pHash) : e.filesize = filesize := by
  by_contra hsize
  have hget : getFileEntry s.files (s.firstCandidate pHash filesize clientid) = some e := he
  have hfail : s.findFileHash pHash filesize clientid .initial = none := by
    simp only [findFileHash, nextCandidate_initial, if_neg (id_ne_zero hlinks he), hget, hhash,
      ne_eq, not_true_eq_false, if_false, hsize, not_false_eq_true, if_true]
  cases h with
  | done hcall =>
    rw [hfail] at hcall
    cases hcall
  | found hcall _ =>
    rw [hfail] at hcall
    cases hcall

theorem SearchComplete.reaches (h : s.Searchable pHash filesize)
    (hcomplete : s.SearchComplete pHash filesize clientid) :
    s.Reaches pHash filesize clientid := by
  obtain ⟨rs, hsearch, hall⟩ := hcomplete
  have hfinds : ∀ id e, s.files.find? id = some e → e.IsFile pHash filesize →
      ∃ e₀, s.files.find? (s.firstCandidate pHash filesize clientid) = some e₀ ∧
        e₀.IsFile pHash filesize := by
    intro id e hid hfile
    have hmem := hall id e hid hfile
    cases hsearch with
    | done _ => cases hmem
    | @found _ st' r _ hcall _ =>
      obtain ⟨hfirst, he₀, hfile₀⟩ := findFileHash_some hcall
      change s.firstCandidate pHash filesize clientid = r.1 at hfirst
      exact ⟨r.2, by rw [hfirst]; exact he₀, hfile₀⟩
  refine ⟨fun e he hhash => asserted_of_search h.links hsearch he hhash, hfinds, ?_⟩
  intro e₀ he₀
  by_cases hany : ∃ id e, s.files.find? id = some e ∧ e.IsFile pHash filesize
  · obtain ⟨id, e, hid, hfile⟩ := hany
    obtain ⟨e₀', he₀', hfile₀⟩ := hfinds id e hid hfile
    rw [he₀, Option.some.injEq] at he₀'
    rw [← he₀'] at hfile₀
    obtain ⟨rs', hsearch', hmem⟩ := search_initial h he₀ hfile₀
    refine (covers_iff h he₀ hfile₀).mp ?_
    intro id e hid hfile
    have hin := hall id e hid hfile
    rw [hsearch.unique hsearch'] at hin
    exact ((hmem id e).mp hin).2
  · cases hentries : s.clientEntries pHash filesize with
    | nil => exact trivial
    | cons client others =>
      obtain ⟨e, he, hfile, -⟩ := @Searchable.listed s pHash filesize h client.1 client.2
        (hentries ▸ List.mem_cons_self)
      exact absurd ⟨client.2, e, he, hfile⟩ hany

/-- The search is complete exactly where the first call finds the file and every chain behind
the first one is indexed at the end from which the search walks it. -/
theorem search_complete_iff (h : s.Searchable pHash filesize) (clientid : ClientId) :
    s.SearchComplete pHash filesize clientid ↔ s.Reaches pHash filesize clientid := by
  refine ⟨fun hcomplete => hcomplete.reaches h, fun hreach => ?_⟩
  by_cases hany : ∃ id e, s.files.find? id = some e ∧ e.IsFile pHash filesize
  · obtain ⟨id, e, hid, hfile⟩ := hany
    obtain ⟨e₀, he₀, hfile₀⟩ := hreach.finds id e hid hfile
    obtain ⟨rs, hsearch, hmem⟩ := search_initial h he₀ hfile₀
    refine ⟨rs, hsearch, fun id e hid hfile => (hmem id e).mpr ⟨hid, ?_⟩⟩
    exact (covers_iff h he₀ hfile₀).mpr (hreach.walked e₀ he₀) id e hid hfile
  · refine ⟨[], search_nil hreach.asserted ?_, ?_⟩
    · exact fun e he hfile => hany ⟨_, e, he, hfile⟩
    · exact fun id e hid hfile => absurd ⟨id, e, hid, hfile⟩ hany

end Complete

/-- The entries of a reachable store are searchable for a file once each client with the file
has all its entries in the chain that the index names. -/
theorem searchable_of_consistent {H : Set (List UInt8)} {s : Store} {pHash : List UInt8}
    {filesize : FileSize} (h : Consistent H s) (hlong : ∀ h ∈ H, bytesInIndex ≤ h.length)
    (hunique : ∀ h ∈ H, ∀ h' ∈ H, h.take bytesInIndex = h'.take bytesInIndex → h = h')
    (hhash : pHash ∈ H)
    (hchain : ∀ id e, s.files.find? id = some e → e.IsFile pHash filesize →
      s.clientEntry pHash filesize e.clientid ≠ 0 ∧
        InChain s.files.newer (s.clientEntry pHash filesize e.clientid) id) :
    s.Searchable pHash filesize := by
  have hchained := h.files.chained
  have hsame : ∀ a ea b eb, s.files.find? a = some ea → s.files.find? b = some eb →
      ea.key = eb.key → SameFile ea eb := fun a ea b eb ha hb hkey =>
    sameFile_of_key hlong hunique (h.files.hashes a ea ha) (h.files.hashes b eb hb) hkey
  refine ⟨⟨hchained.linked.noZero, ?_, ?_, hchained.ranked⟩, ?_, hchain⟩
  · intro a ea ha hne
    obtain ⟨eb, hb, hkey, hback⟩ := hchained.linked.next a ea ha hne
    exact ⟨eb, hb, hsame a ea _ eb ha hb hkey.symm, hback⟩
  · intro b eb hb hne
    obtain ⟨ea, ha, hkey, hback⟩ := hchained.linked.prev b eb hb hne
    exact ⟨ea, ha, hsame _ ea b eb ha hb hkey, hback⟩
  · intro c hne
    obtain ⟨e, he, hkey, -⟩ := h.indexed _ hne
    have hshahash : e.shahash = pHash :=
      hunique _ (h.files.hashes _ e he) _ hhash (take_eq_of_ofHash
        (hlong _ (h.files.hashes _ e he)) (hlong _ hhash) hkey)
    refine ⟨e, he, ⟨?_, congrArg SIndexKey.filesize hkey⟩, congrArg SIndexKey.clientid hkey⟩
    rw [hshahash, List.take_length]

/-- A file of two clients, each of which has it twice. The index names the newer entry of
the first client and the older one of the second. -/
def twoClientsRun : List StoreEvent :=
  [.addNew copiedFile false, .addFound copiedFile 1 .initial true,
    .addNew { copiedFile with clientid := 2 } false,
    .addFound { copiedFile with clientid := 2 } 2 .initial false]

/-- Each entry of the run is the one that the index names for its client, or a neighbour of
that one, and the second client is indexed at the end that the search comes to last. -/
theorem twoClientsRun_entries :
    (TransitionSystem.run step initial twoClientsRun).any (fun s => decide
      ((∀ r ∈ s.files.entries,
        s.clientEntry copiedFile.shahash copiedFile.filesize r.2.clientid ≠ 0 ∧
        (s.clientEntry copiedFile.shahash copiedFile.filesize r.2.clientid = r.1 ∨
          s.files.newer (s.clientEntry copiedFile.shahash copiedFile.filesize r.2.clientid) =
            some r.1 ∨
          s.files.newer r.1 =
            some (s.clientEntry copiedFile.shahash copiedFile.filesize r.2.clientid))) ∧
      s.clientEntries copiedFile.shahash copiedFile.filesize = [(1, 2), (2, 3)] ∧
      s.firstCandidate copiedFile.shahash copiedFile.filesize 1 = 2 ∧
      (s.files.find? 2).map FileEntry.clientid = some 1 ∧
      s.files.older 2 = some 1 ∧ s.files.newer 3 = some 4)) = true := by
  decide +kernel

theorem twoClientsRun_consistent {s : Store}
    (hrun : TransitionSystem.run step initial twoClientsRun = some s) :
    Consistent {copiedFile.shahash} s := by
  refine run_consistent ?_ ?_ hrun
  · rintro h rfl
    decide
  · intro e he
    simp only [twoClientsRun, List.mem_cons, List.not_mem_nil, or_false] at he
    rcases he with rfl | rfl | rfl | rfl
    · exact rfl
    · exact rfl
    · exact rfl
    · exact rfl

theorem twoClientsRun_searchable {s : Store}
    (hrun : TransitionSystem.run step initial twoClientsRun = some s) :
    s.Searchable copiedFile.shahash copiedFile.filesize := by
  have hentries := twoClientsRun_entries
  rw [hrun] at hentries
  refine searchable_of_consistent (twoClientsRun_consistent hrun) ?_ ?_ rfl ?_
  · rintro h rfl
    decide
  · rintro h rfl h' rfl _
    rfl
  · intro id e hid _
    obtain ⟨hne, hlink⟩ :=
      (of_decide_eq_true hentries).1 (id, e) (OrderedMap.find?_eq_some_iff.mp hid)
    refine ⟨hne, ?_⟩
    rcases hlink with heq | hlink | hlink
    · rw [heq]
      exact .refl _
    · exact .rel _ _ hlink
    · exact .symm _ _ (.rel _ _ hlink)

theorem search_complete_iff_twoClientsRun :
    ∃ s, TransitionSystem.run step initial twoClientsRun = some s ∧
      (s.SearchComplete copiedFile.shahash copiedFile.filesize 1 ↔
        s.Reaches copiedFile.shahash copiedFile.filesize 1) := by
  have hentries := twoClientsRun_entries
  cases hrun : TransitionSystem.run step initial twoClientsRun with
  | none =>
    rw [hrun] at hentries
    cases hentries
  | some s => exact ⟨s, rfl, search_complete_iff (twoClientsRun_searchable hrun) 1⟩

theorem older_copy_of_second_client_is_missed :
    ¬ ∀ (s : Store) (pHash : List UInt8) (filesize : FileSize) (clientid : ClientId),
      s.Searchable pHash filesize → s.SearchComplete pHash filesize clientid := by
  intro hclaim
  have hentries := twoClientsRun_entries
  cases hrun : TransitionSystem.run step initial twoClientsRun with
  | none =>
    rw [hrun] at hentries
    cases hentries
  | some s =>
  rw [hrun] at hentries
  obtain ⟨-, hclients, hfirst, hclient, holder, hnewer⟩ := of_decide_eq_true hentries
  have hfirst₁ : ¬ s.IndexedFirst 2 := fun hfirst₁ => by cases holder.symm.trans hfirst₁
  have hlast₂ : ¬ s.IndexedLast 3 := fun hlast₂ => by cases hnewer.symm.trans hlast₂
  have hsearchable := twoClientsRun_searchable hrun
  have hreach := (hclaim s _ _ 1 hsearchable).reaches hsearchable
  obtain ⟨e₀, he₀, hown⟩ := Option.map_eq_some_iff.mp hclient
  have hone := hreach.walked e₀ (by rw [hfirst]; exact he₀)
  rw [hclients, hown] at hone
  have hside := hone 2 3 List.mem_cons_self (by decide)
  rw [if_neg hfirst₁] at hside
  exact hlast₂ hside

end Store

end UrBackup
