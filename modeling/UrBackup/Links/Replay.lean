import UrBackup.Links.LinkDirectoryPool

/-! What a power failure leaves of the calls that move directories to the pool, and what the journal
repairs of it. -/
namespace UrBackup

open FileSystem TransitionSystem

namespace LinkWorld

/-- Without the entry of `srcDir` its directory and that of `linkSrcDir` are still reached. -/
def Apart (fs : FileSystem) (c : LinkCall) : Prop :=
  ∀ d n, fs.Names c.srcDir d n →
    (∃ d₁, (fs.set d n none).Follows root c.srcDir.dropLast (.dir d₁)) ∧
    ∃ d₂, (fs.set d n none).Follows root c.linkSrcDir.dropLast (.dir d₂)

/-- The entries that a step makes, those of `srcDir` apart, are not in the directories `D`. -/
def PutsApart (D : Nat → Prop) (w : LinkWorld) (e : LinkEvent) : Prop :=
  ∀ w', w.step e = some w' → ∀ d, D d → ∀ n, w.fs.entry d n = none → w'.fs.entry d n = none

/-- The conditions on the steps of the calls: what they move is apart from where they put it, and a
directory can be moved back. -/
def StepOk (D : Nat → Prop) (w : LinkWorld) (e : LinkEvent) : Prop :=
  match w.pc, e with
  | .rename c _, .op true _ => Apart w.fs c ∧ PutsApart D w e
  | .linkSrc _ _, _ => True
  | .renameBack _ _, .op ok _ => ok = true
  | _, _ => PutsApart D w e

/-- Power may fail here: a call that has moved its directory and not yet linked to it is one that
wrote the journal with synchronous=FULL. -/
def CrashOk (w : LinkWorld) : Prop :=
  match w.pc with
  | .linkSrc _ _ | .renameBack _ _ => w.full = true
  | _ => True

/-- `srcDir` is a directory and no link. -/
def IsDir (fs : FileSystem) (path : Path) : Prop :=
  path = [] ∨ ∃ d n i, fs.Names path d n ∧ fs.entry d n = some (.object (.dir i))

/-- The directory of a call is in the pool, where nothing links to it. -/
def Moved (D : Nat → Prop) (c : LinkCall) (base fs : FileSystem) : Prop :=
  ∃ p₁ n₁ d₁ p₂ n₂ d₂ i, c.srcDir = p₁ ++ [n₁] ∧ c.linkSrcDir = p₂ ++ [n₂] ∧
    base.entry d₁ n₁ = some (.object (.dir i)) ∧ base.entry d₂ n₂ = none ∧ ¬ D d₂ ∧
    (base.set d₁ n₁ none).Follows root p₁ (.dir d₁) ∧
    (base.set d₁ n₁ none).Follows root p₂ (.dir d₂) ∧
    fs = (base.set d₁ n₁ none).set d₂ n₂ (some (.object (.dir i)))

def FilesOk (D : Nat → Prop) (fs₀ : FileSystem) (w : LinkWorld) : Prop :=
  match w.pc with
  | .idle | .linkTarget _ => Kept D fs₀ w.fs
  | .makeParent c | .addJournal c | .rename c _ | .removeJournal c _ false =>
    Kept D fs₀ w.fs ∧ IsDir w.fs c.srcDir
  | .linkSrc c _ | .renameBack c _ => ∃ base, Kept D fs₀ base ∧ Moved D c base w.fs
  | .removeJournal c _ true => Kept D fs₀ w.fs ∧
      ∃ d n, w.fs.Names c.srcDir d n ∧ w.fs.entry d n = some (.link c.linkSrcDir)

def durableEntries (w : LinkWorld) : List JournalEntry :=
  match w.pc with
  | .rename c id | .linkSrc c id | .renameBack c id | .removeJournal c id _ =>
    if w.full then [⟨id, c.srcDir, c.linkSrcDir⟩] else []
  | _ => []

def JournalOk (w : LinkWorld) : Prop :=
  w.journal.durable = w.durableEntries ∧
    (w.journalOpen = false → w.journal.entries = [] ∧ w.pc = .idle) ∧
    (w.full = true → w.pc ≠ .idle → (∀ c, w.pc ≠ .linkTarget c) →
      w.journal.entries = w.durableEntries)

section Journal

variable {w w' : LinkWorld}

theorem journalOk_initial (fs : FileSystem) (links : DirectoryLinks) :
    JournalOk (initial fs links) := ⟨rfl, fun _ => ⟨rfl, rfl⟩, fun h => by cases h⟩

theorem journalOk_call {clientid : Int} {targetDir srcDir pooldir : Path} {poolName : String}
    {depth steps : Nat} (hidle : w.pc = .idle) (h : JournalOk w)
    (hcall : w.call clientid targetDir srcDir pooldir poolName depth steps = some w') :
    JournalOk w' := by
  obtain ⟨hdurable, hclosed, -⟩ := h
  have hempty : w.journal.durable = [] := by
    rw [hdurable, durableEntries, hidle]
  unfold call at hcall
  simp only at hcall
  split at hcall
  · split at hcall
    · cases hcall
      refine ⟨?_, by simp, fun _ hpc => absurd hidle hpc⟩
      rw [durableEntries]
      simp only [hidle]
      exact hempty
    · cases hcall
      exact ⟨hempty, by simp, fun _ _ hpc => absurd rfl (hpc _)⟩
  · split at hcall
    · split at hcall
      · cases hcall
      · cases hcall
        refine ⟨hempty, by simp, ?_⟩
        intro hfull _ _
        exact (hclosed (by simpa using hfull)).1
    · cases hcall
      refine ⟨?_, by simp, fun _ hpc => absurd hidle hpc⟩
      rw [durableEntries]
      simp only [hidle]
      exact hempty

theorem JournalOk.frame (h : JournalOk w) (hpc : w.pc ≠ .idle) (hlink : ∀ c, w.pc ≠ .linkTarget c)
    (hjournal : w'.journal = w.journal) (hopen : w'.journalOpen = w.journalOpen)
    (hfull : w'.full = w.full) (hentries : w'.durableEntries = w.durableEntries) :
    JournalOk w' := by
  obtain ⟨hdurable, hclosed, hrows⟩ := h
  refine ⟨?_, ?_, ?_⟩
  · rw [hjournal, hentries, hdurable]
  · rw [hopen]
    exact fun h => absurd (hclosed h).2 hpc
  · rw [hjournal, hentries, hfull]
    exact fun h _ _ => hrows h hpc hlink

theorem durableEntries_fail (w : LinkWorld) (c : LinkCall) (id steps : Nat) :
    (w.fail c id steps).durableEntries =
      if w.full then [⟨id, c.srcDir, c.linkSrcDir⟩] else [] := rfl

theorem journalOk_op {ok : Bool} {steps : Nat} (h : JournalOk w) (hop : w.op ok steps = some w') :
    JournalOk w' := by
  unfold op at hop
  cases hpc : w.pc with
  | idle =>
    rw [hpc] at hop
    cases hop
  | makeParent c =>
    simp only [hpc] at hop
    have hframe : ∀ fs links, JournalOk { w with fs, links, pc := .addJournal c } := by
      intro fs links
      apply h.frame (by simp [hpc]) (by simp [hpc]) <;> simp [durableEntries, hpc]
    split at hop
    · cases hop
      exact hframe w.fs _
    · split at hop
      · obtain ⟨fs, -, hw'⟩ := Option.map_eq_some_iff.mp hop
        cases hw'
        exact hframe fs _
      · cases hop
        obtain ⟨hdurable, hclosed, -⟩ := h
        rw [durableEntries, hpc] at hdurable
        exact ⟨hdurable, fun hopen => absurd (hclosed hopen).2 (by simp [hpc]),
          fun _ hpc => absurd rfl hpc⟩
  | addJournal c =>
    simp only [hpc] at hop
    cases hop
    obtain ⟨hdurable, hclosed, hrows⟩ := h
    rw [durableEntries, hpc] at hdurable hrows
    refine ⟨?_, fun hopen => absurd (hclosed hopen).2 (by simp [hpc]), ?_⟩
    · cases hfull : w.full with
      | false =>
        simp [durableEntries, LinkJournal.addDirectoryLinkJournalEntry, LinkJournal.write,
          hdurable]
      | true =>
        simp [durableEntries, LinkJournal.addDirectoryLinkJournalEntry, LinkJournal.write,
          hrows hfull (by simp) (by simp)]
    · intro hfull _ _
      change w.full = true at hfull
      simp [durableEntries, hfull, LinkJournal.addDirectoryLinkJournalEntry,
        LinkJournal.write, hrows hfull (by simp) (by simp)]
  | rename c id =>
    simp only [hpc] at hop
    split at hop
    · obtain ⟨fs, -, hw'⟩ := Option.map_eq_some_iff.mp hop
      cases hw'
      apply h.frame (by simp [hpc]) (by simp [hpc]) <;> simp [durableEntries, hpc]
    · cases hop
      refine h.frame (by simp [hpc]) (by simp [hpc]) rfl rfl rfl ?_
      rw [durableEntries_fail, durableEntries, hpc]
  | linkSrc c id =>
    simp only [hpc] at hop
    split at hop
    · obtain ⟨fs, -, hw'⟩ := Option.map_eq_some_iff.mp hop
      cases hw'
      apply h.frame (by simp [hpc]) (by simp [hpc]) <;> simp [durableEntries, hpc]
    · cases hop
      apply h.frame (by simp [hpc]) (by simp [hpc]) <;> simp [durableEntries, hpc]
  | renameBack c id =>
    simp only [hpc] at hop
    split at hop
    · obtain ⟨fs, -, hw'⟩ := Option.map_eq_some_iff.mp hop
      cases hw'
      refine h.frame (by simp [hpc]) (by simp [hpc]) rfl rfl rfl ?_
      rw [durableEntries_fail, durableEntries, hpc]
    · cases hop
      refine h.frame (by simp [hpc]) (by simp [hpc]) rfl rfl rfl ?_
      rw [durableEntries_fail, durableEntries, hpc]
  | removeJournal c id done =>
    simp only [hpc] at hop
    cases hop
    obtain ⟨hdurable, hclosed, hrows⟩ := h
    rw [durableEntries, hpc] at hdurable hrows
    have hempty : (w.journal.removeDirectoryLinkJournalEntry w.full id).durable = [] := by
      cases hfull : w.full with
      | false => simpa [LinkJournal.removeDirectoryLinkJournalEntry, LinkJournal.write, hfull]
          using hdurable
      | true =>
        have hentries := hrows hfull (by simp) (by simp)
        simp [LinkJournal.removeDirectoryLinkJournalEntry, LinkJournal.write, hfull, hentries]
    refine ⟨?_, fun hopen => absurd (hclosed hopen).2 (by simp [hpc]), ?_⟩
    · cases done <;> exact hempty
    · intro _ hidle hlink
      cases done with
      | false => exact absurd rfl hidle
      | true => exact absurd rfl (hlink c)
  | linkTarget c =>
    simp only [hpc] at hop
    obtain ⟨hdurable, hclosed, -⟩ := h
    rw [durableEntries, hpc] at hdurable
    have hframe : ∀ fs links, JournalOk { w with fs, links, pc := .idle } := by
      intro fs links
      exact ⟨hdurable, fun hopen => absurd (hclosed hopen).2 (by simp [hpc]),
        fun _ hpc => absurd rfl hpc⟩
    split at hop
    · obtain ⟨fs, -, hw'⟩ := Option.map_eq_some_iff.mp hop
      cases hw'
      exact hframe fs w.links
    · cases hop
      exact hframe w.fs _

theorem journalOk_step {e : LinkEvent} (h : JournalOk w) (hstep : w.step e = some w') :
    JournalOk w' := by
  cases e with
  | call clientid targetDir srcDir pooldir poolName depth steps =>
    rw [step] at hstep
    split at hstep
    · rename_i hidle
      exact journalOk_call hidle h hstep
    · cases hstep
  | op ok steps => exact journalOk_op h hstep

end Journal

section Files

variable {D : Nat → Prop} {fs₀ : FileSystem} {w w' : LinkWorld}

theorem IsDir.mono {fs fs' : FileSystem} {path : Path} (h : IsDir fs path)
    (hentries : ∀ d n node, fs.entry d n = some node → fs'.entry d n = some node) :
    IsDir fs' path := by
  rcases h with hroot | ⟨d, n, i, hnames, hentry⟩
  · exact .inl hroot
  · exact .inr ⟨d, n, i, hnames.mono (keeps_of_entries hentries), hentries d n _ hentry⟩

theorem filesOk_call {clientid : Int} {targetDir srcDir pooldir : Path} {poolName : String}
    {depth steps : Nat} (hidle : w.pc = .idle) (h : FilesOk D fs₀ w)
    (hcall : w.call clientid targetDir srcDir pooldir poolName depth steps = some w') :
    FilesOk D fs₀ w' := by
  unfold FilesOk at h
  rw [hidle] at h
  unfold call at hcall
  simp only at hcall
  split at hcall
  · split at hcall
    · cases hcall
      unfold FilesOk
      simp only [hidle]
      exact h
    · cases hcall
      exact h
  · rename_i hlink
    split at hcall
    · rename_i hdir
      split at hcall
      · cases hcall
      · cases hcall
        exact ⟨h, names_of_directoryExists hdir hlink⟩
    · cases hcall
      unfold FilesOk
      simp only [hidle]
      exact h

theorem keeps_set (fs : FileSystem) (d : Nat) (n : String) : Keeps (fs.set d n none) fs := by
  apply keeps_of_entries
  intro d' n' node hentry
  rw [entry_set] at hentry
  split at hentry
  · cases hentry
  · exact hentry

theorem moved_of_rename {c : LinkCall} {fs fs' : FileSystem} {steps : Nat} (hapart : Apart fs c)
    (hD : ∀ d, D d → ∀ n, fs.entry d n = none → fs'.entry d n = none)
    (h : fs.rename steps c.srcDir c.linkSrcDir = some fs') : Moved D c fs fs' := by
  obtain ⟨⟨d₁, n₁⟩, hplace₁, hrest⟩ := Option.bind_eq_some_iff.mp h
  obtain ⟨⟨d₂, n₂⟩, hplace₂, hmoved⟩ := Option.bind_eq_some_iff.mp hrest
  simp only at hmoved
  split at hmoved
  · rename_i i hdir hfree
    cases hmoved
    have hnames₁ := names_of_place hplace₁
    obtain ⟨⟨e₁, hparent₁⟩, e₂, hparent₂⟩ := hapart d₁ n₁ hnames₁
    obtain ⟨p₁, hsrc, hfollows₁⟩ := hnames₁
    obtain ⟨p₂, hlinkSrc, hfollows₂⟩ := names_of_place hplace₂
    rw [hsrc, List.dropLast_concat] at hparent₁
    rw [hlinkSrc, List.dropLast_concat] at hparent₂
    cases hfollows₁.unique (keeps_set fs d₁ n₁ root p₁ _ hparent₁)
    cases hfollows₂.unique (keeps_set fs d₁ n₁ root p₂ _ hparent₂)
    refine ⟨p₁, n₁, d₁, p₂, n₂, d₂, i, hsrc, hlinkSrc, hdir, hfree, ?_, hparent₁, hparent₂, rfl⟩
    intro hd
    have hnone := hD d₂ hd n₂ hfree
    rw [entry_set, if_pos ⟨rfl, rfl⟩] at hnone
    cases hnone
  · cases hmoved

end Files

section Moved

variable {D : Nat → Prop} {c : LinkCall} {base fs fs' : FileSystem} {steps d n : Nat}

theorem set_back {d₁ d₂ : Nat} {n₁ n₂ : String} {node : FsNode}
    (hdir : base.entry d₁ n₁ = some node) (hfree : base.entry d₂ n₂ = none) :
    (((base.set d₁ n₁ none).set d₂ n₂ (some node)).set d₂ n₂ none).set d₁ n₁ (some node) = base := by
  refine FileSystem.ext ?_ rfl
  funext d n
  rw [entry_set]
  split
  · rename_i hd
    rw [hd.1, hd.2, hdir]
  · rename_i hd₁
    rw [entry_set]
    split
    · rename_i hd
      rw [hd.1, hd.2, hfree]
    · rename_i hd₂
      rw [entry_set, if_neg hd₂, entry_set, if_neg hd₁]

theorem Moved.link (h : Moved D c base fs) : ∃ d n, fs.Names c.srcDir d n ∧ fs.entry d n = none ∧
    Kept D base (fs.set d n (some (.link c.linkSrcDir))) := by
  obtain ⟨p₁, n₁, d₁, p₂, n₂, d₂, i, hsrc, hlinkSrc, hdir, hfree, hD, hp₁, hp₂, rfl⟩ := h
  have hne : ¬ (d₁ = d₂ ∧ n₁ = n₂) := by
    rintro ⟨rfl, rfl⟩
    rw [hdir] at hfree
    cases hfree
  have hfree' : (base.set d₁ n₁ none).entry d₂ n₂ = none := by
    rw [entry_set, hfree, ite_self]
  refine ⟨d₁, n₁, ⟨p₁, hsrc, ?_⟩, ?_, ?_⟩
  · exact keeps_set_none hfree' _ root p₁ _ hp₁
  · rw [entry_set, if_neg hne, entry_set, if_pos ⟨rfl, rfl⟩]
  · rw [hlinkSrc]
    exact Kept.move hdir hfree hp₂ hD

theorem Moved.target (h : Moved D c base fs) : ∃ i, fs.Follows root c.linkSrcDir (.dir i) := by
  obtain ⟨p₁, n₁, d₁, p₂, n₂, d₂, i, hsrc, hlinkSrc, hdir, hfree, hD, hp₁, hp₂, rfl⟩ := h
  have hfree' : (base.set d₁ n₁ none).entry d₂ n₂ = none := by
    rw [entry_set, hfree, ite_self]
  refine ⟨i, ?_⟩
  rw [hlinkSrc]
  apply (keeps_set_none hfree' _ root p₂ _ hp₂).append
  apply follows_dir _ (follows_nil _ i)
  rw [entry_set, if_pos ⟨rfl, rfl⟩]

theorem Moved.back (h : Moved D c base fs)
    (hrename : fs.rename steps c.linkSrcDir c.srcDir = some fs') :
    fs' = base ∧ IsDir base c.srcDir := by
  obtain ⟨p₁, n₁, d₁, p₂, n₂, d₂, i, hsrc, hlinkSrc, hdir, hfree, hD, hp₁, hp₂, rfl⟩ := h
  have hfree' : (base.set d₁ n₁ none).entry d₂ n₂ = none := by
    rw [entry_set, hfree, ite_self]
  have hkeeps := keeps_set_none hfree' (some (.object (.dir i)))
  obtain ⟨⟨e₂, m₂⟩, hplace₂, hrest⟩ := Option.bind_eq_some_iff.mp hrename
  obtain ⟨⟨e₁, m₁⟩, hplace₁, hmoved⟩ := Option.bind_eq_some_iff.mp hrest
  obtain ⟨rfl, rfl⟩ := (names_of_place hplace₂).unique ⟨p₂, hlinkSrc, hkeeps root p₂ _ hp₂⟩
  obtain ⟨rfl, rfl⟩ := (names_of_place hplace₁).unique ⟨p₁, hsrc, hkeeps root p₁ _ hp₁⟩
  simp only at hmoved
  split at hmoved
  · rename_i j hentry hnone
    rw [entry_set, if_pos ⟨rfl, rfl⟩] at hentry
    cases hentry
    cases hmoved
    refine ⟨set_back hdir hfree, .inr ⟨e₁, m₁, i, ⟨p₁, hsrc, ?_⟩, hdir⟩⟩
    exact keeps_set base e₁ m₁ root p₁ _ hp₁
  · cases hmoved

end Moved

theorem names_of_symlink {fs fs' : FileSystem} {steps : Nat} {target path : Path}
    (h : fs.symlink steps target path = some fs') : ∃ d n, fs.Names path d n ∧
      fs.entry d n = none ∧ fs' = fs.set d n (some (.link target)) := by
  obtain ⟨⟨d, n⟩, hplace, hset⟩ := Option.bind_eq_some_iff.mp h
  simp only at hset
  split at hset
  · rename_i hnone
    cases hset
    exact ⟨d, n, names_of_place hplace, Option.isNone_iff_eq_none.mp hnone, rfl⟩
  · cases hset

section Steps

variable {D : Nat → Prop} {fs₀ : FileSystem} {w w' : LinkWorld}

theorem kept_of_symlink {fs fs' : FileSystem} {steps : Nat} {target path : Path}
    (h : fs.symlink steps target path = some fs')
    (hD : ∀ d, D d → ∀ n, fs.entry d n = none → fs'.entry d n = none) : Kept D fs fs' := by
  obtain ⟨d, n, -, hnone, rfl⟩ := names_of_symlink h
  refine Kept.of_entries ?_ hD
  intro d' n' node hentry
  rw [entry_set, if_neg, hentry]
  rintro ⟨rfl, rfl⟩
  rw [hentry] at hnone
  cases hnone

theorem filesOk_op {ok : Bool} {steps : Nat} (h : FilesOk D fs₀ w)
    (hok : StepOk D w (.op ok steps)) (hop : w.op ok steps = some w') : FilesOk D fs₀ w' := by
  have hputs : PutsApart D w (.op ok steps) →
      ∀ d, D d → ∀ n, w.fs.entry d n = none → w'.fs.entry d n = none := fun h => h w' hop
  unfold op at hop
  unfold FilesOk at h
  unfold StepOk at hok
  cases hpc : w.pc with
  | idle =>
    rw [hpc] at hop
    cases hop
  | makeParent c =>
    simp only [hpc] at hop h hok
    split at hop
    · cases hop
      exact h
    · split at hop
      · obtain ⟨fs, hcreate, hw'⟩ := Option.map_eq_some_iff.mp hop
        cases hw'
        have hentries := createDirs_entries hcreate
        exact ⟨h.1.trans (Kept.of_entries hentries (hputs hok)), h.2.mono hentries⟩
      · cases hop
        exact h.1
  | addJournal c =>
    simp only [hpc] at hop h
    cases hop
    exact h
  | rename c id =>
    simp only [hpc] at hop h hok
    split at hop
    · rename_i htrue
      subst htrue
      obtain ⟨fs, hrename, hw'⟩ := Option.map_eq_some_iff.mp hop
      cases hw'
      exact ⟨w.fs, h.1, moved_of_rename hok.1 (hputs hok.2) hrename⟩
    · cases hop
      exact h
  | linkSrc c id =>
    simp only [hpc] at hop h
    obtain ⟨base, hkept, hmoved⟩ := h
    split at hop
    · obtain ⟨fs, hsymlink, hw'⟩ := Option.map_eq_some_iff.mp hop
      cases hw'
      obtain ⟨d, n, hnames, hnone, hlink⟩ := hmoved.link
      obtain ⟨d', n', hnames', -, rfl⟩ := names_of_symlink hsymlink
      obtain ⟨rfl, rfl⟩ := hnames.unique hnames'
      refine ⟨hkept.trans hlink, d, n, hnames.mono (keeps_set_none hnone _), ?_⟩
      rw [entry_set, if_pos ⟨rfl, rfl⟩]
    · cases hop
      exact ⟨base, hkept, hmoved⟩
  | renameBack c id =>
    simp only [hpc] at hop h hok
    obtain ⟨base, hkept, hmoved⟩ := h
    subst hok
    obtain ⟨fs, hrename, hw'⟩ := Option.map_eq_some_iff.mp hop
    cases hw'
    obtain ⟨rfl, hdir⟩ := hmoved.back hrename
    exact ⟨hkept, hdir⟩
  | removeJournal c id done =>
    simp only [hpc] at hop h
    cases hop
    cases done with
    | false => exact h.1
    | true => exact h.1
  | linkTarget c =>
    simp only [hpc] at hop h hok
    split at hop
    · obtain ⟨fs, hsymlink, hw'⟩ := Option.map_eq_some_iff.mp hop
      cases hw'
      exact h.trans (kept_of_symlink hsymlink (hputs hok))
    · cases hop
      exact h

theorem filesOk_step {e : LinkEvent} (h : FilesOk D fs₀ w) (hok : StepOk D w e)
    (hstep : w.step e = some w') : FilesOk D fs₀ w' := by
  cases e with
  | call clientid targetDir srcDir pooldir poolName depth steps =>
    rw [step] at hstep
    split at hstep
    · rename_i hidle
      exact filesOk_call hidle h hstep
    · cases hstep
  | op ok steps => exact filesOk_op h hok hstep

end Steps

section Crash

variable {D : Nat → Prop} {fs₀ fs base : FileSystem} {w : LinkWorld} {c : LinkCall} (id : Nat)

theorem replayEntry_isDir {path : Path} (h : IsDir fs path) (target : Path) :
    ∃ N, ∀ steps, N ≤ steps → replayEntry steps fs ⟨id, path, target⟩ = fs := by
  rcases h with rfl | ⟨d, n, i, hnames, hentry⟩
  · refine ⟨0, ?_⟩
    intro steps _
    simp [replayEntry, unlink, symlink, FileSystem.place]
  · obtain ⟨N, hplace⟩ := hnames.place
    refine ⟨N, ?_⟩
    intro steps hsteps
    simp [replayEntry, unlink, symlink, hplace steps hsteps, hentry]

theorem replayEntry_link {path target : Path} {d : Nat} {n : String} (hnames : fs.Names path d n)
    (hentry : fs.entry d n = some (.link target)) :
    ∃ N, ∀ steps, N ≤ steps → replayEntry steps fs ⟨id, path, target⟩ = fs := by
  obtain ⟨N, hplace⟩ := hnames.place
  refine ⟨N, ?_⟩
  intro steps hsteps
  have hlink : fs.readLink steps path = some target := by
    simp [readLink, lstat, hplace steps hsteps, hentry]
  rw [replayEntry, if_neg (not_not_intro hlink)]

theorem replayEntry_moved (h : Moved D c base fs) : ∃ N, ∀ steps, N ≤ steps →
    Kept D base (replayEntry steps fs ⟨id, c.srcDir, c.linkSrcDir⟩) := by
  obtain ⟨d, n, hnames, hnone, hkept⟩ := h.link
  obtain ⟨i, M, hfollow⟩ := h.target
  obtain ⟨N, hplace⟩ := hnames.place
  refine ⟨max M N, ?_⟩
  intro steps hsteps
  have hplace := hplace steps (Nat.le_trans (Nat.le_max_right M N) hsteps)
  have hexists : fs.directoryExists steps c.linkSrcDir = true := by
    rw [directoryExists, follow_mono (Nat.le_trans (Nat.le_max_left M N) hsteps) hfollow]
  have hlink : fs.readLink steps c.srcDir = none := by
    simp [readLink, lstat, hplace, hnone]
  have hunlink : fs.unlink steps c.srcDir = none := by
    simp [unlink, hplace, hnone]
  have hsymlink : fs.symlink steps c.linkSrcDir c.srcDir =
      some (fs.set d n (some (.link c.linkSrcDir))) := by
    simp [symlink, hplace, hnone]
  rw [replayEntry, if_pos (by simp [hlink]), if_pos hexists, hunlink, Option.getD_none]
  change Kept D base ((fs.symlink steps c.linkSrcDir c.srcDir).getD fs)
  rw [hsymlink]
  exact hkept

theorem replay_kept (hfiles : FilesOk D fs₀ w) (hjournal : JournalOk w) (hcrash : CrashOk w) :
    ∃ N, ∀ steps, N ≤ steps →
      Kept D fs₀ (replayDirectoryLinkJournal steps w.journal.durable w.fs) := by
  rw [hjournal.1]
  have hempty : ∀ entries, entries = [] → Kept D fs₀ w.fs → ∃ N, ∀ steps, N ≤ steps →
      Kept D fs₀ (replayDirectoryLinkJournal steps entries w.fs) := by
    rintro entries rfl hkept
    exact ⟨0, fun _ _ => hkept⟩
  have hrow : ∀ (c : LinkCall) (id : Nat), (∃ N, ∀ steps, N ≤ steps →
      Kept D fs₀ (replayEntry steps w.fs ⟨id, c.srcDir, c.linkSrcDir⟩)) →
      (w.full = false → Kept D fs₀ w.fs) → ∃ N, ∀ steps, N ≤ steps →
        Kept D fs₀ (replayDirectoryLinkJournal steps
          (if w.full then [⟨id, c.srcDir, c.linkSrcDir⟩] else []) w.fs) := by
    intro c id hreplay hkept
    cases hfull : w.full with
    | false => exact ⟨0, fun _ _ => hkept hfull⟩
    | true => exact hreplay
  have hdir : ∀ (c : LinkCall) (id : Nat), Kept D fs₀ w.fs → IsDir w.fs c.srcDir → ∃ N, ∀ steps, N ≤ steps →
      Kept D fs₀ (replayEntry steps w.fs ⟨id, c.srcDir, c.linkSrcDir⟩) := by
    intro c id hkept hdir
    obtain ⟨N, hreplay⟩ := replayEntry_isDir id hdir c.linkSrcDir
    refine ⟨N, ?_⟩
    intro steps hsteps
    rw [hreplay steps hsteps]
    exact hkept
  have hmoved : ∀ (c : LinkCall) (id : Nat), (∃ base, Kept D fs₀ base ∧ Moved D c base w.fs) → ∃ N, ∀ steps, N ≤ steps →
      Kept D fs₀ (replayEntry steps w.fs ⟨id, c.srcDir, c.linkSrcDir⟩) := by
    rintro c id ⟨base, hkept, hmoved⟩
    obtain ⟨N, hreplay⟩ := replayEntry_moved id hmoved
    exact ⟨N, fun steps hsteps => hkept.trans (hreplay steps hsteps)⟩
  unfold FilesOk at hfiles
  unfold CrashOk at hcrash
  unfold durableEntries
  cases hpc : w.pc with
  | idle =>
    rw [hpc] at hfiles
    exact hempty _ rfl hfiles
  | makeParent c =>
    rw [hpc] at hfiles
    exact hempty _ rfl hfiles.1
  | addJournal c =>
    rw [hpc] at hfiles
    exact hempty _ rfl hfiles.1
  | rename c id =>
    rw [hpc] at hfiles
    exact hrow c id (hdir c id hfiles.1 hfiles.2) fun _ => hfiles.1
  | linkSrc c id =>
    rw [hpc] at hfiles hcrash
    exact hrow c id (hmoved c id hfiles) fun hfull => by simp [hcrash] at hfull
  | renameBack c id =>
    rw [hpc] at hfiles hcrash
    exact hrow c id (hmoved c id hfiles) fun hfull => by simp [hcrash] at hfull
  | removeJournal c id done =>
    cases done with
    | false =>
      rw [hpc] at hfiles
      exact hrow c id (hdir c id hfiles.1 hfiles.2) fun _ => hfiles.1
    | true =>
      rw [hpc] at hfiles
      obtain ⟨hkept, d, n, hnames, hentry⟩ := hfiles
      obtain ⟨N, hreplay⟩ := replayEntry_link id hnames hentry
      refine hrow c id ⟨N, ?_⟩ fun _ => hkept
      intro steps hsteps
      rw [hreplay steps hsteps]
      exact hkept
  | linkTarget c =>
    rw [hpc] at hfiles
    exact hempty _ rfl hfiles

end Crash

section Runs

variable {D : Nat → Prop} {fs : FileSystem} {links : DirectoryLinks} {es₁ es₂ : List LinkEvent}
  {w₁ w₂ : LinkWorld}

/-- Power fails anywhere, between the calls or in one: what was there before a call is there when
the journal has been replayed. -/
theorem replay_restores (hcalls : run step (initial fs links) es₁ = some w₁) (hidle : w₁.pc = .idle)
    (hrun : run step w₁ es₂ = some w₂) (hok : Guarded step (StepOk D) w₁ es₂)
    (hcrash : CrashOk w₂) : ∃ N, ∀ steps, N ≤ steps →
      Kept D w₁.fs (replayDirectoryLinkJournal steps w₂.journal.durable w₂.fs) := by
  have hjournal₁ : JournalOk w₁ :=
    run_invariant (fun _ _ _ h hstep => journalOk_step h hstep) (journalOk_initial fs links) hcalls
  have hjournal₂ : JournalOk w₂ :=
    run_invariant (fun _ _ _ h hstep => journalOk_step h hstep) hjournal₁ hrun
  have hfiles₁ : FilesOk D w₁.fs w₁ := by
    unfold FilesOk
    rw [hidle]
    exact Kept.refl D w₁.fs
  have hfiles₂ : FilesOk D w₁.fs w₂ :=
    guarded_run_invariant (fun _ _ _ h hok hstep => filesOk_step h hok hstep) hfiles₁ hok hrun
  exact replay_kept hfiles₂ hjournal₂ hcrash

end Runs

section Example

theorem putsApart_of_step {D : Nat → Prop} {w w' : LinkWorld} {e : LinkEvent}
    (hstep : w.step e = some w')
    (h : ∀ d, D d → ∀ n, w.fs.entry d n = none → w'.fs.entry d n = none) : PutsApart D w e := by
  intro w'' hstep'
  rw [hstep] at hstep'
  cases hstep'
  exact h

theorem crashOk_of_full {w : LinkWorld} (h : w.full = true) : CrashOk w := by
  unfold CrashOk
  split
  · exact h
  · exact h
  · trivial

/-- Two backups and the pool. The first backup has the directories 2 and 3, with a file in each. -/
def twoBackups : FileSystem where
  entry d name := match d, name with
    | 0, "b1" => some (.object (.dir 1))
    | 0, "b2" => some (.object (.dir 4))
    | 0, "pool" => some (.object (.dir 5))
    | 1, "d" => some (.object (.dir 2))
    | 1, "e" => some (.object (.dir 3))
    | 2, "f" => some (.object (.file 6))
    | 3, "f" => some (.object (.file 7))
    | _, _ => none
  nextDir := 8

def firstCall : LinkEvent := .call 1 ["b2", "d"] ["b1", "d"] ["pool"] "aa1" 1 10

def secondCall : LinkEvent := .call 1 ["b2", "e"] ["b1", "e"] ["pool"] "bb2" 1 10

def upToRename : List LinkEvent := [.op true 10, .op true 10, .op true 10]

theorem replay_restores_firstCall : ∃ w,
    run step (initial twoBackups []) (firstCall :: upToRename) = some w ∧
    ∃ N, ∀ steps, N ≤ steps →
      Kept (fun d => d = 2) twoBackups (replayDirectoryLinkJournal steps w.journal.durable w.fs) := by
  obtain ⟨w, hrun, hfull⟩ : ∃ w,
      run step (initial twoBackups []) (firstCall :: upToRename) = some w ∧ w.full = true :=
    ⟨_, rfl, rfl⟩
  refine ⟨w, hrun, ?_⟩
  have hcalls : run step (initial twoBackups []) [] = some (initial twoBackups []) := rfl
  refine replay_restores hcalls rfl hrun ?_ ?_
  · refine guarded_cons rfl (putsApart_of_step rfl ?_) (guarded_cons rfl (putsApart_of_step rfl ?_)
      (guarded_cons rfl (putsApart_of_step rfl ?_) (guarded_cons rfl ⟨?_, putsApart_of_step rfl ?_⟩
        trivial)))
    · exact fun _ _ _ h => h
    · rintro d rfl n h
      exact h
    · exact fun _ _ _ h => h
    · intro d n hnames
      obtain ⟨rfl, rfl⟩ := hnames.unique ⟨["b1"], rfl, 5, rfl⟩
      exact ⟨⟨1, 5, rfl⟩, 8, 5, rfl⟩
    · rintro d rfl n h
      exact h
  · exact crashOk_of_full hfull

theorem replay_loses_secondCall : ∃ w,
    run step (initial twoBackups []) (firstCall :: upToRename ++ [.op true 10, .op true 10,
      .op true 10] ++ secondCall :: upToRename) = some w ∧
    twoBackups.Follows root ["b1", "e"] (.dir 3) ∧ ∀ steps o,
      ¬ (replayDirectoryLinkJournal steps w.journal.durable w.fs).Follows root ["b1", "e"] o := by
  obtain ⟨w, hrun, hdurable, hb1, he⟩ : ∃ w,
      run step (initial twoBackups []) (firstCall :: upToRename ++ [.op true 10, .op true 10,
        .op true 10] ++ secondCall :: upToRename) = some w ∧ w.journal.durable = [] ∧
      w.fs.entry 0 "b1" = some (.object (.dir 1)) ∧ w.fs.entry 1 "e" = none :=
    ⟨_, rfl, rfl, rfl, rfl⟩
  refine ⟨w, hrun, ⟨2, rfl⟩, ?_⟩
  rintro steps o ⟨N, hfollow⟩
  rw [hdurable] at hfollow
  change w.fs.follow N 0 ["b1", "e"] = some o at hfollow
  cases N with
  | zero => cases hfollow
  | succ N =>
    rw [follow, hb1] at hfollow
    cases N with
    | zero => cases hfollow
    | succ N =>
      simp [follow, he] at hfollow

end Example

end LinkWorld

end UrBackup
