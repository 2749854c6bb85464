import UrBackup.Restore.RestoreShares

/-! What is left of the restores of a client. A restore that has failed or timed out is looked for
under the token that the client was given, and not under its identity; when a restore has finished,
the share with its list of files is taken away before the list is. -/
namespace UrBackup

namespace FileServ

variable {fs fs' fs'' : FileServ} {identity : List UInt8}

/-- What is shared under other identities stays, and nothing is added. -/
structure Leaves (identity : List UInt8) (fs fs' : FileServ) : Prop where
  less : ∀ share ∈ fs'.shares, share ∈ fs.shares
  shares : ∀ share ∈ fs.shares, share.1.2 ≠ identity → share ∈ fs'.shares
  callbacks : ∀ callback ∈ fs.callbacks, callback.2 ≠ identity → callback ∈ fs'.callbacks
  identities : ∀ i ∈ fs.identities, i ≠ identity → i ∈ fs'.identities

theorem Leaves.refl (identity : List UInt8) (fs : FileServ) : Leaves identity fs fs where
  less _ h := h
  shares _ h _ := h
  callbacks _ h _ := h
  identities _ h _ := h

theorem Leaves.trans (h : Leaves identity fs fs') (h' : Leaves identity fs' fs'') :
    Leaves identity fs fs'' where
  less share hs := h.less share (h'.less share hs)
  shares share hs hne := h'.shares share (h.shares share hs hne) hne
  callbacks callback hc hne := h'.callbacks callback (h.callbacks callback hc hne) hne
  identities i hi hne := h'.identities i (h.identities i hi hne) hne

theorem removeIdentity_leaves (fs : FileServ) (identity : List UInt8) :
    Leaves identity fs (fs.removeIdentity identity) where
  less _ h := h
  shares _ h _ := h
  callbacks _ h _ := h
  identities _ h hne := (List.mem_erase_of_ne hne).mpr h

theorem removeDir_leaves (fs : FileServ) (name : ShareName) (identity : List UInt8) :
    Leaves identity fs (fs.removeDir name identity).2 where
  less _ h := (List.mem_filter.mp h).1
  shares share h hne := by
    refine List.mem_filter.mpr ⟨h, ?_⟩
    apply decide_eq_true
    intro heq
    exact hne (congrArg Prod.snd heq)
  callbacks _ h _ := h
  identities _ h _ := h

theorem removeMetadataCallback_leaves (fs : FileServ) (name : ShareName) (identity : List UInt8) :
    Leaves identity fs (fs.removeMetadataCallback name identity) where
  less _ h := h
  shares _ h _ := h
  callbacks callback h hne := by
    refine List.mem_filter.mpr ⟨h, ?_⟩
    apply decide_eq_true
    intro heq
    exact hne (congrArg Prod.snd heq)
  identities _ h _ := h

/-- Induction on the turns of the loop. -/
theorem removeFolders_leaves (identity : List UInt8) (turns idx : Nat) (fs : FileServ) :
    Leaves identity fs (fs.removeFolders identity turns idx) := by
  induction turns generalizing idx fs with
  | zero => exact Leaves.refl identity fs
  | succ turns ih =>
    have hdir := fs.removeDir_leaves (.clientdl idx) identity
    unfold removeFolders
    split
    next fs' heq =>
      rw [heq] at hdir
      exact hdir
    next fs' heq =>
      rw [heq] at hdir
      exact hdir.trans ((removeMetadataCallback_leaves _ _ _).trans (ih _ _))

/-- There is no path for a share that does not exist. -/
theorem getShareDir_none {name : ShareName} (h : ∀ share ∈ fs.shares, share.1 ≠ (name, identity))
    (hnone : ∀ share ∈ fs.shares, share.1.2 ≠ []) : fs.getShareDir name identity = none := by
  have hlookup (key : ShareName × List UInt8) (hkey : ∀ share ∈ fs.shares, share.1 ≠ key) :
      fs.shares.lookup key = none := by
    rw [List.lookup_eq_none_iff]
    intro share hshare
    exact bne_iff_ne.mpr fun heq => hkey share hshare heq.symm
  unfold getShareDir
  rw [hlookup _ h, hlookup]
  · rfl
  · intro share hshare heq
    exact hnone share hshare (congrArg Prod.snd heq)

end FileServ

namespace RestoreShares

open ClientDownloadThread

variable {s s' : RestoreShares}

/-- A restore under this identity has finished, failed or timed out. -/
def Ended (s : RestoreShares) (identity : List UInt8) : Prop :=
  ∃ r ∈ s.created, r.identity = identity ∧ r.id ∈ s.ended

/-- Nothing is left of a share. -/
structure Removed (s : RestoreShares) (c : SShareCleanup) : Prop where
  entry : c ∉ s.cleanupShares
  share : ∀ share ∈ s.fileserv.shares, share.1 ≠ (c.name, c.identity)
  callback : c.removeCallback = true → (c.name, c.identity) ∉ s.fileserv.callbacks
  identity : c.identity ∉ s.fileserv.identities
  file : c.cleanupFile = true → ∀ r ∈ s.created, r.identity = c.identity → r.filelist ∉ s.files

/-- What was made for a restore that has not ended is still there. -/
structure Kept (s : RestoreShares) : Prop where
  shares : ∀ p ∈ s.shared, ¬ s.Ended p.2 → p ∈ s.fileserv.shares.map Prod.fst
  callbacks : ∀ p ∈ s.calledBack, ¬ s.Ended p.2 → p ∈ s.fileserv.callbacks
  identities : ∀ i ∈ s.identified, ¬ s.Ended i → i ∈ s.fileserv.identities
  entries : ∀ c ∈ s.registered, ¬ s.Ended c.identity → c ∈ s.cleanupShares
  files : ∀ r ∈ s.created, ¬ s.Ended r.identity → r.filelist ∈ s.files

/-- The shares of a restore are removed with it, and not before. -/
structure SharesRemoved (s : RestoreShares) : Prop extends Kept s where
  removed : ∀ c ∈ s.registered, s.Ended c.identity → Removed s c

structure Inv (s : RestoreShares) : Prop extends Kept s where
  lists : ∀ r ∈ s.created, r.filelist ∈ s.files
  created : ∀ r ∈ s.created, r.identity.length = identityLength
  rows : ∀ r ∈ s.restores, r ∈ s.created
  cleanup : ∀ c ∈ s.cleanupShares,
    c.identity.length = identityLength ∧ (c.cleanupFile = true → c.name = .clientdlFilelist)
  names : ∀ share ∈ s.fileserv.shares, share.1.2.length = identityLength
  threads : ∀ t ∈ s.threads, t.restore ∈ s.created ∧
    (3 ≤ t.done → filelistShare t.restore.identity ∈ s.registered)
  pipe : ∀ m ∈ s.commPipe, m.1.length = identityLength
  running : ∀ r ∈ s.runningRestores, r.restoreIdentity.length ≠ identityLength
  registered : ∀ c ∈ s.registered, filelistShare c.identity ∈ s.registered

theorem initial_inv : Inv initial := by
  refine ⟨⟨?_, ?_, ?_, ?_, ?_⟩, ?_, ?_, ?_, ?_, ?_, ?_, ?_, ?_, ?_⟩ <;>
    exact fun _ h => absurd h List.not_mem_nil

/-- The list of files of a restore is never deleted, so it is there when the restore has ended. -/
theorem Inv.lists_left (h : Inv s) :
    SharesRemoved s ↔ ∀ c ∈ s.registered, ¬ s.Ended c.identity := by
  constructor
  · intro hremoved c hc hended
    obtain ⟨r, hr, hidentity, hid⟩ := hended
    have hlist := hremoved.removed _ (h.registered c hc) ⟨r, hr, hidentity, hid⟩
    exact hlist.file rfl r hr hidentity (h.lists r hr)
  · intro hnone
    exact { h.toKept with removed := fun c hc hended => absurd hended (hnone c hc) }

theorem Kept.end (h : Kept s) (ended : List Nat) : Kept { s with ended := s.ended ++ ended } := by
  have hmono (identity : List UInt8)
      (hne : ¬ Ended { s with ended := s.ended ++ ended } identity) : ¬ s.Ended identity := by
    rintro ⟨r, hr, hidentity, hid⟩
    exact hne ⟨r, hr, hidentity, List.mem_append_left _ hid⟩
  exact
    { shares := fun p hp hne => h.shares p hp (hmono _ hne)
      callbacks := fun p hp hne => h.callbacks p hp (hmono _ hne)
      identities := fun i hi hne => h.identities i hi (hmono _ hne)
      entries := fun c hc hne => h.entries c hc (hmono _ hne)
      files := fun r hr hne => h.files r hr (hmono _ hne) }

theorem Inv.end (h : Inv s) (ended : List Nat) : Inv { s with ended := s.ended ++ ended } :=
  { h.toKept.end ended, h with }

theorem cleanupRestoreShare_none {identity : List UInt8}
    (h : ∀ c ∈ s.cleanupShares, c.identity ≠ identity) : s.cleanupRestoreShare identity = s := by
  have hnone : s.cleanupShares.filter (fun c => c.identity = identity) = [] := by
    rw [List.filter_eq_nil_iff]
    intro c hc
    simpa using h c hc
  have hall : s.cleanupShares.filter (fun c => c.identity ≠ identity) = s.cleanupShares := by
    rw [List.filter_eq_self]
    intro c hc
    simpa using h c hc
  unfold cleanupRestoreShare
  rw [hnone, hall]
  rfl

theorem Inv.finishFailedRestore (h : Inv s) {restoreIdentity : List UInt8}
    (hlength : restoreIdentity.length ≠ identityLength) (restoreId : Nat) :
    s.finishFailedRestore restoreIdentity restoreId = { s with ended := s.ended ++ [restoreId] } := by
  unfold RestoreShares.finishFailedRestore
  rw [cleanupRestoreShare_none]
  intro c hc heq
  rw [← heq] at hlength
  exact hlength (h.cleanup c hc).1

theorem Ended.mono {identity : List UInt8} (h : s.Ended identity) (restore : Restore) :
    Ended { s with created := s.created ++ [restore] } identity := by
  obtain ⟨r, hr, hidentity, hid⟩ := h
  exact ⟨r, List.mem_append_left _ hr, hidentity, hid⟩

theorem Inv.create (h : Inv s) {identity filelist : List UInt8}
    (hstep : s.create identity filelist = some s') : Inv s' := by
  unfold RestoreShares.create at hstep
  split at hstep
  next hnew =>
    cases hstep
    have hmem {r : Restore} (hr : r ∈ s.created ++ [⟨s.created.length, identity, filelist⟩]) :
        r ∈ s.created ∨ r = ⟨s.created.length, identity, filelist⟩ :=
      (List.mem_append.mp hr).imp_right List.mem_singleton.mp
    have hlists (r : Restore) (hr : r ∈ s.created ++ [⟨s.created.length, identity, filelist⟩]) :
        r.filelist ∈ s.files ++ [filelist] := by
      rcases hmem hr with hold | rfl
      · exact List.mem_append_left _ (h.lists r hold)
      · exact List.mem_append_right _ (List.mem_singleton_self _)
    exact
      { h with
        shares := fun p hp hne => h.shares p hp fun hended => hne (hended.mono _)
        callbacks := fun p hp hne => h.callbacks p hp fun hended => hne (hended.mono _)
        identities := fun i hi hne => h.identities i hi fun hended => hne (hended.mono _)
        entries := fun c hc hne => h.entries c hc fun hended => hne (hended.mono _)
        files := fun r hr _ => hlists r hr
        lists := hlists
        created := by
          intro r hr
          rcases hmem hr with hold | rfl
          · exact h.created r hold
          · exact hnew.1
        rows := by
          intro r hr
          cases List.mem_append.mp hr with
          | inl hold => exact List.mem_append_left _ (h.rows r hold)
          | inr hlast => exact List.mem_append_right _ hlast
        threads := by
          intro t ht
          cases List.mem_append.mp ht with
          | inl hold =>
            exact ⟨List.mem_append_left _ (h.threads t hold).1, (h.threads t hold).2⟩
          | inr hlast =>
            rw [List.mem_singleton.mp hlast]
            refine ⟨List.mem_append_right _ (List.mem_singleton_self _), ?_⟩
            intro hdone
            cases hdone }
  next => cases hstep

theorem Inv.setThreads (h : Inv s) {threads : List ClientDownloadThread}
    (hthreads : ∀ t ∈ threads, t.restore ∈ s.created ∧
      (3 ≤ t.done → filelistShare t.restore.identity ∈ s.registered)) :
    Inv { s with threads := threads } :=
  { h with threads := hthreads }

theorem Inv.createFilelist (h : Inv s) {i : Nat} {folders : Option (List (List UInt8))}
    (hstep : s.createFilelist i folders = some s') : Inv s' := by
  unfold RestoreShares.createFilelist at hstep
  split at hstep
  next => cases hstep
  next t hget =>
    split at hstep
    · cases hstep
    · cases hstep
      have hthreads : Inv { s with threads := s.threads.eraseIdx i } := by
        apply h.setThreads
        intro t' ht'
        exact h.threads t' (List.mem_of_mem_eraseIdx ht')
      exact hthreads.end [t.restore.id]
  next t folders hget =>
    split at hstep
    · cases hstep
    · cases hstep
      apply h.setThreads
      intro t' ht'
      cases List.mem_or_eq_of_mem_set ht' with
      | inl hold => exact h.threads t' hold
      | inr hnew =>
        rw [hnew]
        exact h.threads t (List.mem_of_getElem? hget)

theorem steps_registered {restore : Restore} {folders : List (List UInt8)} {k : Nat}
    {c : SShareCleanup} (h : (steps restore folders)[k]? = some (.addShareToCleanup c)) :
    c.identity = restore.identity ∧ (c.cleanupFile = true → c.name = .clientdlFilelist) ∧
      (k < 3 → k = 2 ∧ c = filelistShare restore.identity) := by
  have hmem := List.mem_of_getElem? h
  refine ⟨?_, ?_, ?_⟩
  · simp only [steps, folderSteps, filelistShare, List.mem_append, List.mem_cons, List.mem_flatMap,
      List.not_mem_nil, or_false, reduceCtorEq, false_or, PrepareStep.addShareToCleanup.injEq] at hmem
    rcases hmem with rfl | ⟨folder, _, rfl⟩ | rfl
    · rfl
    · rfl
    · rfl
  · simp only [steps, folderSteps, filelistShare, List.mem_append, List.mem_cons, List.mem_flatMap,
      List.not_mem_nil, or_false, reduceCtorEq, false_or, PrepareStep.addShareToCleanup.injEq] at hmem
    rcases hmem with rfl | ⟨folder, _, rfl⟩ | rfl
    · intro _
      rfl
    · intro hfile
      cases hfile
    · intro hfile
      cases hfile
  · intro hk
    match k with
    | 0 => cases h
    | 1 => cases h
    | 2 =>
      cases h
      exact ⟨rfl, rfl⟩

theorem perform_threads (s : RestoreShares) (threads : List ClientDownloadThread)
    (restore : Restore) (delivered : Bool) (step : PrepareStep) :
    { s with threads := threads }.perform restore delivered step =
      { s.perform restore delivered step with threads := threads } := by
  cases step with
  | sendToCommPipe =>
    cases delivered with
    | true => rfl
    | false => rfl
  | addIdentity => rfl
  | shareDir name path => rfl
  | addShareToCleanup c => rfl
  | registerMetadataCallback name => rfl

theorem perform_same (s : RestoreShares) (restore : Restore) (delivered : Bool)
    (step : PrepareStep) :
    (s.perform restore delivered step).threads = s.threads ∧
      (s.perform restore delivered step).created = s.created := by
  cases step with
  | sendToCommPipe =>
    cases delivered with
    | true => exact ⟨rfl, rfl⟩
    | false => exact ⟨rfl, rfl⟩
  | addIdentity => exact ⟨rfl, rfl⟩
  | shareDir name path => exact ⟨rfl, rfl⟩
  | addShareToCleanup c => exact ⟨rfl, rfl⟩
  | registerMetadataCallback name => exact ⟨rfl, rfl⟩

theorem mem_perform_registered {restore : Restore} {delivered : Bool} {step : PrepareStep}
    {c : SShareCleanup} : c ∈ (s.perform restore delivered step).registered ↔
      c ∈ s.registered ∨ step = .addShareToCleanup c := by
  cases step with
  | sendToCommPipe =>
    cases delivered with
    | true => simp [RestoreShares.perform]
    | false => simp [RestoreShares.perform]
  | addShareToCleanup c' => simp [RestoreShares.perform, eq_comm]
  | addIdentity => simp [RestoreShares.perform]
  | shareDir name path => simp [RestoreShares.perform]
  | registerMetadataCallback name => simp [RestoreShares.perform]

theorem mem_addIdentity {fs : FileServ} {identity i : List UInt8} :
    i ∈ (fs.addIdentity identity).identities ↔ i ∈ fs.identities ∨ i = identity := by
  unfold FileServ.addIdentity
  split
  next hmem =>
    constructor
    · exact Or.inl
    · rintro (hold | rfl)
      · exact hold
      · exact hmem
  next => simp

theorem mem_shareDir {fs : FileServ} {name : ShareName} {path identity : List UInt8}
    {key : ShareName × List UInt8} :
    key ∈ (fs.shareDir name path identity).shares.map Prod.fst ↔
      key ∈ fs.shares.map Prod.fst ∨ key = (name, identity) := by
  unfold FileServ.shareDir
  simp only [List.map_append, List.mem_append, List.map_cons, List.map_nil, List.mem_singleton]
  constructor
  · rintro (hold | hnew)
    · obtain ⟨share, hshare, rfl⟩ := List.mem_map.mp hold
      exact .inl (List.mem_map_of_mem (List.mem_filter.mp hshare).1)
    · exact .inr hnew
  · rintro (hold | hnew)
    · by_cases heq : key = (name, identity)
      · exact .inr heq
      · obtain ⟨share, hshare, rfl⟩ := List.mem_map.mp hold
        exact .inl (List.mem_map_of_mem (List.mem_filter.mpr ⟨hshare, decide_eq_true heq⟩))
    · exact .inr hnew

theorem Inv.perform (h : Inv s) {restore : Restore} (delivered : Bool) {step : PrepareStep}
    (hrestore : restore ∈ s.created)
    (hregister : ∀ c, step = .addShareToCleanup c → c.identity = restore.identity ∧
      (c.cleanupFile = true → c.name = .clientdlFilelist) ∧
        filelistShare c.identity ∈ s.registered ++ [c]) :
    Inv (s.perform restore delivered step) := by
  have hlength := h.created restore hrestore
  cases step with
  | addIdentity =>
    have hidentities : ∀ i ∈ s.identified ++ [restore.identity], ¬ s.Ended i →
        i ∈ (s.fileserv.addIdentity restore.identity).identities := by
      intro i hi hne
      rw [mem_addIdentity]
      exact (List.mem_append.mp hi).imp (fun hold => h.identities i hold hne)
        List.mem_singleton.mp
    have hsame : (s.fileserv.addIdentity restore.identity).shares = s.fileserv.shares ∧
        (s.fileserv.addIdentity restore.identity).callbacks = s.fileserv.callbacks := by
      unfold FileServ.addIdentity
      split
      · exact ⟨rfl, rfl⟩
      · exact ⟨rfl, rfl⟩
    exact
      { h with
        shares := fun p hp hne => hsame.1.symm ▸ h.shares p hp hne
        callbacks := fun p hp hne => hsame.2.symm ▸ h.callbacks p hp hne
        identities := hidentities
        names := fun share hshare => h.names share (hsame.1 ▸ hshare) }
  | shareDir name path =>
    have hshares : ∀ p ∈ s.shared ++ [(name, restore.identity)], ¬ s.Ended p.2 →
        p ∈ (s.fileserv.shareDir name path restore.identity).shares.map Prod.fst := by
      intro p hp hne
      rw [mem_shareDir]
      exact (List.mem_append.mp hp).imp (fun hold => h.shares p hold hne) List.mem_singleton.mp
    have hnames : ∀ share ∈ (s.fileserv.shareDir name path restore.identity).shares,
        share.1.2.length = identityLength := by
      intro share hshare
      cases List.mem_append.mp hshare with
      | inl hold => exact h.names share (List.mem_filter.mp hold).1
      | inr hnew =>
        rw [List.mem_singleton.mp hnew]
        exact hlength
    exact { h with shares := hshares, names := hnames }
  | addShareToCleanup c =>
    obtain ⟨hidentity, hfile, hlist⟩ := hregister c rfl
    have hentries : ∀ c' ∈ s.registered ++ [c], ¬ s.Ended c'.identity →
        c' ∈ s.cleanupShares ++ [c] := by
      intro c' hc' hne
      rw [List.mem_append]
      exact (List.mem_append.mp hc').imp_left fun hold => h.entries c' hold hne
    have hcleanup : ∀ c' ∈ s.cleanupShares ++ [c], c'.identity.length = identityLength ∧
        (c'.cleanupFile = true → c'.name = .clientdlFilelist) := by
      intro c' hc'
      cases List.mem_append.mp hc' with
      | inl hold => exact h.cleanup c' hold
      | inr hnew =>
        rw [List.mem_singleton.mp hnew]
        exact ⟨hidentity ▸ hlength, hfile⟩
    have hregistered : ∀ c' ∈ s.registered ++ [c],
        filelistShare c'.identity ∈ s.registered ++ [c] := by
      intro c' hc'
      cases List.mem_append.mp hc' with
      | inl hold => exact List.mem_append_left _ (h.registered c' hold)
      | inr hnew =>
        rw [List.mem_singleton.mp hnew]
        exact hlist
    have hthreads : ∀ t ∈ s.threads, t.restore ∈ s.created ∧
        (3 ≤ t.done → filelistShare t.restore.identity ∈ s.registered ++ [c]) := by
      intro t ht
      exact ⟨(h.threads t ht).1, fun hdone => List.mem_append_left _ ((h.threads t ht).2 hdone)⟩
    exact { h with
      entries := hentries, cleanup := hcleanup, registered := hregistered, threads := hthreads }
  | registerMetadataCallback name =>
    have hcallbacks : ∀ p ∈ s.calledBack ++ [(name, restore.identity)], ¬ s.Ended p.2 →
        p ∈ s.fileserv.callbacks ++ [(name, restore.identity)] := by
      intro p hp hne
      rw [List.mem_append]
      exact (List.mem_append.mp hp).imp_left fun hold => h.callbacks p hold hne
    exact { h with callbacks := hcallbacks }
  | sendToCommPipe =>
    cases delivered with
    | false => exact h
    | true =>
      have hpipe : ∀ m ∈ s.commPipe ++ [(restore.identity, restore.id)],
          m.1.length = identityLength := by
        intro m hm
        cases List.mem_append.mp hm with
        | inl hold => exact h.pipe m hold
        | inr hnew =>
          rw [List.mem_singleton.mp hnew]
          exact hlength
      exact { h with pipe := hpipe }

theorem Inv.prepare (h : Inv s) {i : Nat} {delivered : Bool}
    (hstep : s.prepare i delivered = some s') : Inv s' := by
  unfold RestoreShares.prepare at hstep
  split at hstep
  next => cases hstep
  next t hget =>
    obtain ⟨step, hnext, rfl⟩ := Option.map_eq_some_iff.mp hstep
    obtain ⟨folders, hfolders, hsteps⟩ := Option.bind_eq_some_iff.mp hnext
    obtain ⟨hrestore, hthree⟩ := h.threads t (List.mem_of_getElem? hget)
    have hregister (c : SShareCleanup) (hc : step = .addShareToCleanup c) :
        c.identity = t.restore.identity ∧ (c.cleanupFile = true → c.name = .clientdlFilelist) ∧
          filelistShare c.identity ∈ s.registered ++ [c] := by
      rw [hc] at hsteps
      obtain ⟨hidentity, hfile, hfirst⟩ := steps_registered hsteps
      refine ⟨hidentity, hfile, ?_⟩
      rw [hidentity, List.mem_append, List.mem_singleton]
      cases Nat.lt_or_ge t.done 3 with
      | inl hlt => exact .inr (hfirst hlt).2.symm
      | inr hge => exact .inl (hthree hge)
    have hperform := h.perform delivered hrestore hregister
    rw [perform_threads]
    apply hperform.setThreads
    intro t' ht'
    cases List.mem_or_eq_of_mem_set ht' with
    | inl hold =>
      rw [← (perform_same s t.restore delivered step).1] at hold
      exact hperform.threads t' hold
    | inr hnew =>
      rw [hnew, (perform_same s t.restore delivered step).2]
      refine ⟨hrestore, ?_⟩
      intro hdone
      rw [mem_perform_registered]
      cases Nat.lt_or_ge t.done 3 with
      | inr hge => exact .inl (hthree hge)
      | inl hlt =>
        have htwo : t.done = 2 := Nat.le_antisymm (Nat.le_of_lt_succ hlt)
          (Nat.le_of_succ_le_succ hdone)
        rw [htwo] at hsteps
        exact .inr (Option.some.inj hsteps).symm

theorem Inv.handleRestore {encrypt : List UInt8 → List UInt8 → List UInt8}
    (hencrypt : ∀ iv data, data.length < (encrypt iv data).length) (h : Inv s) {cryptoFak ok : Bool}
    {iv : List UInt8} (hstep : s.handleRestore encrypt cryptoFak iv ok = some s') : Inv s' := by
  unfold RestoreShares.handleRestore at hstep
  split at hstep
  next => cases hstep
  next restoreIdentity restoreId rest hpipe =>
    have hidentity : restoreIdentity.length = identityLength :=
      h.pipe (restoreIdentity, restoreId) (hpipe ▸ List.mem_cons_self ..)
    have htoken : (if cryptoFak then base64EncodeDash (encrypt iv restoreIdentity)
        else []).length ≠ identityLength := by
      split
      · have hlonger := hencrypt iv restoreIdentity
        have hencoded := length_base64EncodeDash (encrypt iv restoreIdentity)
        omega
      · decide
    have hrest : Inv { s with commPipe := rest } :=
      { h with pipe := fun m hm => h.pipe m (hpipe ▸ List.mem_cons_of_mem _ hm) }
    dsimp only at hstep
    split at hstep
    · cases hstep
      refine { hrest with running := ?_ }
      intro r hr
      cases List.mem_append.mp hr with
      | inl hold => exact h.running r hold
      | inr hnew =>
        rw [List.mem_singleton.mp hnew]
        exact htoken
    · cases hstep
      rw [hrest.finishFailedRestore htoken]
      exact hrest.end [restoreId]

/-- Induction on the restores that have timed out. -/
theorem Inv.timeoutRestores (h : Inv s) : Inv s.timeoutRestores := by
  unfold RestoreShares.timeoutRestores
  have hexpired : ∀ r ∈ s.runningRestores.filter (fun r => s.timedOut r),
      r.restoreIdentity.length ≠ identityLength :=
    fun r hr => h.running r (List.mem_filter.mp hr).1
  have hleft : Inv { s with
      runningRestores := s.runningRestores.filter fun r => !s.timedOut r } :=
    { h with running := fun r hr => h.running r (List.mem_filter.mp hr).1 }
  revert hexpired hleft
  generalize s.runningRestores.filter (fun r => s.timedOut r) = expired
  generalize { s with
      runningRestores := s.runningRestores.filter fun r => !s.timedOut r } = s₁
  intro hexpired hleft
  induction expired generalizing s₁ with
  | nil => exact hleft
  | cons r expired ih =>
    rw [List.foldl_cons, hleft.finishFailedRestore (hexpired r (List.mem_cons_self ..))]
    apply ih
    · intro r' hr'
      exact hexpired r' (List.mem_cons_of_mem _ hr')
    · exact hleft.end [r.restoreId]

theorem cleanupShare_leaves {c : SShareCleanup} (hne : c.identity ≠ [])
    (hfile : c.cleanupFile = true → s.fileserv.getShareDir c.name c.identity = none) :
    ∃ fs, s.cleanupShare c = { s with fileserv := fs } ∧ s.fileserv.Leaves c.identity fs := by
  refine ⟨(s.cleanupShare c).fileserv, ?_, ?_⟩
  · have hfiles : (s.cleanupShare c).files = s.files := by
      unfold RestoreShares.cleanupShare
      dsimp only
      split
      next hcleanup => rw [hfile hcleanup]
      next => rfl
    rw [← hfiles]
    rfl
  · unfold RestoreShares.cleanupShare
    dsimp only
    rw [if_neg (by simpa using hne)]
    refine FileServ.Leaves.trans ?_ (FileServ.removeIdentity_leaves _ _)
    refine FileServ.Leaves.trans ?_ (FileServ.removeDir_leaves _ _ _)
    split
    · exact FileServ.removeMetadataCallback_leaves _ _ _
    · exact FileServ.Leaves.refl _ _

/-- Induction on the shares that are registered under an identity. -/
theorem cleanupShares_leaves {identity : List UInt8} (hne : identity ≠ [])
    {entries : List SShareCleanup} (hentries : ∀ c ∈ entries, c.identity = identity ∧
      (c.cleanupFile = true → c.name = .clientdlFilelist))
    (hlist : ∀ share ∈ s.fileserv.shares, share.1 ≠ (.clientdlFilelist, identity))
    (hnames : ∀ share ∈ s.fileserv.shares, share.1.2 ≠ []) :
    ∃ fs, entries.foldl cleanupShare s = { s with fileserv := fs } ∧
      s.fileserv.Leaves identity fs := by
  induction entries generalizing s with
  | nil => exact ⟨s.fileserv, rfl, FileServ.Leaves.refl identity s.fileserv⟩
  | cons c entries ih =>
    obtain ⟨hidentity, hname⟩ := hentries c (List.mem_cons_self ..)
    have hfile (hcleanup : c.cleanupFile = true) :
        s.fileserv.getShareDir c.name c.identity = none := by
      apply FileServ.getShareDir_none ?_ hnames
      rw [hname hcleanup, hidentity]
      exact hlist
    obtain ⟨fs, hfs, hleaves⟩ := cleanupShare_leaves (hidentity ▸ hne) hfile
    rw [hidentity] at hleaves
    have hrest := @ih { s with fileserv := fs }
      (fun c' hc' => hentries c' (List.mem_cons_of_mem _ hc'))
      (fun share hshare => hlist share (hleaves.less share hshare))
      (fun share hshare => hnames share (hleaves.less share hshare))
    obtain ⟨fs', hfs', hleaves'⟩ := hrest
    rw [List.foldl_cons, hfs, hfs']
    exact ⟨fs', rfl, hleaves.trans hleaves'⟩

theorem Inv.leave (h : Inv s) {restore : Restore} (hrestore : restore ∈ s.created) {fs : FileServ}
    (hleaves : s.fileserv.Leaves restore.identity fs) :
    Inv { s with
      fileserv := fs
      cleanupShares := s.cleanupShares.filter fun c => c.identity ≠ restore.identity
      ended := s.ended ++ [restore.id] } := by
  have hend := h.end [restore.id]
  have hother {identity : List UInt8}
      (hne : ¬ Ended { s with ended := s.ended ++ [restore.id] } identity) :
      identity ≠ restore.identity := by
    rintro rfl
    exact hne ⟨restore, hrestore, rfl, List.mem_append_right _ (List.mem_singleton_self _)⟩
  exact
    { h with
      shares := by
        intro p hp hne
        obtain ⟨share, hshare, rfl⟩ := List.mem_map.mp (hend.shares p hp hne)
        exact List.mem_map_of_mem (hleaves.shares share hshare (hother hne))
      callbacks := fun p hp hne => hleaves.callbacks p (hend.callbacks p hp hne) (hother hne)
      identities := fun i hi hne => hleaves.identities i (hend.identities i hi hne) (hother hne)
      entries := by
        intro c hc hne
        exact List.mem_filter.mpr ⟨hend.entries c hc hne, decide_eq_true (hother hne)⟩
      files := hend.files
      cleanup := fun c hc => h.cleanup c (List.mem_filter.mp hc).1
      names := fun share hshare => h.names share (hleaves.less share hshare) }

theorem Inv.restoreDone (h : Inv s) (restoreId : Nat) (windowsComponents : Bool) :
    Inv (s.restoreDone restoreId windowsComponents) := by
  unfold RestoreShares.restoreDone
  split
  next => exact h
  next restore hfind =>
    have hrow := List.mem_of_find?_eq_some hfind
    have hid : restore.id = restoreId := by simpa using List.find?_some hfind
    have hrestore := h.rows restore hrow
    have hnonempty {identity : List UInt8} (hlength : identity.length = identityLength) :
        identity ≠ [] := by
      rintro rfl
      cases hlength
    dsimp only
    generalize hfs : FileServ.removeFolders restore.identity _ 0
      ((s.fileserv.removeIdentity restore.identity).removeDir .clientdlFilelist
        restore.identity).2 = fs
    have hleaves : s.fileserv.Leaves restore.identity fs := by
      rw [← hfs]
      exact (FileServ.removeIdentity_leaves _ _).trans
        ((FileServ.removeDir_leaves _ _ _).trans (FileServ.removeFolders_leaves _ _ _ _))
    have hlist : ∀ share ∈ fs.shares, share.1 ≠ (.clientdlFilelist, restore.identity) := by
      intro share hshare
      rw [← hfs] at hshare
      have hdir := (FileServ.removeFolders_leaves _ _ _ _).less share hshare
      exact of_decide_eq_true (List.mem_filter.mp hdir).2
    have hentries : ∀ c ∈ s.cleanupShares.filter (fun c => c.identity = restore.identity),
        c.identity = restore.identity ∧ (c.cleanupFile = true → c.name = .clientdlFilelist) := by
      intro c hc
      obtain ⟨hmem, hidentity⟩ := List.mem_filter.mp hc
      exact ⟨of_decide_eq_true hidentity, (h.cleanup c hmem).2⟩
    obtain ⟨fs', hfs', hleaves'⟩ := @cleanupShares_leaves
      { s with
        fileserv := fs
        cleanupShares := s.cleanupShares.filter fun c => c.identity ≠ restore.identity }
      _ (hnonempty (h.created restore hrestore)) _ hentries hlist
      fun share hshare => hnonempty (h.names share (hleaves.less share hshare))
    unfold RestoreShares.cleanupRestoreShare
    dsimp only
    rw [hfs', ← hid]
    have hleft := h.leave hrestore (hleaves.trans hleaves')
    refine { hleft with rows := ?_, running := ?_ }
    · intro r hr
      split at hr
      · exact h.rows r (List.mem_filter.mp hr).1
      · exact h.rows r hr
    · intro r hr
      exact h.running r (List.mem_of_mem_eraseP hr)

theorem Inv.restorePercent (h : Inv s) (restoreId : Nat) : Inv (s.restorePercent restoreId) := by
  refine { h with running := ?_ }
  intro r hr
  obtain ⟨old, hold, rfl⟩ := List.mem_map.mp hr
  split
  · exact h.running old hold
  · exact h.running old hold

open TransitionSystem

section Runs

variable {encrypt : List UInt8 → List UInt8 → List UInt8}

theorem Inv.step (hencrypt : ∀ iv data, data.length < (encrypt iv data).length) (h : Inv s)
    {e : Event} (hstep : s.step encrypt e = some s') : Inv s' := by
  cases e with
  | create identity filelist => exact h.create hstep
  | createFilelist i folders => exact h.createFilelist hstep
  | prepare i delivered => exact h.prepare hstep
  | handleRestore cryptoFak iv ok => exact h.handleRestore hencrypt hstep
  | restorePercent restoreId =>
    cases hstep
    exact h.restorePercent restoreId
  | restoreDone restoreId windowsComponents =>
    cases hstep
    exact h.restoreDone restoreId windowsComponents
  | timeoutRestores =>
    cases hstep
    exact h.timeoutRestores
  | tick ms =>
    cases hstep
    exact { h with }

end Runs

section Refused

def sampleEncrypt (iv data : List UInt8) : List UInt8 := iv ++ data ++ List.replicate 16 0

def sampleIdentity : List UInt8 := List.replicate identityLength 65

/-- A restore without folders is prepared, and its message comes to the client thread. -/
def preparedEvents : List Event :=
  [.create sampleIdentity [102], .createFilelist 0 (some [])] ++
    List.replicate 6 (.prepare 0 true)

def refusedEvents : List Event := preparedEvents ++ [.handleRestore true [] false]

end Refused

end RestoreShares

end UrBackup
