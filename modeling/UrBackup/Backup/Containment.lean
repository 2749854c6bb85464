import UrBackup.Backup.FullFileBackup

/-! What a client can make a full file backup create lies in the backup as long as the links that
it sends stay there. -/
namespace UrBackup

open FileList (dotDot)
open FileNames

namespace FullFileBackup

variable (generateHexMD5 : List UInt8 → HexDigest)

def skipped (tok : List UInt8) : Bool := tok = dots ∨ tok = dotDot

/-- What a link in a directory that is this far below the backup must meet. The target goes up as
often as directories are open, so the directory may not be higher. In the backup itself the target
must not begin with an empty component, and the end of the C string must not turn a component
into `..`. -/
structure LinkStays (b : FullFileBackup) (dirDepth : Nat) (target : List UInt8) : Prop where
  deep : b.depth.toNat ≤ dirDepth
  relative : b.depth = 0 → ∀ tok toks,
    (tokenize target b.origSep).dropWhile skipped ≠ [] :: tok :: toks
  uncut : ∀ component, ((tokenize target b.origSep).map (fixFilenameForOS generateHexMD5)).find?
    (nul ∈ ·) = some component → cStr component ≠ dotDot

/-- What an entry must meet. The metadata of a link to a directory goes under the name that the
client gave it, and a script can have its metadata below its own name. -/
structure EntryStays (b : FullFileBackup) (cf : ListEntry) : Prop where
  link : ∀ target name parent, cf.symTarget = some target → 0 ≤ b.depth →
    LinkTree.entryPlace b.tree maxSymlinks b.backuppath (pathSteps (entryPath generateHexMD5 b cf)) =
      some (name :: parent) →
    LinkStays generateHexMD5 b (parent.length - b.backuppath.length) target
  dirName : cf.isdir = true → cf.name ≠ dotDot → cf.symTarget.isSome → Plain cf.name
  script : cf.isdir = false → b.scriptDir = true → cf.name ≠ dotDot

/-- Entries are looked at in the state in which their separator is read. -/
def Stays (b : FullFileBackup) : Event → Prop
  | .entry cf _ => EntryStays generateHexMD5 (b.readOrigSep cf) cf
  | .stop | .store _ _ => True

/-- Everything created is in the backup, and the links lead there. -/
def InBackup (backuppath : List (List UInt8)) (b : FullFileBackup) : Prop :=
  ∀ place ∈ b.created, backuppath <:+ place ∧
    ∀ target, b.tree place = some (.link target) → ∀ links q,
      LinkTree.walk b.tree links (target.start place.tail) target.steps = some q →
        backuppath <:+ q

/-- The invariant of the loop. -/
structure Contained (backuppath : List (List UInt8)) (b : FullFileBackup) : Prop where
  base : b.backuppath = backuppath
  sealed : LinkTree.Sealed backuppath b.tree
  root : b.tree backuppath = some .dir
  created : ∀ place ∈ b.created, backuppath <:+ place
  path : Plain b.currOsPath
  downloads : ∀ item ∈ b.downloads, Plain item.osPath ∧ slash ∉ item.shortFn ∧
    (item.isScript = true → item.shortFn ≠ dotDot)

section Target

variable {generateHexMD5}

theorem pathSteps_ups (depth : Nat) (rest : List UInt8) :
    pathSteps ((List.replicate depth (dotDot ++ [slash])).flatten ++ rest) =
      List.replicate depth .up ++ pathSteps rest := by
  induction depth with
  | zero => rfl
  | succ depth ih =>
    rw [List.replicate_succ, List.replicate_succ, List.flatten_cons, List.append_assoc,
      List.append_assoc, List.singleton_append, pathSteps_up, ih]
    rfl

/-- A component that is kept does not go up. Induction on the tokens. -/
theorem dotDot_notMem_targetComponents {toks : List (List UInt8)}
    (hcut : ∀ component, (toks.map (fixFilenameForOS generateHexMD5)).find? (nul ∈ ·) =
      some component → cStr component ≠ dotDot) :
    dotDot ∉ (cStr (targetComponents generateHexMD5 toks)).splitOn slash := by
  induction toks with
  | nil =>
    unfold targetComponents cStr
    decide
  | cons tok toks ih =>
    have hslash := slash_notMem_fixFilenameForOS generateHexMD5 tok
    have hrest : nul ∉ fixFilenameForOS generateHexMD5 tok →
        dotDot ∉ (cStr (targetComponents generateHexMD5 toks)).splitOn slash := by
      intro hnul
      apply ih
      intro component hfind
      apply hcut component
      rw [List.map_cons, List.find?_cons_of_neg (by simpa using hnul)]
      exact hfind
    rw [targetComponents]
    split
    next hskip =>
      apply hrest
      cases hskip with
      | inl heq =>
        rw [heq]
        decide
      | inr heq =>
        rw [heq]
        decide
    next hkept =>
      rw [List.append_assoc]
      by_cases hnul : nul ∈ fixFilenameForOS generateHexMD5 tok
      · rw [cStr_append_of_mem hnul, List.splitOn_eq_singleton (slash_notMem_cStr hslash)]
        intro hmem
        refine hcut (fixFilenameForOS generateHexMD5 tok) ?_ (List.mem_singleton.mp hmem).symm
        rw [List.map_cons, List.find?_cons_of_pos (by simpa using hnul)]
      · rw [cStr_append hnul]
        cases toks with
        | nil =>
          rw [List.isEmpty_nil, if_pos rfl, List.nil_append, targetComponents, cStr_nil,
            List.append_nil, List.splitOn_eq_singleton hslash]
          exact fun hmem => hkept (Or.inl (List.mem_singleton.mp hmem).symm)
        | cons tok' toks =>
          rw [List.isEmpty_cons, if_neg Bool.false_ne_true, List.singleton_append,
            cStr_slash, List.splitOn_append_cons_self_of_not_mem hslash]
          intro hmem
          cases List.mem_cons.mp hmem with
          | inl heq => exact hkept (Or.inl heq.symm)
          | inr hmem => exact hrest hnul hmem

/-- A target begins with a separator only if its first component is empty. -/
theorem head_targetComponents {toks : List (List UInt8)}
    (h : (targetComponents generateHexMD5 toks).head? = some slash) :
    ∃ tok toks', toks.dropWhile skipped = [] :: tok :: toks' := by
  induction toks with
  | nil => cases h
  | cons tok toks ih =>
    rw [targetComponents] at h
    split at h
    next hskip =>
      have htok : skipped tok = true := by
        cases hskip with
        | inl heq =>
          rw [eq_dotDot_of_fixFilenameForOS generateHexMD5 heq]
          rfl
        | inr heq =>
          rw [eq_of_fixFilenameForOS generateHexMD5 (by decide) heq]
          rfl
      rw [List.dropWhile_cons_of_pos htok]
      exact ih h
    next =>
      cases hcomponent : fixFilenameForOS generateHexMD5 tok with
      | cons c rest =>
        rw [hcomponent] at h
        have hslash := slash_notMem_fixFilenameForOS generateHexMD5 tok
        rw [hcomponent, Option.some.inj h] at hslash
        exact absurd List.mem_cons_self hslash
      | nil =>
        cases eq_of_fixFilenameForOS generateHexMD5 (by decide) hcomponent
        cases toks with
        | nil =>
          rw [hcomponent] at h
          cases h
        | cons tok' toks => exact ⟨tok', toks, rfl⟩

theorem symlinkTarget_stays {b : FullFileBackup} {dirDepth : Nat} {target : List UInt8}
    (isdir : Bool) (hdepth : 0 ≤ b.depth) (hstays : LinkStays generateHexMD5 b dirDepth target) :
    (linkTarget (symlinkTarget generateHexMD5 b.depth.toNat target b.origSep isdir)).absolute =
        false ∧
      LinkTree.Stays dirDepth
        (linkTarget (symlinkTarget generateHexMD5 b.depth.toNat target b.origSep isdir)).steps := by
  have hbody : ∃ body, symlinkTarget generateHexMD5 b.depth.toNat target b.origSep isdir =
      (List.replicate b.depth.toNat (dotDot ++ [slash])).flatten ++ body ∧
      (b.depth = 0 → body.head? ≠ some slash) ∧ dotDot ∉ (cStr body).splitOn slash := by
    refine ⟨_, rfl, ?_, ?_⟩
    · intro hzero hhead
      split at hhead
      · cases isdir <;> cases hhead
      · obtain ⟨tok, toks, heq⟩ := head_targetComponents hhead
        exact hstays.relative hzero tok toks heq
    · split
      · cases isdir <;> decide
      · exact dotDot_notMem_targetComponents hstays.uncut
  obtain ⟨body, htarget, hhead, hbody⟩ := hbody
  rw [htarget]
  constructor
  · apply decide_eq_false
    intro habsolute
    cases hn : b.depth.toNat with
    | zero =>
      rw [hn] at habsolute
      exact hhead (by omega) (head_cStr habsolute)
    | succ n =>
      rw [hn, List.replicate_succ] at habsolute
      cases habsolute
  · refine ⟨b.depth.toNat, pathSteps body, hstays.deep, pathSteps_ups _ body, ?_⟩
    intro hmem
    obtain ⟨component, hcomponent, heq⟩ := List.mem_map.mp hmem
    rw [pathStep_eq_up] at heq
    exact hbody (heq ▸ hcomponent)

end Target

section Calls

variable {generateHexMD5} {backuppath : List (List UInt8)} {b b' : FullFileBackup}
  {path : List UInt8}

theorem Contained.base_suffix (hb : Contained backuppath b) : backuppath <:+ b.backuppath :=
  hb.base ▸ List.suffix_rfl

theorem Contained.stop (h : Contained backuppath b) : Contained backuppath b.stop :=
  ⟨h.base, h.sealed, h.root, h.created, h.path, h.downloads⟩

theorem Contained.wrote {r : Option (List (List UInt8) × LinkTree.Tree (List UInt8))}
    (hb : Contained backuppath b) (h : b.wrote r = some b')
    (hr : ∀ place tree, r = some (place, tree) → (backuppath <:+ place ∧
      LinkTree.Sealed backuppath tree) ∧ tree backuppath = some .dir) :
    Contained backuppath b' ∧ b'.scriptDir = b.scriptDir := by
  obtain ⟨⟨place, tree⟩, hplace, rfl⟩ := Option.map_eq_some_iff.mp h
  obtain ⟨⟨hinside, hsealed⟩, hroot⟩ := hr place tree hplace
  refine ⟨⟨hb.base, hsealed, hroot, ?_, hb.path, hb.downloads⟩, rfl⟩
  intro place' hmem
  cases List.mem_cons.mp hmem with
  | inl heq => exact heq ▸ hinside
  | inr hmem => exact hb.created place' hmem

section

variable (hb : Contained backuppath b) (hpath : .up ∉ (pathSteps path).dropLast)

include hb hpath

theorem Contained.osCreateDir (h : b.osCreateDir path = some b') :
    Contained backuppath b' ∧ b'.scriptDir = b.scriptDir := by
  apply hb.wrote h
  intro place tree hmake
  have ⟨_, hnone, hset⟩ := LinkTree.make_cases hmake
  refine ⟨LinkTree.make_dir_inside hb.sealed hb.base_suffix hpath hmake, ?_⟩
  rw [hset]
  exact LinkTree.set_dir hb.root (by simp [hnone])

theorem Contained.openWrite (h : b.openWrite path = some b') :
    Contained backuppath b' ∧ b'.scriptDir = b.scriptDir := by
  apply hb.wrote h
  intro place tree hreplace
  have ⟨_, hdir, hset⟩ := LinkTree.replace_cases hreplace
  refine ⟨LinkTree.replace_inside hb.sealed hb.base_suffix hpath hreplace, ?_⟩
  rw [hset]
  exact LinkTree.set_dir hb.root hdir

theorem Contained.openRwCreate (h : b.openRwCreate path = some b') :
    Contained backuppath b' ∧ b'.scriptDir = b.scriptDir := by
  apply hb.wrote h
  intro place tree hopen
  have ⟨_, _, hdir, hset⟩ := LinkTree.openCreate_cases hopen
  refine ⟨LinkTree.openCreate_inside hb.sealed hb.base_suffix hpath hopen, ?_⟩
  rw [hset]
  exact LinkTree.set_dir hb.root hdir

end

theorem Contained.createSymlink {target : List UInt8} {isdir : Bool} (hb : Contained backuppath b)
    (hpath : .up ∉ (pathSteps path).dropLast)
    (hstays : ∀ name parent, 0 ≤ b.depth →
      LinkTree.entryPlace b.tree maxSymlinks b.backuppath (pathSteps path) =
        some (name :: parent) →
      LinkStays generateHexMD5 b (parent.length - b.backuppath.length) target)
    (h : FullFileBackup.createSymlink generateHexMD5 b path b.depth target b.origSep isdir =
      some b') : Contained backuppath b' ∧ b'.scriptDir = b.scriptDir := by
  unfold FullFileBackup.createSymlink at h
  split at h
  next => cases h
  next hdepth =>
    unfold osLinkSymbolic at h
    split at h
    next => cases h
    next =>
      apply hb.wrote h
      intro place tree hmake
      have ⟨_, hnone, hset⟩ := LinkTree.make_cases hmake
      refine ⟨LinkTree.make_link_inside hb.sealed hb.base_suffix hpath ?_ hmake, ?_⟩
      · intro name parent hentry
        have hdepth : 0 ≤ b.depth := Int.not_lt.mp hdepth
        have hlink := hstays name parent hdepth hentry
        rw [hb.base] at hlink
        exact symlinkTarget_stays isdir hdepth hlink
      · rw [hset]
        exact LinkTree.set_dir hb.root (by simp [hnone])

end Calls

section Entries

variable {generateHexMD5} {backuppath : List (List UInt8)} {b b' : FullFileBackup}
  {cf : ListEntry} {disk : Disk}

theorem plain_hashes {path : List UInt8} (h : Plain path) : Plain (hashesPath ++ path) :=
  @FileNames.Plain.below path hashesPath.tail h (by decide) (by decide)

section

variable (hb : Contained backuppath b)

include hb

theorem Contained.readOrigSep (cf : ListEntry) : Contained backuppath (b.readOrigSep cf) := by
  unfold FullFileBackup.readOrigSep
  split
  · exact ⟨hb.base, hb.sealed, hb.root, hb.created, hb.path, hb.downloads⟩
  · exact hb

theorem Contained.up_notMem_entryPath (cf : ListEntry) :
    .up ∉ (pathSteps (entryPath generateHexMD5 b cf)).dropLast :=
  hb.path.up_notMem_component (slash_notMem_fixFilenameForOS generateHexMD5 cf.name)

theorem Contained.entryPath (hname : cf.name ≠ dotDot) :
    Plain (FullFileBackup.entryPath generateHexMD5 b cf) :=
  plain_append hb.path (slash_notMem_fixFilenameForOS generateHexMD5 cf.name) fun heq =>
    hname (eq_dotDot_of_fixFilenameForOS generateHexMD5 heq)

theorem Contained.createDirOrLink (hstays : EntryStays generateHexMD5 b cf)
    (h : FullFileBackup.createDirOrLink generateHexMD5 b cf disk = some b') :
    Contained backuppath b' := by
  unfold FullFileBackup.createDirOrLink at h
  split at h
  next =>
    split at h
    next target htarget =>
      refine (hb.createSymlink (hb.up_notMem_entryPath cf) ?_ h).1
      intro name parent hdepth hentry
      exact hstays.link target name parent htarget hdepth hentry
    next => exact (hb.osCreateDir (hb.up_notMem_entryPath cf) h).1
  next => cases h

theorem Contained.createHashDir (hname : cf.name ≠ dotDot)
    (h : FullFileBackup.createHashDir generateHexMD5 b cf disk = some b') :
    Contained backuppath b' := by
  unfold FullFileBackup.createHashDir at h
  split at h
  next =>
    cases h
    exact hb
  next =>
    split at h
    next => exact (hb.osCreateDir (plain_hashes (hb.entryPath hname)).up_notMem h).1
    next => cases h

theorem Contained.openDirMetadata (hname : cf.name ≠ dotDot)
    (hplain : cf.symTarget.isSome → Plain cf.name)
    (h : FullFileBackup.openDirMetadata generateHexMD5 b cf disk = some b') :
    Contained backuppath b' := by
  unfold FullFileBackup.openDirMetadata at h
  split at h
  next =>
    refine (hb.openRwCreate ?_ h).1
    unfold dirMetadataPath
    split
    next target htarget =>
      have hescaped := (hplain (by rw [htarget]; rfl)).escapeMetadataFn
      exact (plain_hashes (hb.path.append hescaped)).up_notMem
    next =>
      have hmeta : Plain metadataDirFn := by
        unfold Plain
        decide
      exact (plain_hashes ((hb.entryPath hname).append hmeta)).up_notMem
  next => cases h

theorem Contained.dirEntry (hname : cf.name ≠ dotDot)
    (hisdir : cf.isdir = true) (hstays : EntryStays generateHexMD5 b cf) :
    Contained backuppath (FullFileBackup.dirEntry generateHexMD5 b cf disk) := by
  unfold FullFileBackup.dirEntry
  split
  next => exact hb.stop
  next b₁ hcreate =>
    have hb₁ := hb.createDirOrLink hstays hcreate
    split
    next => exact hb₁.stop
    next b₂ hhash =>
      have hb₂ := hb₁.createHashDir hname hhash
      split
      next => exact hb₂.stop
      next b₃ hmeta =>
        have hb₃ := hb₂.openDirMetadata hname (hstays.dirName hisdir hname) hmeta
        split
        next => exact ⟨hb₃.base, hb₃.sealed, hb₃.root, hb₃.created, hb₃.entryPath hname,
          hb₃.downloads⟩
        next => exact hb₃.stop

theorem Contained.closeDir : Contained backuppath b.closeDir :=
  ⟨hb.base, hb.sealed, hb.root, hb.created, hb.path.extractFilePath, hb.downloads⟩

theorem Contained.addToQueue (created : Bool) (hscript : b.scriptDir = true → cf.name ≠ dotDot) :
    Contained backuppath (FullFileBackup.addToQueue generateHexMD5 b cf created) := by
  refine ⟨hb.base, hb.sealed, hb.root, hb.created, hb.path, ?_⟩
  intro item hitem
  cases List.mem_append.mp hitem with
  | inl hold => exact hb.downloads item hold
  | inr hnew =>
    cases List.mem_singleton.mp hnew
    refine ⟨hb.path, slash_notMem_fixFilenameForOS generateHexMD5 cf.name, ?_⟩
    intro hdir heq
    exact hscript hdir (eq_dotDot_of_fixFilenameForOS generateHexMD5 heq)

theorem Contained.createLinkOrSpecial (hstays : EntryStays generateHexMD5 b cf)
    (h : FullFileBackup.createLinkOrSpecial generateHexMD5 b cf disk = some b') :
    Contained backuppath b' ∧ b'.scriptDir = b.scriptDir := by
  unfold FullFileBackup.createLinkOrSpecial at h
  split at h
  next =>
    split at h
    next target htarget =>
      refine hb.createSymlink (hb.up_notMem_entryPath cf) ?_ h
      intro name parent hdepth hentry
      exact hstays.link target name parent htarget hdepth hentry
    next => exact hb.openWrite (hb.up_notMem_entryPath cf) h
  next => cases h

theorem Contained.fileEntry (hisdir : cf.isdir = false) (hstays : EntryStays generateHexMD5 b cf) :
    Contained backuppath (FullFileBackup.fileEntry generateHexMD5 b cf disk) := by
  unfold FullFileBackup.fileEntry
  split
  next =>
    split
    next => exact hb.stop
    next b' hcreate =>
      have ⟨hb', hdir⟩ := hb.createLinkOrSpecial hstays hcreate
      exact hb'.addToQueue true fun hscript => hstays.script hisdir (hdir ▸ hscript)
  next => exact hb.addToQueue false (hstays.script hisdir)

theorem Contained.nextEntry (hstays : EntryStays generateHexMD5 (b.readOrigSep cf) cf) :
    Contained backuppath (FullFileBackup.nextEntry generateHexMD5 b cf disk) := by
  unfold FullFileBackup.nextEntry
  dsimp only
  split
  next hisdir =>
    split
    next hname => exact (hb.readOrigSep cf).dirEntry hname hisdir hstays
    next => exact (hb.readOrigSep cf).closeDir
  next hisdir => exact (hb.readOrigSep cf).fileEntry (Bool.eq_false_iff.mpr hisdir) hstays

end

end Entries

section Downloads

variable {generateHexMD5} {backuppath : List (List UInt8)} {b b' : FullFileBackup}
  {item : QueuedFile}

theorem Contained.scriptHashDir (hb : Contained backuppath b) (hitem : item ∈ b.downloads)
    (h : b.scriptHashDir item = some b') : Contained backuppath b' := by
  have ⟨hpath, hslash, _⟩ := hb.downloads item hitem
  unfold FullFileBackup.scriptHashDir at h
  split at h
  next =>
    cases h
    exact hb
  next =>
    refine (hb.osCreateDir ?_ h).1
    rw [itemHashPath, ← List.append_assoc]
    exact (plain_hashes hpath).up_notMem_component (slash_notMem_escapeMetadataFn hslash)

/-- What is stored for the queue is under the name of a component of the path, and for a script
below a name that does not go up. -/
theorem Contained.store {op : StoreOp} (hb : Contained backuppath b) (hitem : item ∈ b.downloads)
    (hop : StoreOp.allowed item op = true) (h : b.store item op = some b') :
    Contained backuppath b' := by
  have ⟨hpath, hslash, hscript⟩ := hb.downloads item hitem
  have hescaped := slash_notMem_escapeMetadataFn hslash
  cases op with
  | openContent => exact (hb.openRwCreate (hpath.up_notMem_component hslash) h).1
  | replaceContent => exact (hb.openWrite (hpath.up_notMem_component hslash) h).1
  | metadata =>
    refine (hb.openRwCreate ?_ h).1
    rw [itemHashPath, ← List.append_assoc]
    exact (plain_hashes hpath).up_notMem_component hescaped
  | scriptMetadata =>
    obtain ⟨b₁, hdir, hmeta⟩ := Option.bind_eq_some_iff.mp h
    have hname : escapeMetadataFn item.shortFn ≠ dotDot := fun heq =>
      hscript (Bool.and_eq_true_iff.mp hop).1 (eq_dotDot_of_escapeMetadataFn heq)
    have hhash : Plain (itemHashPath item) := plain_hashes (plain_append hpath hescaped hname)
    exact ((hb.scriptHashDir hitem hdir).openRwCreate
      (hhash.up_notMem_component (by decide)) hmeta).1

end Downloads

theorem Contained.step {backuppath : List (List UInt8)} (b : FullFileBackup) (e : Event)
    (b' : FullFileBackup) (hb : Contained backuppath b) (hstays : Stays generateHexMD5 b e)
    (h : FullFileBackup.step generateHexMD5 b e = some b') : Contained backuppath b' := by
  cases e with
  | entry cf disk =>
    simp only [FullFileBackup.step] at h
    split at h
    next =>
      cases h
      exact hb.nextEntry hstays
    next => cases h
  | stop =>
    cases h
    exact hb.stop
  | store item op =>
    simp only [FullFileBackup.step] at h
    split at h
    next hitem =>
      cases h
      cases hstore : b.store item op with
      | none => exact hb
      | some b' => exact hb.store hitem.1 hitem.2 hstore
    next => cases h

theorem Contained.inBackup {backuppath : List (List UInt8)} {b : FullFileBackup}
    (hb : Contained backuppath b) : InBackup backuppath b := by
  intro place hplace
  refine ⟨hb.created place hplace, ?_⟩
  intro target hlink links q hwalk
  obtain ⟨below, rfl⟩ := hb.created place hplace
  cases below with
  | nil => exact absurd (hb.root.symm.trans hlink) nofun
  | cons name parent =>
    exact hb.sealed.target_inside (List.suffix_append parent backuppath) hlink hwalk

/-- While the links that the entries make stay in the backup, nothing is created outside of it, in
whatever order the files of the queue are stored. -/
theorem doFileBackup_inBackup {backuppath : List (List UInt8)}
    {tree : LinkTree.Tree (List UInt8)} {es : List Event} {b : FullFileBackup}
    (hdir : tree backuppath = some .dir) (hfresh : LinkTree.NoLinks backuppath tree)
    (hstays : TransitionSystem.Guarded (step generateHexMD5) (Stays generateHexMD5)
      (start backuppath tree) es)
    (h : TransitionSystem.run (step generateHexMD5) (start backuppath tree) es = some b) :
    InBackup backuppath b := by
  have hstart : Contained backuppath (start backuppath tree) :=
    ⟨rfl, hfresh.sealed, hdir, nofun, plain_nil, nofun⟩
  exact (TransitionSystem.guarded_run_invariant (Contained.step generateHexMD5) hstart hstays
    h).inBackup

section Runs

def sampleHexMD5 (_ : List UInt8) : HexDigest :=
  ⟨List.replicate 32 48, rfl, fun c hc => by rw [List.eq_of_mem_replicate hc]; rfl⟩

/-- The backup is `/b`, and there is a directory `/e` beside it. -/
def sampleTree : LinkTree.Tree (List UInt8) := fun place =>
  if place ∈ [[], [[98]], [hashesPath.tail, [98]], [[101]]] then some .dir else none

theorem sampleTree_noLinks : LinkTree.NoLinks [[98]] sampleTree := by
  intro place name target _ hlink
  unfold sampleTree at hlink
  split at hlink <;> cases hlink

def sampleDisk : Disk := ⟨true, true, true, true⟩

/-- A directory `d` with a link `l` to `x` in it, and a file `f` that is stored. -/
def containedEvents : List Event :=
  [.entry ⟨[100], true, true, some [47], none, false⟩ sampleDisk,
    .entry ⟨[108], false, false, none, some [120], false⟩ sampleDisk,
    .entry ⟨[102], false, false, none, none, false⟩ sampleDisk,
    .store ⟨[47, 100], [102], false, false, false⟩ .openContent]

theorem containedEvents_guarded :
    TransitionSystem.Guarded (step sampleHexMD5) (Stays sampleHexMD5) (start [[98]] sampleTree)
      containedEvents := by
  refine TransitionSystem.guarded_cons rfl ⟨nofun, nofun, nofun⟩ ?_
  refine TransitionSystem.guarded_cons rfl ⟨?_, nofun, fun _ _ => by decide⟩ ?_
  · intro target name parent htarget _ hentry
    cases htarget
    have hplace : some (name :: parent) = some [[108], [100], [98]] :=
      hentry.symm.trans (by decide +kernel)
    cases hplace
    refine ⟨by decide +kernel, fun hzero => absurd hzero (by decide +kernel), ?_⟩
    intro component hfind
    have hnone : none = some component := Eq.trans (by decide +kernel) hfind
    cases hnone
  · refine TransitionSystem.guarded_cons rfl ⟨nofun, nofun, fun _ _ => by decide⟩ ?_
    exact ⟨trivial, fun _ _ => trivial⟩

theorem doFileBackup_inBackup_containedEvents :
    ∃ b, TransitionSystem.run (step sampleHexMD5) (start [[98]] sampleTree) containedEvents = some b ∧
      b.created.length = 5 ∧ InBackup [[98]] b := by
  have hrun : (TransitionSystem.run (step sampleHexMD5) (start [[98]] sampleTree)
      containedEvents).map (·.created.length) = some 5 := by decide +kernel
  obtain ⟨b, hb, hlength⟩ := Option.map_eq_some_iff.mp hrun
  exact ⟨b, hb, hlength, doFileBackup_inBackup sampleHexMD5 rfl sampleTree_noLinks
    containedEvents_guarded hb⟩

/-- A link `m` to `/e`, and a special file `x` in it. -/
def escapingEvents : List Event :=
  [.entry ⟨[109], true, true, some [47], some [47, 101], false⟩ sampleDisk,
    .entry ⟨[120], false, false, none, none, true⟩ sampleDisk]

/-- The target of a link in the backup itself may be absolute. -/
theorem doFileBackup_escapes :
    ¬∀ (generateHexMD5 : List UInt8 → HexDigest) (backuppath : List (List UInt8))
      (tree : LinkTree.Tree (List UInt8)) (es : List Event) (b : FullFileBackup),
      tree backuppath = some .dir → LinkTree.NoLinks backuppath tree →
      TransitionSystem.run (step generateHexMD5) (start backuppath tree) es = some b →
      InBackup backuppath b := by
  intro h
  have hrun : (TransitionSystem.run (step sampleHexMD5) (start [[98]] sampleTree)
      escapingEvents).map (·.created) =
      some [[[120], [101]], [[109], hashesPath.tail, [98]], [[109], [98]]] := by decide +kernel
  obtain ⟨b, hb, hcreated⟩ := Option.map_eq_some_iff.mp hrun
  have := h sampleHexMD5 [[98]] sampleTree escapingEvents b rfl sampleTree_noLinks hb
  rw [InBackup, hcreated] at this
  exact absurd (this [[120], [101]] List.mem_cons_self).1 (by decide)

end Runs

end FullFileBackup

end UrBackup
