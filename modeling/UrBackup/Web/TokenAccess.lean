import UrBackup.Web.BackupTree
import UrBackup.Web.CreateZip

/-! The download of a file or a folder of a backup by its path. With tokens the metadata of each
component of the path is checked first. -/
namespace UrBackup

open FileNames BackupAccess

/-- The path of a backup consists of the folder of all backups, the name of the client and the folder
of the backup. -/
structure BackupDir where
  backupfolder : Bytes
  clientname : Bytes
  backuppath : Bytes
  noSep : backuppath ≠ [] ∧ backuppath.getLast? ≠ some slash

/-- The rights of a request. -/
structure TokenAccess where
  tokenAuthentication : Bool
  backupTokens : List SToken
  tokens : List Bytes

structure SPathInfo where
  canAccessPath : Bool
  isFile : Bool
  isSymlink : Bool
  relPath : Bytes
  relMetadataPath : Bytes
  deriving DecidableEq

def SPathInfo.start : SPathInfo where
  canAccessPath := true
  isFile := false
  isSymlink := false
  relPath := []
  relMetadataPath := []

namespace BackupDir

def path (dir : BackupDir) : Bytes := below (below dir.backupfolder dir.clientname) dir.backuppath

def hashesPath (dir : BackupDir) : Bytes := below dir.path hashes

end BackupDir

namespace BackupAccess

def unescapeSQLString : Bytes → Bytes
  | 39 :: 39 :: rest => 39 :: unescapeSQLString rest
  | c :: rest => c :: unescapeSQLString rest
  | [] => []

def space : UInt8 := 32

def validPathComponent (path : Bytes) : Bool :=
  decide (path ≠ []) && decide (path ≠ [space]) && decide (path ≠ dots) &&
    decide (path ≠ FileList.dotDot) && decide (slash ∉ path) && decide (FileList.backslash ∉ path)

def withRel (path rel : Bytes) : Bytes := path ++ (if rel = [] then [] else slash :: rel)

def isGranted (access : TokenAccess) (metadata : Option FileMetadata) : Bool :=
  metadata.any (checkFileToken access.backupTokens access.tokens)

section Definitions

variable (os : ServedFiles) (dir : BackupDir) (access : TokenAccess)

/-- One turn of the loop over the components of the path, for a valid component. -/
def enterComponent (last : Bool) (component : Bytes) (info : SPathInfo) : SPathInfo :=
  let name := unescapeSQLString component
  let currFullDir := withRel dir.path (info.relPath ++ name)
  let isFile := last && !os.directoryExists currFullDir
  let sep := if isFile then [] else [slash]
  let relMetadataPath := info.relMetadataPath ++ escapeMetadataFn name ++ sep
  let currMetadataDir := withRel dir.hashesPath relMetadataPath
  let currMetadataFile := if isFile then currMetadataDir else currMetadataDir ++ metadataDirFn
  let info := { info with isFile, relPath := info.relPath ++ name ++ sep, relMetadataPath }
  if access.tokenAuthentication && !isGranted access (os.readMetadata currMetadataFile) then
    { info with canAccessPath := false }
  else if os.directoryExists currFullDir && !os.directoryExists currMetadataDir then
    { info with
      relMetadataPath := match os.getSymlinkTarget currFullDir with
        | some target => stripUp target ++ [slash]
        | none => relMetadataPath
      isSymlink := last }
  else info

def enterComponents : List Bytes → SPathInfo → SPathInfo
  | [], info => info
  | component :: components, info =>
    if validPathComponent component then
      let info := enterComponent os dir access components.isEmpty component info
      if info.canAccessPath then enterComponents components info else info
    else enterComponents components info

def getMetadataPathWithTokens (uPath : Bytes) : SPathInfo :=
  enterComponents os dir access (tokenize uPath [slash]) SPathInfo.start

def fullPath (info : SPathInfo) : Bytes := withRel dir.path info.relPath

def fullMetadataPath (info : SPathInfo) : Bytes := withRel dir.hashesPath info.relMetadataPath

def sendFile (path : Bytes) : Option Bytes := if os.openFile path then some path else none

def filesdl (uPath : Bytes) : Option Bytes :=
  let info := getMetadataPathWithTokens os dir access uPath
  if access.tokenAuthentication && !info.canAccessPath then none
  else if !access.tokenAuthentication ||
      isGranted access (os.readMetadata (fullMetadataPath dir info)) then
    sendFile os (fullPath dir info)
  else none

def trimSep (path : Bytes) : Bytes :=
  if path.getLast? = some slash then path.dropLast else path

def zipRequest (info : SPathInfo) (filter : Bytes) : ZipRequest where
  folderbase := dir.path
  startFoldername := trimSep (fullPath dir info)
  hashfolderbase := dir.hashesPath
  filter
  tokenAuthentication := access.tokenAuthentication
  backupTokens := access.backupTokens
  tokens := access.tokens

def zipdl (writes : ZipArchive → Bytes → Bool) (fuel : Nat) (uPath filter : Bytes) :
    Option (Bool × ZipArchive) :=
  let info := getMetadataPathWithTokens os dir access uPath
  if access.tokenAuthentication && !info.canAccessPath then some (false, ⟨[], [], []⟩)
  else
    CreateZip.createZipToOutput os writes (zipRequest dir access info filter) fuel
      (trimSep (fullMetadataPath dir info)) (decide (info.relPath = []))

end Definitions

section Names

variable {name component path : Bytes}

/-- What the operating system takes for a name. -/
def IsName (name : Bytes) : Prop :=
  name ≠ [] ∧ nul ∉ name ∧ slash ∉ name ∧ name ≠ dots ∧ name ≠ FileList.dotDot

theorem unescapeSQLString_subset (component : Bytes) :
    unescapeSQLString component ⊆ component := by
  fun_induction unescapeSQLString component with
  | case1 rest ih =>
    apply List.cons_subset_cons
    exact List.Subset.trans ih (List.subset_cons_self _ _)
  | case2 c rest hne ih => exact List.cons_subset_cons c ih
  | case3 => exact List.Subset.refl []

theorem unescapeSQLString_of_notMem (h : 39 ∉ component) :
    unescapeSQLString component = component := by
  fun_induction unescapeSQLString component with
  | case1 rest ih => exact absurd List.mem_cons_self h
  | case2 c rest hne ih => exact congrArg (c :: ·) (ih fun hmem => h (List.mem_cons_of_mem c hmem))
  | case3 => rfl

theorem quote_mem_unescapeSQLString (h : 39 ∈ component) : 39 ∈ unescapeSQLString component := by
  fun_induction unescapeSQLString component with
  | case1 rest ih => exact List.mem_cons_self
  | case2 c rest hne ih =>
    cases List.mem_cons.mp h with
    | inl heq => exact List.mem_cons.mpr (Or.inl heq)
    | inr hmem => exact List.mem_cons_of_mem c (ih hmem)
  | case3 => exact h

theorem unescapeSQLString_ne {other : Bytes} (hquote : 39 ∉ other) (h : component ≠ other) :
    unescapeSQLString component ≠ other := by
  by_cases hmem : 39 ∈ component
  · exact fun heq => hquote (heq ▸ quote_mem_unescapeSQLString hmem)
  · rwa [unescapeSQLString_of_notMem hmem]

theorem validPathComponent_name (h : validPathComponent component = true) :
    unescapeSQLString component ≠ [] ∧ slash ∉ unescapeSQLString component ∧
      (nul ∉ unescapeSQLString component → IsName (unescapeSQLString component)) := by
  simp only [validPathComponent, Bool.and_eq_true, decide_eq_true_eq] at h
  obtain ⟨⟨⟨⟨⟨hne, -⟩, hdots⟩, hdotDot⟩, hslash⟩, -⟩ := h
  have hne' := unescapeSQLString_ne (by decide) hne
  have hslash' : slash ∉ unescapeSQLString component :=
    fun hmem => hslash (unescapeSQLString_subset component hmem)
  exact ⟨hne', hslash', fun hnul => ⟨hne', hnul, hslash',
    unescapeSQLString_ne (by decide) hdots, unescapeSQLString_ne (by decide) hdotDot⟩⟩

theorem nul_notMem_convert (i : Int64) : nul ∉ FileList.convert i := by
  have hdigits : ∀ n, nul ∉ Decimal.digits n := by
    intro n hmem
    cases Decimal.isDigit_of_mem_digits hmem
  unfold FileList.convert
  split
  · intro hmem
    cases List.mem_cons.mp hmem with
    | inl heq => cases heq
    | inr hmem => exact hdigits _ hmem
  · exact hdigits _

theorem escapeMetadataFn_cases (name : Bytes) : escapeMetadataFn name = name ∨
    nul ∉ name ∧ nul ∉ escapeMetadataFn name ∧ ∃ num, escapeMetadataFn name = metadataDirFn ++ num := by
  unfold escapeMetadataFn
  split
  · next hprefix =>
      obtain ⟨num, rfl⟩ := List.isPrefixOf_iff_prefix.mp hprefix
      dsimp only
      rw [List.drop_left]
      split
      · next hnum =>
          subst hnum
          exact Or.inr ⟨by decide, by decide, [48], rfl⟩
      · split
        · next hdigits =>
            refine Or.inr ⟨fun hmem => ?_, fun hmem => ?_, _, rfl⟩
            · exact (List.mem_append.mp hmem).elim (by decide) fun hmem =>
                absurd (List.all_eq_true.mp hdigits nul hmem) (by decide)
            · exact (List.mem_append.mp hmem).elim (by decide) (nul_notMem_convert _)
        · exact Or.inl rfl
  · exact Or.inl rfl

theorem escapeMetadataFn_of_nul (h : nul ∈ name) : escapeMetadataFn name = name :=
  (escapeMetadataFn_cases name).resolve_right fun hcases => hcases.1 h

theorem escapeMetadataFn_ne_nil (h : name ≠ []) : escapeMetadataFn name ≠ [] := by
  rcases escapeMetadataFn_cases name with heq | ⟨-, -, num, heq⟩
  · rwa [heq]
  · rw [heq]
    exact List.append_ne_nil_of_left_ne_nil (by decide) num

theorem IsName.escape (h : IsName name) : IsName (escapeMetadataFn name) := by
  have hslash := slash_notMem_escapeMetadataFn h.2.2.1
  rcases escapeMetadataFn_cases name with heq | ⟨-, hnul, num, heq⟩
  · rwa [heq]
  · refine ⟨escapeMetadataFn_ne_nil h.1, hnul, hslash, ?_, ?_⟩
    · rw [heq]
      exact fun hdots => absurd (congrArg List.length hdots) (by simp [metadataDirFn, dots])
    · rw [heq]
      exact fun hdots => absurd (congrArg List.length hdots)
        (by simp [metadataDirFn, FileList.dotDot])

theorem cStr_of_notMem (h : nul ∉ name) : cStr name = name := by
  have happend : cStr (name ++ []) = name ++ cStr [] := cStr_append h
  rwa [List.append_nil, cStr_nil, List.append_nil] at happend

theorem slash_notMem_cStr_append (hnul : nul ∈ name) (hslash : slash ∉ name) (more : Bytes) :
    slash ∉ cStr (name ++ more) := by
  rw [cStr_append_of_mem hnul]
  exact slash_notMem_cStr hslash

theorem below_append (path name more : Bytes) : below path (name ++ more) = below path name ++ more := by
  unfold below
  rw [← List.cons_append, List.append_assoc]

theorem withRel_eq_below {rel : Bytes} (h : rel ≠ []) : withRel path rel = below path rel := by
  unfold withRel below
  rw [if_neg h]

end Names

section Walks

open BackupTree

variable {b : BackupTree} {dir : BackupDir} {access : TokenAccess} {place : List Bytes}
  {info : SPathInfo} {name component path : Bytes} {components : List Bytes} {last : Bool}

def entryWalk (b : BackupTree) (place : List Bytes) (name : Bytes) : Option (List Bytes) :=
  LinkTree.walk b.tree maxLinks place (pathSteps name)

def entryMetadata (b : BackupTree) (place : List Bytes) (name : Bytes) : Option FileMetadata :=
  b.metadataAt (cStr (escapeMetadataFn name) :: hashPlace place)

/-- All components so far were names of directories. -/
structure Opened (b : BackupTree) (dir : BackupDir) (place : List Bytes) (info : SPathInfo) :
    Prop where
  path : ∃ path, Says dir.path path place ∧ below dir.path info.relPath = below path []
  metadata : ∃ path, Says dir.path path (hashPlace place) ∧
    below dir.hashesPath info.relMetadataPath = below path []
  node : b.node place = some .dir
  access : info.canAccessPath = true

theorem hashPlace_cons (name : Bytes) (place : List Bytes) :
    hashPlace (name :: place) = escapeMetadataFn name :: hashPlace place := rfl

theorem ownMetadata_cons (h : IsName name) :
    b.ownMetadata (name :: place) = entryMetadata b place name := by
  unfold ownMetadata entryMetadata
  rw [hashPlace_cons, cStr_of_notMem h.escape.2.1]

theorem node_of_dirMetadata (h : isGranted access (b.dirMetadata place) = true) :
    b.node place = some .dir := by
  obtain ⟨metadata, hmetadata, -⟩ := (Option.any_eq_true _ _).mp h
  have hfile := metadataAt_eq_some hmetadata
  exact b.mirrored place (b.parent metadataDirFn (hashPlace place) (by simp [hfile]))

theorem opened_start (b : BackupTree) (dir : BackupDir) : Opened b dir [] SPathInfo.start where
  path := ⟨dir.path, says_base dir.path, rfl⟩
  metadata := ⟨dir.hashesPath, (says_base dir.path).below_name (by decide), rfl⟩
  node := b.root
  access := rfl

theorem served_directoryExists (h : Says dir.path path place) (hnode : b.node place = some .dir)
    (name : Bytes) : (b.served dir.path).directoryExists (below path name) =
      decide ((entryWalk b place name).bind b.node = some .dir) := by
  change decide ((b.walkPath dir.path (below path name)).bind b.node = some .dir) = _
  rw [h.walkPath_below hnode]
  rfl

theorem served_readMetadata (h : Says dir.path path (hashPlace place)) (hname : slash ∉ cStr name) :
    (b.served dir.path).readMetadata (below path name) =
      b.metadataAt (cStr name :: hashPlace place) := h.readMetadata hname

theorem stat_below_nil (h : Says dir.path path place) (hnode : b.node place = some .dir) :
    b.stat dir.path (below path []) = some .dir := by
  unfold stat
  rw [h.walkPath_below hnode, pathSteps_nil]
  obtain ⟨onLink, heq⟩ := LinkTree.walk_eq_walkIn b.tree maxLinks
  rw [heq]
  exact hnode

theorem withRel_append {rel : Bytes} {dirPath : Bytes} (h : below dirPath rel = below path [])
    (hname : name ≠ []) : withRel dirPath (rel ++ name) = below path name := by
  rw [withRel_eq_below (List.append_ne_nil_of_right_ne_nil rel hname), below_append, h,
    ← below_append, List.nil_append]

theorem below_sep_append (path name more : Bytes) :
    below path (name ++ [slash]) ++ more = below (below path name) more := by
  unfold below
  simp only [List.append_assoc, List.cons_append, List.nil_append]

theorem Opened.enterComponent_file (h : Opened b dir place info)
    (htoken : access.tokenAuthentication = true) (hvalid : validPathComponent component = true)
    (hfile : (entryWalk b place (unescapeSQLString component)).bind b.node ≠ some .dir) :
    enterComponent (b.served dir.path) dir access true component info =
      { info with
        canAccessPath := isGranted access (entryMetadata b place (unescapeSQLString component))
        isFile := true
        relPath := info.relPath ++ unescapeSQLString component
        relMetadataPath := info.relMetadataPath ++ escapeMetadataFn (unescapeSQLString component) } := by
  obtain ⟨path, hnamed, hrel⟩ := h.path
  obtain ⟨hashesPath, hhashes, hhashesRel⟩ := h.metadata
  obtain ⟨hne, hslash, -⟩ := validPathComponent_name hvalid
  have hslash' := slash_notMem_cStr (slash_notMem_escapeMetadataFn hslash)
  unfold enterComponent
  dsimp only
  rw [withRel_append hrel hne, served_directoryExists hnamed h.node, decide_eq_false hfile]
  simp only [Bool.not_false, Bool.and_true, if_true, List.append_nil, Bool.false_and,
    Bool.false_eq_true, if_false]
  rw [withRel_append hhashesRel (escapeMetadataFn_ne_nil hne), served_readMetadata hhashes hslash',
    htoken, Bool.true_and]
  unfold entryMetadata
  cases hgranted : isGranted access (b.metadataAt
    (cStr (escapeMetadataFn (unescapeSQLString component)) :: hashPlace place)) with
  | true =>
    rw [if_neg (by decide), ← h.access]
  | false => rfl

theorem Opened.enterComponent_dir (h : Opened b dir place info)
    (htoken : access.tokenAuthentication = true) (hvalid : validPathComponent component = true)
    (hnul : nul ∉ unescapeSQLString component)
    (hdir : last = true → (entryWalk b place (unescapeSQLString component)).bind b.node = some .dir) :
    isGranted access (b.dirMetadata (unescapeSQLString component :: place)) =
        (enterComponent (b.served dir.path) dir access last component info).canAccessPath ∧
      ((enterComponent (b.served dir.path) dir access last component info).canAccessPath = true →
        Opened b dir (unescapeSQLString component :: place)
          (enterComponent (b.served dir.path) dir access last component info)) := by
  obtain ⟨path, hnamed, hrel⟩ := h.path
  obtain ⟨hashesPath, hhashes, hhashesRel⟩ := h.metadata
  obtain ⟨hne, hslash, hname⟩ := validPathComponent_name hvalid
  have hname := hname hnul
  unfold enterComponent
  dsimp only
  rw [List.append_assoc info.relMetadataPath]
  generalize unescapeSQLString component = name at *
  have hentry := served_directoryExists hnamed h.node name
  have hnamed' : Says dir.path (below hashesPath (escapeMetadataFn name)) (hashPlace (name :: place)) :=
    hhashes.below_name hname.escape
  have hmetadata : (b.served dir.path).readMetadata
      (below (below hashesPath (escapeMetadataFn name)) metadataDirFn) =
        b.dirMetadata (name :: place) := served_readMetadata hnamed' (by decide)
  have hisFile : (last && !(b.served dir.path).directoryExists (below path name)) = false := by
    cases last with
    | false => rfl
    | true =>
      rw [hentry, decide_eq_true (hdir rfl)]
      rfl
  rw [withRel_append hrel hne, hisFile]
  simp only [Bool.false_eq_true, if_false]
  rw [withRel_append hhashesRel (by simp), below_sep_append, hmetadata, htoken, Bool.true_and]
  cases hgranted : isGranted access (b.dirMetadata (name :: place)) with
  | false => exact ⟨rfl, nofun⟩
  | true =>
    rw [Bool.not_true, if_neg (by decide)]
    have hnode := node_of_dirMetadata hgranted
    obtain ⟨metadata, hread, -⟩ := (Option.any_eq_true _ _).mp hgranted
    have hfile := metadataAt_eq_some hread
    have hhashesNode := b.parent metadataDirFn (hashPlace (name :: place)) (by simp [hfile])
    have hhashesDir : (b.served dir.path).directoryExists
        (below hashesPath (escapeMetadataFn name ++ [slash])) = true := by
      have hbelow : below hashesPath (escapeMetadataFn name ++ [slash]) =
          below (below hashesPath (escapeMetadataFn name)) [] := by
        rw [← below_sep_append, List.append_nil]
      rw [hbelow]
      exact decide_eq_true (stat_below_nil hnamed' hhashesNode)
    rw [hhashesDir, Bool.not_true, Bool.and_false, if_neg (by decide)]
    refine ⟨h.access.symm, fun _ => ⟨⟨below path name, hnamed.below_name hname, ?_⟩,
      ⟨_, hnamed', ?_⟩, hnode, h.access⟩⟩
    · dsimp only
      rw [List.append_assoc, below_append, hrel, ← below_sep_append]
      simp [below]
    · dsimp only
      rw [below_append, hhashesRel]
      simp [below]

theorem enterComponent_noDir {os : ServedFiles} (last : Bool)
    (htoken : access.tokenAuthentication = true) (hvalid : validPathComponent component = true)
    (hdir : os.directoryExists
      (below dir.path (info.relPath ++ unescapeSQLString component)) = false) :
    ∃ sep more isFile, enterComponent os dir access last component info =
      { info with
        canAccessPath := info.canAccessPath && isGranted access (os.readMetadata
          (below dir.hashesPath (info.relMetadataPath ++
            (escapeMetadataFn (unescapeSQLString component) ++ more))))
        isFile
        relPath := info.relPath ++ (unescapeSQLString component ++ sep)
        relMetadataPath := info.relMetadataPath ++
          (escapeMetadataFn (unescapeSQLString component) ++ sep) } := by
  obtain ⟨hne, -, -⟩ := validPathComponent_name hvalid
  have hne' := escapeMetadataFn_ne_nil hne
  unfold enterComponent
  dsimp only
  rw [withRel_eq_below (List.append_ne_nil_of_right_ne_nil _ hne), hdir,
    withRel_eq_below (by simp [hne']), htoken]
  simp only [Bool.not_false, Bool.and_true, Bool.true_and, Bool.false_and, Bool.false_eq_true,
    if_false, List.append_assoc]
  cases last with
  | false =>
    refine ⟨[slash], slash :: metadataDirFn, false, ?_⟩
    simp only [Bool.false_eq_true, if_false]
    rw [← below_append]
    simp only [List.append_assoc, List.cons_append, List.nil_append]
    cases isGranted access (os.readMetadata _) with
    | true =>
      rw [Bool.not_true, if_neg (by decide), Bool.and_true]
    | false =>
      rw [Bool.not_false, if_pos rfl, Bool.and_false]
  | true =>
    refine ⟨[], [], true, ?_⟩
    simp only [if_true, List.append_nil]
    cases isGranted access (os.readMetadata _) with
    | true =>
      rw [Bool.not_true, if_neg (by decide), Bool.and_true]
    | false =>
      rw [Bool.not_false, if_pos rfl, Bool.and_false]

/-- What comes behind a NUL byte in the path does not count. -/
structure CutPath (b : BackupTree) (dir : BackupDir) (q : Option (List Bytes)) (info : SPathInfo) :
    Prop where
  relPath : info.relPath ≠ []
  walk : ∀ more, b.walkPath dir.path (below dir.path (info.relPath ++ more)) = q

/-- It is the path of a file for which access is granted. -/
structure CutFile (b : BackupTree) (dir : BackupDir) (access : TokenAccess)
    (q : Option (List Bytes)) (info : SPathInfo) : Prop extends CutPath b dir q info where
  noDir : q.bind b.node ≠ some .dir
  relMetadataPath : info.relMetadataPath ≠ []
  metadata : ∀ more, isGranted access ((b.served dir.path).readMetadata
    (below dir.hashesPath (info.relMetadataPath ++ more))) = true
  access : info.canAccessPath = true

theorem enterComponent_relPath (os : ServedFiles) (dir : BackupDir) (access : TokenAccess)
    (last : Bool) (component : Bytes) (info : SPathInfo) :
    ∃ more, (enterComponent os dir access last component info).relPath =
      info.relPath ++ (unescapeSQLString component ++ more) := by
  unfold enterComponent
  dsimp only
  rw [apply_ite SPathInfo.relPath, apply_ite SPathInfo.relPath, ite_self, ite_self,
    List.append_assoc]
  exact ⟨_, rfl⟩

theorem enterComponents_relPath (os : ServedFiles) (dir : BackupDir) (access : TokenAccess)
    (components : List Bytes) (info : SPathInfo) :
    ∃ more, (enterComponents os dir access components info).relPath = info.relPath ++ more := by
  induction components generalizing info with
  | nil => exact ⟨[], (List.append_nil _).symm⟩
  | cons component components ih =>
    unfold enterComponents
    split
    · obtain ⟨more, hmore⟩ :=
        enterComponent_relPath os dir access components.isEmpty component info
      dsimp only
      split
      · obtain ⟨more', hmore'⟩ := ih (enterComponent os dir access components.isEmpty component info)
        exact ⟨_, by rw [hmore', hmore, List.append_assoc]⟩
      · exact ⟨_, hmore⟩
    · exact ih info

variable {q : Option (List Bytes)}

theorem CutPath.append {info' : SPathInfo} {more : Bytes} (h : CutPath b dir q info)
    (hmore : info'.relPath = info.relPath ++ more) : CutPath b dir q info' where
  relPath := by
    rw [hmore]
    exact List.append_ne_nil_of_left_ne_nil h.relPath more
  walk := by
    intro more'
    rw [hmore, List.append_assoc]
    exact h.walk (more ++ more')

theorem CutPath.fullPath (h : CutPath b dir q info) :
    b.walkPath dir.path (fullPath dir info) = q := by
  unfold BackupAccess.fullPath
  rw [withRel_eq_below h.relPath, ← List.append_nil info.relPath]
  exact h.walk []

theorem Opened.cutPath {info' : SPathInfo} {more : Bytes} (h : Opened b dir place info)
    (hne : name ≠ []) (hnul : nul ∈ name) (hmore : info'.relPath = info.relPath ++ (name ++ more)) :
    CutPath b dir (entryWalk b place name) info' where
  relPath := by
    rw [hmore]
    simp [hne]
  walk := by
    intro more'
    obtain ⟨path, hnamed, hrel⟩ := h.path
    rw [hmore, List.append_assoc, below_append, hrel, ← below_append, List.nil_append,
      List.append_assoc, hnamed.walkPath_below h.node]
    unfold entryWalk pathSteps
    rw [cStr_append_of_mem hnul]

theorem CutFile.enterComponent (h : CutFile b dir access q info) (last : Bool)
    (htoken : access.tokenAuthentication = true) (hvalid : validPathComponent component = true) :
    CutFile b dir access q
      (enterComponent (b.served dir.path) dir access last component info) := by
  have hdir : (b.served dir.path).directoryExists
      (below dir.path (info.relPath ++ unescapeSQLString component)) = false := by
    apply decide_eq_false
    unfold stat
    rw [h.walk]
    exact h.noDir
  obtain ⟨sep, more, isFile, heq⟩ := enterComponent_noDir last htoken hvalid hdir
  refine ⟨h.toCutPath.append (by rw [heq]), h.noDir, ?_, ?_, ?_⟩
  · rw [heq]
    exact List.append_ne_nil_of_left_ne_nil h.relMetadataPath _
  · intro more'
    rw [heq]
    dsimp only
    rw [List.append_assoc]
    exact h.metadata _
  · rw [heq]
    dsimp only
    rw [h.access, h.metadata, Bool.and_self]

theorem Opened.enterComponent_cut (h : Opened b dir place info) (last : Bool)
    (htoken : access.tokenAuthentication = true) (hvalid : validPathComponent component = true)
    (hnul : nul ∈ unescapeSQLString component)
    (hfile : (entryWalk b place (unescapeSQLString component)).bind b.node ≠ some .dir) :
    isGranted access (entryMetadata b place (unescapeSQLString component)) =
        (enterComponent (b.served dir.path) dir access last component info).canAccessPath ∧
      ((enterComponent (b.served dir.path) dir access last component info).canAccessPath = true →
        CutFile b dir access (entryWalk b place (unescapeSQLString component))
          (enterComponent (b.served dir.path) dir access last component info)) := by
  obtain ⟨path, hnamed, hrel⟩ := h.path
  obtain ⟨hashesPath, hhashes, hhashesRel⟩ := h.metadata
  obtain ⟨hne, hslash, -⟩ := validPathComponent_name hvalid
  have hdir : (b.served dir.path).directoryExists
      (below dir.path (info.relPath ++ unescapeSQLString component)) = false := by
    rw [below_append, hrel, ← below_append, List.nil_append, served_directoryExists hnamed h.node]
    exact decide_eq_false hfile
  have hmetadata : ∀ more, (b.served dir.path).readMetadata (below dir.hashesPath
      (info.relMetadataPath ++ (escapeMetadataFn (unescapeSQLString component) ++ more))) =
        entryMetadata b place (unescapeSQLString component) := by
    intro more
    unfold entryMetadata
    rw [escapeMetadataFn_of_nul hnul, below_append, hhashesRel, ← below_append, List.nil_append,
      served_readMetadata hhashes (slash_notMem_cStr_append hnul hslash more),
      cStr_append_of_mem hnul]
  obtain ⟨sep, more, isFile, heq⟩ := enterComponent_noDir last htoken hvalid hdir
  rw [hmetadata, h.access, Bool.true_and] at heq
  rw [heq]
  refine ⟨rfl, fun hgranted => ⟨h.cutPath hne hnul rfl, hfile, ?_, ?_, hgranted⟩⟩
  · simp [escapeMetadataFn_ne_nil hne]
  · intro more'
    dsimp only
    rw [List.append_assoc, List.append_assoc, hmetadata]
    exact hgranted

theorem CutFile.enterComponents (h : CutFile b dir access q info)
    (htoken : access.tokenAuthentication = true) (components : List Bytes) :
    CutFile b dir access q
      (enterComponents (b.served dir.path) dir access components info) := by
  induction components generalizing info with
  | nil => exact h
  | cons component components ih =>
    unfold BackupAccess.enterComponents
    split
    · next hvalid =>
        have hcut := h.enterComponent components.isEmpty htoken hvalid
        dsimp only
        rw [if_pos hcut.access]
        exact ih hcut
    · exact ih h

theorem Opened.stat_fullPath (h : Opened b dir place info) :
    b.stat dir.path (fullPath dir info) = some .dir := by
  obtain ⟨path, hnamed, hrel⟩ := h.path
  by_cases hnil : info.relPath = []
  · rw [hnil] at hrel
    have hpath : dir.path = path := List.append_cancel_right hrel
    unfold fullPath withRel stat
    rw [← hpath] at hnamed
    rw [hnil, if_pos rfl, List.append_nil, hnamed.walkPath h.node]
    exact h.node
  · unfold fullPath
    rw [withRel_eq_below hnil, hrel]
    exact stat_below_nil hnamed h.node

def requestedEntry : List Bytes → List Bytes → Option (Bytes × List Bytes)
  | _, [] => none
  | place, component :: components =>
    if validPathComponent component then
      let name := unescapeSQLString component
      if components = [] ∨ nul ∈ name then some (name, place)
      else requestedEntry (name :: place) components
    else requestedEntry place components

theorem requestedEntry_suffix {above : List Bytes}
    (h : requestedEntry place components = some (name, above)) : place <:+ above := by
  fun_induction requestedEntry place components with
  | case1 => cases h
  | case2 place component components hvalid name' hlast =>
    rw [← (Prod.mk.inj (Option.some.inj h)).2]
  | case3 place component components hvalid name' hmore ih =>
    exact (List.suffix_cons name' place).trans (ih h)
  | case4 place component components hinvalid ih => exact ih h

/-- Access is granted to the directories on the way from one to another one below it. -/
def WayGranted (b : BackupTree) (access : TokenAccess) (place above : List Bytes) : Prop :=
  ∀ front, front <:+ above → place.length < front.length →
    isGranted access (b.dirMetadata front) = true

theorem wayGranted_cons {above : List Bytes} (h : name :: place <:+ above) :
    WayGranted b access place above ↔
      isGranted access (b.dirMetadata (name :: place)) = true ∧
        WayGranted b access (name :: place) above := by
  constructor
  · intro hway
    refine ⟨hway _ h (Nat.lt_succ_self _), fun front hfront hlength => hway front hfront ?_⟩
    rw [List.length_cons] at hlength
    omega
  · rintro ⟨hfirst, hway⟩ front hfront hlength
    rcases Nat.lt_or_eq_of_le hlength with hlonger | hsame
    · exact hway front hfront hlonger
    · have heq : front = name :: place :=
        List.IsSuffix.eq_of_length (List.suffix_of_suffix_length_le hfront h hsame.ge) hsame.symm
      rwa [heq]

/-- The request with these parts of the path sends the content of a file. -/
def Sends (b : BackupTree) (dir : BackupDir) (access : TokenAccess) (info : SPathInfo)
    (q : List Bytes) : Prop :=
  info.canAccessPath = true ∧
    isGranted access ((b.served dir.path).readMetadata (fullMetadataPath dir info)) = true ∧
      b.walkPath dir.path (fullPath dir info) = some q ∧ b.node q = some .file

/-- What the check of a path has looked at, and where the entry leads to. -/
structure Checked (b : BackupTree) (access : TokenAccess) (place : List Bytes)
    (components : List Bytes) (name : Bytes) (above q : List Bytes) : Prop where
  entry : requestedEntry place components = some (name, above)
  way : WayGranted b access place above
  metadata : isGranted access (entryMetadata b above name) = true
  walk : entryWalk b above name = some q
  file : b.node q = some .file

theorem Sends.not_denied {q : List Bytes} (h : info.canAccessPath = false) :
    ¬ Sends b dir access info q := fun hsends => absurd (h.symm.trans hsends.1) (by decide)

theorem Opened.not_sends {q : List Bytes} (h : Opened b dir place info) :
    ¬ Sends b dir access info q := by
  rintro ⟨-, -, hwalk, hfile⟩
  have hdir := h.stat_fullPath
  unfold stat at hdir
  rw [hwalk, Option.bind_some, hfile] at hdir
  cases hdir

theorem CutPath.not_sends {q' : List Bytes} (h : CutPath b dir q info)
    (hdir : q.bind b.node = some .dir) : ¬ Sends b dir access info q' := by
  rintro ⟨-, -, hwalk, hfile⟩
  rw [h.fullPath] at hwalk
  rw [hwalk, Option.bind_some, hfile] at hdir
  cases hdir

theorem CutFile.sends_iff {q' : List Bytes} (h : CutFile b dir access q info) :
    Sends b dir access info q' ↔ q = some q' ∧ b.node q' = some .file := by
  have hmetadata := h.metadata []
  rw [List.append_nil, ← withRel_eq_below h.relMetadataPath] at hmetadata
  unfold Sends
  rw [h.fullPath]
  exact ⟨fun hsends => hsends.2.2, fun hsent => ⟨h.access, hmetadata, hsent⟩⟩

theorem checked_last {q' : List Bytes} (hvalid : validPathComponent component = true)
    (hlast : components = [] ∨ nul ∈ unescapeSQLString component) :
    (∃ name above, Checked b access place (component :: components) name above q') ↔
      isGranted access (entryMetadata b place (unescapeSQLString component)) = true ∧
        entryWalk b place (unescapeSQLString component) = some q' ∧ b.node q' = some .file := by
  have hentry : requestedEntry place (component :: components) =
      some (unescapeSQLString component, place) := by
    unfold requestedEntry
    rw [if_pos hvalid]
    dsimp only
    rw [if_pos hlast]
  constructor
  · rintro ⟨name, above, hreq, -, hmetadata, hwalk, hfile⟩
    obtain ⟨rfl, rfl⟩ := Prod.mk.inj (Option.some.inj (hentry.symm.trans hreq))
    exact ⟨hmetadata, hwalk, hfile⟩
  · rintro ⟨hmetadata, hwalk, hfile⟩
    refine ⟨_, _, hentry, fun front hfront hlength => ?_, hmetadata, hwalk, hfile⟩
    exact absurd hfront.length_le (Nat.not_le.mpr hlength)

theorem checked_cons {above q' : List Bytes} {name : Bytes}
    (hvalid : validPathComponent component = true) (hmore : components ≠ [])
    (hnul : nul ∉ unescapeSQLString component) :
    Checked b access place (component :: components) name above q' ↔
      isGranted access (b.dirMetadata (unescapeSQLString component :: place)) = true ∧
        Checked b access (unescapeSQLString component :: place) components name above q' := by
  have hentry : requestedEntry place (component :: components) =
      requestedEntry (unescapeSQLString component :: place) components := by
    conv => lhs; unfold requestedEntry
    rw [if_pos hvalid]
    dsimp only
    rw [if_neg (not_or.mpr ⟨hmore, hnul⟩)]
  constructor
  · rintro ⟨hreq, hway, hmetadata, hwalk, hfile⟩
    rw [hentry] at hreq
    obtain ⟨hfirst, hway⟩ := (wayGranted_cons (requestedEntry_suffix hreq)).mp hway
    exact ⟨hfirst, hreq, hway, hmetadata, hwalk, hfile⟩
  · rintro ⟨hfirst, hreq, hway, hmetadata, hwalk, hfile⟩
    have hway := (wayGranted_cons (requestedEntry_suffix hreq)).mpr ⟨hfirst, hway⟩
    exact ⟨hentry.trans hreq, hway, hmetadata, hwalk, hfile⟩

theorem checked_invalid {above q' : List Bytes} {name : Bytes}
    (hinvalid : ¬ validPathComponent component = true) :
    Checked b access place (component :: components) name above q' ↔
      Checked b access place components name above q' := by
  have hentry : requestedEntry place (component :: components) = requestedEntry place components := by
    conv => lhs; unfold requestedEntry
    rw [if_neg hinvalid]
  exact ⟨fun h => ⟨hentry ▸ h.entry, h.way, h.metadata, h.walk, h.file⟩,
    fun h => ⟨hentry.trans h.entry, h.way, h.metadata, h.walk, h.file⟩⟩

def enterRest (os : ServedFiles) (dir : BackupDir) (access : TokenAccess) (components : List Bytes)
    (info : SPathInfo) : SPathInfo :=
  if info.canAccessPath then enterComponents os dir access components info else info

theorem enterComponents_cons (os : ServedFiles) (hvalid : validPathComponent component = true) :
    enterComponents os dir access (component :: components) info =
      enterRest os dir access components
        (enterComponent os dir access components.isEmpty component info) := by
  conv => lhs; unfold enterComponents
  rw [if_pos hvalid]
  rfl

theorem enterRest_relPath (os : ServedFiles) (dir : BackupDir) (access : TokenAccess)
    (components : List Bytes) (info : SPathInfo) :
    ∃ more, (enterRest os dir access components info).relPath = info.relPath ++ more := by
  unfold enterRest
  split
  · exact enterComponents_relPath os dir access components info
  · exact ⟨[], (List.append_nil _).symm⟩

theorem Opened.sends_cut {q' : List Bytes} (h : Opened b dir place info)
    (htoken : access.tokenAuthentication = true) (hvalid : validPathComponent component = true)
    (hnul : nul ∈ unescapeSQLString component) :
    Sends b dir access (enterRest (b.served dir.path) dir access components
        (enterComponent (b.served dir.path) dir access last component info)) q' ↔
      isGranted access (entryMetadata b place (unescapeSQLString component)) = true ∧
        entryWalk b place (unescapeSQLString component) = some q' ∧ b.node q' = some .file := by
  obtain ⟨hne, -, -⟩ := validPathComponent_name hvalid
  by_cases hdir : (entryWalk b place (unescapeSQLString component)).bind b.node = some .dir
  · obtain ⟨more, hmore⟩ :=
      enterComponent_relPath (b.served dir.path) dir access last component info
    obtain ⟨more', hmore'⟩ := enterRest_relPath (b.served dir.path) dir access components
      (enterComponent (b.served dir.path) dir access last component info)
    have hcut := (h.cutPath hne hnul hmore).append hmore'
    refine iff_of_false (hcut.not_sends hdir) ?_
    rintro ⟨-, hwalk, hfile⟩
    rw [hwalk, Option.bind_some, hfile] at hdir
    cases hdir
  · obtain ⟨haccess, hcut⟩ := h.enterComponent_cut last htoken hvalid hnul hdir
    rw [haccess]
    unfold enterRest
    cases hgranted :
        (enterComponent (b.served dir.path) dir access last component info).canAccessPath with
    | true =>
      rw [if_pos rfl, ((hcut hgranted).enterComponents htoken components).sends_iff]
      exact ⟨fun hsent => ⟨rfl, hsent⟩, fun hsent => hsent.2⟩
    | false =>
      rw [if_neg (by decide)]
      exact iff_of_false (Sends.not_denied hgranted) fun hsent => absurd hsent.1 (by decide)

theorem Opened.sends_file {q' : List Bytes} (h : Opened b dir place info)
    (htoken : access.tokenAuthentication = true) (hvalid : validPathComponent component = true)
    (hfile : (entryWalk b place (unescapeSQLString component)).bind b.node ≠ some .dir) :
    Sends b dir access (enterComponent (b.served dir.path) dir access true component info) q' ↔
      isGranted access (entryMetadata b place (unescapeSQLString component)) = true ∧
        entryWalk b place (unescapeSQLString component) = some q' ∧ b.node q' = some .file := by
  obtain ⟨hne, hslash, -⟩ := validPathComponent_name hvalid
  obtain ⟨path, hnamed, hrel⟩ := h.path
  obtain ⟨hashesPath, hhashes, hhashesRel⟩ := h.metadata
  have hslash' := slash_notMem_cStr (slash_notMem_escapeMetadataFn hslash)
  rw [h.enterComponent_file htoken hvalid hfile]
  unfold Sends fullPath fullMetadataPath
  dsimp only
  rw [withRel_append hrel hne, withRel_append hhashesRel (escapeMetadataFn_ne_nil hne),
    served_readMetadata hhashes hslash', hnamed.walkPath_below h.node]
  exact ⟨fun hsends => ⟨hsends.1, hsends.2.2⟩, fun hsends => ⟨hsends.1, hsends.1, hsends.2⟩⟩

/-- The file whose content a request sends is the one that its entry leads to. Induction on the
components of the path. -/
theorem Opened.sends_iff {q' : List Bytes} (h : Opened b dir place info)
    (htoken : access.tokenAuthentication = true) :
    Sends b dir access (enterComponents (b.served dir.path) dir access components info) q' ↔
      ∃ name above, Checked b access place components name above q' := by
  induction components generalizing place info with
  | nil =>
    refine iff_of_false h.not_sends ?_
    rintro ⟨name, above, hchecked⟩
    cases hchecked.entry
  | cons component components ih =>
    by_cases hvalid : validPathComponent component = true
    · rw [enterComponents_cons _ hvalid]
      by_cases hnul : nul ∈ unescapeSQLString component
      · rw [h.sends_cut htoken hvalid hnul, checked_last hvalid (Or.inr hnul)]
      · by_cases hfile : components = [] ∧
            (entryWalk b place (unescapeSQLString component)).bind b.node ≠ some .dir
        · obtain ⟨rfl, hfile⟩ := hfile
          have hrest : enterRest (b.served dir.path) dir access []
              (enterComponent (b.served dir.path) dir access ([] : List Bytes).isEmpty component
                info) = enterComponent (b.served dir.path) dir access true component info := by
            unfold enterRest
            exact ite_self _
          rw [hrest, h.sends_file htoken hvalid hfile, checked_last hvalid (Or.inl rfl)]
        · have hdir : components.isEmpty = true →
              (entryWalk b place (unescapeSQLString component)).bind b.node = some .dir :=
            fun hempty => not_not.mp fun hne => hfile ⟨List.isEmpty_iff.mp hempty, hne⟩
          obtain ⟨haccess, hopened⟩ := h.enterComponent_dir htoken hvalid hnul hdir
          generalize enterComponent (b.served dir.path) dir access components.isEmpty component
            info = info' at haccess hopened ⊢
          by_cases hlast : components = []
          · subst hlast
            have hdir := hdir rfl
            rw [checked_last hvalid (Or.inl rfl)]
            refine iff_of_false ?_ ?_
            · change ¬ Sends b dir access (if info'.canAccessPath then info' else info') q'
              rw [ite_self]
              cases hgranted : info'.canAccessPath with
              | true => exact (hopened hgranted).not_sends
              | false => exact Sends.not_denied hgranted
            · rintro ⟨-, hwalk, hfile⟩
              rw [hwalk, Option.bind_some, hfile] at hdir
              cases hdir
          · simp only [checked_cons hvalid hlast hnul, exists_and_left]
            unfold enterRest
            rw [haccess]
            cases hgranted : info'.canAccessPath with
            | true =>
              rw [if_pos rfl, ih (hopened hgranted)]
              exact ⟨fun hsends => ⟨rfl, hsends⟩, fun hsends => hsends.2⟩
            | false =>
              rw [if_neg (by decide)]
              exact iff_of_false (Sends.not_denied hgranted) fun hsent =>
                absurd hsent.1 (by decide)
    · conv => lhs; unfold enterComponents
      rw [if_neg hvalid, ih h]
      simp only [checked_invalid hvalid]

def namedIn (components : List Bytes) : List Bytes :=
  (components.filter validPathComponent).map unescapeSQLString

/-- Access is granted to each directory named from a place on. -/
def DirsGranted (b : BackupTree) (access : TokenAccess) (place : List Bytes) (names : List Bytes) :
    Prop :=
  ∀ front, front ≠ [] → front <+: names → b.node (front.reverse ++ place) = some .dir →
    isGranted access (b.dirMetadata (front.reverse ++ place)) = true

/-- Where a path that may be accessed has led to. -/
inductive Reached (b : BackupTree) (dir : BackupDir) (info : SPathInfo) : Prop where
  | opened (place : List Bytes) (h : Opened b dir place info)
  | cut (h : nul ∈ info.relPath)
  | file (path name : Bytes) (h : fullPath dir info = below path name) (hname : IsName name)
    (hfile : b.stat dir.path (fullPath dir info) ≠ some .dir)

theorem entryWalk_dir (hname : IsName name) (hdir : b.node (name :: place) = some .dir) :
    entryWalk b place name = some (name :: place) := by
  obtain ⟨onLink, heq⟩ := LinkTree.walk_eq_walkIn b.tree maxLinks
  unfold entryWalk
  rw [heq, pathSteps_name hname, LinkTree.walkIn, tree_eq_dir.mpr hdir]
  rfl

theorem dirsGranted_cons {names : List Bytes}
    (hfirst : b.node (name :: place) = some .dir →
      isGranted access (b.dirMetadata (name :: place)) = true)
    (hrest : DirsGranted b access (name :: place) names) :
    DirsGranted b access place (name :: names) := by
  intro front hne hfront hdir
  cases front with
  | nil => exact absurd rfl hne
  | cons first front =>
    obtain ⟨rfl, hshorter⟩ := List.cons_prefix_cons.mp hfront
    rw [List.reverse_cons, List.append_assoc, List.singleton_append] at hdir ⊢
    by_cases hnil : front = []
    · subst hnil
      exact hfirst hdir
    · exact hrest front hnil hshorter hdir

theorem dirsGranted_of_noDir {names : List Bytes} (h : b.node (name :: place) ≠ some .dir) :
    DirsGranted b access place (name :: names) := by
  refine dirsGranted_cons (fun hdir => absurd hdir h) fun front _ _ hdir => ?_
  exact absurd (dir_above front.reverse hdir) h

/-- Induction on the components, with the same cases as for what is sent. -/
theorem Opened.reached (h : Opened b dir place info) (htoken : access.tokenAuthentication = true)
    (haccess : (enterComponents (b.served dir.path) dir access components info).canAccessPath =
      true) :
    DirsGranted b access place (namedIn components) ∧
      Reached b dir (enterComponents (b.served dir.path) dir access components info) := by
  induction components generalizing place info with
  | nil =>
    refine ⟨fun front hne hfront => ?_, .opened place h⟩
    exact absurd (List.prefix_nil.mp hfront) hne
  | cons component components ih =>
    by_cases hvalid : validPathComponent component = true
    · have hnames : namedIn (component :: components) =
          unescapeSQLString component :: namedIn components := by
        unfold namedIn
        rw [List.filter_cons_of_pos hvalid, List.map_cons]
      rw [enterComponents_cons _ hvalid] at haccess ⊢
      rw [hnames]
      obtain ⟨hne, hslash, hname⟩ := validPathComponent_name hvalid
      by_cases hnul : nul ∈ unescapeSQLString component
      · refine ⟨dirsGranted_of_noDir fun hdir => ?_, .cut ?_⟩
        · exact (b.names _ place (by simp [hdir])).2.1 hnul
        · obtain ⟨more, hmore⟩ := enterComponent_relPath (b.served dir.path) dir access
            components.isEmpty component info
          obtain ⟨more', hmore'⟩ := enterRest_relPath (b.served dir.path) dir access components
            (enterComponent (b.served dir.path) dir access components.isEmpty component info)
          rw [hmore', hmore]
          simp [hnul]
      · by_cases hfile : components = [] ∧
            (entryWalk b place (unescapeSQLString component)).bind b.node ≠ some .dir
        · obtain ⟨rfl, hfile⟩ := hfile
          refine ⟨dirsGranted_of_noDir fun hdir => hfile ?_, ?_⟩
          · rw [entryWalk_dir (hname hnul) hdir]
            exact hdir
          · obtain ⟨path, hnamed, hrel⟩ := h.path
            unfold enterRest
            rw [enterComponents, ite_self, List.isEmpty_nil, h.enterComponent_file htoken hvalid hfile]
            have hpath := withRel_append hrel hne
            refine .file path _ hpath (hname hnul) ?_
            unfold fullPath stat
            rw [hpath, hnamed.walkPath_below h.node]
            exact hfile
        · have hdir : components.isEmpty = true →
              (entryWalk b place (unescapeSQLString component)).bind b.node = some .dir :=
            fun hempty => not_not.mp fun hne => hfile ⟨List.isEmpty_iff.mp hempty, hne⟩
          obtain ⟨hgranted, hopened⟩ := h.enterComponent_dir htoken hvalid hnul hdir
          unfold enterRest at haccess ⊢
          split at haccess
          · next hentered =>
              rw [if_pos hentered]
              obtain ⟨hdirs, hreached⟩ := ih (hopened hentered) haccess
              exact ⟨dirsGranted_cons (fun _ => hgranted.trans hentered) hdirs, hreached⟩
          · next hdenied => exact absurd haccess hdenied
    · have hnames : namedIn (component :: components) = namedIn components := by
        unfold namedIn
        rw [List.filter_cons_of_neg hvalid]
      unfold enterComponents at haccess ⊢
      rw [if_neg hvalid] at haccess ⊢
      rw [hnames]
      exact ih h haccess

end Walks

end BackupAccess

end UrBackup
