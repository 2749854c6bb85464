import UrBackup.Web.TokenAccess

/-! What is sent with tokens. The metadata that is checked is that of the entry that is asked for. If it
is a link, another file is sent. -/
namespace UrBackup

open FileNames BackupTree BackupAccess

namespace BackupAccess

section Zip

variable {b : BackupTree} {dir : BackupDir} {access : TokenAccess} {place q : List Bytes}
  {path name body filter : Bytes} {info : SPathInfo} {folder : ZipFolder} {file : DirEntry}
  {entry entry' : ZipEntry} {writes : ZipArchive → Bytes → Bool}

/-- A path leads to no file to which access is not granted. -/
def FileGranted (b : BackupTree) (dir : BackupDir) (access : TokenAccess) (path : Bytes) : Prop :=
  ∀ q, b.walkPath dir.path path = some q → b.node q = some .file →
    isGranted access (b.ownMetadata q) = true

/-- The ZIP code looks for the metadata of what a link leads to at the place that its body says. This
is harmless if the metadata is there: no other link is on the way to a file, and no name of a directory
has other metadata. -/
structure LinksChecked (b : BackupTree) (access : TokenAccess) : Prop where
  file : ∀ place ups body, b.node place = some (.link ups body) →
    isGranted access (b.metadataAt (bodyPlace body ++ [hashes])) = true → ∀ q,
      LinkTree.walk b.tree maxLinks [] (pathSteps body) = some q → b.node q = some .file →
        isGranted access (b.ownMetadata q) = true
  dir : ∀ place ups body, b.node place = some (.link ups body) →
    isGranted access (b.metadataAt (metadataDirFn :: (bodyPlace body ++ [hashes]))) = true →
      ∀ name ∈ bodyPlace body, escapeMetadataFn name = name

/-- The metadata of the entries of a folder is looked for at its own place, or no path of an entry
leads to a file, as the path of the folder has a NUL byte or is that of a file. -/
inductive OwnFolder (b : BackupTree) (dir : BackupDir) (folder : ZipFolder) : Prop where
  | opened (place : List Bytes) (hpath : Says dir.path folder.foldername place)
    (hhashes : Says dir.path folder.hashfoldername (hashPlace place))
    (hnode : b.node place = some .dir)
  | cut (h : ∀ more, b.walkPath dir.path (folder.foldername ++ more) =
      b.walkPath dir.path folder.foldername)
  | noDir (h : b.stat dir.path folder.foldername ≠ some .dir)

theorem stripUp_ups (ups : Nat) (body : Bytes) :
    stripUp ((List.replicate ups (FileList.dotDot ++ [slash])).flatten ++ body) = stripUp body := by
  induction ups with
  | zero => rfl
  | succ ups ih => exact ih

theorem stripUp_of_plain (h : Plain body) : stripUp body = body := by
  unfold stripUp
  split
  · next rest =>
      exfalso
      apply h
      change FileList.dotDot ∈ (FileList.dotDot ++ slash :: rest).splitOn slash
      rw [List.splitOn_append_cons_self_of_not_mem (by decide)]
      exact List.mem_cons_self
  · rfl

theorem stripUp_linkString (h : Plain body) (ups : Nat) : stripUp (linkString ups body) = body := by
  unfold linkString
  rw [stripUp_ups, stripUp_of_plain h]

theorem mayAccess_eq (htoken : access.tokenAuthentication = true) :
    CreateZip.mayAccess (b.served dir.path) (zipRequest dir access info filter) entry =
      isGranted access ((b.served dir.path).readMetadata entry.metadataname) := by
  unfold CreateZip.mayAccess
  rw [show (zipRequest dir access info filter).tokenAuthentication = true from htoken, if_pos rfl]
  cases (b.served dir.path).readMetadata entry.metadataname with
  | none => rfl
  | some metadata => rfl

theorem followLink_cases (h : CreateZip.followLink (b.served dir.path)
    (zipRequest dir access info filter) entry = some entry') :
    ∃ place ups body, b.node place = some (.link ups body) ∧ entry'.filename = below dir.path body ∧
      if entry.isDirLink then
        entry'.metadataname = below (below dir.hashesPath body) metadataDirFn ∧
          entry'.nextHashfoldername = below dir.hashesPath body
      else entry'.metadataname = below dir.hashesPath body := by
  unfold CreateZip.followLink at h
  split at h
  · cases h
  · next target htarget =>
      obtain ⟨place, -, hlink⟩ := Option.bind_eq_some_iff.mp htarget
      split at hlink
      · next ups body hnode =>
          cases hlink
          rw [stripUp_linkString (b.links place ups body hnode).2.1] at h
          dsimp only at h
          split at h
          · cases h
          · cases h
            refine ⟨place, ups, body, hnode, ?_, ?_⟩
            · split
              · rfl
              · rfl
            · split
              · exact ⟨rfl, rfl⟩
              · rfl
      · cases hlink

theorem walkPath_below_path (dir : BackupDir) (body : Bytes) :
    b.walkPath dir.path (below dir.path body) =
      LinkTree.walk b.tree maxLinks [] (pathSteps body) := by
  unfold walkPath
  rw [show rest dir.path (below dir.path body) = some body from rest_append dir.path body]
  rfl

theorem says_hashes (dir : BackupDir) : Says dir.path dir.hashesPath [hashes] :=
  (says_base dir.path).below_name (by decide)

theorem followLink_file (hlinks : LinksChecked b access) (hfile : entry.isDirLink = false)
    (htoken : access.tokenAuthentication = true)
    (h : CreateZip.followLink (b.served dir.path) (zipRequest dir access info filter) entry =
      some entry')
    (hmay : CreateZip.mayAccess (b.served dir.path) (zipRequest dir access info filter) entry' =
      true) : FileGranted b dir access entry'.filename := by
  obtain ⟨place, ups, body, hnode, hfilename, hmetadata⟩ := followLink_cases h
  rw [hfile, if_neg (by decide)] at hmetadata
  obtain ⟨-, hplain, hnul⟩ := b.links place ups body hnode
  rw [mayAccess_eq htoken, hmetadata] at hmay
  intro q hwalk hq
  rw [hfilename, walkPath_below_path] at hwalk
  refine hlinks.file place ups body hnode ?_ q hwalk hq
  have hnamed := (says_hashes dir).below_body hplain hnul
  obtain ⟨metadata, hread, hgranted⟩ := (Option.any_eq_true _ _).mp hmay
  obtain ⟨q', hwalk', hread⟩ := Option.bind_eq_some_iff.mp hread
  rw [← hnamed.hashes_walk hwalk', hread]
  exact hgranted

theorem followLink_dir (hlinks : LinksChecked b access) (hdir : entry.isDirLink = true)
    (htoken : access.tokenAuthentication = true)
    (h : CreateZip.followLink (b.served dir.path) (zipRequest dir access info filter) entry =
      some entry')
    (hmay : CreateZip.mayAccess (b.served dir.path) (zipRequest dir access info filter) entry' =
      true) : OwnFolder b dir (CreateZip.nextFolder entry') := by
  obtain ⟨place, ups, body, hlink, hfilename, hmetadata⟩ := followLink_cases h
  rw [hdir, if_pos rfl] at hmetadata
  obtain ⟨-, hplain, hnul⟩ := b.links place ups body hlink
  rw [mayAccess_eq htoken, hmetadata.1] at hmay
  have hnamed := (says_hashes dir).below_body hplain hnul
  have hbase := (says_base dir.path).below_body hplain hnul
  rw [List.append_nil] at hbase
  rw [show (b.served dir.path).readMetadata (below (below dir.hashesPath body) metadataDirFn) =
    b.metadataAt (metadataDirFn :: (bodyPlace body ++ [hashes])) from hnamed.readMetadata (by decide)]
    at hmay
  have hnames : hashPlace (bodyPlace body) = bodyPlace body ++ [hashes] := by
    unfold hashPlace
    rw [List.map_congr_left (hlinks.dir place ups body hlink hmay), List.map_id']
  obtain ⟨metadata, hread, -⟩ := (Option.any_eq_true _ _).mp hmay
  have hfile := metadataAt_eq_some hread
  have hparent := b.parent metadataDirFn (bodyPlace body ++ [hashes]) (by simp [hfile])
  have hnode := b.mirrored (bodyPlace body) ((congrArg b.node hnames).trans hparent)
  refine .opened (bodyPlace body) ?_ ?_ hnode
  · change Says dir.path entry'.filename _
    rw [hfilename]
    exact hbase
  · change Says dir.path entry'.nextHashfoldername _
    rw [hmetadata.2, hnames]
    exact hnamed

theorem isSymlink_below (hnamed : Says dir.path path place) (hnode : b.node place = some .dir)
    (hname : IsName name)
    (h : CreateZip.isSymlink (b.served dir.path) (below path name) = false) (ups : Nat)
    (body : Bytes) : b.node (name :: place) ≠ some (.link ups body) := by
  intro hlink
  unfold CreateZip.isSymlink BackupTree.served at h
  dsimp only at h
  rw [hnamed.lstatPlace_below hnode hname, Option.bind_some, hlink] at h
  cases h

theorem entryWalk_self (hname : IsName name)
    (hlink : ∀ ups body, b.node (name :: place) ≠ some (.link ups body))
    (h : entryWalk b place name = some q) : q = name :: place := by
  obtain ⟨onLink, heq⟩ := LinkTree.walk_eq_walkIn b.tree maxLinks
  unfold entryWalk at h
  rw [heq, pathSteps_name hname, LinkTree.walkIn] at h
  split at h
  · exact (Option.some.inj h).symm
  · next target htree =>
      obtain ⟨ups, body, hbody⟩ := tree_eq_link htree
      exact absurd hbody (hlink ups body)
  · exact (Option.some.inj h).symm
  · exact (Option.some.inj h).symm

theorem zipEntry_cases {r : ZipRequest} {os : ServedFiles} (hbase : r.hashfolderbase ≠ [])
    (h : CreateZip.zipEntry os r folder file = some entry) :
    (file.isdir = true ∧
      (os.directoryExists (below folder.hashfoldername (escapeMetadataFn file.name)) = true ∧
          entry.filename = below folder.foldername file.name ∧
            entry.nextHashfoldername =
              below folder.hashfoldername (escapeMetadataFn file.name) ∨
        ∃ before : ZipEntry, before.isDirLink = true ∧
          CreateZip.followLink os r before = some entry)) ∨
      file.isdir = false ∧
        (CreateZip.isSymlink os (below folder.foldername file.name) = false ∧
            entry.filename = below folder.foldername file.name ∧
              entry.metadataname = below folder.hashfoldername (escapeMetadataFn file.name) ∨
          ∃ before : ZipEntry, before.isDirLink = false ∧
            CreateZip.followLink os r before = some entry) := by
  have hne : below folder.hashfoldername (escapeMetadataFn file.name) ≠ [] := by simp [below]
  unfold CreateZip.zipEntry at h
  rw [if_neg hbase] at h
  dsimp only at h
  split at h
  · cases h
  · split at h
    · cases h
    · split at h
      · next hdir =>
          refine Or.inl ⟨hdir.1, ?_⟩
          split at h
          · next hexists =>
              cases h
              exact Or.inl ⟨hexists, rfl, rfl⟩
          · exact Or.inr ⟨_, rfl, h⟩
      · next hnodir =>
          have hfile : file.isdir = false :=
            Bool.eq_false_iff.mpr fun hdir => hnodir ⟨hdir, hne⟩
          refine Or.inr ⟨hfile, ?_⟩
          rw [if_neg fun hboth => hne hboth.1] at h
          split at h
          · exact Or.inr ⟨_, rfl, h⟩
          · next hno =>
              cases h
              refine Or.inl ⟨Bool.eq_false_iff.mpr fun hlink => hno ⟨hfile, hlink⟩, rfl, rfl⟩

theorem fileGranted_below {hashesPath : Bytes} (hnamed : Says dir.path path place)
    (hhashes : Says dir.path hashesPath (hashPlace place)) (hnode : b.node place = some .dir)
    (hname : IsName name)
    (hlink : CreateZip.isSymlink (b.served dir.path) (below path name) = false)
    (hgranted : isGranted access ((b.served dir.path).readMetadata
      (below hashesPath (escapeMetadataFn name))) = true) :
    FileGranted b dir access (below path name) := by
  intro q hwalk hq
  rw [hnamed.walkPath_below hnode] at hwalk
  have hself := entryWalk_self hname (isSymlink_below hnamed hnode hname hlink) hwalk
  rw [served_readMetadata hhashes (slash_notMem_cStr hname.escape.2.2.1)] at hgranted
  rw [hself, ownMetadata_cons hname]
  exact hgranted

theorem node_of_directoryExists {hashesPath : Bytes}
    (hhashes : Says dir.path hashesPath (hashPlace place)) (hname : IsName name)
    (h : (b.served dir.path).directoryExists (below hashesPath (escapeMetadataFn name)) = true) :
    b.node (name :: place) = some .dir := by
  obtain ⟨q, hwalk, hdir⟩ := Option.bind_eq_some_iff.mp (of_decide_eq_true h)
  have hnamed : Says dir.path (below hashesPath (escapeMetadataFn name)) (hashPlace (name :: place)) :=
    hhashes.below_name hname.escape
  apply b.mirrored
  change b.node (hashPlace (name :: place)) = some .dir
  unfold hashPlace at hnamed ⊢
  rw [← hnamed.hashes_walk hwalk]
  exact hdir

theorem OwnFolder.added {files : List DirEntry} (hfolder : OwnFolder b dir folder)
    (hlinks : LinksChecked b access) (htoken : access.tokenAuthentication = true)
    (hfiles : (b.served dir.path).getFiles folder.foldername = some files) (hmem : file ∈ files)
    (h : CreateZip.zipEntry (b.served dir.path) (zipRequest dir access info filter) folder file =
      some entry)
    (hmay : CreateZip.mayAccess (b.served dir.path) (zipRequest dir access info filter) entry =
      true) :
    (file.isdir = false → FileGranted b dir access entry.filename) ∧
      (file.isdir = true → OwnFolder b dir (CreateZip.nextFolder entry)) := by
  have hbase : (zipRequest dir access info filter).hashfolderbase ≠ [] := by
    simp [zipRequest, BackupDir.hashesPath, below]
  obtain ⟨parent, hwalk, hentries⟩ := Option.bind_eq_some_iff.mp hfiles
  split at hentries
  · next hparent =>
      cases hentries
      obtain ⟨name, hlisted, hfileEq⟩ := List.mem_map.mp hmem
      have hname : IsName file.name := by
        rw [← hfileEq]
        exact b.names name parent ((b.listed name parent).mp hlisted)
      rcases zipEntry_cases hbase h with
        ⟨hdir, ⟨hexists, hfilename, hnext⟩ | ⟨before, hbefore, hfollow⟩⟩ |
        ⟨hfile, ⟨hlink, hfilename, hmetadata⟩ | ⟨before, hbefore, hfollow⟩⟩
      · refine ⟨fun hfile => absurd (hdir.symm.trans hfile) (by decide), fun _ => ?_⟩
        cases hfolder with
        | opened place hpath hhashes hnode =>
          refine .opened (file.name :: place) ?_ ?_ (node_of_directoryExists hhashes hname hexists)
          · change Says dir.path entry.filename _
            rw [hfilename]
            exact hpath.below_name hname
          · change Says dir.path entry.nextHashfoldername _
            rw [hnext]
            exact hhashes.below_name hname.escape
        | cut hcut =>
          refine .cut fun more => ?_
          change b.walkPath dir.path (entry.filename ++ more) =
            b.walkPath dir.path entry.filename
          rw [hfilename]
          unfold below
          rw [List.append_assoc, hcut, hcut]
        | noDir hno =>
          unfold stat at hno
          rw [hwalk] at hno
          exact absurd hparent hno
      · exact ⟨fun hfile => absurd (hdir.symm.trans hfile) (by decide),
          fun _ => followLink_dir hlinks hbefore htoken hfollow hmay⟩
      · refine ⟨fun _ => ?_, fun hdir => absurd (hdir.symm.trans hfile) (by decide)⟩
        rw [mayAccess_eq htoken, hmetadata] at hmay
        rw [hfilename]
        cases hfolder with
        | opened place hpath hhashes hnode =>
          exact fileGranted_below hpath hhashes hnode hname hlink hmay
        | cut hcut =>
          intro q hq hqfile
          unfold below at hq
          rw [hcut, hwalk] at hq
          cases hq
          rw [hparent] at hqfile
          cases hqfile
        | noDir hno =>
          unfold stat at hno
          rw [hwalk] at hno
          exact absurd hparent hno
      · exact ⟨fun _ => followLink_file hlinks hbefore htoken hfollow hmay,
          fun hdir => absurd (hdir.symm.trans hfile) (by decide)⟩
  · cases hentries

/-- Every file whose content was sent is one to which access is granted. -/
def AllGranted (b : BackupTree) (dir : BackupDir) (access : TokenAccess) (z : ZipArchive) : Prop :=
  ∀ sent ∈ z.sent, FileGranted b dir access sent.entry.filename

theorem addEntry_granted {z z' : ZipArchive} {rc : Bool} {os : ServedFiles}
    (hz : AllGranted b dir access z)
    (hgranted : file.isdir = false → FileGranted b dir access entry.filename)
    (h : CreateZip.addEntry os writes folder file entry z = (rc, z')) :
    AllGranted b dir access z' := by
  have hsent : file.isdir = false → ∀ names, AllGranted b dir access
      { z with names, sent := z.sent ++ [⟨folder, file, entry⟩] } := by
    intro hfile names sent hmem
    rcases List.mem_append.mp hmem with hmem | hmem
    · exact hz sent hmem
    · cases List.mem_singleton.mp hmem
      exact hgranted hfile
  unfold CreateZip.addEntry at h
  split at h
  · unfold CreateZip.addMem at h
    split at h
    · cases h
      exact hz
    · cases h
      exact hz
  · next hfile =>
      have hfile := Bool.eq_false_iff.mpr hfile
      split at h
      · unfold CreateZip.addCFile at h
        split at h
        · split at h
          · cases h
            exact hsent hfile _
          · cases h
            exact hsent hfile _
        · cases h
          exact hz
      · cases h
        exact hz

theorem addFiles_granted {recurse : ZipFolder → ZipArchive → Option (Bool × ZipArchive)}
    {files all : List DirEntry} {z : ZipArchive} {res : Bool × ZipArchive}
    (hfolder : OwnFolder b dir folder) (hlinks : LinksChecked b access)
    (htoken : access.tokenAuthentication = true)
    (hfiles : (b.served dir.path).getFiles folder.foldername = some all) (hsub : files ⊆ all)
    (hrecurse : ∀ folder z res, OwnFolder b dir folder → AllGranted b dir access z →
      recurse folder z = some res → AllGranted b dir access res.2)
    (hz : AllGranted b dir access z)
    (h : CreateZip.addFiles (b.served dir.path) writes (zipRequest dir access info filter) recurse
      folder files z = some res) : AllGranted b dir access res.2 := by
  induction files generalizing z with
  | nil =>
    cases h
    exact hz
  | cons file files ih =>
    have hrest : files ⊆ all := fun other hother => hsub (List.mem_cons_of_mem file hother)
    unfold CreateZip.addFiles at h
    split at h
    · exact ih hrest hz h
    · next entry hentry =>
        split at h
        · next hmay =>
            obtain ⟨hgranted, hnext⟩ :=
              hfolder.added hlinks htoken hfiles (hsub List.mem_cons_self) hentry hmay
            generalize hadd : CreateZip.addEntry (b.served dir.path) writes folder file entry z =
              added at h
            obtain ⟨rc, z₁⟩ := added
            have hz₁ := addEntry_granted hz hgranted hadd
            cases rc with
            | false =>
              cases h
              exact hz₁
            | true =>
              dsimp only at h
              rw [if_pos rfl] at h
              split at h
              · next henters =>
                  obtain ⟨⟨rc₂, z₂⟩, hcall, hrest'⟩ := Option.bind_eq_some_iff.mp h
                  have hdir := (Bool.and_eq_true_iff.mp henters).1
                  have hz₂ := hrecurse _ _ _ (hnext hdir) hz₁ hcall
                  cases rc₂ with
                  | true => exact ih hrest hz₂ hrest'
                  | false =>
                    cases hrest'
                    exact hz₂
              · exact ih hrest hz₁ h
        · exact ih hrest hz h

/-- Induction on the depth of the calls. -/
theorem addDir_granted {fuel : Nat} {z : ZipArchive} {res : Bool × ZipArchive}
    (hfolder : OwnFolder b dir folder) (hlinks : LinksChecked b access)
    (htoken : access.tokenAuthentication = true) (hz : AllGranted b dir access z)
    (h : CreateZip.addDir (b.served dir.path) writes (zipRequest dir access info filter) fuel folder
      z = some res) : AllGranted b dir access res.2 := by
  induction fuel generalizing folder z res with
  | zero => cases h
  | succ fuel ih =>
    unfold CreateZip.addDir at h
    dsimp only at h
    split at h
    · cases h
      exact hz
    · next files hfiles =>
        have hz' : AllGranted b dir access { z with calls := z.calls ++ [folder] } := hz
        exact addFiles_granted hfolder hlinks htoken hfiles (List.Subset.refl files)
          (fun _ _ _ hown hz hcall => ih hown hz hcall) hz' h

theorem getLast_below (path : Bytes) (hne : name ≠ []) :
    (below path name).getLast? = name.getLast? := by
  unfold below
  rw [List.getLast?_append, List.getLast?_cons, List.getLast?_eq_some_getLast hne]
  rfl

theorem getLast_path (dir : BackupDir) : dir.path.getLast? ≠ some slash := by
  unfold BackupDir.path
  rw [getLast_below _ dir.noSep.1]
  exact dir.noSep.2

theorem trimSep_withRel {base rel : Bytes} (hbase : base.getLast? ≠ some slash)
    (h : below base rel = below path []) : trimSep (withRel base rel) = path := by
  unfold withRel
  by_cases hnil : rel = []
  · subst hnil
    rw [if_pos rfl, List.append_nil]
    unfold trimSep
    rw [if_neg hbase]
    exact List.append_cancel_right h
  · rw [if_neg hnil]
    change trimSep (below base rel) = path
    rw [h]
    unfold trimSep below
    rw [List.getLast?_concat, if_pos rfl, List.dropLast_concat]

theorem cut_trimSep {rel : Bytes} (h : nul ∈ rel) (more : Bytes) :
    b.walkPath dir.path (trimSep (withRel dir.path rel) ++ more) =
      b.walkPath dir.path (trimSep (withRel dir.path rel)) := by
  have htrim : ∃ rel', nul ∈ rel' ∧ trimSep (withRel dir.path rel) = dir.path ++ slash :: rel' := by
    rw [withRel_eq_below (List.ne_nil_of_mem h)]
    unfold trimSep
    rw [getLast_below _ (List.ne_nil_of_mem h)]
    split
    · next hlast =>
        obtain ⟨front, rfl⟩ := List.getLast?_eq_some_iff.mp hlast
        refine ⟨front, ?_, ?_⟩
        · exact (List.mem_append.mp h).resolve_right (by decide)
        · unfold below
          rw [← List.cons_append, ← List.append_assoc, List.dropLast_concat]
    · exact ⟨rel, h, rfl⟩
  obtain ⟨rel', hnul, heq⟩ := htrim
  rw [heq, List.append_assoc, List.cons_append]
  unfold walkPath
  rw [rest_append, rest_append, Option.bind_some, Option.bind_some]
  unfold pathSteps
  rw [cStr_append_of_mem hnul]

theorem Reached.ownFolder (h : Reached b dir info) (skipSpecial : Bool) :
    OwnFolder b dir
      { archivefoldername := [], foldername := trimSep (fullPath dir info)
        hashfoldername := trimSep (fullMetadataPath dir info), skipSpecial } := by
  cases h with
  | opened place h =>
    obtain ⟨path, hnamed, hrel⟩ := h.path
    obtain ⟨hashesPath, hhashes, hhashesRel⟩ := h.metadata
    refine .opened place ?_ ?_ h.node
    · change Says dir.path (trimSep (withRel dir.path info.relPath)) place
      rwa [trimSep_withRel (getLast_path dir) hrel]
    · change Says dir.path (trimSep (withRel dir.hashesPath info.relMetadataPath)) _
      have hlast : dir.hashesPath.getLast? ≠ some slash := by
        unfold BackupDir.hashesPath
        rw [getLast_below _ (by decide)]
        decide
      rwa [trimSep_withRel hlast hhashesRel]
  | cut h => exact .cut (cut_trimSep h)
  | file path name h hname hfile =>
    refine .noDir ?_
    change b.stat dir.path (trimSep (fullPath dir info)) ≠ some .dir
    unfold trimSep
    rw [if_neg, h]
    · rwa [h] at hfile
    · rw [h, getLast_below _ hname.1]
      exact fun hlast => hname.2.2.1 (List.mem_of_getLast? hlast)

theorem zipdl_granted {uPath : Bytes} {fuel : Nat} {res : Bool × ZipArchive}
    (hlinks : LinksChecked b access) (htoken : access.tokenAuthentication = true)
    (h : zipdl (b.served dir.path) dir access writes fuel uPath filter = some res)
    {sent : SentFile} (hsent : sent ∈ res.2.sent) :
    FileGranted b dir access sent.entry.filename ∧
      DirsGranted b access [] (namedIn (tokenize uPath [slash])) := by
  unfold zipdl at h
  dsimp only at h
  cases haccess : (getMetadataPathWithTokens (b.served dir.path) dir access uPath).canAccessPath with
  | false =>
    rw [haccess, htoken, Bool.not_false, Bool.and_self, if_pos rfl] at h
    cases h
    cases hsent
  | true =>
    rw [haccess, Bool.not_true, Bool.and_false, if_neg (by decide)] at h
    obtain ⟨hdirs, hreached⟩ := (opened_start b dir).reached htoken haccess
    have hempty : AllGranted b dir access ⟨[], [], []⟩ := nofun
    have hgranted := addDir_granted (hreached.ownFolder _) hlinks htoken hempty h
    exact ⟨hgranted sent hsent, hdirs⟩

end Zip

section Downloads

variable {b : BackupTree} {dir : BackupDir} {access : TokenAccess} {place q : List Bytes}
  {path name uPath : Bytes}

/-- What a request with tokens should give out only: a file to which its own metadata grants access, over
directories whose metadata does. -/
def Permitted (b : BackupTree) (dir : BackupDir) (access : TokenAccess) (uPath path : Bytes) : Prop :=
  ∀ q, b.walkPath dir.path path = some q → b.node q = some .file →
    isGranted access (b.ownMetadata q) = true ∧
      DirsGranted b access [] (namedIn (tokenize uPath [slash]))

/-- If the entry that is asked for is a link, or a name that ends early, and its own metadata grants
access, then that of the file that it leads to does, too. -/
def EntryHarmless (b : BackupTree) (access : TokenAccess) (uPath : Bytes) : Prop :=
  ∀ name above q, Checked b access [] (tokenize uPath [slash]) name above q →
    (nul ∈ name ∨ ∃ ups body, b.node (name :: above) = some (.link ups body)) →
      isGranted access (b.ownMetadata q) = true

theorem requestedEntry_name {components above : List Bytes}
    (h : requestedEntry place components = some (name, above)) (hnul : nul ∉ name) :
    IsName name := by
  fun_induction requestedEntry place components with
  | case1 => cases h
  | case2 place component components hvalid name' hlast =>
    have hname := (Prod.mk.inj (Option.some.inj h)).1
    rw [← hname] at hnul ⊢
    exact (validPathComponent_name hvalid).2.2 hnul
  | case3 place component components hvalid name' hmore ih => exact ih h
  | case4 place component components hinvalid ih => exact ih h

theorem filesdl_eq_some (htoken : access.tokenAuthentication = true) (hfile : b.node q = some .file) :
    (∃ path, filesdl (b.served dir.path) dir access uPath = some path ∧
        b.walkPath dir.path path = some q) ↔
      Sends b dir access (getMetadataPathWithTokens (b.served dir.path) dir access uPath) q := by
  unfold filesdl Sends
  rw [htoken]
  dsimp only
  generalize getMetadataPathWithTokens (b.served dir.path) dir access uPath = info
  cases info.canAccessPath with
  | false => simp
  | true =>
    rw [Bool.not_true, Bool.and_false, if_neg (by decide), Bool.false_or]
    cases isGranted access
        ((b.served dir.path).readMetadata (fullMetadataPath dir info)) with
    | false => simp
    | true =>
      rw [if_pos rfl]
      unfold sendFile
      constructor
      · rintro ⟨path, hsent, hwalk⟩
        split at hsent
        · cases hsent
          exact ⟨rfl, rfl, hwalk, hfile⟩
        · cases hsent
      · rintro ⟨-, -, hwalk, -⟩
        refine ⟨_, if_pos (decide_eq_true ?_), hwalk⟩
        unfold stat
        rw [hwalk]
        exact hfile

theorem filesdl_permitted_iff (htoken : access.tokenAuthentication = true) :
    (∀ path, filesdl (b.served dir.path) dir access uPath = some path →
        Permitted b dir access uPath path) ↔ EntryHarmless b access uPath := by
  have hopened := opened_start b dir
  constructor
  · intro hpermitted name above q hchecked _
    have hsends := (hopened.sends_iff htoken).mpr ⟨name, above, hchecked⟩
    obtain ⟨path, hsent, hwalk⟩ := (filesdl_eq_some htoken hchecked.file).mpr hsends
    exact (hpermitted path hsent q hwalk hchecked.file).1
  · intro hharmless path hsent q hwalk hfile
    have hsends := (filesdl_eq_some htoken hfile).mp ⟨path, hsent, hwalk⟩
    refine ⟨?_, (hopened.reached htoken hsends.1).1⟩
    obtain ⟨name, above, hchecked⟩ := (hopened.sends_iff htoken).mp hsends
    by_cases hkind : nul ∈ name ∨ ∃ ups body, b.node (name :: above) = some (.link ups body)
    · exact hharmless name above q hchecked hkind
    · obtain ⟨hnul, hlink⟩ := not_or.mp hkind
      have hname := requestedEntry_name hchecked.entry hnul
      rw [entryWalk_self hname (fun ups body hbody => hlink ⟨ups, body, hbody⟩) hchecked.walk,
        ownMetadata_cons hname]
      exact hchecked.metadata

end Downloads

section Sample

/-- `secret` -/
def secret : Bytes := [115, 101, 99, 114, 101, 116]

/-- `public` -/
def publicLink : Bytes := [112, 117, 98, 108, 105, 99]

def sampleNode : List Bytes → Option BackupNode
  | [] => some .dir
  | [name] =>
    if name = hashes then some .dir
    else if name = secret then some .file
    else if name = publicLink then some (.link 0 secret)
    else none
  | [name, dir] =>
    if dir = hashes ∧ (name = secret ∨ name = publicLink) then some .file else none
  | _ => none

def sampleMetadata (secretPermissions : Bytes) : List Bytes → Option FileMetadata
  | [name, _] => if name = secret then some ⟨secretPermissions⟩ else some ⟨[0, 5]⟩
  | _ => none

def sampleEntries : List Bytes → List Bytes
  | [] => [hashes, secret, publicLink]
  | [name] => if name = hashes then [secret, publicLink] else []
  | _ => []

theorem sampleNode_cases {place : List Bytes} {node : BackupNode} (h : sampleNode place = some node) :
    place = [] ∧ node = .dir ∨ place = [hashes] ∧ node = .dir ∨ place = [secret] ∧ node = .file ∨
      place = [publicLink] ∧ node = .link 0 secret ∨ place = [secret, hashes] ∧ node = .file ∨
        place = [publicLink, hashes] ∧ node = .file := by
  unfold sampleNode at h
  split at h
  · simp_all
  · split at h
    · simp_all
    · split at h
      · simp_all
      · split at h
        · simp_all
        · cases h
  · split at h
    · next hboth =>
        obtain ⟨rfl, rfl | rfl⟩ := hboth
        · simp_all
        · simp_all
    · cases h
  · cases h

theorem sampleNode_listed (name : Bytes) (place : List Bytes) :
    name ∈ sampleEntries place ↔ sampleNode (name :: place) ≠ none := by
  cases place with
  | nil =>
    unfold sampleEntries sampleNode
    simp only [List.mem_cons, List.not_mem_nil, or_false, ne_eq]
    split_ifs with h₁ h₂ h₃ <;> simp [*]
  | cons first place =>
    cases place with
    | nil =>
      unfold sampleEntries sampleNode
      by_cases hfirst : first = hashes
      · simp [hfirst, or_iff_not_imp_left]
      · simp [hfirst]
    | cons second place => simp [sampleEntries, sampleNode]

def sampleTree (secretPermissions : Bytes) : BackupTree where
  node := sampleNode
  metadata := sampleMetadata secretPermissions
  entries := sampleEntries
  root := rfl
  parent := by
    intro name place h
    obtain ⟨node, hnode⟩ := Option.ne_none_iff_exists'.mp h
    rcases sampleNode_cases hnode with ⟨hplace, -⟩ | ⟨hplace, -⟩ | ⟨hplace, -⟩ | ⟨hplace, -⟩ |
      ⟨hplace, -⟩ | ⟨hplace, -⟩ <;> cases hplace <;> rfl
  listed := sampleNode_listed
  names := by
    intro name place h
    obtain ⟨node, hnode⟩ := Option.ne_none_iff_exists'.mp h
    rcases sampleNode_cases hnode with ⟨hplace, -⟩ | ⟨hplace, -⟩ | ⟨hplace, -⟩ | ⟨hplace, -⟩ |
      ⟨hplace, -⟩ | ⟨hplace, -⟩ <;> cases hplace <;> decide
  links := by
    intro place ups body h
    rcases sampleNode_cases h with ⟨-, hnode⟩ | ⟨-, hnode⟩ | ⟨-, hnode⟩ | ⟨-, hnode⟩ | ⟨-, hnode⟩ |
      ⟨-, hnode⟩ <;> cases hnode
    unfold Plain
    exact ⟨Nat.zero_le _, by decide, by decide⟩
  hashesNoLink := by
    intro place ups body h
    rcases sampleNode_cases h with ⟨-, hnode⟩ | ⟨-, hnode⟩ | ⟨-, hnode⟩ | ⟨hplace, -⟩ | ⟨-, hnode⟩ |
      ⟨-, hnode⟩
    · cases hnode
    · cases hnode
    · cases hnode
    · have hlast := congrArg List.getLast? hplace
      rw [List.getLast?_concat] at hlast
      exact absurd hlast (by decide)
    · cases hnode
    · cases hnode
  mirrored := by
    intro place h
    rcases sampleNode_cases h with ⟨hplace, -⟩ | ⟨hplace, -⟩ | ⟨-, hnode⟩ | ⟨-, hnode⟩ | ⟨-, hnode⟩ |
      ⟨-, hnode⟩
    · exact absurd hplace (by simp)
    · have hnil : place.map escapeMetadataFn = [] := List.append_cancel_right (hplace.trans rfl)
      rw [List.map_eq_nil_iff.mp hnil]
      rfl
    · cases hnode
    · cases hnode
    · cases hnode
    · cases hnode

def sampleDir : BackupDir := ⟨[98], [99], [100], by decide⟩

def sampleAccess : TokenAccess := ⟨true, [⟨5, [116]⟩], [[116]]⟩

theorem sampleTree_linksChecked : LinksChecked (sampleTree [0, 5]) sampleAccess := by
  have hbody : ∀ place ups body, sampleNode place = some (.link ups body) → body = secret := by
    intro place ups body h
    rcases sampleNode_cases h with ⟨-, hnode⟩ | ⟨-, hnode⟩ | ⟨-, hnode⟩ | ⟨-, hnode⟩ | ⟨-, hnode⟩ |
      ⟨-, hnode⟩ <;> cases hnode
    rfl
  constructor
  · intro place ups body hlink _ q hwalk _
    rw [hbody place ups body hlink] at hwalk
    have hplace : LinkTree.walk (sampleTree [0, 5]).tree maxLinks [] (pathSteps secret) =
        some [secret] := by decide +kernel
    cases hplace.symm.trans hwalk
    decide +kernel
  · intro place ups body hlink _ name hname
    rw [hbody place ups body hlink] at hname
    have hplace : bodyPlace secret = [secret] := by decide +kernel
    rw [hplace] at hname
    cases List.mem_singleton.mp hname
    decide

end Sample

end BackupAccess

end UrBackup
