import UrBackup.Web.BackupAccess

/-! The download of a folder of a backup as a ZIP file. Links to directories outside of the folder are
followed, and so the same directory can come again below itself. It ends all the same, because the
names in the archive get longer with each directory and the ZIP writer takes no name of more than
65535 bytes. -/
namespace UrBackup

open FileNames BackupAccess

/-- The arguments that are the same in all calls. -/
structure ZipRequest where
  folderbase : Bytes
  startFoldername : Bytes
  hashfolderbase : Bytes
  filter : Bytes
  tokenAuthentication : Bool
  backupTokens : List SToken
  tokens : List Bytes

/-- The arguments of a call for one folder. -/
structure ZipFolder where
  archivefoldername : Bytes
  foldername : Bytes
  hashfoldername : Bytes
  skipSpecial : Bool
  deriving DecidableEq

/-- An entry after links are resolved. -/
structure ZipEntry where
  archivename : Bytes
  filename : Bytes
  metadataname : Bytes
  nextHashfoldername : Bytes
  isDirLink : Bool
  deriving DecidableEq

/-- A file whose content was sent, and the folder that it was found in. -/
structure SentFile where
  folder : ZipFolder
  file : DirEntry
  entry : ZipEntry
  deriving DecidableEq

/-- What was added to the archive, the files whose content was sent, and the folders of the calls. -/
structure ZipArchive where
  names : List Bytes
  sent : List SentFile
  calls : List ZipFolder
  deriving DecidableEq

namespace ZipArchive

def uint16Max : Nat := 65535

def colon : UInt8 := 58

/-- `mz_zip_writer_validate_archive_name` -/
def validateArchiveName (name : Bytes) : Bool :=
  decide (name.head? ≠ some slash) && name.all fun c => c ≠ FileList.backslash && c ≠ colon

def takesName (archivename : Bytes) : Bool :=
  validateArchiveName (cStr archivename) && decide ((cStr archivename).length ≤ uint16Max)

end ZipArchive

namespace CreateZip

section Definitions

variable (os : ServedFiles)
  /- Whatever else the ZIP writer and the connection can fail of. -/
  (writes : ZipArchive → Bytes → Bool) (r : ZipRequest)

def addMem (archivename : Bytes) (z : ZipArchive) : Bool × ZipArchive :=
  if ZipArchive.takesName archivename && writes z archivename then
    (true, { z with names := z.names ++ [archivename] })
  else (false, z)

def addCFile (file : SentFile) (z : ZipArchive) : Bool × ZipArchive :=
  if ZipArchive.takesName file.entry.archivename then
    if writes z file.entry.archivename then
      (true, { z with names := z.names ++ [file.entry.archivename], sent := z.sent ++ [file] })
    else (false, { z with sent := z.sent ++ [file] })
  else (false, z)

def isSymlink (path : Bytes) : Bool := ((os.getFileType path).map FileType.symlink).getD false

def archivename (folder : ZipFolder) (file : DirEntry) : Bytes :=
  folder.archivefoldername ++ (if folder.archivefoldername = [] then [] else [slash]) ++ file.name

def followLink (entry : ZipEntry) : Option ZipEntry :=
  match os.getSymlinkTarget entry.filename with
  | none => none
  | some target =>
    let filename := below r.folderbase (stripUp target)
    if (os.getFileType filename).isNone then none
    else
      let metadata := below r.hashfolderbase (stripUp target)
      some <|
        if entry.isDirLink then
          { entry with
            filename
            metadataname := below metadata metadataDirFn
            nextHashfoldername := metadata }
        else { entry with filename, metadataname := metadata }

/-- The entry of a file, if it is not left out before its metadata is looked at. -/
def zipEntry (folder : ZipFolder) (file : DirEntry) : Option ZipEntry :=
  let metadataname :=
    if r.hashfolderbase = [] then [] else below folder.hashfoldername (escapeMetadataFn file.name)
  let entry : ZipEntry :=
    { archivename := archivename folder file
      filename := below folder.foldername file.name
      metadataname
      nextHashfoldername := metadataname
      isDirLink := false }
  if folder.skipSpecial && (file.name = hashes || file.name = userViews ||
      symlinkPrefix.isPrefixOf file.name) then none
  else if r.filter ≠ [] ∧ entry.archivename ≠ r.filter then none
  else if file.isdir ∧ metadataname ≠ [] then
    if os.directoryExists metadataname then
      some { entry with metadataname := below metadataname metadataDirFn }
    else followLink os r { entry with isDirLink := true }
  else if metadataname = [] ∧ isSymlink os entry.filename then none
  else if file.isdir = false ∧ isSymlink os entry.filename then followLink os r entry
  else some entry

def mayAccess (entry : ZipEntry) : Bool :=
  if r.tokenAuthentication then
    match os.readMetadata entry.metadataname with
    | some metadata => checkFileToken r.backupTokens r.tokens metadata
    | none => false
  else true

def addEntry (folder : ZipFolder) (file : DirEntry) (entry : ZipEntry) (z : ZipArchive) :
    Bool × ZipArchive :=
  if file.isdir then addMem writes (entry.archivename ++ [slash]) z
  else if os.openFile entry.filename then addCFile writes ⟨folder, file, entry⟩ z
  else (false, z)

/-- A directory is not entered over a link if it is one that the link is in, or if it is in the folder
where the download has started. -/
def entersDir (folder : ZipFolder) (file : DirEntry) (entry : ZipEntry) : Bool :=
  let symlinkLoop := entry.isDirLink &&
    (entry.filename ++ [slash]).isPrefixOf (below folder.foldername file.name ++ [slash])
  let symlinkOutside :=
    !(entry.isDirLink && (r.startFoldername ++ [slash]).isPrefixOf (entry.filename ++ [slash]))
  !symlinkLoop && symlinkOutside

def nextFolder (entry : ZipEntry) : ZipFolder where
  archivefoldername := entry.archivename
  foldername := entry.filename
  hashfoldername := entry.nextHashfoldername
  skipSpecial := false

def addFiles (recurse : ZipFolder → ZipArchive → Option (Bool × ZipArchive)) (folder : ZipFolder) :
    List DirEntry → ZipArchive → Option (Bool × ZipArchive)
  | [], z => some (true, z)
  | file :: files, z =>
    match zipEntry os r folder file with
    | none => addFiles recurse folder files z
    | some entry =>
      if mayAccess os r entry then
        let (rc, z) := addEntry os writes folder file entry z
        if rc then
          if file.isdir && entersDir r folder file entry then
            (recurse (nextFolder entry) z).bind fun (b, z) =>
              if b then addFiles recurse folder files z else some (false, z)
          else addFiles recurse folder files z
        else some (false, z)
      else addFiles recurse folder files z

/-- `fuel` is the depth of the calls. -/
def addDir : (fuel : Nat) → ZipFolder → ZipArchive → Option (Bool × ZipArchive)
  | 0, _, _ => none
  | fuel + 1, folder, z =>
    let z := { z with calls := z.calls ++ [folder] }
    match os.getFiles folder.foldername with
    | none => some (false, z)
    | some files => addFiles os writes r (addDir fuel) folder files z

def createZipToOutput (fuel : Nat) (hashfoldername : Bytes) (skipHashes : Bool) :
    Option (Bool × ZipArchive) :=
  addDir os writes r fuel
    { archivefoldername := [], foldername := r.startFoldername, hashfoldername,
      skipSpecial := skipHashes } ⟨[], [], []⟩

end Definitions

section Ends

variable {os : ServedFiles} {writes : ZipArchive → Bytes → Bool} {r : ZipRequest}
  {folder : ZipFolder} {file : DirEntry} {entry : ZipEntry} {z z' : ZipArchive} {fuel : Nat}

theorem followLink_archivename {entry' : ZipEntry} (h : followLink os r entry = some entry') :
    entry'.archivename = entry.archivename := by
  unfold followLink at h
  split at h
  · cases h
  · dsimp only at h
    split at h
    · cases h
    · cases h
      split
      · rfl
      · rfl

theorem zipEntry_archivename (h : zipEntry os r folder file = some entry) :
    entry.archivename = archivename folder file := by
  unfold zipEntry at h
  generalize (if r.hashfolderbase = [] then [] else
    below folder.hashfoldername (escapeMetadataFn file.name)) = metadataname at h
  dsimp only at h
  split at h
  · cases h
  · split at h
    · cases h
    · split at h
      · split at h
        · cases h
          rfl
        · exact followLink_archivename h
      · split at h
        · cases h
        · split at h
          · exact followLink_archivename h
          · cases h
            rfl

theorem takesName_of_addEntry (hdir : file.isdir = true)
    (h : addEntry os writes folder file entry z = (true, z')) :
    ZipArchive.takesName (entry.archivename ++ [slash]) = true := by
  unfold addEntry at h
  rw [if_pos hdir] at h
  unfold addMem at h
  split at h
  · next hboth => exact (Bool.and_eq_true_iff.mp hboth).1
  · cases h

theorem addFiles_ends {recurse : ZipFolder → ZipArchive → Option (Bool × ZipArchive)}
    {files : List DirEntry} (hrecurse : ∀ file ∈ files, ∀ entry,
      zipEntry os r folder file = some entry →
        ZipArchive.takesName (entry.archivename ++ [slash]) = true →
          ∀ z, ∃ res, recurse (nextFolder entry) z = some res) :
    ∃ res, addFiles os writes r recurse folder files z = some res := by
  induction files generalizing z with
  | nil => exact ⟨_, rfl⟩
  | cons file files ih =>
    have hrest : ∀ z, ∃ res, addFiles os writes r recurse folder files z = some res :=
      fun z => ih fun other hother => hrecurse other (List.mem_cons_of_mem _ hother)
    unfold addFiles
    split
    · exact hrest z
    · next entry hentry =>
        split
        · generalize hadd : addEntry os writes folder file entry z = added
          obtain ⟨rc, z₁⟩ := added
          cases rc with
          | false => exact ⟨_, rfl⟩
          | true =>
            dsimp only
            rw [if_pos rfl]
            split
            · next henters =>
                have hdir := (Bool.and_eq_true_iff.mp henters).1
                obtain ⟨⟨b, z₂⟩, hcall⟩ := hrecurse file List.mem_cons_self entry hentry
                  (takesName_of_addEntry hdir hadd) z₁
                rw [hcall, Option.bind_some]
                cases b with
                | true => exact hrest z₂
                | false => exact ⟨_, rfl⟩
            · exact hrest z₁
        · exact hrest z

/-- The name of a folder in the archive is longer than that of the folder that it is in, and the ZIP
writer takes only short ones. -/
theorem archivename_length (hfolder : nul ∉ folder.archivefoldername)
    (hname : file.name ≠ [] ∧ nul ∉ file.name)
    (h : ZipArchive.takesName (archivename folder file ++ [slash]) = true) :
    nul ∉ archivename folder file ∧
      folder.archivefoldername.length < (archivename folder file).length ∧
        (archivename folder file).length < ZipArchive.uint16Max := by
  have hnul : nul ∉ archivename folder file := by
    unfold archivename
    intro hmem
    rcases List.mem_append.mp hmem with hmem | hmem
    · rcases List.mem_append.mp hmem with hmem | hmem
      · exact hfolder hmem
      · split at hmem
        · exact absurd hmem List.not_mem_nil
        · exact absurd (List.mem_singleton.mp hmem) (by decide)
    · exact hname.2 hmem
  refine ⟨hnul, ?_, ?_⟩
  · unfold archivename
    rw [List.length_append, List.length_append]
    have hpos := List.length_pos_iff.mpr hname.1
    omega
  · unfold ZipArchive.takesName at h
    have hlength := of_decide_eq_true (Bool.and_eq_true_iff.mp h).2
    rw [cStr_append hnul, List.length_append] at hlength
    have hslash : (cStr [slash]).length = 1 := rfl
    omega

/-- Induction on the depth of the calls, for which the length of the name is the measure. -/
theorem addDir_ends (hfolder : nul ∉ folder.archivefoldername)
    (hlength : folder.archivefoldername.length < ZipArchive.uint16Max)
    (hfuel : ZipArchive.uint16Max ≤ fuel + folder.archivefoldername.length) :
    ∃ res, addDir os writes r fuel folder z = some res := by
  induction fuel generalizing folder z with
  | zero => omega
  | succ fuel ih =>
    unfold addDir
    dsimp only
    split
    · exact ⟨_, rfl⟩
    · next files hfiles =>
        apply addFiles_ends
        intro file hfile entry hentry htakes z
        have hname := zipEntry_archivename hentry
        rw [hname] at htakes
        obtain ⟨hnul, hlonger, hshort⟩ :=
          archivename_length hfolder (os.names _ files hfiles file hfile) htakes
        apply ih
        · change nul ∉ entry.archivename
          rwa [hname]
        · change entry.archivename.length < _
          rwa [hname]
        · change _ ≤ fuel + entry.archivename.length
          rw [hname]
          omega

theorem addFiles_mono {recurse recurse' : ZipFolder → ZipArchive → Option (Bool × ZipArchive)}
    (hrecurse : ∀ folder z res, recurse folder z = some res → recurse' folder z = some res)
    {files : List DirEntry} {res : Bool × ZipArchive}
    (h : addFiles os writes r recurse folder files z = some res) :
    addFiles os writes r recurse' folder files z = some res := by
  induction files generalizing z with
  | nil => exact h
  | cons file files ih =>
    unfold addFiles at h ⊢
    split at h
    · exact ih h
    · next entry hentry =>
        by_cases hmay : mayAccess os r entry = true
        · rw [if_pos hmay] at h ⊢
          generalize addEntry os writes folder file entry z = added at h ⊢
          obtain ⟨rc, z₁⟩ := added
          cases rc with
          | false => exact h
          | true =>
            dsimp only at h ⊢
            rw [if_pos rfl] at h ⊢
            split at h
            · next henters =>
                obtain ⟨⟨b, z₂⟩, hcall, hrest⟩ := Option.bind_eq_some_iff.mp h
                rw [if_pos henters, hrecurse _ _ _ hcall, Option.bind_some]
                cases b with
                | true => exact ih hrest
                | false => exact hrest
            · next hstays =>
                rw [if_neg hstays]
                exact ih h
        · rw [if_neg hmay] at h ⊢
          exact ih h

theorem addDir_mono {fuel' : Nat} (hfuel : fuel ≤ fuel') {res : Bool × ZipArchive}
    (h : addDir os writes r fuel folder z = some res) :
    addDir os writes r fuel' folder z = some res := by
  induction fuel generalizing fuel' folder z res with
  | zero => cases h
  | succ fuel ih =>
    cases fuel' with
    | zero => omega
    | succ fuel' =>
      unfold addDir at h ⊢
      dsimp only at h ⊢
      split at h
      · exact h
      · exact addFiles_mono (fun _ _ _ hcall => ih (Nat.le_of_succ_le_succ hfuel) hcall) h

/-- Whatever links the backup has, there are finitely many calls, at most 65535 of them one below the
other. -/
theorem createZipToOutput_ends (os : ServedFiles) (writes : ZipArchive → Bytes → Bool) (r : ZipRequest)
    (hashfoldername : Bytes) (skipHashes : Bool) : ∃ res, ∀ fuel, ZipArchive.uint16Max ≤ fuel →
      createZipToOutput os writes r fuel hashfoldername skipHashes = some res := by
  obtain ⟨res, hres⟩ := @addDir_ends os writes r
    { archivefoldername := [], foldername := r.startFoldername, hashfoldername,
      skipSpecial := skipHashes } ⟨[], [], []⟩ ZipArchive.uint16Max List.not_mem_nil (Nat.zero_lt_succ 65534)
    (Nat.le_add_right _ _)
  exact ⟨res, fun fuel hfuel => addDir_mono hfuel hres⟩

end Ends

end CreateZip

end UrBackup
