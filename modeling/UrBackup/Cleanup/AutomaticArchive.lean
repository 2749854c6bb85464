import UrBackup.Backup.FileNames

/-! Automatic archiving: which backups the rules of the clients select. The table of the settings is
a function, the tables of the backups are lists. -/
namespace UrBackup
namespace AutomaticArchive

open FileNames

section Strings

def toUpper (c : UInt8) : UInt8 := if 97 ≤ c ∧ c ≤ 122 then c - 32 else c
def toLower (c : UInt8) : UInt8 := if 65 ≤ c ∧ c ≤ 90 then c + 32 else c

/-- What is done with strings that have other characters than ASCII. -/
structure WideStrings where
  strupperUtf8 : List UInt8 → List UInt8
  strlowerUtf8 : List UInt8 → List UInt8

def colon : UInt8 := 58
def backslash : UInt8 := 92

/-- `all` -/
def allVolumes : List UInt8 := [97, 108, 108]
/-- `SYSVOL` -/
def sysvol : List UInt8 := [83, 89, 83, 86, 79, 76]
/-- `ESP` -/
def esp : List UInt8 := [69, 83, 80]

variable (wide : WideStrings)

/-- The bytes in front of the first other one are changed before the whole string is. -/
def strupper (str : List UInt8) : List UInt8 :=
  if str.all (· < 128) then str.map toUpper
  else wide.strupperUtf8 ((str.takeWhile (· < 128)).map toUpper ++ str.dropWhile (· < 128))

def strlower (str : List UInt8) : List UInt8 :=
  if str.all (· < 128) then str.map toLower else wide.strlowerUtf8 str

def isBlank (c : UInt8) : Bool := c = 32 || c = 13 || c = 10 || c = 9

def trim (str : List UInt8) : List UInt8 :=
  ((str.dropWhile isBlank).reverse.dropWhile isBlank).reverse

def normalizeVolumeUpper (volume : List UInt8) : List UInt8 :=
  match volume with
  | [_] => strupper wide volume ++ [colon]
  | [_, c] => if c = colon then strupper wide volume else volume
  | [_, c, d] =>
    if c = colon ∧ (d = backslash ∨ d = slash) then (strupper wide volume).take 2 else volume
  | _ => volume

end Strings

/-- A rule: a row of `automatic_archival`. -/
structure Rule where
  id : Int
  nextArchival : Int
  interval : Int
  length : Int
  backupTypes : Nat
  archiveWindow : List UInt8
  letters : List UInt8
  deriving DecidableEq, Repr

/-- A row of `backups` or of `backup_images`. File backups have no letter. -/
structure Backup where
  id : Int
  clientid : Int
  letter : List UInt8
  complete : Bool
  archived : Bool
  archiveTimeout : Int
  incremental : Int
  backuptime : Int
  deriving DecidableEq, Repr

structure Db where
  clients : List Int
  setting : Int → String → List (List UInt8)
  archival : Int → List Rule
  nextId : Int
  backups : List Backup
  images : List Backup
  assocImages : Int → List Int

/-- The time when a rule is looked at, and whether the archive window of a rule is open then. -/
structure World extends WideStrings where
  timeAt : (clientid : Int) → Rule → Int
  isInArchiveWindow : List UInt8 → Int → Bool

def backupTypeIncrFile : Nat := 1
def backupTypeFullFile : Nat := 2
def backupTypeFullImage : Nat := 4
def backupTypeIncrImage : Nat := 8

/-- `true` -/
def trueValue : List UInt8 := [116, 114, 117, 101]

/-- The number that stands in a string of decimal digits, with a sign or not. -/
def watoi (str : List UInt8) : Int :=
  let digits (str : List UInt8) : Nat :=
    (str.takeWhile fun c => 48 ≤ c && c ≤ 57).foldl (fun n c => 10 * n + (c.toNat - 48)) 0
  match str with
  | 45 :: rest => -(digits rest : Int)
  | _ => digits str

section Backups

def letterTypes (letter : List UInt8) : Nat × Nat :=
  if letter = [] then (backupTypeIncrFile, backupTypeFullFile)
  else (backupTypeIncrImage, backupTypeFullImage)

def hasType (backupTypes : Nat) (letter : List UInt8) (b : Backup) : Bool :=
  let (typeIncr, typeFull) := letterTypes letter
  if backupTypes &&& typeFull ≠ 0 ∧ backupTypes &&& typeIncr ≠ 0 then true
  else if backupTypes &&& typeIncr ≠ 0 then b.incremental ≠ 0
  else if backupTypes &&& typeFull ≠ 0 then b.incremental = 0
  else true

def latest : List Backup → Option Backup
  | [] => none
  | b :: rows =>
    match latest rows with
    | none => some b
    | some b' => if b.backuptime < b'.backuptime then some b' else some b

/-- The latest backup that is complete and not archived, or `0`. An empty letter stands for file
backups. -/
def getNonArchivedBackup (db : Db) (backupTypes : Nat) (clientid : Int) (letter : List UInt8) : Int :=
  let rows := (if letter = [] then db.backups else db.images).filter fun b =>
    b.complete && !b.archived && b.clientid = clientid && hasType backupTypes letter b &&
      (letter = [] || b.letter = letter)
  match latest rows with
  | none => 0
  | some b => b.id

def archiveBackup (db : Db) (now backupid length : Int) (image : Bool) : Db :=
  let toarchive := backupid :: (if image then db.assocImages backupid else [])
  let archive (b : Backup) : Backup :=
    if b.id ∈ toarchive then
      { b with archived := true, archiveTimeout := if length = -1 then -1 else now + length } else b
  if image then { db with images := db.images.map archive }
  else { db with backups := db.backups.map archive }

def updateInterval (db : Db) (now archiveid interval : Int) : Db :=
  { db with
    archival := fun clientid => (db.archival clientid).map fun rule =>
      if rule.id = archiveid then
        { rule with nextArchival := now + (if 0 < interval then interval - 60 else interval) }
      else rule }

def Rule.same (r r' : Rule) : Bool :=
  r.interval = r'.interval && r.length = r'.length && r.backupTypes = r'.backupTypes &&
    r.archiveWindow = r'.archiveWindow && r.letters = r'.letters

/-- The rules of a client become copies of those of a group; a copy that was there already keeps
its next time. -/
def copyArchiveSettings (w : World) (db : Db) (sourceId clientid : Int) : Db :=
  let resAll := db.archival sourceId
  let copy (i : Nat) (r : Rule) : Rule :=
    let num := (resAll.filter fun r' => r'.same r && r'.id < r.id).length
    let nextArchival :=
      match ((db.archival clientid).filter (·.same r))[num]? with
      | some r' => if r'.nextArchival = 0 then w.timeAt clientid r else r'.nextArchival
      | none => r.nextArchival
    { r with id := db.nextId + i, nextArchival }
  { db with
    archival := fun c => if c = clientid then resAll.mapIdx copy else db.archival c
    nextId := db.nextId + resAll.length }

end Backups

section Rules

variable (w : World)

/-- The loop over the letters from a place on, of which the next `left` ones are in front of its
bound. There is no result when the loop goes behind the end of the letters. -/
def fixLetters : (left : Nat) → List (List UInt8) → Option (List (List UInt8))
  | 0, letters => some letters
  | _ + 1, [] => none
  | left + 1, letter :: letters =>
    if letter = [] then fixLetters (left + 1) letters
    else (fixLetters left letters).map (normalizeVolumeUpper w.toWideStrings letter :: ·)

def imageLetters (db : Db) (clientid : Int) : List (List UInt8) :=
  (((db.images.filter fun b => b.complete && !b.archived && b.clientid = clientid).map
    (·.letter)).dedup).filter fun letter => letter ≠ [] && letter ≠ sysvol && letter ≠ esp

/-- A rule that is due, as it is handled: how many rows there are for the setting that says that
the rules were copied, the volumes of the client, and the letters with which a backup is looked
for. -/
structure Visit where
  clientid : Int
  rule : Rule
  copied : Nat
  volumes : List (List UInt8)
  calls : Option (List (List UInt8))

def Rule.image (rule : Rule) : Bool :=
  rule.backupTypes &&& (backupTypeFullImage ||| backupTypeIncrImage) ≠ 0

def Rule.all (rule : Rule) : Bool := strlower w.toWideStrings (trim rule.letters) = allVolumes

def separators : List UInt8 := [44, 59]

def ruleLetters (rule : Rule) (copied : Nat) (volumes : List (List UInt8)) :
    Option (List (List UInt8)) :=
  if rule.image then
    if rule.all w then some volumes else fixLetters w copied (tokenize rule.letters separators)
  else some [[]]

def archiveLetter (clientid : Int) (rule : Rule) (db : Db) (letter : List UInt8) : Db :=
  let backupid := getNonArchivedBackup db rule.backupTypes clientid letter
  if backupid ≠ 0 then
    let now := w.timeAt clientid rule
    updateInterval (archiveBackup db now backupid rule.length rule.image) now rule.id rule.interval
  else db

def due (clientid : Int) (rule : Rule) : Bool :=
  let currTime := w.timeAt clientid rule
  rule.nextArchival < currTime &&
    (rule.archiveWindow = [] || w.isInArchiveWindow rule.archiveWindow currTime)

/-- The loop over the rules of a client. It stops where it goes behind the end of the letters. -/
def archiveRules (clientid : Int) (copied : Nat) : Db → List Rule → List Visit × Option Db
  | db, [] => ([], some db)
  | db, rule :: rules =>
    if due w clientid rule then
      let volumes := imageLetters db clientid
      let calls := ruleLetters w rule copied volumes
      let visit : Visit := { clientid, rule, copied, volumes, calls }
      match calls with
      | none => ([visit], none)
      | some letters =>
        let run := archiveRules clientid copied
          (letters.foldl (archiveLetter w clientid rule) db) rules
        (visit :: run.1, run.2)
    else archiveRules clientid copied db rules

def ruleClient (db : Db) (clientid : Int) : Int :=
  let groupId := match db.setting clientid "group_id" with
    | [] => 0
    | value :: _ => -watoi value
  if (db.setting clientid "overwrite").head? = some trueValue ∧
      (db.setting clientid "overwrite_archive_settings").head? = some trueValue then clientid
  else groupId

def archiveClient (db : Db) (clientid : Int) : List Visit × Option Db :=
  let res := db.setting clientid "archive_settings_copied"
  let db := if ruleClient db clientid ≤ 0 ∧ res.head? ≠ some trueValue then
    copyArchiveSettings w db (ruleClient db clientid) clientid else db
  archiveRules w clientid res.length db (db.archival clientid)

def archiveClients : Db → List Int → List Visit × Option Db
  | db, [] => ([], some db)
  | db, clientid :: clients =>
    match archiveClient w db clientid with
    | (visits, none) => (visits, none)
    | (visits, some db) =>
      let run := archiveClients db clients
      (visits ++ run.1, run.2)

def archiveBackups (db : Db) : List Visit × Option Db := archiveClients w db db.clients

end Rules

section Listed

variable {w : World}

def Visit.listed (w : World) (v : Visit) : List (List UInt8) :=
  if v.rule.image then
    if v.rule.all w then v.volumes
    else ((tokenize v.rule.letters separators).filter (· ≠ [])).map
      (normalizeVolumeUpper w.toWideStrings)
  else [[]]

/-- A rule is handled as it says: with the name of each volume once, and for images with no empty
name. -/
def Visit.Right (w : World) (v : Visit) : Prop :=
  v.calls = some (v.listed w) ∧ (v.rule.image = true → [] ∉ v.listed w)

/-- The letters behind the first `n` that are not empty. -/
def behind : (n : Nat) → List (List UInt8) → List (List UInt8)
  | 0, letters => letters
  | _ + 1, [] => []
  | n + 1, letter :: letters =>
    if letter = [] then behind (n + 1) letters else behind n letters

/-- There are as many letters as rows, and those behind them are as they should be. -/
def LettersFit (w : World) (copied : Nat) (letters : List (List UInt8)) : Prop :=
  copied ≤ (letters.filter (· ≠ [])).length ∧
    (∀ letter ∈ behind copied letters,
      letter ≠ [] ∧ normalizeVolumeUpper w.toWideStrings letter = letter) ∧
    ∀ letter ∈ letters, letter ≠ [] → normalizeVolumeUpper w.toWideStrings letter ≠ []

def Visit.Fits (w : World) (v : Visit) : Prop :=
  v.rule.image = true → v.rule.all w = false →
    LettersFit w v.copied (tokenize v.rule.letters separators)

theorem eq_map_filter_iff (f : List UInt8 → List UInt8) (letters : List (List UInt8)) :
    letters = (letters.filter (· ≠ [])).map f ↔ ∀ letter ∈ letters, letter ≠ [] ∧ f letter = letter := by
  constructor
  · intro heq
    have hlen : (letters.filter (· ≠ [])).length = letters.length := by
      conv_rhs => rw [heq]
      rw [List.length_map]
    have hall := List.length_filter_eq_length_iff.mp hlen
    have hfilter : letters.filter (· ≠ []) = letters := List.filter_eq_self.mpr hall
    rw [hfilter] at heq
    intro letter hletter
    have hself : letters.map f = letters.map id := by rw [← heq, List.map_id]
    exact ⟨by simpa using hall letter hletter, List.map_inj_left.mp hself letter hletter⟩
  · intro hall
    have hfilter : letters.filter (· ≠ []) = letters :=
      List.filter_eq_self.mpr fun letter hletter => by simpa using (hall letter hletter).1
    have hself : letters.map f = letters.map id :=
      List.map_inj_left.mpr fun letter hletter => (hall letter hletter).2
    rw [hfilter, hself, List.map_id]

/-- What the loop makes of the letters. Induction on the letters. -/
theorem fixLetters_eq_iff (copied : Nat) (letters : List (List UInt8)) :
    fixLetters w copied letters =
        some ((letters.filter (· ≠ [])).map (normalizeVolumeUpper w.toWideStrings)) ↔
      copied ≤ (letters.filter (· ≠ [])).length ∧ ∀ letter ∈ behind copied letters,
        letter ≠ [] ∧ normalizeVolumeUpper w.toWideStrings letter = letter := by
  induction letters generalizing copied with
  | nil =>
    cases copied with
    | zero => simp [fixLetters, behind]
    | succ copied => simp [fixLetters]
  | cons letter letters ih =>
    cases copied with
    | zero =>
      rw [fixLetters, Option.some.injEq, behind, eq_map_filter_iff]
      exact (and_iff_right (Nat.zero_le _)).symm
    | succ copied =>
      by_cases hempty : letter = []
      · have hfilter : (letter :: letters).filter (· ≠ []) = letters.filter (· ≠ []) := by
          simp [hempty]
        rw [hfilter, fixLetters, if_pos hempty, behind, if_pos hempty]
        exact ih (copied + 1)
      · have hfilter : (letter :: letters).filter (· ≠ []) =
            letter :: letters.filter (· ≠ []) := by simp [hempty]
        rw [hfilter, fixLetters, if_neg hempty, behind, if_neg hempty, List.map_cons,
          List.length_cons, Nat.succ_le_succ_iff, ← ih copied]
        simp

theorem nil_notMem_listed_iff (letters : List (List UInt8)) :
    [] ∉ (letters.filter (· ≠ [])).map (normalizeVolumeUpper w.toWideStrings) ↔
      ∀ letter ∈ letters, letter ≠ [] → normalizeVolumeUpper w.toWideStrings letter ≠ [] := by
  simp only [List.mem_map, List.mem_filter, not_exists, not_and, decide_eq_true_eq, ne_eq, and_imp]

/-- A visit is made as the model says, with the volumes of the client. -/
structure Visit.Made (w : World) (v : Visit) : Prop where
  calls : v.calls = ruleLetters w v.rule v.copied v.volumes
  volumes : [] ∉ v.volumes

theorem Visit.Made.right_iff {v : Visit} (h : v.Made w) : v.Right w ↔ v.Fits w := by
  unfold Visit.Right Visit.Fits
  rw [h.calls, ruleLetters, Visit.listed]
  by_cases himage : v.rule.image = true
  · rw [if_pos himage, if_pos himage]
    by_cases hall : v.rule.all w = true
    · simp [hall, h.volumes]
    · rw [if_neg hall, if_neg hall, fixLetters_eq_iff, nil_notMem_listed_iff, LettersFit]
      simp [himage, hall, and_assoc]
  · simp [himage]

theorem nil_notMem_imageLetters (db : Db) (clientid : Int) : [] ∉ imageLetters db clientid := by
  simp [imageLetters]

theorem archiveRules_made (clientid : Int) (copied : Nat) (db : Db) (rules : List Rule) :
    ∀ v ∈ (archiveRules w clientid copied db rules).1, v.Made w := by
  induction rules generalizing db with
  | nil => simp [archiveRules]
  | cons rule rules ih =>
    unfold archiveRules
    split
    · have hmade : (Visit.mk clientid rule copied (imageLetters db clientid)
          (ruleLetters w rule copied (imageLetters db clientid))).Made w :=
        ⟨rfl, nil_notMem_imageLetters db clientid⟩
      simp only
      split
      · rename_i hcalls
        exact List.forall_mem_singleton.mpr (hcalls ▸ hmade)
      · rename_i letters hcalls
        exact List.forall_mem_cons.mpr ⟨hcalls ▸ hmade, ih _⟩
    · exact ih db

theorem archiveClients_made (db : Db) (clients : List Int) :
    ∀ v ∈ (archiveClients w db clients).1, v.Made w := by
  induction clients generalizing db with
  | nil => simp [archiveClients]
  | cons clientid clients ih =>
    have hclient : ∀ v ∈ (archiveClient w db clientid).1, v.Made w :=
      archiveRules_made clientid _ _ _
    unfold archiveClients
    split
    · rename_i visits hrun
      rwa [hrun] at hclient
    · rename_i visits db' hrun
      rw [hrun] at hclient
      exact List.forall_mem_append.mpr ⟨hclient, ih db'⟩

/-- A client with its own settings, copied already, and a rule for the images of two volumes. -/
def twoVolumes : Db where
  clients := [1]
  setting := fun _ key => if key = "group_id" then [] else [trueValue]
  archival := fun _ => [⟨1, 0, 60, -1, 12, [], [67, 59, 68]⟩]
  nextId := 2
  backups := []
  images := []
  assocImages := fun _ => []

def alwaysDue : World where
  strupperUtf8 := id
  strlowerUtf8 := id
  timeAt := fun _ _ => 1
  isInArchiveWindow := fun _ _ => true

end Listed

end AutomaticArchive
end UrBackup
