import UrBackup.Lib.Decimal
import UrBackup.Lib.Shell

/-! The scripts behind a backup, which are given JSON objects on a command line. -/
namespace UrBackup

namespace Scripts

open Shell (apostrophe)

abbrev Text := List UInt8

def ascii (s : String) : Text := s.toUTF8.data.toList

section Json

def hexDigit (n : UInt8) : UInt8 := if n < 10 then 48 + n else 87 + n

def escapeChar (c : UInt8) : Text :=
  if c = 92 then [92, 92]
  else if c = 34 then [92, 34]
  else if c = 10 then [92, 110]
  else if c = 13 then [92, 114]
  else if c < 32 then [92, 117, 48, 48, hexDigit (c / 16), hexDigit (c % 16)]
  else [c]

def str (t : Text) : Text := 34 :: t.flatMap escapeChar ++ [34]

def array (data : List Text) : Text := 91 :: (data.intersperse [44]).flatten ++ [93]

/-- `stringify(true)`. The entries stand in the order of their keys. -/
def object (data : List (String × Text)) : Text :=
  123 :: ((data.map fun e => 34 :: ascii e.1 ++ 34 :: 58 :: 32 :: e.2).intersperse [44]).flatten ++
    [125]

def convert (i : Int) : Text :=
  if i < 0 then 45 :: Decimal.digits i.natAbs else Decimal.digits i.natAbs

end Json

/-- A time in UTC, as the database writes it. -/
structure TimeText where
  chars : Text
  plain : apostrophe ∉ chars

structure SBackupImageInfo where
  letter : Text
  path : Text
  incremental : Bool
  complete : Int
  clientId : Int
  backuptime : Int

/-- What the scripts depend on beside the images: the texts of times, whether the drives are in
order, whether the boot verification is disabled, and the ids of the backups and their logs. -/
structure PostBackup where
  backups : List SBackupImageInfo
  formatUnixtimeUTC : Int → TimeText
  integStatus : Bool
  isVBVDisabled : Bool
  virtualizationLogid : List Text
  backupIds : List Int

namespace PostBackup

variable (p : PostBackup)

def clientId : Int :=
  p.backups.foldl (fun clientId b =>
    if clientId = -1 then b.clientId else if clientId = b.clientId then clientId else -1) (-1)

/-- The time of the first image of a volume that has one, system partitions apart. -/
def timeStr : Text :=
  (p.backups.foldl (fun (backupTime, timeStr) b =>
    if backupTime = 0 ∧ b.letter ≠ ascii "SYSVOL" ∧ b.letter ≠ ascii "ESP" then
      (b.backuptime, (p.formatUnixtimeUTC b.backuptime).chars)
    else (backupTime, timeStr)) (0, [])).2

def completeStatus : Bool :=
  p.backups ≠ [] && p.backups.all fun b => b.complete % 2 = 1

def backupDetail (b : SBackupImageInfo) : Text :=
  object [("backup_type", str (ascii (if b.incremental then "Incremental" else "Full"))),
    ("drive", str b.letter), ("path", str b.path)]

def jsonizeRetrievedData : Text :=
  object [("backups", array (p.backups.map backupDetail)),
    ("clientId", str (convert p.clientId)),
    ("integrity", str (ascii (if p.completeStatus ∧ p.integStatus then "Good" else "Bad"))),
    ("recoveryID", str p.timeStr),
    ("status", str (ascii (if p.completeStatus then "Success" else "Failed")))]

/-- The folder below `/storage/idrivebmr/`, if something is below it. -/
def host (path : Text) : Text :=
  let rest := path.drop (ascii "/storage/idrivebmr/").length
  if 47 ∈ rest then rest.takeWhile (· ≠ 47) else []

def validated : Bool := p.backups ≠ [] && p.backups.all fun b => b.complete = 3

def virtData : Text :=
  if p.validated then
    object [("backupIds", array (p.backupIds.map convert)), ("clientid", convert p.clientId),
      ("hostname", str (host ((p.backups.head?.map SBackupImageInfo.path).getD []))),
      ("logids", array (p.virtualizationLogid.map str)), ("memory", str (ascii "4096")),
      ("network_params", object [("nw-source", str (ascii "Disconnected")),
        ("nw-type", str (ascii "None"))]),
      ("stor_controller", str (ascii "SATA")), ("vcpu", str (ascii "4")),
      ("video", str (ascii "QXL")), ("volumes", array (p.backups.map fun b => str b.path))]
  else object []

end PostBackup

/-- A call of `run_script`: the name, the text and the words in front of the quoted JSON object. -/
structure ScriptCall where
  name : Text
  option : Text
  words : List Text
  json : Text

/-- The line for `popen`. -/
def ScriptCall.line (c : ScriptCall) : Text :=
  34 :: c.name.flatMap (fun ch => if ch = 34 then [92, 34] else [ch]) ++ 34 :: 32 ::
    (c.option ++ apostrophe :: (c.json ++ apostrophe :: Shell.State.errorsToOutput))

namespace PostBackup

variable (p : PostBackup)

def virtualizes : Bool := p.completeStatus && p.integStatus && !p.isVBVDisabled

/-- The one call that `InvokePostBackupScripts` makes. -/
def invokePostBackupScripts : ScriptCall :=
  if p.virtualizes then
    { name := ascii "/usr/local/bin/python3"
      option := ascii " /usr/share/idrivebmr/run Virtualization --verify-physical "
      words := [ascii "/usr/share/idrivebmr/run", ascii "Virtualization", ascii "--verify-physical"]
      json := object [("postbackup_data", p.jsonizeRetrievedData), ("vm_params", p.virtData)] }
  else
    { name := ascii "idrivebmr/postbackup.py"
      option := ascii "-in "
      words := [ascii "-in"]
      json := p.jsonizeRetrievedData }

def strings : List Text :=
  p.backups.flatMap (fun b => [b.letter, b.path]) ++
    if p.virtualizes && p.validated then p.virtualizationLogid else []

end PostBackup

section Apostrophes

theorem mem_escapeChar (c : UInt8) : apostrophe ∈ escapeChar c ↔ apostrophe = c := by
  have hall : ∀ n : Fin 256,
      (apostrophe ∈ escapeChar (.ofFin n) ↔ apostrophe = .ofFin n) := by decide +kernel
  exact hall c.toFin

theorem mem_str {t : Text} : apostrophe ∈ str t ↔ apostrophe ∈ t := by
  have hquote : apostrophe ≠ 34 := by decide
  simp [str, hquote, mem_escapeChar]

theorem mem_separated {data : List Text} :
    apostrophe ∈ (data.intersperse [44]).flatten ↔ ∃ t ∈ data, apostrophe ∈ t := by
  have hcomma : apostrophe ≠ 44 := by decide
  induction data with
  | nil => simp
  | cons t data ih =>
    cases data with
    | nil => simp
    | cons u data =>
      have hfirst : apostrophe ∈ ((t :: u :: data).intersperse [44]).flatten ↔
          apostrophe ∈ t ∨ apostrophe ∈ ((u :: data).intersperse [44]).flatten := by
        simp [hcomma]
      rw [hfirst, propext ih]
      simp only [List.mem_cons, exists_eq_or_imp]

theorem mem_array {data : List Text} :
    apostrophe ∈ array data ↔ ∃ t ∈ data, apostrophe ∈ t := by
  have hbrackets : apostrophe ≠ 91 ∧ apostrophe ≠ 93 := by decide
  rw [← mem_separated]
  simp [array, hbrackets]

theorem mem_object {data : List (String × Text)} (h : ∀ e ∈ data, apostrophe ∉ ascii e.1) :
    apostrophe ∈ object data ↔ ∃ e ∈ data, apostrophe ∈ e.2 := by
  have hsigns : apostrophe ≠ 123 ∧ apostrophe ≠ 125 ∧ apostrophe ≠ 34 ∧ apostrophe ≠ 58 ∧
      apostrophe ≠ 32 := by decide
  have hentry (e : String × Text) (he : e ∈ data) :
      apostrophe ∈ 34 :: ascii e.1 ++ 34 :: 58 :: 32 :: e.2 ↔ apostrophe ∈ e.2 := by
    simp [hsigns, h e he]
  have hall : apostrophe ∈ object data ↔
      apostrophe ∈ ((data.map fun e => 34 :: ascii e.1 ++ 34 :: 58 :: 32 :: e.2).intersperse
        [44]).flatten := by
    simp [object, hsigns]
  rw [hall, mem_separated]
  constructor
  · rintro ⟨_, hmem, ht⟩
    obtain ⟨e, he, rfl⟩ := List.mem_map.mp hmem
    exact ⟨e, he, (hentry e he).mp ht⟩
  · rintro ⟨e, he, ht⟩
    exact ⟨_, List.mem_map_of_mem he, (hentry e he).mpr ht⟩

theorem notMem_convert (i : Int) : apostrophe ∉ convert i := by
  have hdigits (n : Nat) : apostrophe ∉ Decimal.digits n := fun hmem => by
    cases Decimal.isDigit_of_mem_digits hmem
  unfold convert
  split
  · exact fun hmem => (List.mem_cons.mp hmem).elim (by decide) (hdigits _)
  · exact hdigits _

end Apostrophes

namespace PostBackup

variable (p : PostBackup)

theorem notMem_timeStr : apostrophe ∉ p.timeStr := by
  have hfold (s : Int × Text) (hs : apostrophe ∉ s.2) :
      apostrophe ∉ (p.backups.foldl (fun (backupTime, timeStr) b =>
        if backupTime = 0 ∧ b.letter ≠ ascii "SYSVOL" ∧ b.letter ≠ ascii "ESP" then
          (b.backuptime, (p.formatUnixtimeUTC b.backuptime).chars)
        else (backupTime, timeStr)) s).2 := by
    induction p.backups generalizing s with
    | nil => exact hs
    | cons b backups ih =>
      refine ih _ ?_
      dsimp only
      split
      · exact (p.formatUnixtimeUTC b.backuptime).plain
      · exact hs
  exact hfold (0, []) List.not_mem_nil

theorem mem_backupDetail {b : SBackupImageInfo} :
    apostrophe ∈ backupDetail b ↔ apostrophe ∈ b.letter ∨ apostrophe ∈ b.path := by
  have htype : apostrophe ∉ ascii (if b.incremental then "Incremental" else "Full") := by
    split <;> decide
  rw [backupDetail, mem_object (by simp only [List.forall_mem_cons]; decide)]
  simp [mem_str, htype]

theorem mem_jsonizeRetrievedData : apostrophe ∈ p.jsonizeRetrievedData ↔
    ∃ b ∈ p.backups, apostrophe ∈ b.letter ∨ apostrophe ∈ b.path := by
  have hintegrity :
      apostrophe ∉ ascii (if p.completeStatus ∧ p.integStatus then "Good" else "Bad") := by
    split <;> decide
  have hstatus : apostrophe ∉ ascii (if p.completeStatus then "Success" else "Failed") := by
    split <;> decide
  rw [jsonizeRetrievedData, mem_object (by simp only [List.forall_mem_cons]; decide)]
  simp [mem_str, mem_array, mem_backupDetail, notMem_timeStr, notMem_convert, hintegrity, hstatus]

theorem mem_host {path : Text} (h : apostrophe ∈ host path) : apostrophe ∈ path := by
  unfold host at h
  dsimp only at h
  split at h
  · exact List.mem_of_mem_drop ((List.takeWhile_sublist _).subset h)
  · cases h

theorem mem_virtData : apostrophe ∈ p.virtData ↔ p.validated = true ∧
    ((∃ t ∈ p.virtualizationLogid, apostrophe ∈ t) ∨ ∃ b ∈ p.backups, apostrophe ∈ b.path) := by
  unfold virtData
  split
  next hvalid =>
    have hconstants : ∀ s ∈ ["4096", "Disconnected", "None", "SATA", "4", "QXL"],
        apostrophe ∉ ascii s := by decide
    have hnetwork : apostrophe ∉ object [("nw-source", str (ascii "Disconnected")),
        ("nw-type", str (ascii "None"))] := by decide
    have hhost (h : apostrophe ∈ host ((p.backups.head?.map SBackupImageInfo.path).getD [])) :
        ∃ b ∈ p.backups, apostrophe ∈ b.path := by
      cases hbackups : p.backups with
      | nil =>
        rw [hbackups] at h
        cases mem_host h
      | cons b backups =>
        rw [hbackups] at h
        exact ⟨b, List.mem_cons_self, mem_host h⟩
    rw [mem_object (by simp only [List.forall_mem_cons]; decide)]
    simp only [List.forall_mem_cons] at hconstants
    simp [mem_str, mem_array, notMem_convert, hnetwork, hconstants, hvalid]
    exact fun h => .inr (hhost h)
  next hvalid =>
    have hempty : apostrophe ∉ object [] := by decide
    simp [hempty, hvalid]

theorem exists_mem_strings : (∃ t ∈ p.strings, apostrophe ∈ t) ↔
    (∃ b ∈ p.backups, apostrophe ∈ b.letter ∨ apostrophe ∈ b.path) ∨
      (p.virtualizes = true ∧ p.validated = true) ∧ ∃ t ∈ p.virtualizationLogid, apostrophe ∈ t := by
  have hbackups : (∃ t ∈ p.backups.flatMap fun b => [b.letter, b.path], apostrophe ∈ t) ↔
      ∃ b ∈ p.backups, apostrophe ∈ b.letter ∨ apostrophe ∈ b.path := by
    constructor
    · rintro ⟨t, hmem, ht⟩
      obtain ⟨b, hb, hmem⟩ := List.mem_flatMap.mp hmem
      rcases List.mem_pair.mp hmem with rfl | rfl
      · exact ⟨b, hb, .inl ht⟩
      · exact ⟨b, hb, .inr ht⟩
    · rintro ⟨b, hb, ht | ht⟩
      · exact ⟨_, List.mem_flatMap.mpr ⟨b, hb, List.mem_cons_self⟩, ht⟩
      · exact ⟨_, List.mem_flatMap.mpr ⟨b, hb, List.mem_pair.mpr (.inr rfl)⟩, ht⟩
  rw [← hbackups, strings]
  by_cases h : p.virtualizes = true ∧ p.validated = true
  · simp [h, or_and_right, exists_or]
  · simp [h]

theorem mem_json : apostrophe ∈ p.invokePostBackupScripts.json ↔
    ∃ t ∈ p.strings, apostrophe ∈ t := by
  rw [exists_mem_strings]
  unfold invokePostBackupScripts
  split
  next hvirt =>
    have hpath : (∃ b ∈ p.backups, apostrophe ∈ b.path) →
        ∃ b ∈ p.backups, apostrophe ∈ b.letter ∨ apostrophe ∈ b.path := by
      rintro ⟨b, hb, ht⟩
      exact ⟨b, hb, .inr ht⟩
    rw [mem_object (by simp only [List.forall_mem_cons]; decide)]
    simp only [List.mem_cons, List.not_mem_nil, or_false, exists_eq_or_imp, exists_eq_left,
      mem_jsonizeRetrievedData, mem_virtData, hvirt, true_and]
    constructor
    · rintro (h | ⟨hvalid, h | h⟩)
      · exact .inl h
      · exact .inr ⟨hvalid, h⟩
      · exact .inl (hpath h)
    · rintro (h | ⟨hvalid, h⟩)
      · exact .inl h
      · exact .inr ⟨hvalid, .inl h⟩
  next hvirt => simp [mem_jsonizeRetrievedData, hvirt]

end PostBackup

/-- A script gets the JSON object if and only if it has no apostrophe, which is not escaped. -/
theorem ScriptCall.split_line {c : ScriptCall} {w : Text} {ws : List Text}
    (hfront : (34 :: c.name.flatMap (fun ch => if ch = 34 then [92, 34] else [ch]) ++ 34 :: 32 ::
      c.option).foldlM Shell.State.step Shell.State.start = some ⟨[], w :: ws, none, false, .plain⟩) :
    Shell.split c.line = some [w :: ws ++ [c.json]] ↔ apostrophe ∉ c.json := by
  have hline : c.line = (34 :: c.name.flatMap (fun ch => if ch = 34 then [92, 34] else [ch]) ++
      34 :: 32 :: c.option) ++ apostrophe :: (c.json ++ apostrophe :: Shell.State.errorsToOutput) := by
    simp [line]
  rw [hline, Shell.split, Shell.State.run_append, hfront]
  exact Shell.State.run_single_quoted (w :: ws) c.json

/-- The shell runs the one script with the JSON object as its last word. -/
theorem PostBackup.invokePostBackupScripts_data_iff (p : PostBackup) :
    Shell.split p.invokePostBackupScripts.line =
      some [p.invokePostBackupScripts.name :: p.invokePostBackupScripts.words ++
        [p.invokePostBackupScripts.json]] ↔ ∀ t ∈ p.strings, apostrophe ∉ t := by
  have hjson : apostrophe ∉ p.invokePostBackupScripts.json ↔ ∀ t ∈ p.strings, apostrophe ∉ t := by
    rw [p.mem_json]
    simp only [not_exists, not_and]
  rw [← hjson]
  refine ScriptCall.split_line ?_
  unfold invokePostBackupScripts
  split
  · dsimp only
    decide +kernel
  · dsimp only
    decide +kernel

def apostrophes : PostBackup where
  backups := [{ letter := ascii "C", path := ascii "/storage/idrivebmr/a';reboot;'/C.vhd"
                incremental := false, complete := 0, clientId := 1, backuptime := 0 }]
  formatUnixtimeUTC _ := ⟨ascii "1970-01-01 00:00:00", by decide⟩
  integStatus := true
  isVBVDisabled := false
  virtualizationLogid := []
  backupIds := [1]

theorem apostrophes_reboot :
    Shell.split apostrophes.invokePostBackupScripts.line ≠
      some [apostrophes.invokePostBackupScripts.name ::
        apostrophes.invokePostBackupScripts.words ++ [apostrophes.invokePostBackupScripts.json]] ∧
    [ascii "reboot"] ∈ (Shell.split apostrophes.invokePostBackupScripts.line).getD [] := by
  decide +kernel

end Scripts

end UrBackup
