import UrBackup.Files.Store
import UrBackup.Lib.Shares
import Mathlib.Algebra.BigOperators.Group.List.Basic

/-! The pass that turns the log of gained and lost files into the storage usage of the clients. -/
namespace UrBackup

/-- `Tokenize` with one separator, with what was read of the current token. -/
def tokenizeChars (sep : Char) (token : List Char) : List Char → List (List Char)
  | [] => if token = [] then [] else [token]
  | c :: str => if c = sep then token :: tokenizeChars sep [] str else tokenizeChars sep (token ++ [c]) str

def digitsValue (str : List Char) : Int := Nat.ofDigitChars 10 (str.takeWhile Char.isDigit) 0

/-- `atoi` -/
def watoi (str : List Char) : Int :=
  match str.dropWhile Char.isWhitespace with
  | '-' :: str => -digitsValue str
  | '+' :: str => digitsValue str
  | str => digitsValue str

def parseClients (clients : String) : List Int := (tokenizeChars ',' [] clients.toList).map watoi

def IncomingFile.clients (entry : IncomingFile) : List Int := parseClients entry.existingClients

namespace ServerUpdateStats

def add (subset : List Int) (num : Int) (data : Int → Int) : Int → Int :=
  subset.foldl (fun data c x => if x = c then data x + num else data x) data

def processEntry (data : Int → Int) (entry : IncomingFile) : Int → Int :=
  let clients := entry.clients
  let size := entry.filesize.val
  match entry.direction with
  | .incoming =>
    let data := if clients = [] then data
      else add clients (-(size / clients.length : Nat)) data
    let clients := clients ++ [(entry.clientid.val : Int)]
    add clients (size / clients.length : Nat) data
  | .outgoing | .outgoingNobackupstat =>
    let sizePerClient := if clients = [] then size else size / clients.length
    let data := add clients (-sizePerClient) data
    let clients := clients.erase (entry.clientid.val : Int)
    if clients = [] then data else add clients (size / clients.length : Nat) data

def updateFiles (data : Int → Int) (entries : List IncomingFile) : Int → Int :=
  entries.foldl processEntry data

end ServerUpdateStats

/-- The store with the column `bytes_used_files` of the clients. -/
structure FileStats where
  store : Store
  bytesUsedFiles : Int → Int

inductive StatsEvent where
  | store (e : StoreEvent)
  | updateFiles

namespace FileStats

def initial : FileStats := ⟨.initial, fun _ => 0⟩

def step (s : FileStats) : StatsEvent → Option FileStats
  | .store e => (s.store.step e).map fun store => { s with store }
  | .updateFiles => some
      { store := { s.store with incoming := [] }
        bytesUsedFiles := ServerUpdateStats.updateFiles s.bytesUsedFiles s.store.incoming }

end FileStats

section Tokens

theorem tokenizeChars_of_not_mem {sep : Char} {str : List Char} (h : sep ∉ str) (token : List Char) :
    tokenizeChars sep token str = if token ++ str = [] then [] else [token ++ str] := by
  induction str generalizing token with
  | nil =>
    rw [List.append_nil]
    rfl
  | cons c str ih =>
    rw [List.mem_cons, not_or] at h
    rw [tokenizeChars, if_neg (Ne.symm h.1), ih h.2, List.append_assoc]
    rfl

/-- The tokens behind a separator come after those in front of it, of which the last is not
empty. Induction on the text in front. -/
theorem tokenizeChars_append {sep : Char} {str : List Char} (rest token : List Char)
    (h : (token ++ str).getLast? ≠ none ∧ (str ≠ [] → str.getLast? ≠ some sep)) :
    tokenizeChars sep token (str ++ sep :: rest) = tokenizeChars sep token str ++ tokenizeChars sep [] rest := by
  induction str generalizing token with
  | nil =>
    have hne : token ≠ [] := by
      intro hnil
      rw [hnil] at h
      exact h.1 rfl
    change (if sep = sep then token :: tokenizeChars sep [] rest else _) =
      (if token = [] then [] else [token]) ++ _
    rw [if_pos rfl, if_neg hne]
    rfl
  | cons c str ih =>
    rw [List.cons_append, tokenizeChars, tokenizeChars]
    split
    next hc =>
      have hne : str ≠ [] := by
        intro hnil
        rw [hnil, hc] at h
        exact h.2 (List.cons_ne_nil _ _) rfl
      have hlast : (c :: str).getLast? = str.getLast? := by
        rw [List.getLast?_cons, List.getLast?_eq_getLast_of_ne_nil hne]
        rfl
      rw [ih [] ⟨?_, ?_⟩]
      · rfl
      · rw [List.nil_append, List.getLast?_eq_getLast_of_ne_nil hne]
        exact Option.some_ne_none _
      · intro _
        rw [← hlast]
        exact h.2 (List.cons_ne_nil _ _)
    next hc =>
      apply ih
      refine ⟨?_, ?_⟩
      · rw [List.append_assoc]
        exact h.1
      · intro hne
        have hlast : (c :: str).getLast? = str.getLast? := by
          rw [List.getLast?_cons, List.getLast?_eq_getLast_of_ne_nil hne]
          rfl
        rw [← hlast]
        exact h.2 (List.cons_ne_nil _ _)

theorem comma_not_mem_toString (n : Nat) : ',' ∉ (toString n).toList := by
  intro h
  rw [Nat.toString_eq_repr, Nat.toList_repr] at h
  exact absurd (Nat.isDigit_of_mem_toDigits (by decide) (by decide) h) (by decide)

theorem toList_toString_ne_nil (n : Nat) : (toString n).toList ≠ [] := by
  rw [Nat.toString_eq_repr, Nat.toList_repr]
  exact Nat.toDigits_ne_nil

theorem watoi_toString (n : Nat) : watoi (toString n).toList = n := by
  have hlist : (toString n).toList = Nat.toDigits 10 n := by
    rw [Nat.toString_eq_repr, Nat.toList_repr]
  have hdigit (c : Char) (hc : c ∈ Nat.toDigits 10 n) : c.isDigit = true :=
    Nat.isDigit_of_mem_toDigits (by decide) (by decide) hc
  have hvalue : digitsValue (Nat.toDigits 10 n) = n := by
    unfold digitsValue
    rw [List.takeWhile_eq_self_iff.mpr hdigit, Nat.ofDigitChars_ten_toDigits]
  rw [hlist]
  obtain ⟨c, cs, hcons⟩ := List.exists_cons_of_ne_nil (@Nat.toDigits_ne_nil n 10)
  rw [hcons] at hvalue hdigit ⊢
  have hc := hdigit c List.mem_cons_self
  have hspace : c.isWhitespace = false := by
    rw [Bool.eq_false_iff]
    intro hspace
    simp only [Char.isWhitespace, Bool.or_eq_true, decide_eq_true_eq, or_assoc] at hspace
    rcases hspace with rfl | rfl | rfl | rfl
    all_goals exact absurd hc (by decide)
  unfold watoi
  rw [List.dropWhile_cons_of_neg (by rw [hspace]; exact Bool.false_ne_true)]
  split
  next heq =>
    cases heq
    exact absurd hc (by decide)
  next heq =>
    cases heq
    exact absurd hc (by decide)
  next => exact hvalue

theorem parseClients_toString (n : Nat) : parseClients (toString n) = [(n : Int)] := by
  unfold parseClients
  rw [tokenizeChars_of_not_mem (comma_not_mem_toString n), List.nil_append,
    if_neg (toList_toString_ne_nil n), List.map_singleton, watoi_toString]

/-- A text to which a separator may be added. -/
def Closed (str : String) : Prop := str.toList.getLast? ≠ some ','

theorem closed_append (str : String) (n : Nat) : Closed (str ++ toString n) := by
  intro h
  rw [String.toList_append, List.getLast?_append_of_ne_nil _ (toList_toString_ne_nil n)] at h
  exact comma_not_mem_toString n (List.mem_of_getLast? h)

theorem parseClients_append {str : String} (hclosed : Closed str) (n : Nat) :
    parseClients ((if str.isEmpty then str else str ++ ",") ++ toString n) =
      parseClients str ++ [(n : Int)] := by
  by_cases hempty : str = ""
  · rw [hempty]
    exact parseClients_toString n
  · have hlist : str.toList ≠ [] := fun h => hempty (String.toList_eq_nil_iff.mp h)
    have hfalse : str.isEmpty = false := by
      rw [Bool.eq_false_iff]
      exact fun h => hempty (String.isEmpty_iff.mp h)
    rw [hfalse, if_neg Bool.false_ne_true]
    have hsplit : ((str ++ ",") ++ toString n).toList =
        str.toList ++ ',' :: (toString n).toList := by
      rw [String.toList_append, String.toList_append, List.append_assoc]
      rfl
    unfold parseClients
    rw [hsplit, tokenizeChars_append, List.map_append]
    · exact congrArg _ (parseClients_toString n)
    · refine ⟨?_, fun _ => hclosed⟩
      rw [List.nil_append, List.getLast?_eq_getLast_of_ne_nil hlist]
      exact Option.some_ne_none _

/-- The list of the clients is read back. Induction on the entries. -/
theorem parseClients_clientsLoop (clientid : ClientId) {es : List (ClientId × Int)}
    {r : Int × String} (hclosed : Closed r.2) :
    parseClients (Store.clientsLoop clientid r es).2 =
      parseClients r.2 ++ (es.filter fun e => e.2 ≠ 0).map fun e => (e.1.val : Int) := by
  induction es generalizing r with
  | nil => exact (List.append_nil _).symm
  | cons e es ih =>
    obtain ⟨c, id⟩ := e
    obtain ⟨entryid, clients⟩ := r
    unfold Store.clientsLoop
    by_cases hid : id = 0
    · rw [if_neg (not_not.mpr hid), ih hclosed, List.filter_cons_of_neg]
      simpa using hid
    · rw [if_pos hid, ih (closed_append _ _), parseClients_append hclosed,
        List.filter_cons_of_pos (by simpa using hid), List.map_cons, List.append_assoc]
      rfl

end Tokens

namespace ServerUpdateStats

def effect (entry : IncomingFile) (x : Int) : Int := processEntry (fun _ => 0) entry x

theorem add_eq (subset : List Int) (num : Int) (data : Int → Int) (x : Int) :
    add subset num data x = data x + num * (subset.count x : Int) := by
  unfold add
  induction subset generalizing data with
  | nil =>
    rw [List.foldl_nil, List.count_nil]
    omega
  | cons c subset ih =>
    rw [List.foldl_cons, ih, List.count_cons]
    by_cases hx : x = c
    · rw [if_pos hx, if_pos (beq_iff_eq.mpr hx.symm), Int.natCast_add, Int.mul_add]
      omega
    · rw [if_neg hx, if_neg fun h => hx (beq_iff_eq.mp h).symm, Nat.add_zero]

theorem processEntry_eq (data : Int → Int) (entry : IncomingFile) (x : Int) :
    processEntry data entry x = data x + effect entry x := by
  unfold effect processEntry
  cases entry.direction with
  | incoming =>
    dsimp only
    split
    next => rw [add_eq, add_eq, Int.zero_add]
    next =>
      rw [add_eq, add_eq, add_eq, add_eq]
      omega
  | outgoing =>
    dsimp only
    split
    next => rw [add_eq, add_eq, Int.zero_add]
    next =>
      rw [add_eq, add_eq, add_eq, add_eq]
      omega
  | outgoingNobackupstat =>
    dsimp only
    split
    next => rw [add_eq, add_eq, Int.zero_add]
    next =>
      rw [add_eq, add_eq, add_eq, add_eq]
      omega

/-- A pass adds what the entries change. Induction on the log. -/
theorem updateFiles_eq (data : Int → Int) (entries : List IncomingFile) (x : Int) :
    updateFiles data entries x = data x + (entries.map fun entry => effect entry x).sum := by
  unfold updateFiles
  induction entries generalizing data with
  | nil =>
    rw [List.foldl_nil, List.map_nil, List.sum_nil]
    omega
  | cons entry entries ih =>
    rw [List.foldl_cons, ih, processEntry_eq, List.map_cons, List.sum_cons]
    omega

section Effects

open Shares

variable {entry : IncomingFile} {L : List ClientId}

theorem natCast_injective : Function.Injective fun c : ClientId => (c.val : Int) :=
  fun _ _ h => Fin.ext (Int.ofNat_inj.mp h)

theorem count_clients (L : List ClientId) (c : ClientId) :
    (L.map fun c => (c.val : Int)).count (c.val : Int) = L.count c :=
  List.count_map_of_injective L _ natCast_injective c

theorem effect_join (hdirection : entry.direction = .incoming)
    (hclients : entry.clients = L.map fun c => (c.val : Int)) (hnodup : L.Nodup)
    (hnew : entry.clientid ∉ L) (c : ClientId) :
    effect entry c.val = share entry.filesize.val (insert entry.clientid L.toFinset) c -
      share entry.filesize.val L.toFinset c := by
  have happend : L.map (fun c => (c.val : Int)) ++ [(entry.clientid.val : Int)] =
      (L ++ [entry.clientid]).map fun c => (c.val : Int) := by
    rw [List.map_append, List.map_singleton]
  rw [share_join hnodup hnew, share_toFinset hnodup]
  unfold effect processEntry
  rw [hdirection, hclients]
  dsimp only
  rw [happend]
  split
  next hnil =>
    have hL := List.map_eq_nil_iff.mp hnil
    rw [add_eq, count_clients, List.length_map, hL, List.count_nil]
    omega
  next =>
    rw [add_eq, add_eq, count_clients, count_clients, List.length_map, List.length_map,
      Int.neg_mul]
    omega

/-- A client does not have the file any more. -/
theorem effect_leave (hdirection : entry.direction ≠ .incoming)
    (hclients : entry.clients = L.map fun c => (c.val : Int)) (hnodup : L.Nodup)
    (hold : entry.clientid ∈ L) (c : ClientId) :
    effect entry c.val = share entry.filesize.val (L.toFinset.erase entry.clientid) c -
      share entry.filesize.val L.toFinset c := by
  have herase : (L.map fun c => (c.val : Int)).erase (entry.clientid.val : Int) =
      (L.erase entry.clientid).map fun c => (c.val : Int) :=
    (List.map_erase natCast_injective L).symm
  have hne : L.map (fun c => (c.val : Int)) ≠ [] := fun hnil => by
    rw [List.map_eq_nil_iff.mp hnil] at hold
    exact List.not_mem_nil hold
  have hout : (if (L.erase entry.clientid).map (fun c => (c.val : Int)) = [] then
      add (L.map fun c => (c.val : Int)) (-(entry.filesize.val / L.length : Nat)) fun _ => 0
      else add ((L.erase entry.clientid).map fun c => (c.val : Int))
        (entry.filesize.val / ((L.erase entry.clientid).map fun c => (c.val : Int)).length : Nat)
        (add (L.map fun c => (c.val : Int)) (-(entry.filesize.val / L.length : Nat)) fun _ => 0))
      (c.val : Int) = share entry.filesize.val (L.toFinset.erase entry.clientid) c -
        share entry.filesize.val L.toFinset c := by
    rw [share_leave hnodup, share_toFinset hnodup]
    split
    next hnil =>
      have hL := List.map_eq_nil_iff.mp hnil
      rw [add_eq, count_clients, hL, List.count_nil, Int.neg_mul]
      omega
    next =>
      rw [add_eq, add_eq, count_clients, count_clients, List.length_map, Int.neg_mul]
      omega
  unfold effect processEntry
  rw [hclients]
  cases hentry : entry.direction with
  | incoming => exact absurd hentry hdirection
  | outgoing =>
    dsimp only
    rw [if_neg hne, herase, List.length_map]
    exact hout
  | outgoingNobackupstat =>
    dsimp only
    rw [if_neg hne, herase, List.length_map]
    exact hout

end Effects

end ServerUpdateStats

end UrBackup
