import UrBackup.Lib.Decimal
import UrBackup.Lib.Loop
import UrBackup.Lib.Pattern

/-! The structure of dynamic disks that a client sends as one text, split into a file for each disk. -/
namespace UrBackup
namespace DynamicDisks

def npos : Nat := 2 ^ 64 - 1

/-- Numbers of type `size_t` wrap around. -/
def wrap (x : Nat) : Nat := x % 2 ^ 64

def find (content pat : List UInt8) (pos : Nat) : Nat :=
  if pos ≤ content.length then
    match Pattern.find pat (content.drop pos) with
    | none => npos
    | some i => pos + i
  else npos

def substr (content : List UInt8) (pos count : Nat) : Option (List UInt8) :=
  if pos ≤ content.length then some ((content.drop pos).take count) else none

abbrev Files := List UInt8 → Option (List UInt8)

def Files.set (files : Files) (filenumber data : List UInt8) : Files :=
  fun name => if name = filenumber then some data else files name

structure Markers where
  start : List UInt8
  stop : List UInt8

/-- `Physical_disk_start_` and `Physical_disk_end_` -/
def diskMarkers : Markers where
  start := [80, 104, 121, 115, 105, 99, 97, 108, 95, 100, 105, 115, 107, 95, 115, 116, 97, 114, 116, 95]
  stop := [80, 104, 121, 115, 105, 99, 97, 108, 95, 100, 105, 115, 107, 95, 101, 110, 100, 95]

/-- `mbr_data_start_` and `mbr_data_end_` -/
def mbrMarkers : Markers where
  start := [109, 98, 114, 95, 100, 97, 116, 97, 95, 115, 116, 97, 114, 116, 95]
  stop := [109, 98, 114, 95, 100, 97, 116, 97, 95, 101, 110, 100, 95]

section Loops

variable (content : List UInt8)

/-- A turn of one of the two loops. There is no result when a part behind the end of the text is
asked for. -/
def splitTurn (m : Markers) (skip : Nat) (cut : (found temp : Nat) → Files → Option Files) :
    Nat × Nat × Files → Option Files ⊕ Nat × Nat × Files
  | (found, found1, files) =>
    if found = npos then .inl (some files)
    else
      match cut found (wrap (found1 + 2 ^ 64 - found)) files with
      | none => .inl none
      | some files => .inr (find content m.start (found + skip),
          find content m.stop (wrap (found1 + skip)), files)

def cutDisk (found temp : Nat) (files : Files) : Option Files :=
  match substr content (found + 20) 1 with
  | none => none
  | some filenumber =>
    match substr content (found + 21) (wrap (temp + 2 ^ 64 - 21)) with
    | none => none
    | some data => some (files.set filenumber data)

def cutMbr (found temp : Nat) (files : Files) : Option Files :=
  match substr content (found + 15) 1 with
  | none => none
  | some filenumber =>
    match substr content found (wrap (temp + 14)) with
    | none => none
    | some data => some (files.set filenumber ((files filenumber).getD [] ++ data))

def diskTurn : Nat × Nat × Files → Option Files ⊕ Nat × Nat × Files :=
  splitTurn content diskMarkers 22 (cutDisk content)

def mbrTurn : Nat × Nat × Files → Option Files ⊕ Nat × Nat × Files :=
  splitTurn content mbrMarkers 17 (cutMbr content)

def startOf (m : Markers) (files : Files) : Nat × Nat × Files :=
  (find content m.start.dropLast 0, find content m.stop.dropLast 0, files)

/-- Both loops end with these files. -/
def Splits (files : Files) : Prop :=
  ∃ disks, Loop.Ends (diskTurn content) (startOf content diskMarkers fun _ => none) (some disks) ∧
    Loop.Ends (mbrTurn content) (startOf content mbrMarkers disks) (some files)

end Loops

section Texts

abbrev Section := Nat × List UInt8

def Markers.bytes (m : Markers) (s : Section) : List UInt8 :=
  m.start ++ (Decimal.digits s.1 ++ (s.2 ++ (m.stop ++ Decimal.digits s.1)))

def allMarkers : List (List UInt8) :=
  [diskMarkers.start, diskMarkers.stop, mbrMarkers.start, mbrMarkers.stop]

/-- A text as the client sends it, no longer than a string can be. -/
structure Text where
  disks : List Section
  mbrs : List Section
  disks_nodup : (disks.map Prod.fst).Nodup
  mbrs_nodup : (mbrs.map Prod.fst).Nodup
  free : ∀ s ∈ disks ++ mbrs, ∀ marker ∈ allMarkers, ¬ marker <:+: s.2
  length_lt : (disks.flatMap diskMarkers.bytes ++ mbrs.flatMap mbrMarkers.bytes).length < 2 ^ 63

def Text.content (t : Text) : List UInt8 :=
  t.disks.flatMap diskMarkers.bytes ++ t.mbrs.flatMap mbrMarkers.bytes

def Text.file (t : Text) (d : Nat) : List UInt8 :=
  (t.disks.lookup d).getD [] ++
    ((t.mbrs.lookup d).map fun body => mbrMarkers.bytes (d, body)).getD []

def Text.numbers (t : Text) : List Nat := t.disks.map Prod.fst ++ t.mbrs.map Prod.fst

/-- The text is split as it should be. -/
def Text.Right (t : Text) : Prop :=
  ∃ files, Splits t.content files ∧ ∀ d ∈ t.numbers, files (Decimal.digits d) = some (t.file d)

/-- Without its last byte a marker is not found before it stands there as a whole. -/
def Text.FoundFirst (t : Text) : Prop :=
  ∀ marker ∈ allMarkers, find t.content marker.dropLast 0 = find t.content marker 0

end Texts

section Searches

theorem find_append (front rest pat : List UInt8) : find (front ++ rest) pat front.length =
    match Pattern.find pat rest with
    | none => npos
    | some i => front.length + i := by
  rw [find, if_pos (by simp), List.drop_left]

/-- What the loops rely on: both markers begin with a byte that is in no other place of them, and
how long they are. -/
structure Good (m : Markers) (c : UInt8) (skip : Nat) : Prop where
  start_head : m.start.head? = some c
  stop_head : m.stop.head? = some c
  start_tail : c ∉ m.start.tail
  stop_tail : c ∉ m.stop.tail
  not_digit : Decimal.isDigit c = false
  stop_front : ¬ m.stop <+: m.start
  start_length : m.start.length = m.stop.length + 2
  skip_eq : skip = m.start.length + 2
  skip_lt : skip < 2 ^ 63

theorem diskMarkers_good : Good diskMarkers 80 22 :=
  ⟨rfl, rfl, by decide, by decide, rfl, by decide, rfl, rfl, by decide⟩

theorem mbrMarkers_good : Good mbrMarkers 109 17 :=
  ⟨rfl, rfl, by decide, by decide, rfl, by decide, rfl, rfl, by decide⟩

theorem digits_length {d : Nat} (h : d < 10) : (Decimal.digits d).length = 1 := by
  unfold Decimal.digits
  split
  · rfl
  · rw [List.length_reverse, List.length_map, Nat.digits_of_lt 10 d ‹_› h]
    rfl

theorem not_mem_digits {c : UInt8} (hc : Decimal.isDigit c = false) (d : Nat) :
    c ∉ Decimal.digits d := by
  intro hmem
  rw [Decimal.isDigit_of_mem_digits hmem] at hc
  exact Bool.noConfusion hc

variable {m : Markers} {c : UInt8} {skip : Nat}

theorem noBorder_of_head {pat rest : List UInt8} (htail : c ∉ pat.tail)
    (hrest : rest.head? = some c) : Pattern.NoBorder pat rest := by
  intro b hb
  rw [hrest, Option.some.injEq] at hb
  exact hb ▸ htail

theorem head_append {front rest : List UInt8} (h : front.head? = some c) :
    (front ++ rest).head? = some c := by
  cases front with
  | nil => cases h
  | cons a front => exact h

theorem head_bytes (hstart : m.start.head? = some c) (s : Section) : (m.bytes s).head? = some c :=
  head_append hstart

theorem head_sections (hstart : m.start.head? = some c) {secs : List Section} {b : UInt8}
    (h : (secs.flatMap m.bytes).head? = some b) : b = c := by
  cases secs with
  | nil => cases h
  | cons s secs =>
    rw [List.flatMap_cons, head_append (head_bytes hstart s), Option.some.injEq] at h
    exact h.symm

theorem Good.bytes_length (hm : Good m c skip) {s : Section} (h : s.1 < 10) :
    (m.bytes s).length + 2 = 2 * m.start.length + 2 + s.2.length := by
  have hlength := hm.start_length
  simp only [Markers.bytes, List.length_append, digits_length h]
  omega

theorem Good.find_start (hm : Good m c skip) {front rest : List UInt8} {s : Section} (h : s.1 < 10)
    (hfree : ¬ m.start <:+: s.2) (hborder : Pattern.NoBorder m.start rest) :
    find (front ++ (m.bytes s ++ rest)) m.start (front.length + skip) =
      match Pattern.find m.start rest with
      | none => npos
      | some i => front.length + (m.bytes s).length + i := by
  have hdigits := digits_length h
  have hlength := hm.bytes_length h
  have hstarts := hm.start_length
  have hskip := hm.skip_eq
  -- the rest of the section has no start marker
  have hlong : ¬ m.start <:+: m.stop ++ Decimal.digits s.1 := by
    intro hinfix
    have hle := hinfix.length_le
    rw [List.length_append, hdigits, hm.start_length] at hle
    omega
  have hbody : ¬ m.start <:+: s.2 ++ (m.stop ++ Decimal.digits s.1) :=
    Pattern.not_infix_append hfree hlong
      (noBorder_of_head hm.start_tail (head_append hm.stop_head))
  have hinner : ¬ m.start <:+: (m.bytes s).drop skip := by
    have hdrop : (m.bytes s).drop skip = (s.2 ++ (m.stop ++ Decimal.digits s.1)).drop 1 := by
      have hfront : skip = (m.start ++ Decimal.digits s.1).length + 1 := by
        rw [List.length_append, hdigits]
        omega
      rw [hfront, Markers.bytes, ← List.append_assoc, List.drop_append]
      simp
    rw [hdrop]
    exact fun hinfix => hbody (List.IsInfix.trans hinfix (List.drop_suffix 1 _).isInfix)
  have hsplit : front ++ (m.bytes s ++ rest) =
      (front ++ (m.bytes s).take skip) ++ ((m.bytes s).drop skip ++ rest) := by
    rw [List.append_assoc, ← List.append_assoc ((m.bytes s).take skip), List.take_append_drop]
  have hle : skip ≤ (m.bytes s).length := by omega
  have htake : (front ++ (m.bytes s).take skip).length = front.length + skip := by
    rw [List.length_append, List.length_take, Nat.min_eq_left hle]
  have hfind := find_append (front ++ (m.bytes s).take skip) ((m.bytes s).drop skip ++ rest) m.start
  rw [← hsplit, htake, Pattern.find_append hinner hborder] at hfind
  rw [hfind]
  cases Pattern.find m.start rest with
  | none => rfl
  | some i =>
    change front.length + skip + (((m.bytes s).drop skip).length + i) =
      front.length + (m.bytes s).length + i
    rw [List.length_drop]
    omega

theorem Good.find_stop (hm : Good m c skip) {front rest : List UInt8} {s : Section} {k : Nat}
    (h : s.1 < 10) (hfree : ¬ m.stop <:+: s.2) (hk : k ≤ m.start.length) :
    find (front ++ (m.bytes s ++ rest)) m.stop (front.length + k) =
      front.length + m.start.length + 1 + s.2.length := by
  have hdigits := digits_length h
  have hnumber : ¬ m.stop <:+: Decimal.digits s.1 ++ s.2 :=
    Pattern.not_infix_append_of_head hm.stop_head (not_mem_digits hm.not_digit s.1) hfree
  -- the marker is no part of what stands in front of it
  have hinner : ¬ m.stop <:+: m.start.drop k ++ (Decimal.digits s.1 ++ s.2) := by
    cases k with
    | succ k =>
      refine Pattern.not_infix_append_of_head hm.stop_head (fun hmem => hm.start_tail ?_) hnumber
      rw [← List.drop_tail] at hmem
      exact List.mem_of_mem_drop hmem
    | zero =>
      have hfront : ¬ m.stop <+: m.start ++ (Decimal.digits s.1 ++ s.2) := fun hstands =>
        hm.stop_front (List.prefix_of_prefix_length_le hstands (List.prefix_append _ _)
          (by have := hm.start_length; omega))
      have hstart := hm.start_head
      have htail := Pattern.not_infix_append_of_head hm.stop_head hm.start_tail hnumber
      revert hfront hstart htail
      cases m.start with
      | nil => exact fun _ h => by cases h
      | cons a start =>
        intro hfront _ htail
        rw [List.drop_zero, List.cons_append, List.infix_cons_iff, not_or]
        exact ⟨hfront, htail⟩
  have hborder : Pattern.NoBorder m.stop (m.stop ++ (Decimal.digits s.1 ++ rest)) :=
    noBorder_of_head hm.stop_tail (head_append hm.stop_head)
  have hsplit : front ++ (m.bytes s ++ rest) = (front ++ m.start.take k) ++
      (m.start.drop k ++ (Decimal.digits s.1 ++ s.2) ++
        (m.stop ++ (Decimal.digits s.1 ++ rest))) := by
    simp only [Markers.bytes, List.append_assoc]
    rw [← List.append_assoc (m.start.take k), List.take_append_drop]
  have htake : (front ++ m.start.take k).length = front.length + k := by
    rw [List.length_append, List.length_take, Nat.min_eq_left hk]
  have hfind := find_append (front ++ m.start.take k) (m.start.drop k ++
    (Decimal.digits s.1 ++ s.2) ++ (m.stop ++ (Decimal.digits s.1 ++ rest))) m.stop
  rw [← hsplit, htake, Pattern.find_append hinner hborder,
    Pattern.find_front (List.prefix_append m.stop _)] at hfind
  rw [hfind]
  change front.length + k + ((m.start.drop k ++ (Decimal.digits s.1 ++ s.2)).length + 0) = _
  rw [List.length_append, List.length_append, List.length_drop, hdigits]
  omega

/-- Sections of one kind have no marker of another kind. Induction on the sections. -/
theorem Good.sections_free (hm : Good m c skip) {pat : List UInt8} {b : UInt8}
    (hpat : pat.head? = some b) (hdigit : Decimal.isDigit b = false)
    (hmarkers : b ∉ m.start ++ m.stop) (hc : c ∉ pat.tail) {secs : List Section}
    (hfree : ∀ s ∈ secs, ¬ pat <:+: s.2) : ¬ pat <:+: secs.flatMap m.bytes := by
  rw [List.mem_append, not_or] at hmarkers
  induction secs with
  | nil =>
    rw [List.flatMap_nil, List.infix_nil]
    rintro rfl
    cases hpat
  | cons s secs ih =>
    have hrest := ih fun s' hs' => hfree s' (List.mem_cons_of_mem s hs')
    rw [List.flatMap_cons, Markers.bytes]
    simp only [List.append_assoc]
    apply Pattern.not_infix_append_of_head hpat hmarkers.1
    apply Pattern.not_infix_append_of_head hpat (not_mem_digits hdigit s.1)
    apply Pattern.not_infix_append (hfree s List.mem_cons_self)
    · apply Pattern.not_infix_append_of_head hpat hmarkers.2
      exact Pattern.not_infix_append_of_head hpat (not_mem_digits hdigit s.1) hrest
    · exact noBorder_of_head hc (head_append hm.stop_head)

end Searches

section Loops

variable {m : Markers} {c : UInt8} {skip : Nat}
  {cut : (found temp : Nat) → Files → Option Files} {step : Files → Section → Files}

/-- The two places that a loop is at in front of some sections. -/
def At (m : Markers) (front : List UInt8) : List Section → Nat → Nat → Prop
  | [], found, _ => found = npos
  | s :: _, found, found1 =>
    found = front.length ∧ found1 = front.length + m.start.length + 1 + s.2.length

/-- What is cut out of a text at a section. -/
def Cuts (m : Markers) (content : List UInt8) (cut : (found temp : Nat) → Files → Option Files)
    (step : Files → Section → Files) : Prop :=
  ∀ front rest s files, s.1 < 10 → content = front ++ (m.bytes s ++ rest) →
    cut front.length (m.start.length + 1 + s.2.length) files = some (step files s)

/-- One turn for each section. Induction on the sections. -/
theorem Good.loop_ends (hm : Good m c skip) {content rest : List UInt8}
    (hcut : Cuts m content cut step) (hlength : content.length < 2 ^ 63)
    (hrest : ¬ m.start <:+: rest) (hborder : Pattern.NoBorder m.start rest)
    {secs : List Section} (hsmall : ∀ s ∈ secs, s.1 < 10)
    (hfree : ∀ s ∈ secs, ¬ m.start <:+: s.2 ∧ ¬ m.stop <:+: s.2) {front : List UInt8}
    (hcontent : content = front ++ (secs.flatMap m.bytes ++ rest)) {found found1 : Nat}
    (hat : At m front secs found found1) (files : Files) :
    Loop.Ends (splitTurn content m skip cut) (found, found1, files)
      (some (secs.foldl step files)) := by
  induction secs generalizing front found found1 files with
  | nil =>
    have hnone : found = npos := hat
    apply Loop.Ends.done
    rw [splitTurn, if_pos hnone]
    rfl
  | cons s secs ih =>
    obtain ⟨rfl, rfl⟩ := hat
    have hs := hsmall s List.mem_cons_self
    have hbytes := hm.bytes_length hs
    have hstarts := hm.start_length
    have hskip := hm.skip_eq
    have hskip_lt := hm.skip_lt
    rw [List.flatMap_cons, List.append_assoc] at hcontent
    have htotal := congrArg List.length hcontent
    simp only [List.length_append] at htotal
    have hfound : front.length ≠ npos := by
      unfold npos
      omega
    have htemp : wrap (front.length + m.start.length + 1 + s.2.length + 2 ^ 64 - front.length) =
        m.start.length + 1 + s.2.length := by
      unfold wrap
      omega
    have hnext : wrap (front.length + m.start.length + 1 + s.2.length + skip) =
        front.length + m.start.length + 1 + s.2.length + skip := by
      unfold wrap
      omega
    have hinner := hcut front (secs.flatMap m.bytes ++ rest) s files hs hcontent
    have hturn : splitTurn content m skip cut
        (front.length, front.length + m.start.length + 1 + s.2.length, files) =
        .inr (find content m.start (front.length + skip),
          find content m.stop (front.length + m.start.length + 1 + s.2.length + skip),
          step files s) := by
      rw [splitTurn, if_neg hfound, htemp, hinner, hnext]
    apply Loop.Ends.turn hturn
    have hcontent' : content = (front ++ m.bytes s) ++ (secs.flatMap m.bytes ++ rest) := by
      rw [hcontent, List.append_assoc]
    refine ih (fun s' hs' => hsmall s' (List.mem_cons_of_mem s hs'))
      (fun s' hs' => hfree s' (List.mem_cons_of_mem s hs')) hcontent' ?_ (step files s)
    have hafter : Pattern.NoBorder m.start (secs.flatMap m.bytes ++ rest) := by
      cases secs with
      | nil => exact hborder
      | cons s' secs =>
        exact noBorder_of_head hm.start_tail
          (head_append (head_append (head_bytes hm.start_head s')))
    have hstart := @Good.find_start m c skip hm front _ s hs (hfree s List.mem_cons_self).1 hafter
    rw [← hcontent] at hstart
    cases secs with
    | nil =>
      rw [List.flatMap_nil, List.nil_append, Pattern.find_eq_none_iff.mpr hrest] at hstart
      exact hstart
    | cons s' secs =>
      have hs' := hsmall s' (List.mem_cons_of_mem s List.mem_cons_self)
      have hfree' := hfree s' (List.mem_cons_of_mem s List.mem_cons_self)
      have hprefix : m.start <+: (s' :: secs).flatMap m.bytes ++ rest := by
        rw [List.flatMap_cons, Markers.bytes, List.append_assoc, List.append_assoc]
        exact List.prefix_append _ _
      rw [Pattern.find_front hprefix] at hstart
      have hstops := List.length_pos_of_mem (List.mem_of_mem_head? hm.stop_head)
      have hstop := @Good.find_stop m c skip hm (front ++ m.bytes s)
        (secs.flatMap m.bytes ++ rest) s' 3 hs' hfree'.2 (by omega)
      have hlist : content =
          front ++ m.bytes s ++ (m.bytes s' ++ (secs.flatMap m.bytes ++ rest)) := by
        rw [hcontent', List.flatMap_cons, List.append_assoc (m.bytes s')]
      rw [← hlist, List.length_append] at hstop
      constructor
      · rw [hstart, List.length_append]
        rfl
      · rw [List.length_append, ← hstop]
        congr 1
        omega

theorem find_skip {front rest pat : List UInt8} (hfront : ¬ pat <:+: front)
    (hborder : Pattern.NoBorder pat rest) :
    find (front ++ rest) pat 0 = find (front ++ rest) pat front.length := by
  rw [find_append, find, if_pos (Nat.zero_le _), List.drop_zero,
    Pattern.find_append hfront hborder]
  cases Pattern.find pat rest with
  | none => rfl
  | some i => exact Nat.zero_add _

theorem Good.at_start (hm : Good m c skip) {front rest : List UInt8}
    (hstart : ¬ m.start <:+: front) (hstop : ¬ m.stop <:+: front)
    (hrest : ¬ m.start <:+: rest) (hborder : Pattern.NoBorder m.start rest)
    {secs : List Section} (hsmall : ∀ s ∈ secs, s.1 < 10) (hfree : ∀ s ∈ secs, ¬ m.stop <:+: s.2) :
    At m front secs (find (front ++ (secs.flatMap m.bytes ++ rest)) m.start 0)
      (find (front ++ (secs.flatMap m.bytes ++ rest)) m.stop 0) := by
  cases secs with
  | nil =>
    change find (front ++ rest) m.start 0 = npos
    rw [find_skip hstart hborder, find_append, Pattern.find_eq_none_iff.mpr hrest]
  | cons s secs =>
    have hhead : ((s :: secs).flatMap m.bytes ++ rest).head? = some c := by
      rw [List.flatMap_cons]
      exact head_append (head_append (head_bytes hm.start_head s))
    have hprefix : m.start <+: (s :: secs).flatMap m.bytes ++ rest := by
      rw [List.flatMap_cons, Markers.bytes, List.append_assoc, List.append_assoc]
      exact List.prefix_append _ _
    constructor
    · rw [find_skip hstart (noBorder_of_head hm.start_tail hhead), find_append,
        Pattern.find_front hprefix]
      rfl
    · rw [find_skip hstop (noBorder_of_head hm.stop_tail hhead), List.flatMap_cons,
        List.append_assoc]
      exact hm.find_stop (hsmall s List.mem_cons_self) (hfree s List.mem_cons_self)
        (Nat.zero_le _)

theorem substr_append (front part rest : List UInt8) :
    substr (front ++ (part ++ rest)) front.length part.length = some part := by
  rw [substr, if_pos (by simp), List.drop_left, List.take_left]

def diskStep (files : Files) (s : Section) : Files := files.set (Decimal.digits s.1) s.2

def mbrStep (files : Files) (s : Section) : Files :=
  files.set (Decimal.digits s.1) ((files (Decimal.digits s.1)).getD [] ++ mbrMarkers.bytes s)

theorem cutDisk_cuts {content : List UInt8} (hlength : content.length < 2 ^ 63) :
    Cuts diskMarkers content (cutDisk content) diskStep := by
  intro front rest s files hs hcontent
  have hdigits := digits_length hs
  have htotal := congrArg List.length hcontent
  simp only [Markers.bytes, List.length_append] at htotal
  have hnumber : substr content (front.length + 20) 1 = some (Decimal.digits s.1) := by
    have hpart := substr_append (front ++ diskMarkers.start) (Decimal.digits s.1)
      (s.2 ++ (diskMarkers.stop ++ Decimal.digits s.1) ++ rest)
    rw [hdigits, List.length_append] at hpart
    rw [← hpart, hcontent]
    simp only [Markers.bytes, List.append_assoc]
    rfl
  have hbody : substr content (front.length + 21) s.2.length = some s.2 := by
    have hpart := substr_append (front ++ diskMarkers.start ++ Decimal.digits s.1) s.2
      (diskMarkers.stop ++ Decimal.digits s.1 ++ rest)
    rw [List.length_append, List.length_append, hdigits] at hpart
    rw [← hpart, hcontent]
    simp only [Markers.bytes, List.append_assoc]
    rfl
  have htemp : wrap (diskMarkers.start.length + 1 + s.2.length + 2 ^ 64 - 21) = s.2.length := by
    change (20 + 1 + s.2.length + 2 ^ 64 - 21) % 2 ^ 64 = s.2.length
    omega
  simp only [cutDisk, hnumber, htemp, hbody, diskStep]

theorem cutMbr_cuts {content : List UInt8} (hlength : content.length < 2 ^ 63) :
    Cuts mbrMarkers content (cutMbr content) mbrStep := by
  intro front rest s files hs hcontent
  have hdigits := digits_length hs
  have hbytes := mbrMarkers_good.bytes_length hs
  have htotal := congrArg List.length hcontent
  simp only [List.length_append] at htotal
  have hnumber : substr content (front.length + 15) 1 = some (Decimal.digits s.1) := by
    have hpart := substr_append (front ++ mbrMarkers.start) (Decimal.digits s.1)
      (s.2 ++ (mbrMarkers.stop ++ Decimal.digits s.1) ++ rest)
    rw [hdigits, List.length_append] at hpart
    rw [← hpart, hcontent]
    simp only [Markers.bytes, List.append_assoc]
    rfl
  have htemp : wrap (mbrMarkers.start.length + 1 + s.2.length + 14) =
      (mbrMarkers.bytes s).length := by
    change (15 + 1 + s.2.length + 14) % 2 ^ 64 = _
    change _ = 2 * 15 + 2 + s.2.length at hbytes
    omega
  have hsection := substr_append front (mbrMarkers.bytes s) rest
  rw [← hcontent] at hsection
  simp only [cutMbr, hnumber, htemp, hsection, mbrStep]

end Loops

section Results

theorem digits_injective : Function.Injective Decimal.digits :=
  Function.LeftInverse.injective Decimal.ofDigits_digits

/-- Each section changes the file of its disk. Induction on the sections. -/
theorem foldl_digits {step : Files → Section → Files}
    {g : Option (List UInt8) → Section → List UInt8}
    (hstep : ∀ files s,
      step files s = files.set (Decimal.digits s.1) (g (files (Decimal.digits s.1)) s))
    {secs : List Section} (hnodup : (secs.map Prod.fst).Nodup) (files : Files) (d : Nat) :
    secs.foldl step files (Decimal.digits d) =
      match secs.lookup d with
      | none => files (Decimal.digits d)
      | some body => some (g (files (Decimal.digits d)) (d, body)) := by
  induction secs generalizing files with
  | nil => rfl
  | cons s secs ih =>
    obtain ⟨d', body⟩ := s
    rw [List.map_cons, List.nodup_cons] at hnodup
    rw [List.foldl_cons, ih hnodup.2, hstep, List.lookup_cons]
    by_cases hd : d = d'
    · subst hd
      have hnone : secs.lookup d = none := by
        rw [List.lookup_eq_none_iff]
        intro s' hs'
        rw [bne_iff_ne]
        rintro rfl
        exact hnodup.1 (List.mem_map.mpr ⟨s', hs', rfl⟩)
      simp only [hnone, Files.set, beq_self_eq_true, if_true]
    · have hname : Decimal.digits d ≠ Decimal.digits d' := fun h => hd (digits_injective h)
      simp only [Files.set, beq_eq_false_iff_ne.mpr hd, if_neg hname]

variable {t : Text}

theorem Text.free_of_disk (t : Text) {s : Section} (hs : s ∈ t.disks) {marker : List UInt8}
    (hmarker : marker ∈ allMarkers) : ¬ marker <:+: s.2 :=
  t.free s (List.mem_append_left t.mbrs hs) marker hmarker

theorem Text.free_of_mbr (t : Text) {s : Section} (hs : s ∈ t.mbrs) {marker : List UInt8}
    (hmarker : marker ∈ allMarkers) : ¬ marker <:+: s.2 :=
  t.free s (List.mem_append_right t.disks hs) marker hmarker

theorem Text.disks_end (t : Text) (hsmall : ∀ s ∈ t.disks, s.1 < 10) (hfirst : t.FoundFirst) :
    Loop.Ends (diskTurn t.content) (startOf t.content diskMarkers fun _ => none)
      (some (t.disks.foldl diskStep fun _ => none)) := by
  have hm := diskMarkers_good
  have hrest : ¬ diskMarkers.start <:+: t.mbrs.flatMap mbrMarkers.bytes :=
    mbrMarkers_good.sections_free (b := 80) rfl rfl (by decide) (by decide)
      fun s hs => t.free_of_mbr hs (by decide)
  have hborder : Pattern.NoBorder diskMarkers.start (t.mbrs.flatMap mbrMarkers.bytes) := by
    intro b hb
    rw [head_sections mbrMarkers_good.start_head hb]
    decide
  have hat : At diskMarkers [] t.disks _ _ := hm.at_start (by decide) (by decide) hrest hborder hsmall
    fun s hs => t.free_of_disk hs (by decide)
  have hends := hm.loop_ends (cutDisk_cuts t.length_lt) t.length_lt hrest hborder hsmall
    (fun s hs => ⟨t.free_of_disk hs (by decide), t.free_of_disk hs (by decide)⟩) rfl hat
    fun _ => none
  unfold startOf
  rw [hfirst _ (by decide), hfirst _ (by decide)]
  exact hends

theorem Text.mbrs_end (t : Text) (hsmall : ∀ s ∈ t.mbrs, s.1 < 10) (hfirst : t.FoundFirst)
    (files : Files) :
    Loop.Ends (mbrTurn t.content) (startOf t.content mbrMarkers files)
      (some (t.mbrs.foldl mbrStep files)) := by
  have hm := mbrMarkers_good
  have hstart : ¬ mbrMarkers.start <:+: t.disks.flatMap diskMarkers.bytes :=
    diskMarkers_good.sections_free (b := 109) rfl rfl (by decide) (by decide)
      fun s hs => t.free_of_disk hs (by decide)
  have hstop : ¬ mbrMarkers.stop <:+: t.disks.flatMap diskMarkers.bytes :=
    diskMarkers_good.sections_free (b := 109) rfl rfl (by decide) (by decide)
      fun s hs => t.free_of_disk hs (by decide)
  have hnil : ¬ mbrMarkers.start <:+: [] := by decide
  have hcontent : t.content = t.disks.flatMap diskMarkers.bytes ++
      (t.mbrs.flatMap mbrMarkers.bytes ++ []) := by
    rw [List.append_nil]
    rfl
  have hat := hm.at_start hstart hstop hnil (Pattern.noBorder_nil _) hsmall
    fun s hs => t.free_of_mbr hs (by decide)
  have hends := hm.loop_ends (cutMbr_cuts t.length_lt) t.length_lt hnil (Pattern.noBorder_nil _)
    hsmall (fun s hs => ⟨t.free_of_mbr hs (by decide), t.free_of_mbr hs (by decide)⟩) hcontent
    (hcontent ▸ hat) files
  unfold startOf
  rw [hfirst _ (by decide), hfirst _ (by decide)]
  exact hends

theorem Text.right_of_found (t : Text) (hsmall : ∀ d ∈ t.numbers, d < 10) (hfirst : t.FoundFirst) :
    t.Right := by
  have hdisk : ∀ s ∈ t.disks, s.1 < 10 := fun s hs =>
    hsmall s.1 (List.mem_append_left _ (List.mem_map_of_mem hs))
  have hmbr : ∀ s ∈ t.mbrs, s.1 < 10 := fun s hs =>
    hsmall s.1 (List.mem_append_right _ (List.mem_map_of_mem hs))
  refine ⟨_, ⟨_, t.disks_end hdisk hfirst, t.mbrs_end hmbr hfirst _⟩, fun d hd => ?_⟩
  rw [@foldl_digits mbrStep (fun old s => old.getD [] ++ mbrMarkers.bytes s) (fun _ _ => rfl)
    _ t.mbrs_nodup, @foldl_digits diskStep (fun _ s => s.2) (fun _ _ => rfl) _ t.disks_nodup]
  unfold Text.file
  cases hmbrs : t.mbrs.lookup d with
  | some body => cases t.disks.lookup d <;> rfl
  | none =>
    cases hdisks : t.disks.lookup d with
    | some body => simp
    | none =>
      rw [List.lookup_eq_none_iff] at hmbrs hdisks
      obtain hmem | hmem := List.mem_append.mp hd
      · obtain ⟨s, hs, rfl⟩ := List.mem_map.mp hmem
        simpa using hdisks s hs
      · obtain ⟨s, hs, rfl⟩ := List.mem_map.mp hmem
        simpa using hmbrs s hs

/-- Every file has one byte as the number in its name. -/
def ShortNames (files : Files) : Prop := ∀ name, files name ≠ none → name.length ≤ 1

theorem ShortNames.set {files : Files} (h : ShortNames files) {name data : List UInt8}
    (hname : name.length ≤ 1) : ShortNames (files.set name data) := by
  intro name' hsome
  unfold Files.set at hsome
  split at hsome
  · subst name'
    exact hname
  · exact h name' hsome

theorem substr_length {content part : List UInt8} {pos count : Nat}
    (h : substr content pos count = some part) : part.length ≤ count := by
  unfold substr at h
  split at h
  · cases h
    exact List.length_take_le _ _
  · cases h

theorem cutDisk_short {content : List UInt8} {found temp : Nat} {files files' : Files}
    (h : cutDisk content found temp files = some files') (hshort : ShortNames files) :
    ShortNames files' := by
  unfold cutDisk at h
  split at h
  · cases h
  · rename_i filenumber hnumber
    split at h
    · cases h
    · cases h
      exact hshort.set (substr_length hnumber)

theorem cutMbr_short {content : List UInt8} {found temp : Nat} {files files' : Files}
    (h : cutMbr content found temp files = some files') (hshort : ShortNames files) :
    ShortNames files' := by
  unfold cutMbr at h
  split at h
  · cases h
  · rename_i filenumber hnumber
    split at h
    · cases h
    · cases h
      exact hshort.set (substr_length hnumber)

theorem ends_short {content : List UInt8} {m : Markers} {skip : Nat}
    {cut : (found temp : Nat) → Files → Option Files}
    (hcut : ∀ found temp files files', cut found temp files = some files' → ShortNames files →
      ShortNames files') {a : Nat × Nat × Files} {files : Files}
    (hends : Loop.Ends (splitTurn content m skip cut) a (some files)) (ha : ShortNames a.2.2) :
    ShortNames files := by
  have hkeeps := hends.keeps (I := fun a => ShortNames a.2.2)
    (P := fun b => ∀ files, b = some files → ShortNames files) ?_ ?_ ha
  · exact hkeeps files rfl
  · rintro ⟨found, found1, files⟩ b hbody hshort files' rfl
    simp only [splitTurn] at hbody
    split at hbody
    · cases hbody
      exact hshort
    · split at hbody
      · cases hbody
      · cases hbody
  · rintro ⟨found, found1, files⟩ a' hbody hshort
    simp only [splitTurn] at hbody
    split at hbody
    · cases hbody
    · split at hbody
      · cases hbody
      · cases hbody
        exact hcut _ _ _ _ ‹_› hshort

theorem Text.Right.small (h : t.Right) {d : Nat} (hd : d ∈ t.numbers) : d < 10 := by
  obtain ⟨files, ⟨disks, hdisks, hmbrs⟩, hfiles⟩ := h
  have hnone : ShortNames fun _ => none := fun name hname => absurd rfl hname
  have hshort : ShortNames disks := ends_short (fun _ _ _ _ => cutDisk_short) hdisks hnone
  have hname := ends_short (fun _ _ _ _ => cutMbr_short) hmbrs hshort (Decimal.digits d)
    (by rw [hfiles d hd]; exact Option.some_ne_none _)
  by_contra hlarge
  unfold Decimal.digits at hname
  rw [if_neg (by omega), List.length_reverse, List.length_map,
    Nat.digits_def' (by decide) (by omega), List.length_cons] at hname
  have hrest : (Nat.digits 10 (d / 10)).length = 0 := by omega
  rw [List.length_eq_zero_iff, Nat.digits_eq_nil_iff_eq_zero] at hrest
  omega

def tenthDisk : Text where
  disks := [(10, [65])]
  mbrs := []
  disks_nodup := by decide
  mbrs_nodup := by decide
  free := by decide
  length_lt := by decide

end Results

end DynamicDisks
end UrBackup
