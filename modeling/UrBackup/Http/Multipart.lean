import UrBackup.Cleanup.AutomaticArchive
import UrBackup.Lib.Pattern

/-! The parts of an uploaded form: one loop over the bytes finds the boundaries, the lines of the
headers and the data. -/
namespace UrBackup

namespace HTTPClient

open AutomaticArchive (toUpper)

def lf : UInt8 := 10
def cr : UInt8 := 13
def space : UInt8 := 32
def quote : UInt8 := 34
def colon : UInt8 := 58

def crlf : List UInt8 := [cr, lf]
def dashes : List UInt8 := [45, 45]

/-- `CONTENT-DISPOSITION` -/
def contentDisposition : List UInt8 :=
  [67, 79, 78, 84, 69, 78, 84, 45, 68, 73, 83, 80, 79, 83, 73, 84, 73, 79, 78]

/-- `CONTENT-TYPE` -/
def contentType : List UInt8 := [67, 79, 78, 84, 69, 78, 84, 45, 84, 89, 80, 69]

/-- `name="` -/
def nameKey : List UInt8 := [110, 97, 109, 101, 61, 34]

/-- `filename="` -/
def filenameKey : List UInt8 := [102, 105, 108, 101, 110, 97, 109, 101, 61, 34]

/-- `getbetween`. No second text here is a line feed. -/
def getbetween (s1 s2 data : List UInt8) : List UInt8 :=
  match Pattern.find s1 data with
  | none => []
  | some off1 =>
    match Pattern.find s2 (data.drop (off1 + s1.length)) with
    | none => []
    | some off2 => (data.drop (off1 + s1.length)).take off2

structure PostFile where
  name : List UInt8
  filename : List UInt8
  contenttype : List UInt8
  data : List UInt8
  deriving DecidableEq

inductive PartState where
  | boundary
  | lineStart
  | key
  | value
  | data
  deriving DecidableEq

/-- The variables of the loop, and the files that were posted. -/
structure PartParser where
  state : PartState
  rboundary : List UInt8
  key : List UInt8
  value : List UInt8
  filename : List UInt8
  name : List UInt8
  contenttype : List UInt8
  start : Nat
  posted : List PostFile

namespace PartParser

def onKey (p : PartParser) (ch : UInt8) : PartParser :=
  if ch ≠ colon then { p with key := p.key ++ [toUpper ch] } else { p with state := .value }

def onLine (p : PartParser) : PartParser :=
  let p :=
    if p.key = contentDisposition then
      { p with
        name := getbetween nameKey [quote] p.value
        filename := getbetween filenameKey [quote] p.value }
    else if p.key = contentType then { p with contenttype := p.value }
    else p
  { p with value := [], key := [], state := .lineStart }

/-- The data end two bytes before the place `i`. With fewer bytes the length has wrapped around. -/
def post (p : PartParser) (data : List UInt8) (i : Nat) : PartParser :=
  let file := data.drop p.start
  { p with
    posted := p.posted ++ [⟨p.name, p.filename, p.contenttype,
      if p.start + 2 ≤ i then file.take (i - p.start - 2) else file⟩]
    state := .boundary
    rboundary := p.rboundary.take (p.rboundary.length - 2) }

/-- One turn at the place `i`, from which on the text is `ch :: text`, and how far the index is
moved by hand. -/
def turn (p : PartParser) (data : List UInt8) (i : Nat) (ch : UInt8) (text : List UInt8) :
    PartParser × Nat :=
  match p.state with
  | .boundary =>
    if p.rboundary.isPrefixOf (ch :: text) then
      ({ p with state := .key }, p.rboundary.length + 1)
    else (p, 0)
  | .lineStart =>
    if ch = lf then
      (onKey { p with state := .data, rboundary := p.rboundary ++ dashes, start := i + 1 } ch, 0)
    else if ch = cr then (p, 0)
    else (onKey { p with state := .key } ch, 0)
  | .key => (p.onKey ch, 0)
  | .value =>
    if ch ≠ lf ∧ ch ≠ cr then ({ p with value := p.value ++ [ch] }, 0)
    else if ch = lf then (p.onLine, 0)
    else (p, 0)
  | .data =>
    if p.rboundary.isPrefixOf (ch :: text) then
      (p.post data i, (p.post data i).rboundary.length + 2)
    else (p, 0)

/-- The loop. The number in front of the text says how many bytes are still skipped. -/
def loop (data : List UInt8) : Nat → List UInt8 → Nat → PartParser → PartParser
  | _, [], _, p => p
  | skip + 1, _ :: text, i, p => loop data skip text (i + 1) p
  | 0, ch :: text, i, p =>
    loop data (p.turn data i ch text).2 text (i + 1) (p.turn data i ch text).1

def initial (boundary : List UInt8) : PartParser :=
  ⟨.boundary, dashes ++ boundary, [], [], [], [], [], 0, []⟩

end PartParser

/-- What is given to `addPostFile`. -/
def parseMultipartData (data boundary : List UInt8) : List PostFile :=
  (PartParser.loop data 0 data 0 (.initial boundary)).posted

section Encoding

/-- `Content-Disposition` -/
def dispositionHeader : List UInt8 :=
  [67, 111, 110, 116, 101, 110, 116, 45, 68, 105, 115, 112, 111, 115, 105, 116, 105, 111, 110]

/-- `Content-Type` -/
def typeHeader : List UInt8 := [67, 111, 110, 116, 101, 110, 116, 45, 84, 121, 112, 101]

/-- `form-data; ` -/
def formData : List UInt8 := [102, 111, 114, 109, 45, 100, 97, 116, 97, 59, 32]

/-- `"; ` -/
def betweenNames : List UInt8 := [34, 59, 32]

def blanks (blank : Bool) : List UInt8 := if blank then [space] else []

def disposition (part : PostFile) : List UInt8 :=
  formData ++ (nameKey ++ (part.name ++ (betweenNames ++ (filenameKey ++ (part.filename ++
    [quote])))))

/-- The lines in front of the data, with or without a blank behind the colons. -/
def header (blank : Bool) (boundary : List UInt8) (part : PostFile) : List UInt8 :=
  dashes ++ boundary ++ crlf ++ (dispositionHeader ++ colon :: (blanks blank ++ disposition part ++
    crlf ++ (typeHeader ++ colon :: (blanks blank ++ part.contenttype ++ crlf ++ crlf))))

def encodeParts (blank : Bool) (boundary : List UInt8) (parts : List PostFile) : List UInt8 :=
  parts.flatMap (fun part => header blank boundary part ++ part.data ++ crlf) ++
    (dashes ++ boundary ++ dashes ++ crlf)

/-- A text without quotes and line breaks. -/
def Plain (text : List UInt8) : Prop := quote ∉ text ∧ cr ∉ text ∧ lf ∉ text

/-- Parts that can be sent with a boundary. -/
structure Sendable (boundary : List UInt8) (parts : List PostFile) : Prop where
  line : cr ∉ boundary ∧ lf ∉ boundary
  plain : ∀ part ∈ parts, Plain part.name ∧ Plain part.filename ∧ Plain part.contenttype
  apart : ∀ part ∈ parts, ¬ (dashes ++ boundary) <:+: part.data

end Encoding

namespace PartParser

variable {data text : List UInt8} {p : PartParser} {i : Nat}

theorem loop_cons (data : List UInt8) (ch : UInt8) (text : List UInt8) (i : Nat) (p : PartParser) :
    loop data 0 (ch :: text) i p =
      loop data (p.turn data i ch text).2 text (i + 1) (p.turn data i ch text).1 := rfl

theorem loop_skip (skipped text : List UInt8) (i : Nat) :
    loop data skipped.length (skipped ++ text) i p = loop data 0 text (i + skipped.length) p := by
  induction skipped generalizing i with
  | nil => rfl
  | cons ch skipped ih =>
    rw [List.length_cons, List.cons_append, loop, ih]
    congr 1
    omega

theorem loop_boundary (hstate : p.state = .boundary) (hne : p.rboundary ≠ []) (x y : UInt8) :
    loop data 0 (p.rboundary ++ x :: y :: text) i p =
      loop data 0 text (i + (p.rboundary.length + 2)) { p with state := .key } := by
  obtain ⟨ch, rest, hrest⟩ := List.exists_cons_of_ne_nil hne
  have hfront : p.rboundary.isPrefixOf (ch :: (rest ++ x :: y :: text)) = true := by
    rw [List.isPrefixOf_iff_prefix, hrest, ← List.cons_append]
    exact List.prefix_append _ _
  have hskip := @loop_skip data { p with state := .key } (rest ++ [x, y]) text (i + 1)
  have hlength : p.rboundary.length = rest.length + 1 := by rw [hrest, List.length_cons]
  rw [List.length_append, List.append_assoc] at hskip
  conv_lhs => rw [hrest, List.cons_append, loop_cons]
  simp only [turn, hstate, hfront, if_true, hlength]
  rw [show i + (rest.length + 1 + 2) = i + 1 + (rest.length + [x, y].length) by
    simp only [List.length_cons, List.length_nil]; omega]
  exact hskip

theorem loop_key {key : List UInt8} (hstate : p.state = .key) (hkey : colon ∉ key) :
    loop data 0 (key ++ colon :: text) i p = loop data 0 text (i + (key.length + 1))
      { p with key := p.key ++ key.map toUpper, state := .value } := by
  induction key generalizing i p with
  | nil => simp [loop_cons, turn, hstate, onKey]
  | cons ch key ih =>
    rw [List.mem_cons, not_or] at hkey
    rw [List.cons_append, loop_cons]
    simp only [turn, hstate, onKey, if_pos (Ne.symm hkey.1)]
    rw [ih rfl hkey.2, List.append_assoc, List.length_cons, List.map_cons]
    congr 1
    omega

theorem loop_lineStart {ch : UInt8} (hstate : p.state = .lineStart) (hch : ch ≠ lf ∧ ch ≠ cr) :
    loop data 0 (ch :: text) i p = loop data 0 (ch :: text) i { p with state := .key } := by
  simp only [loop_cons, turn, hstate, if_neg hch.1, if_neg hch.2]

theorem loop_value {value : List UInt8} (hstate : p.state = .value)
    (hvalue : cr ∉ value ∧ lf ∉ value) :
    loop data 0 (value ++ crlf ++ text) i p = loop data 0 text (i + (value.length + 2))
      ({ p with value := p.value ++ value }.onLine) := by
  induction value generalizing i p with
  | nil =>
    have hfirst : p.turn data i cr (lf :: text) = (p, 0) := by
      simp only [turn, hstate]
      rfl
    have hsecond : p.turn data (i + 1) lf text = (p.onLine, 0) := by
      simp only [turn, hstate]
      rfl
    rw [List.append_nil, crlf, List.nil_append, List.cons_append, List.cons_append,
      List.nil_append, loop_cons, hfirst, loop_cons, hsecond]
    rfl
  | cons ch value ih =>
    obtain ⟨hcr, hlf⟩ := hvalue
    rw [List.mem_cons, not_or] at hcr hlf
    rw [List.cons_append, List.cons_append, loop_cons]
    simp only [turn, hstate, if_pos (And.intro (Ne.symm hlf.1) (Ne.symm hcr.1))]
    rw [ih rfl ⟨hcr.2, hlf.2⟩, List.append_assoc, List.length_cons]
    congr 1
    omega

theorem loop_empty (hstate : p.state = .lineStart) :
    loop data 0 (crlf ++ text) i p = loop data 0 text (i + 2) { p with
      state := .data
      rboundary := p.rboundary ++ dashes
      start := i + 2
      key := p.key ++ [lf] } := by
  have hcr : ¬ cr = lf := by decide
  have hcolon : lf ≠ colon := by decide
  simp only [crlf, List.cons_append, List.nil_append, loop_cons, turn, hstate, if_neg hcr, if_true,
    onKey, if_pos hcolon]
  rfl

/-- The data go to the first place of the closing boundary. -/
theorem loop_data (hstate : p.state = .data) (hne : p.rboundary ≠ []) : loop data 0 text i p =
    match Pattern.find p.rboundary text with
    | none => p
    | some k => loop data ((p.post data (i + k)).rboundary.length + 2) (text.drop (k + 1))
        (i + k + 1) (p.post data (i + k)) := by
  induction text generalizing i with
  | nil =>
    rw [Pattern.find, if_neg hne]
    rfl
  | cons ch text ih =>
    rw [loop_cons, Pattern.find]
    simp only [turn, hstate]
    by_cases hhere : p.rboundary.isPrefixOf (ch :: text) = true
    · simp only [hhere, if_true]
      rfl
    · simp only [hhere, if_false, ih, Bool.false_eq_true]
      cases Pattern.find p.rboundary text with
      | none => rfl
      | some k =>
        simp only [Option.map_some, List.drop_succ_cons]
        rw [show i + 1 + k = i + (k + 1) by omega]

theorem turn_posted (ch : UInt8) : p.posted <+: (p.turn data i ch text).1.posted := by
  have hkey (q : PartParser) : (q.onKey ch).posted = q.posted := by
    unfold onKey
    split <;> rfl
  have hline : p.onLine.posted = p.posted := by
    unfold onLine
    dsimp only
    split
    · rfl
    · split <;> rfl
  unfold turn
  cases p.state with
  | key => simp [hkey]
  | boundary | lineStart | value | data =>
    dsimp only
    split_ifs <;> simp [hkey, hline, post]

/-- What was posted stays. Induction on the text. -/
theorem posted_stays (skip : Nat) : p.posted <+: (loop data skip text i p).posted := by
  induction text generalizing skip i p with
  | nil => cases skip <;> exact List.prefix_refl _
  | cons ch text ih =>
    cases skip with
    | succ skip => exact ih skip
    | zero => exact (turn_posted ch).trans (ih _)

def ready (blank : Bool) (boundary : List UInt8) (part : PostFile) : PartParser where
  state := .data
  rboundary := dashes ++ boundary ++ dashes
  key := [lf]
  value := []
  filename := getbetween filenameKey [quote] (blanks blank ++ disposition part)
  name := getbetween nameKey [quote] (blanks blank ++ disposition part)
  contenttype := blanks blank ++ part.contenttype
  start := (header blank boundary part).length
  posted := []

theorem plain_blanks (blank : Bool) : cr ∉ blanks blank ∧ lf ∉ blanks blank := by
  cases blank <;> decide

theorem plain_disposition {part : PostFile} (hname : Plain part.name)
    (hfilename : Plain part.filename) : cr ∉ disposition part ∧ lf ∉ disposition part := by
  have hcr : cr ∉ formData ∧ cr ∉ nameKey ∧ cr ∉ betweenNames ∧ cr ∉ filenameKey ∧ cr ∉ [quote] := by
    decide
  have hlf : lf ∉ formData ∧ lf ∉ nameKey ∧ lf ∉ betweenNames ∧ lf ∉ filenameKey ∧ lf ∉ [quote] := by
    decide
  simp only [disposition, List.mem_append, not_or]
  exact ⟨by simp [hcr, hname.2.1, hfilename.2.1], by simp [hlf, hname.2.2, hfilename.2.2]⟩

theorem loop_header (data : List UInt8) (blank : Bool) (boundary : List UInt8) {part : PostFile}
    (hname : Plain part.name) (hfilename : Plain part.filename) (htype : Plain part.contenttype) :
    loop data 0 (header blank boundary part ++ text) 0 (initial boundary) =
      loop data 0 text (header blank boundary part).length (ready blank boundary part) := by
  have hblanks := plain_blanks blank
  have hdisposition := plain_disposition hname hfilename
  have hvalue : cr ∉ blanks blank ++ disposition part ∧ lf ∉ blanks blank ++ disposition part := by
    simp [hblanks, hdisposition]
  have htypeValue : cr ∉ blanks blank ++ part.contenttype ∧
      lf ∉ blanks blank ++ part.contenttype := by
    simp [hblanks, htype.2]
  have hsplit : header blank boundary part ++ text = (initial boundary).rboundary ++ cr :: lf ::
      (dispositionHeader ++ colon :: (blanks blank ++ disposition part ++ crlf ++
        (typeHeader ++ colon :: (blanks blank ++ part.contenttype ++ crlf ++ (crlf ++ text))))) := by
    simp [header, initial, crlf]
  rw [hsplit, loop_boundary rfl (by simp [initial, dashes]), loop_key rfl (by decide),
    loop_value rfl hvalue]
  have htype' : typeHeader = 67 :: typeHeader.tail := rfl
  rw [htype', List.cons_append, loop_lineStart rfl (by decide), ← List.cons_append, ← htype',
    loop_key rfl (by decide), loop_value rfl htypeValue, loop_empty rfl]
  have hfirst : dispositionHeader.map toUpper = contentDisposition := by decide
  have hsecond : typeHeader.map toUpper = contentType := by decide
  have hne : ¬ contentType = contentDisposition := by decide
  have hlength : (header blank boundary part).length = (initial boundary).rboundary.length + 2 +
      (dispositionHeader.length + 1) + ((blanks blank ++ disposition part).length + 2) +
      (typeHeader.length + 1) + ((blanks blank ++ part.contenttype).length + 2) + 2 := by
    simp only [header, initial, crlf, List.length_append, List.length_cons, List.length_nil]
    omega
  rw [hlength, ready, hlength]
  simp only [onLine, initial, List.nil_append, hfirst, hsecond, if_true, if_neg hne, Nat.zero_add]

end PartParser

section Names

variable {part : PostFile} {s1 first value name : List UInt8}

/-- `filename=` -/
def filenameEq : List UInt8 := filenameKey.dropLast

/-- What is taken for the file name when the name ends like the key in front of it. -/
def betweenQuotes : List UInt8 := betweenNames.tail ++ filenameEq

theorem getbetween_quote (hfirst : ¬ s1 <:+: first)
    (hborder : ∀ rest, Pattern.NoBorder s1 (s1 ++ rest)) (hvalue : quote ∉ value)
    (rest : List UInt8) :
    getbetween s1 [quote] (first ++ (s1 ++ (value ++ quote :: rest))) = value := by
  have hquote : ¬ [quote] <:+: value := by rwa [List.singleton_infix_iff]
  have hnone : Pattern.NoBorder [quote] (quote :: rest) := fun c _ => List.not_mem_nil
  have hdrop : (first ++ (s1 ++ (value ++ quote :: rest))).drop (first.length + 0 + s1.length) =
      value ++ quote :: rest := by
    rw [Nat.add_zero, ← List.append_assoc, List.drop_left' List.length_append]
  have hfind := Pattern.find_append hquote hnone
  rw [@Pattern.find_front _ _ [quote] (quote :: rest) (List.prefix_append [quote] rest),
    Option.map_some, Nat.add_zero] at hfind
  simp only [getbetween, Pattern.find_append hfirst (hborder _),
    Pattern.find_front (List.prefix_append s1 _), Option.map_some, hdrop, hfind, List.take_left]

theorem getbetween_name (hname : quote ∉ part.name) :
    getbetween nameKey [quote] (disposition part) = part.name := by
  have hborder (rest : List UInt8) : Pattern.NoBorder nameKey (nameKey ++ rest) := by
    intro c hc
    cases hc
    decide
  exact getbetween_quote (by decide) hborder hname _

theorem filenameKey_border (rest : List UInt8) :
    Pattern.NoBorder filenameKey (filenameKey ++ rest) := by
  intro c hc
  cases hc
  decide

theorem nameKey_append (name : List UInt8) :
    formData ++ nameKey ++ name = formData ++ nameKey.dropLast ++ quote :: name := by
  rw [List.append_assoc, List.append_assoc]
  rfl

theorem not_filenameKey (hname : quote ∉ name) : ¬ filenameKey <:+: formData ++ nameKey ++ name := by
  rw [nameKey_append]
  intro h
  rcases @Pattern.infix_append_cons _ quote filenameEq _ _ h with h | h | h
  · exact absurd h (by decide)
  · exact absurd h (by decide)
  · exact hname h

theorem getbetween_filename (hname : quote ∉ part.name) (hfilename : quote ∉ part.filename)
    (h : ¬ filenameEq <:+ part.name) :
    getbetween filenameKey [quote] (disposition part) = part.filename := by
  have hfirst : ¬ filenameKey <:+: formData ++ nameKey ++ part.name ++ betweenNames := by
    intro hin
    rcases @Pattern.infix_append_cons _ quote filenameEq _ _ hin with hin | hin | hin
    · exact not_filenameKey hname hin
    · rw [nameKey_append] at hin
      exact h (Pattern.suffix_of_append_cons (by decide) hin)
    · exact absurd hin (by decide)
  have hsplit : disposition part = formData ++ nameKey ++ part.name ++ betweenNames ++
      (filenameKey ++ (part.filename ++ quote :: [])) := by simp [disposition]
  rw [hsplit, getbetween_quote hfirst filenameKey_border hfilename]

theorem getbetween_filename_suffix (hname : quote ∉ part.name) (h : filenameEq <:+ part.name) :
    getbetween filenameKey [quote] (disposition part) = betweenQuotes := by
  obtain ⟨name, hsuffix⟩ := h
  have hquote : quote ∉ name := fun hmem => hname (hsuffix ▸ List.mem_append_left _ hmem)
  have hsplit : disposition part = formData ++ nameKey ++ name ++
      (filenameKey ++ (betweenQuotes ++ quote :: (part.filename ++ [quote]))) := by
    rw [disposition, ← hsuffix]
    simp [betweenQuotes, filenameEq, filenameKey, betweenNames, quote]
  rw [hsplit, getbetween_quote (not_filenameKey hquote) filenameKey_border (by decide)]

end Names

section Forms

open PartParser

variable {blank : Bool} {boundary : List UInt8} {parts : List PostFile} {part : PostFile}

def afterHeader (blank : Bool) (boundary : List UInt8) (part : PostFile) (more : List PostFile) :
    List UInt8 :=
  part.data ++ cr :: lf :: encodeParts blank boundary more

theorem encodeParts_cons (part : PostFile) (more : List PostFile) :
    encodeParts blank boundary (part :: more) =
      header blank boundary part ++ afterHeader blank boundary part more := by
  simp [encodeParts, afterHeader, crlf]

theorem parse_cons (h : Sendable boundary (part :: more)) :
    parseMultipartData (encodeParts blank boundary (part :: more)) boundary =
      (loop (encodeParts blank boundary (part :: more)) 0 (afterHeader blank boundary part more)
        (header blank boundary part).length (ready blank boundary part)).posted := by
  obtain ⟨hname, hfilename, htype⟩ := h.plain part List.mem_cons_self
  rw [parseMultipartData, ← loop_header _ blank boundary hname hfilename htype, ← encodeParts_cons]

theorem ready_rboundary_ne_nil : (ready blank boundary part).rboundary ≠ [] := by
  simp [ready, dashes]

/-- What is posted first, where the closing boundary was found. -/
theorem post_ready {more : List PostFile} (k : Nat) :
    ((ready blank boundary part).post (encodeParts blank boundary (part :: more))
      ((header blank boundary part).length + k)).posted =
      [⟨getbetween nameKey [quote] (blanks blank ++ disposition part),
        getbetween filenameKey [quote] (blanks blank ++ disposition part),
        blanks blank ++ part.contenttype,
        if 2 ≤ k then (afterHeader blank boundary part more).take (k - 2)
        else afterHeader blank boundary part more⟩] := by
  have hiff : (header blank boundary part).length + 2 ≤ (header blank boundary part).length + k ↔
      2 ≤ k := Nat.add_le_add_iff_left
  have hsub : (header blank boundary part).length + k - (header blank boundary part).length - 2 =
      k - 2 := by omega
  simp only [post, ready, List.nil_append, encodeParts_cons, List.drop_left, hiff, hsub]

/-- Where the first file is right, the form has one part and its lines are read as they were
meant. -/
theorem one_of_posted {more : List PostFile} (h : Sendable boundary (part :: more))
    (hposted : parseMultipartData (encodeParts blank boundary (part :: more)) boundary =
      part :: more) :
    more = [] ∧ blank = false ∧ (¬ filenameEq <:+ part.name ∨ part.filename = betweenQuotes) := by
  obtain ⟨hname, -, -⟩ := h.plain part List.mem_cons_self
  rw [parse_cons h, loop_data rfl ready_rboundary_ne_nil] at hposted
  cases hfind : Pattern.find (ready blank boundary part).rboundary
      (afterHeader blank boundary part more) with
  | none =>
    rw [hfind] at hposted
    cases hposted
  | some k =>
    rw [hfind] at hposted
    have hfirst := @posted_stays (encodeParts blank boundary (part :: more))
      ((afterHeader blank boundary part more).drop (k + 1)) ((ready blank boundary part).post
        (encodeParts blank boundary (part :: more)) ((header blank boundary part).length + k))
      ((header blank boundary part).length + k + 1) (((ready blank boundary part).post
        (encodeParts blank boundary (part :: more))
        ((header blank boundary part).length + k)).rboundary.length + 2)
    rw [hposted, post_ready] at hfirst
    have hpart := (List.cons_prefix_cons.mp hfirst).1
    have htype := congrArg PostFile.contenttype hpart
    have hdata := congrArg PostFile.data hpart
    have hblank : blank = false := by
      cases blank with
      | false => rfl
      | true => exact absurd (congrArg List.length htype) (Nat.succ_ne_self _)
    have hk : k = part.data.length + 2 := by
      have hlength := congrArg List.length hdata
      dsimp only at hlength
      split at hlength
      · rw [List.length_take, afterHeader, List.length_append, List.length_cons,
          List.length_cons] at hlength
        omega
      · rw [afterHeader, List.length_append, List.length_cons] at hlength
        omega
    refine ⟨?_, hblank, ?_⟩
    · have hclosing := Pattern.prefix_of_find hfind
      rw [hk, afterHeader, ← List.drop_drop, List.drop_left] at hclosing
      cases more with
      | nil => rfl
      | cons part' more =>
        obtain ⟨tail, htail⟩ : ∃ tail,
            encodeParts blank boundary (part' :: more) = dashes ++ boundary ++ cr :: tail :=
          ⟨_, by rw [encodeParts_cons, header, crlf]; simp only [List.append_assoc]; rfl⟩
        change dashes ++ boundary ++ dashes <+: encodeParts blank boundary (part' :: more) at hclosing
        rw [htail, List.prefix_append_right_inj] at hclosing
        exact absurd (List.cons_prefix_cons.mp hclosing).1 (by decide)
    · by_contra hnot
      obtain ⟨hsuffix, hne⟩ := not_or.mp hnot
      subst hblank
      have hfilename := congrArg PostFile.filename hpart
      exact hne (hfilename.symm.trans
        (getbetween_filename_suffix hname.1 (not_not.mp hsuffix)))

theorem parse_nil : parseMultipartData (encodeParts blank boundary []) boundary = [] := by
  have hsplit : encodeParts blank boundary [] = (initial boundary).rboundary ++ 45 :: 45 :: crlf := by
    simp [encodeParts, initial, dashes]
  rw [parseMultipartData, hsplit, loop_boundary rfl (by simp [initial, dashes])]
  rfl

/-- The data of a form with one part go to its closing boundary. -/
theorem find_closing (h : Sendable boundary [part]) :
    Pattern.find (ready blank boundary part).rboundary (afterHeader blank boundary part []) =
      some (part.data.length + 2) := by
  have hdata : ¬ dashes ++ boundary ++ dashes <:+: part.data := fun hin =>
    h.apart part List.mem_cons_self ((List.prefix_append _ dashes).isInfix.trans hin)
  have hcr : cr ∉ dashes ++ boundary ++ dashes := by
    simpa [dashes] using ⟨by decide, h.line.1, by decide⟩
  have hborder : Pattern.NoBorder (dashes ++ boundary ++ dashes)
      (cr :: lf :: encodeParts blank boundary []) := by
    intro c hc
    cases hc
    exact fun hmem => hcr (List.mem_of_mem_tail hmem)
  have hclosing : Pattern.find (dashes ++ boundary ++ dashes)
      (cr :: lf :: encodeParts blank boundary []) = some 2 := by
    rw [Pattern.find, if_neg, Pattern.find, if_neg, Pattern.find_front]
    · rfl
    · rw [encodeParts, List.flatMap_nil, List.nil_append]
      exact List.prefix_append _ _
    · simp [dashes, lf]
    · simp [dashes, cr]
  exact (Pattern.find_append hdata hborder).trans (by rw [hclosing]; rfl)

theorem parse_one (h : Sendable boundary [part])
    (hname : ¬ filenameEq <:+ part.name ∨ part.filename = betweenQuotes) :
    parseMultipartData (encodeParts false boundary [part]) boundary = [part] := by
  obtain ⟨hquote, hfilename, -⟩ := h.plain part List.mem_cons_self
  have hfile : getbetween filenameKey [quote] (disposition part) = part.filename := by
    by_cases hsuffix : filenameEq <:+ part.name
    · rw [getbetween_filename_suffix hquote.1 hsuffix, hname.resolve_left (not_not_intro hsuffix)]
    · exact getbetween_filename hquote.1 hfilename.1 hsuffix
  have hpost := @post_ready false boundary part [] (part.data.length + 2)
  rw [blanks, if_neg Bool.false_ne_true, List.nil_append, List.nil_append,
    getbetween_name hquote.1, hfile, if_pos (Nat.le_add_left 2 _), Nat.add_sub_cancel, afterHeader,
    List.take_left] at hpost
  have hrest : (afterHeader false boundary part []).drop (part.data.length + 2 + 1) =
      (45 :: boundary ++ dashes ++ [cr]) ++ [lf] := by
    rw [afterHeader, Nat.add_assoc, ← List.drop_drop, List.drop_left]
    simp [encodeParts, dashes, crlf]
  have hopening : ((ready false boundary part).post (encodeParts false boundary [part])
      ((header false boundary part).length + (part.data.length + 2))).rboundary =
      45 :: 45 :: boundary := by
    simp [post, ready, dashes]
  have hskip : (45 :: 45 :: boundary).length + 2 = (45 :: boundary ++ dashes ++ [cr]).length := by
    simp [dashes]
  have hstate : ((ready false boundary part).post (encodeParts false boundary [part])
      ((header false boundary part).length + (part.data.length + 2))).state = .boundary := rfl
  have hend : ¬ (45 :: 45 :: boundary).isPrefixOf [lf] = true := by simp [lf]
  rw [parse_cons h, loop_data rfl ready_rboundary_ne_nil, find_closing h]
  dsimp only
  generalize (ready false boundary part).post _ _ = p at hpost hopening hstate ⊢
  rw [hopening, hrest, hskip, loop_skip, loop_cons]
  simp only [turn, hstate, hopening, if_neg hend]
  exact hpost

def twoParts : List PostFile := [⟨[97], [], [], [49]⟩, ⟨[98], [], [], [50]⟩]

end Forms

end HTTPClient

end UrBackup
