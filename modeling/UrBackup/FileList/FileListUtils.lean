import UrBackup.Lib.Decimal
import UrBackup.Lib.Run

/-! The list of the files of a backup: how an entry is written, and the parser that takes the list
byte by byte. -/
namespace UrBackup

/-- The fields of `SFile` that are in the list. -/
structure SFile where
  name : List UInt8
  size : Int64
  lastModified : Int64
  isdir : Bool
  deriving DecidableEq

namespace FileList

def newline : UInt8 := 10
def space : UInt8 := 32
def quote : UInt8 := 34
def numberSign : UInt8 := 35
def plus : UInt8 := 43
def minus : UInt8 := 45
def backslash : UInt8 := 92
def typeDir : UInt8 := 100
def typeFile : UInt8 := 102
def typeUp : UInt8 := 117

/-- The name `..` of the entry that closes a directory. -/
def dotDot : List UInt8 := [46, 46]

/-- `convert` of a signed 64-bit number. -/
def convert (i : Int64) : List UInt8 :=
  if i.toInt < 0 then minus :: Decimal.digits i.toInt.natAbs else Decimal.digits i.toInt.natAbs

def isSpace (ch : UInt8) : Bool := ch = space || (9 ≤ ch && ch ≤ 13)

/-- The value of `strtoll`, which stays within 64 bits. -/
def clamp (negative : Bool) (n : Nat) : Int64 :=
  if negative then Int64.ofInt (-(min n (2 ^ 63) : Nat)) else Int64.ofInt (min n (2 ^ 63 - 1) : Nat)

/-- `os_atoi64`, which is `strtoll` with base 10. -/
def osAtoi64 (str : List UInt8) : Int64 :=
  let str := str.dropWhile isSpace
  let negative := str.head? = some minus
  let str := if negative ∨ str.head? = some plus then str.tail else str
  clamp negative (Decimal.ofDigits (str.takeWhile Decimal.isDigit))

def escapeChar (ch : UInt8) : List UInt8 :=
  if ch = quote then [backslash, quote] else if ch = backslash then [backslash, backslash] else [ch]

def escapeListName (listname : List UInt8) : List UInt8 := listname.flatMap escapeChar

def writeFileItem (cf : SFile) : List UInt8 :=
  if cf.isdir then
    if cf.name ≠ dotDot then
      [typeDir, quote] ++ escapeListName cf.name ++ [quote, space] ++ Decimal.digits 0 ++ [space]
        ++ convert cf.lastModified ++ [newline]
    else [typeUp, newline]
  else
    [typeFile, quote] ++ escapeListName cf.name ++ [quote, space] ++ convert cf.size ++ [space]
      ++ convert cf.lastModified ++ [newline]

end FileList

inductive ParseState where
  | type
  | typeFinish
  | quote
  | name
  | nameEscape
  | nameFinish
  | filesize
  | modifiedTime
  | extraParams
  deriving DecidableEq

abbrev ExtraParams := List (List UInt8 × List UInt8)

/-- The parser, with what it writes to its caller's entry and parameters. -/
structure FileListParser where
  state : ParseState
  tName : List UInt8
  data : SFile
  extra : Option ExtraParams

namespace FileListParser

open FileList

def reset (p : FileListParser) : FileListParser := { p with tName := [], state := .type }

def finish (p : FileListParser) : FileListParser × Bool :=
  ({ p.reset with extra := p.extra.map fun _ => [] }, true)

def nameFinish (p : FileListParser) (ch : UInt8) : FileListParser × Bool :=
  let p := { p with data := { p.data with name := p.tName.dropLast }, tName := [] }
  if p.data.isdir ∧ p.data.name = dotDot then
    let p := { p with data := { p.data with lastModified := 0, size := 0 } }
    if ch = newline then p.finish else ({ p with state := .extraParams }, false)
  else if p.data.isdir ∧ ch = newline then
    finish { p with data := { p.data with lastModified := 0, size := 0 } }
  else ({ p with state := .filesize }, false)

/-- One byte, and whether an entry ends with it. `parseParamStrHttp` reads the parameters. -/
def nextEntry (parseParamStrHttp : List UInt8 → ExtraParams) (p : FileListParser) (ch : UInt8) :
    FileListParser × Bool :=
  match p.state with
  | .type =>
    if ch = typeFile then
      ({ p with data := { p.data with isdir := false }, state := .quote }, false)
    else if ch = typeDir then
      ({ p with data := { p.data with isdir := true }, state := .quote }, false)
    else if ch = typeUp then
      ({ p with data := { p.data with isdir := true }, state := .typeFinish }, false)
    else (p, false)
  | .typeFinish =>
    if ch = newline then
      finish { p with data := { p.data with name := dotDot, lastModified := 0, size := 0 } }
    else (p, false)
  | .quote => ({ p with state := .name }, false)
  | .nameFinish =>
    if ch ≠ FileList.quote then p.nameFinish ch
    else ({ p with state := .name, tName := p.tName ++ [ch] }, false)
  | .name =>
    if ch = FileList.quote then
      ({ p with state := .nameFinish, tName := p.tName ++ [ch] }, false)
    else if ch = backslash then ({ p with state := .nameEscape }, false)
    else ({ p with tName := p.tName ++ [ch] }, false)
  | .nameEscape =>
    let tName := if ch ≠ FileList.quote ∧ ch ≠ backslash then p.tName ++ [backslash] else p.tName
    ({ p with tName := tName ++ [ch], state := .name }, false)
  | .filesize =>
    if ch ≠ space then ({ p with tName := p.tName ++ [ch] }, false)
    else ({ p with
      data := { p.data with size := osAtoi64 p.tName }, tName := [], state := .modifiedTime },
      false)
  | .modifiedTime =>
    if ch ≠ newline ∧ ch ≠ numberSign then ({ p with tName := p.tName ++ [ch] }, false)
    else
      let p := { p with data := { p.data with lastModified := osAtoi64 p.tName } }
      if ch = newline then p.finish else ({ p with tName := [], state := .extraParams }, false)
  | .extraParams =>
    if ch ≠ newline then ({ p with tName := p.tName ++ [ch] }, false)
    else ({ p.reset with extra := p.extra.map fun _ => parseParamStrHttp p.tName }, true)

end FileListParser

/-- A caller that passes the parser every byte and takes the entries it returns. -/
structure ListReader where
  parser : FileListParser
  entries : List SFile

def ListReader.read (parseParamStrHttp : List UInt8 → ExtraParams) (r : ListReader) (ch : UInt8) :
    Option ListReader :=
  let (p, b) := r.parser.nextEntry parseParamStrHttp ch
  some ⟨p, if b then r.entries ++ [p.data] else r.entries⟩

end UrBackup
