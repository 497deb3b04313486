import KernelLoops.Settings
import KernelLoops.Text.Case
import KernelLoops.Text.Quoted

set_option autoImplicit false

/-! # Flag values

Integers may be written in base two, eight, ten or sixteen, by what they start with, with
underscores between digits. Levels are plain decimal numbers. Truth values are a fixed list of
words. What the logger takes is only checked: a severity, levels by file, a place in a file, a
size. -/

namespace KernelLoops.CommandLine

/-- Why a text is no value. -/
inductive ValueError
  /-- No integer. -/
  | integer (text : String)
  /-- An integer outside the range of its flag. -/
  | range (text : String)
  /-- No truth value. -/
  | truth (text : String)
  /-- No value of its flag. -/
  | parse
  /-- A size above every size there is. -/
  | size
  /-- No list of files with their levels. -/
  | fileLevels
  /-- A file with a level below zero. -/
  | fileLevel
  /-- No file and line. -/
  | place
  /-- A file without such a line. -/
  | line
deriving DecidableEq, Repr

namespace ValueError

/-- The wording of a value error. -/
def message : ValueError → String
  | integer text => s!"strconv.ParseInt: parsing {Text.quote text}: invalid syntax"
  | range text => s!"strconv.ParseInt: parsing {Text.quote text}: value out of range"
  | truth text => s!"strconv.ParseBool: parsing {Text.quote text}: invalid syntax"
  | parse => "parse error"
  | size => "value out of range"
  | fileLevels => "syntax error: expect comma-separated list of filename=N"
  | fileLevel => "negative value for vmodule level"
  | place => "syntax error: expect file.go:234"
  | line => "negative or zero value for level"

end ValueError

/-! ## Integers -/

/-- The value of a digit in bases up to sixteen and beyond. -/
def digit? (c : Char) : Option Nat :=
  if '0' ≤ c && c ≤ '9' then some (c.toNat - '0'.toNat)
  else
    let c := c.toLower
    if 'a' ≤ c && c ≤ 'z' then some (c.toNat - 'a'.toNat + 10) else none

/-- The base of an unsigned integer, and its digits. -/
def baseOf (cs : List Char) : Nat × List Char :=
  match cs with
  | '0' :: c :: d :: rest =>
    match c.toLower with
    | 'b' => (2, d :: rest)
    | 'o' => (8, d :: rest)
    | 'x' => (16, d :: rest)
    | _ => (8, c :: d :: rest)
  | '0' :: rest => (8, rest)
  | _ => (10, cs)

/-- What the reading of digits came to. -/
inductive Reading
  | value (n : Nat)
  | malformed
  | tooLarge
deriving DecidableEq, Repr

/-- Reads the digits of a number below `limit`. -/
def readDigits (base limit : Nat) : Nat → List Char → Reading
  | n, [] => .value n
  | n, c :: rest =>
    match digit? c with
    | none => .malformed
    | some d =>
      if base ≤ d then .malformed
      else if limit ≤ base * n + d then .tooLarge
      else readDigits base limit (base * n + d) rest

/-- Does every underscore stand between digits? A leading base counts as a digit. -/
def underscoresOk (hex : Bool) : Bool → Bool → List Char → Bool
  | _, under, [] => !under
  | digit, under, c :: rest =>
    if ('0' ≤ c && c ≤ '9') || (hex && 'a' ≤ c.toLower && c.toLower ≤ 'f') then
      underscoresOk hex true false rest
    else if c = '_' then digit && underscoresOk hex false true rest
    else !under && underscoresOk hex false false rest

/-- Does every underscore of an unsigned integer stand between digits? -/
def underscoresFit (cs : List Char) : Bool :=
  match cs with
  | '0' :: c :: rest =>
    if ['b', 'o', 'x'].contains c.toLower then underscoresOk (c.toLower = 'x') true false rest
    else underscoresOk false false false cs
  | _ => underscoresOk false false false cs

/-- Reads an unsigned integer. -/
def readUnsigned (cs : List Char) : Reading :=
  if cs.isEmpty then .malformed
  else
    let (base, ds) := baseOf cs
    match readDigits base 0x10000000000000000 0 (ds.filter (· ≠ '_')) with
    | .value n => if cs.contains '_' && !underscoresFit cs then .malformed else .value n
    | r => r

/-- Reads a sign and then an unsigned integer, within `-limit` up to `limit`. -/
def readSigned (limit : Nat) (unsigned : List Char → Reading) (s : String) :
    Except ValueError Int :=
  let (negative, cs) := match s.toList with
    | '-' :: cs => (true, cs)
    | '+' :: cs => (false, cs)
    | cs => (false, cs)
  match unsigned cs with
  | .malformed => .error (.integer s)
  | .tooLarge => .error (.range s)
  | .value n =>
    if negative then (if n ≤ limit then .ok (-n) else .error (.range s))
    else if n < limit then .ok n else .error (.range s)

/-- Reads a 64-bit integer. -/
def readInteger (s : String) : Except ValueError Int := readSigned 0x8000000000000000 readUnsigned s

/-- Reads a 32-bit decimal number. -/
def readLevel (s : String) : Except ValueError Int :=
  readSigned 0x80000000
    (fun cs => if cs.isEmpty then .malformed else readDigits 10 0x100000000 0 cs) s

/-! ## Truth values -/

/-- The truth value of a word. -/
def truth? (s : String) : Option Bool :=
  if ["1", "t", "T", "TRUE", "true", "True"].contains s then some true
  else if ["0", "f", "F", "FALSE", "false", "False"].contains s then some false
  else none

/-- Reads a truth value. -/
def readTruth (s : String) : Except ValueError Bool :=
  match truth? s with
  | some b => .ok b
  | none => .error (.truth s)

/-! ## Values of the logger -/

/-- The severities of a message. -/
def severities : List String := ["INFO", "WARNING", "ERROR", "FATAL"]

/-- Checks a severity: a name in any case, or a number. -/
def checkSeverity (s : String) : Except ValueError Unit :=
  if severities.contains (Text.upperWord s) then .ok () else do let _ ← readLevel s

/-- Checks one file with its level. -/
def checkFileLevel (s : String) : Except ValueError Unit :=
  match s.splitOn "=" with
  | [file, level] =>
    if file.isEmpty then .error .fileLevels
    else match readLevel level with
      | .ok n => if n < 0 then .error .fileLevel else .ok ()
      | .error _ => .error .fileLevels
  | _ => .error .fileLevels

/-- Checks files with their levels. Nothing may stand between two commas. -/
def checkFileLevels (s : String) : Except ValueError Unit :=
  ((s.splitOn ",").filter (!·.isEmpty)).forM checkFileLevel

/-- Checks a line of a file. There may be none. -/
def checkPlace (s : String) : Except ValueError Unit :=
  if s.isEmpty then .ok ()
  else match s.splitOn ":" with
    | [file, line] =>
      if !file.toList.contains '.' then .error .place
      else match Settings.number? line with
        | some n => if n ≤ 0 then .error .line else .ok ()
        | none => .error .place
    | _ => .error .place

/-- Checks a size, an integer without a sign. -/
def checkSize (s : String) : Except ValueError Unit :=
  match readUnsigned s.toList with
  | .value _ => .ok ()
  | .malformed => .error .parse
  | .tooLarge => .error .size

end KernelLoops.CommandLine
