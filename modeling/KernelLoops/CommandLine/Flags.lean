import KernelLoops.CommandLine.Value

set_option autoImplicit false

/-! # Flags and commands

Flags may stand anywhere among the words of a command line, as `--name value` or `--name=value`; a
truth value may be left out. The word that names the command is the first that is neither a flag nor
the value of one, as far as the flags are known at that point. -/

namespace KernelLoops.CommandLine

/-- What a flag takes. -/
inductive FlagKind
  | integer
  | truth
  | text
  /-- A truth value of the logger. -/
  | logTruth
  /-- The verbosity of the logger. -/
  | logLevel
  /-- A severity of the logger. -/
  | logSeverity
  /-- Files with the verbosity of the logger there. -/
  | logFiles
  /-- A line of a file. -/
  | logPlace
  /-- A size of a log. -/
  | logSize
deriving DecidableEq, Repr

/-- A flag by name, with an optional one-letter name. -/
structure Flag where
  name : String
  kind : FlagKind
  letter : Option Char := none
deriving DecidableEq, Repr

namespace Flag

/-- May the value be left out? -/
def isOptional (f : Flag) : Bool := f.kind = .truth || f.kind = .logTruth

/-- The flag as messages name it. -/
def render (f : Flag) : String :=
  match f.letter with
  | some c => "-" ++ String.singleton c ++ ", --" ++ f.name
  | none => "--" ++ f.name

/-- Checks a value. -/
def check (f : Flag) (value : String) : Except ValueError Unit :=
  match f.kind with
  | .integer => do let _ ← readInteger value
  | .logLevel => do let _ ← readLevel value
  | .truth => do let _ ← readTruth value
  | .logTruth => if (truth? value).isSome then .ok () else .error .parse
  | .text => .ok ()
  | .logSeverity => checkSeverity value
  | .logFiles => checkFileLevels value
  | .logPlace => checkPlace value
  | .logSize => checkSize value

end Flag

/-- Flags of the logger. -/
def logFlags : List Flag :=
  [⟨"add_dir_header", .logTruth, none⟩, ⟨"alsologtostderr", .logTruth, none⟩,
    ⟨"log_backtrace_at", .logPlace, none⟩, ⟨"log_dir", .text, none⟩, ⟨"log_file", .text, none⟩,
    ⟨"log_file_max_size", .logSize, none⟩, ⟨"logtostderr", .logTruth, none⟩,
    ⟨"one_output", .logTruth, none⟩, ⟨"skip_headers", .logTruth, none⟩,
    ⟨"skip_log_headers", .logTruth, none⟩, ⟨"stderrthreshold", .logSeverity, none⟩,
    ⟨"v", .logLevel, some 'v'⟩, ⟨"vmodule", .logFiles, none⟩]

/-- Flags that every command takes. -/
def sharedFlags : List Flag :=
  [⟨"increment", .integer, none⟩, ⟨"fill-tail", .truth, none⟩, ⟨"no-single-eval", .truth, none⟩] ++
    logFlags

/-- The flag that asks for help. -/
def helpFlag : Flag := ⟨"help", .truth, some 'h'⟩

/-- A shell that completes command lines. -/
inductive Shell
  | bash
  | zsh
  | fish
  | powershell
deriving DecidableEq, Repr

namespace Shell

/-- The shells. -/
def all : List Shell := [bash, zsh, fish, powershell]

/-- The name of a shell. -/
def name : Shell → String
  | bash => "bash"
  | zsh => "zsh"
  | fish => "fish"
  | powershell => "powershell"

end Shell

/-- What the program can do. -/
inductive Command
  /-- No command given. -/
  | root
  | kernels
  | lower
  | run
  /-- Prints how to use the program. -/
  | help
  /-- Prints how to let a shell complete command lines. -/
  | completion
  /-- Prints what a shell runs to complete command lines. -/
  | script (shell : Shell)
  /-- Tells a shell how a command line may go on, with or without descriptions. -/
  | request (described : Bool)
deriving DecidableEq, Repr

namespace Command

/-- The name of a command. -/
def name : Command → String
  | root => "snippetsc"
  | kernels => "kernels"
  | lower => "lower"
  | run => "run"
  | help => "help"
  | completion => "completion"
  | script shell => shell.name
  | request described => if described then "__complete" else "__completeNoDesc"

/-- The names that lead to a command. -/
def path : Command → String
  | root => root.name
  | script shell => s!"{root.name} {completion.name} {shell.name}"
  | c => s!"{root.name} {c.name}"

/-- The commands under a command, in the order in which they are suggested. -/
def subcommands : Command → List Command
  | root => [kernels, lower, run, help, completion, request true, request false]
  | completion => Shell.all.map script
  | _ => []

/-- Is the command suggested for a word like its name? -/
def isSuggested : Command → Bool
  | kernels | lower | run | completion => true
  | _ => false

/-- The flags a command takes. -/
def flags : Command → List Flag
  | lower => [⟨"all", .truth, none⟩, ⟨"format", .text, none⟩] ++ sharedFlags
  | run => [⟨"threads", .integer, none⟩] ++ sharedFlags
  | script _ => ⟨"no-descriptions", .truth, none⟩ :: sharedFlags
  | _ => sharedFlags

end Command

/-! ## Errors -/

/-- Why a command line is refused. -/
inductive UsageError
  | unknownCommand (word path : String) (suggestions : List String)
  | unknownFlag (name : String)
  | unknownLetter (letter : Char) (word : String)
  | badSyntax (word : String)
  | needsValue (name : String)
  | letterNeedsValue (letter : Char) (word : String)
  | badValue (value : String) (flag : Flag) (error : ValueError)
  | argumentCount (wanted given : Nat)
  | argumentsMissing (wanted given : Nat)
deriving DecidableEq, Repr

namespace UsageError

/-- The first byte of a character, as a character. -/
def firstByte (c : Char) : Char := Char.ofNat ((String.utf8EncodeChar c).headD 0).toNat

/-- A letter between single quotes. Letters are bytes, and what is shown is the first byte of the
    letter: an ASCII letter itself. -/
def quoteLetter (c : Char) : String :=
  let text := match firstByte (firstByte c) with
    | '\'' => "\\'"
    | '"' => "\""
    | c => Text.escape c
  "'" ++ text ++ "'"

/-- The wording of a refused command line. -/
def message : UsageError → String
  | unknownCommand word path suggestions =>
    let hint := if suggestions.isEmpty then ""
      else "\n\nDid you mean this?\n" ++ String.join (suggestions.map fun s => "\t" ++ s ++ "\n")
    s!"unknown command {Text.quote word} for {Text.quote path}{hint}"
  | unknownFlag name => s!"unknown flag: --{name}"
  | unknownLetter letter word => s!"unknown shorthand flag: {quoteLetter letter} in -{word}"
  | badSyntax word => s!"bad flag syntax: {word}"
  | needsValue name => s!"flag needs an argument: --{name}"
  | letterNeedsValue letter word => s!"flag needs an argument: {quoteLetter letter} in -{word}"
  | badValue value flag error =>
    s!"invalid argument {Text.quote value} for {Text.quote flag.render} flag: {error.message}"
  | argumentCount wanted given => s!"accepts {wanted} arg(s), received {given}"
  | argumentsMissing wanted given => s!"requires at least {wanted} arg(s), only received {given}"

end UsageError

/-! ## Finding the command -/

/-- Does a word start with a dash? -/
def isDashed (w : String) : Bool := w.toList.head? = some '-'

/-- Does a word ask for the next word as its value? Unknown flags are taken to do so, by letter when
    the letter is a single byte. -/
def takesNext (flags : List Flag) (w : String) : Bool :=
  match w.toList with
  | '-' :: '-' :: name =>
    !name.contains '=' && !(flags.any fun f => f.name = String.ofList name && f.isOptional)
  | ['-', c] => c.utf8Size = 1 && c ≠ '=' && !(flags.any fun f => f.letter = some c && f.isOptional)
  | _ => false

/-- The words that are neither flags nor values of flags. A flag that takes the next word ends the
    search when at most one word is left. -/
def plainWords (flags : List Flag) : List String → List String
  | [] => []
  | w :: rest =>
    if w = "--" then []
    else if takesNext flags w then
      match rest with
      | _ :: next :: more => plainWords flags (next :: more)
      | _ => []
    else if w ≠ "" && !isDashed w then w :: plainWords flags rest
    else plainWords flags rest

/-- The words without the first plain one that is `x`. -/
def dropWord (flags : List Flag) (x : String) : List String → List String
  | [] => []
  | w :: rest =>
    if w = "--" then w :: rest
    else if takesNext flags w then
      match rest with
      | [] => [w]
      | value :: more => w :: value :: dropWord flags x more
    else if w = x then rest
    else w :: dropWord flags x rest

/-! ## Suggestions -/

/-- One row of the table of edit distances: the distances of a longer prefix from those of a shorter
    one. -/
def nextRow (c : UInt8) (left : Nat) : List UInt8 → List Nat → List Nat
  | d :: ds, corner :: above :: row =>
    let best := if c = d then corner else min (min (corner + 1) (above + 1)) (left + 1)
    best :: nextRow c best ds (above :: row)
  | _, _ => []

/-- The least number of insertions, deletions and replacements of bytes between two words. -/
def editDistance (s t : List UInt8) : Nat :=
  let (row, _) := s.foldl (fun (row, n) c => ((n + 1) :: nextRow c (n + 1) t row, n + 1))
    (List.range (t.length + 1), 0)
  row.getLastD 0

/-- Commands with a name close to a word, or starting with it, apart from case. -/
def suggestions (word : String) : List String :=
  let bytes := Text.lowerBytes word
  ((Command.root.subcommands.filter Command.isSuggested).map Command.name).filter fun name =>
    editDistance bytes (Text.lowerBytes name) ≤ 2 || bytes.isPrefixOf (Text.lowerBytes name)

/-- The command under a command that the first plain word names, and the words without that one. -/
def descend (c : Command) (words : List String) : Option (Command × List String) := do
  let w ← (plainWords sharedFlags words).head?
  let sub ← c.subcommands.find? (·.name == w)
  return (sub, dropWord sharedFlags w words)

/-- The command of a command line, and its words without those that name it. -/
def findCommand (words : List String) : Except UsageError (Command × List String) :=
  match descend .root words with
  | some (c, words) => .ok ((descend c words).getD (c, words))
  | none =>
    match (plainWords sharedFlags words).head? with
    | some w => .error (.unknownCommand w Command.root.path (suggestions w))
    | none => .ok (.root, words)

/-! ## Reading the flags -/

/-- The words of a command line taken apart. -/
structure Parsed where
  /-- Flags in the order they were given, with their values. -/
  values : List (String × String) := []
  /-- The other words. -/
  arguments : List String := []
deriving DecidableEq, Repr

namespace Parsed

/-- The last value of a flag. -/
def value? (p : Parsed) (name : String) : Option String := p.values.reverse.lookup name

/-- The integer of a flag; zero when it is not given. -/
def integer (p : Parsed) (name : String) : Int :=
  match p.value? name with
  | some v => (readInteger v).toOption.getD 0
  | none => 0

/-- The truth value of a flag; false when it is not given. -/
def truth (p : Parsed) (name : String) : Bool := ((p.value? name).bind truth?).getD false

end Parsed

/-- A flag with its value, once the value is checked. -/
def setFlag (f : Flag) (value : String) : Except UsageError (String × String) :=
  match f.check value with
  | .ok _ => .ok (f.name, value)
  | .error e => .error (.badValue value f e)

/-- Reads a flag given by name, and answers the words that are left. -/
def readLong (flags : List Flag) (word : String) (rest : List String) :
    Except UsageError ((String × String) × List String) := do
  let body := word.toList.drop 2
  match body with
  | [] | '-' :: _ | '=' :: _ => throw (.badSyntax word)
  | _ =>
    let name := String.ofList (body.takeWhile (· ≠ '='))
    match flags.find? (·.name == name) with
    | none => throw (.unknownFlag name)
    | some f =>
      match body.dropWhile (· ≠ '=') with
      | _ :: value => return (← setFlag f (String.ofList value), rest)
      | [] =>
        if f.isOptional then return (← setFlag f "true", rest)
        match rest with
        | value :: rest => return (← setFlag f value, rest)
        | [] => throw (.needsValue name)

/-- The name that flags of a test run start with. -/
def testMark : List Char := "test.".toList

/-- Reads the flags given by letter in one word, and answers the words that are left. Flags of a
    test run are passed over. -/
def readLetters (flags : List Flag) (rest : List String) :
    List Char → Except UsageError (List (String × String) × List String)
  | [] => .ok ([], rest)
  | c :: more =>
    if testMark.isPrefixOf (c :: more) then .ok ([], rest)
    else match flags.find? (·.letter == some c) with
    | none => .error (.unknownLetter c (String.ofList (c :: more)))
    | some f => do
      match more with
      | '=' :: v :: value => return ([← setFlag f (String.ofList (v :: value))], rest)
      | _ =>
        if f.isOptional then
          let first ← setFlag f "true"
          let (others, rest) ← readLetters flags rest more
          return (first :: others, rest)
        match more, rest with
        | v :: value, _ => return ([← setFlag f (String.ofList (v :: value))], rest)
        | [], value :: rest => return ([← setFlag f value], rest)
        | [], [] => throw (.letterNeedsValue c (String.ofList (c :: more)))

/-- Takes the words of a command line apart. Each step uses up a word, so there are at most as many
    steps as words. -/
def parseWords (flags : List Flag) : Nat → Parsed → List String → Except UsageError Parsed
  | _, p, [] => .ok p
  | 0, p, _ => .ok p
  | steps + 1, p, w :: rest =>
    match w.toList with
    | '-' :: '-' :: [] => .ok { p with arguments := p.arguments ++ rest }
    | '-' :: '-' :: _ => do
      let (v, rest) ← readLong flags w rest
      parseWords flags steps { p with values := p.values ++ [v] } rest
    | '-' :: c :: more => do
      let (vs, rest) ← readLetters flags rest (c :: more)
      parseWords flags steps { p with values := p.values ++ vs } rest
    | _ => parseWords flags steps { p with arguments := p.arguments ++ [w] } rest

/-- Takes the words of a command apart. The words of a request are those of another command line. -/
def Command.parse (c : Command) (words : List String) : Except UsageError Parsed :=
  match c with
  | .request _ => .ok { arguments := words }
  | _ => parseWords (c.flags ++ [helpFlag]) words.length {} words

end KernelLoops.CommandLine
