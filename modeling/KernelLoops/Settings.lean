import KernelLoops.Config

set_option autoImplicit false

/-! # Settings from the environment

Environment variables override the default configuration and the number of workers. A variable that
does not parse is as good as absent. -/

namespace KernelLoops

/-- The value of each environment variable that is set. -/
abbrev Environment := String → Option String

namespace Settings

/-- Words that mean yes, apart from their spelling. -/
def affirmatives : List String :=
  ["true", "yes", "enable", "enabled", "positive", "affirmative", "absolutely"]

/-- A word with its first letter in upper case. -/
def capitalized (s : String) : String :=
  match s.toList with
  | [] => ""
  | c :: cs => String.ofList (c.toUpper :: cs)

/-- Does a value mean yes? Words count in lower case, upper case and with a capital. -/
def isAffirmative (s : String) : Bool :=
  ["1", "t", "T", "y", "Y"].contains s ||
    affirmatives.any fun w => s = w || s = w.toUpper || s = capitalized w

/-- The number of a list of decimal digits. -/
def digits? (cs : List Char) : Option Nat :=
  if cs.isEmpty || !cs.all Char.isDigit then none
  else some (cs.foldl (fun n c => 10 * n + (c.toNat - '0'.toNat)) 0)

/-- The 64-bit number of a decimal text with an optional sign. -/
def number? (s : String) : Option Int :=
  let (negative, cs) := match s.toList with
    | '-' :: cs => (true, cs)
    | '+' :: cs => (false, cs)
    | cs => (false, cs)
  match digits? cs with
  | none => none
  | some n =>
    let v : Int := if negative then -n else n
    if -0x8000000000000000 ≤ v && v < 0x8000000000000000 then some v else none

/-- The number of a variable, or a default. -/
def number (env : Environment) (name : String) (default : Int) : Int :=
  ((env name).bind number?).getD default

/-- Does a variable mean yes? -/
def flag (env : Environment) (name : String) : Bool := (env name).any isAffirmative

/-- The default configuration with what the environment overrides. -/
def config (env : Environment) : Config :=
  let alignment := number env "SNIPPETS_BUFFER_ALIGN" 64
  { fillTails := flag env "SNIPPETS_FILL_TAIL"
    evaluateOnce := !flag env "SNIPPETS_NO_SINGLE_EVAL"
    alignment := if 0 < alignment then Int64.ofInt alignment else 64 }

/-- The workers of a machine whose environment names no number. -/
def hostWorkers : Amount := 3

/-- The number of workers when none is asked for. -/
def defaultWorkers (env : Environment) : Amount :=
  let n := number env "SNIPPETS_NUM_THREADS" 0
  if 0 < n then Int64.ofInt n else hostWorkers

/-- The number of workers of a pool. -/
def workers (env : Environment) (asked : Amount) : Amount :=
  if 0 < asked then asked else defaultWorkers env

end Settings

end KernelLoops
