import KernelLoops.Catalogue
import KernelLoops.CommandLine.Flags
import KernelLoops.Decimal
import KernelLoops.Machine.Run

set_option autoImplicit false

/-! # The command line

Lists, prints and runs the kernels of the catalogue. A command answers with what it printed and why
it stopped, if it did. -/

namespace KernelLoops.CommandLine

/-- Why a command stopped. -/
inductive CommandError
  | usage (e : UsageError)
  | failure (f : Failure)
  | noKernel
  | unknownFormat (format : String)
  | differs (kernel mode difference : String)
deriving DecidableEq, Repr

namespace CommandError

/-- The wording of a command error. -/
def message : CommandError → String
  | usage e => e.message
  | failure f => f.message
  | noKernel => "no kernel given: pass kernel names or --all"
  | unknownFormat format => s!"unknown --format {Text.quote format}, want ir, code or both"
  | differs kernel mode difference =>
    s!"kernel {kernel} ({mode}) differs from its reference by {difference}"

/-- The failure that nothing stopped, if that is why the command ended: the command has no answer
    then. -/
def unstopped? : CommandError → Option Failure
  | failure f => if f.isReturned then none else some f
  | _ => none

/-- How a command error reaches the caller. -/
def severity : CommandError → Failure.Severity
  | failure f => f.severity
  | _ => .refused

end CommandError

/-- A command: it prints text and may stop. -/
abbrev Action := EStateM CommandError String

/-- Prints text. -/
def print (text : String) : Action Unit := modify (· ++ text)

/-- Goes on with a result, or stops with its failure. -/
def orStop {α : Type} : Except Failure α → Action α
  | .ok a => pure a
  | .error f => throw (.failure f)

/-! ## Options -/

/-- The lanes of a single-precision vector, for kernels whose increment is not given. -/
def hostLanes : Amount := 8

/-- The increment of the innermost loops. -/
def increment (p : Parsed) : Amount :=
  let n := p.integer "increment"
  if 0 < n then Int64.ofInt n else hostLanes

/-- The configuration: the environment, then the flags. -/
def configOf (env : Environment) (p : Parsed) : Config :=
  let config := Settings.config env
  { config with
    fillTails := config.fillTails || p.truth "fill-tail"
    evaluateOnce := config.evaluateOnce && !p.truth "no-single-eval" }

/-! ## Commands -/

/-- A text filled up with blanks on the right. -/
def padRight (width : Nat) (s : String) : String :=
  s ++ String.ofList (List.replicate (width - s.length) ' ')

/-- Lists the catalogue. -/
def listKernels : Action Unit :=
  Demo.all.forM fun d => print (padRight 12 d.name ++ " " ++ d.description ++ "\n")

/-- Lowers kernels and prints them. -/
def lowerKernels (env : Environment) (p : Parsed) : Action Unit := do
  let names := if p.truth "all" then Demo.all.map Demo.name else p.arguments
  if names.isEmpty then throw .noKernel
  let formatName := (p.value? "format").getD "ir"
  match Format.ofName? formatName with
  | none => throw (.unknownFormat formatName)
  | some format =>
    let demos ← names.mapM fun n => orStop (Demo.ofName n)
    let texts ← demos.mapM fun d => do
      let k ← orStop (d.lower (increment p) (configOf env p))
      orStop (format.render d.name k)
    print ("\n".intercalate texts)

/-- Runs a kernel once and compares it with its reference. -/
def checkRun (d : Demo) (k : Kernel) (mode : String) (team : Option Executor)
    (inputs want : List (Array Float32)) : Action Unit := do
  let zeros := want.map fun a => Array.replicate a.size (0 : Float32)
  let m ← match Machine.setup k inputs zeros with
    | .ok m => pure m
    | .error f => throw (.failure (f.within (.kernel d.name)))
  match Machine.runKernel .single k team m with
  | .error f _ => throw (.failure (f.guard.within (.running d.name mode)))
  | .ok _ m =>
    let diff := maxAbsDiff (m.outputs .single inputs.length want.length) want
    let text := Decimal.render diff
    print s!"{d.name}: {mode} max |diff| = {text}\n"
    if diff > 1e-5 then throw (.differs d.name mode text)

/-- Runs a kernel alone and on a team. -/
def runKernel (env : Environment) (p : Parsed) (name : String) : Action Unit := do
  let d ← orStop (Demo.ofName name)
  let k ← orStop (d.lower (increment p) (configOf env p))
  let inputs ← orStop k.sampleInputs
  let want ← orStop (d.reference .single inputs)
  let threads := Int64.ofInt (p.integer "threads")
  let team := Executor.ofWorkers (← orStop (Team.hire (Settings.workers env threads))) threads
  match k.parallelLoop with
  | some e =>
    let config ← orStop (k.loopConfig (some e))
    print s!"{d.name}: parallel loop {config.render}, {team.numThreads config} threads\n"
  | none => print s!"{d.name}: no parallel loop\n"
  checkRun d k "sequential" none inputs want
  checkRun d k "parallel" (some team) inputs want

/-- Stops a command that takes no arguments and has one. -/
def noArguments (c : Command) (p : Parsed) : Action Unit :=
  match p.arguments with
  | [] => pure ()
  | w :: _ => throw (.usage (.unknownCommand w c.path []))

/-- Runs a command on its flags and arguments. -/
def runCommand (env : Environment) (c : Command) (p : Parsed) : Action Unit :=
  if p.truth "help" then pure ()
  else match c with
    | .root | .help | .completion => pure ()
    | .kernels => do
      noArguments c p
      listKernels
    | .script _ => noArguments c p
    | .request _ =>
      if p.arguments.isEmpty then throw (.usage (.argumentsMissing 1 0)) else pure ()
    | .lower => lowerKernels env p
    | .run =>
      match p.arguments with
      | [name] => runKernel env p name
      | args => throw (.usage (.argumentCount 1 args.length))

/-- What a command line printed, and why it stopped. -/
structure Outcome where
  printed : String
  error : Option CommandError
deriving DecidableEq, Repr

/-- Runs a command line. -/
def execute (env : Environment) (words : List String) : Outcome :=
  let action : Action Unit := do
    match findCommand words with
    | .error e => throw (.usage e)
    | .ok (c, words) =>
      match c.parse words with
      | .error e => throw (.usage e)
      | .ok p => runCommand env c p
  match action "" with
  | .ok _ printed => { printed, error := none }
  | .error e printed => { printed, error := some e }

end KernelLoops.CommandLine
