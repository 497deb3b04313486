import KernelLoops.CommandLine.Run

set_option autoImplicit false

/-! # The program -/

open KernelLoops in
/-- Runs the command line. -/
def main (args : List String) : IO UInt32 := do
  let names := ["SNIPPETS_FILL_TAIL", "SNIPPETS_NO_SINGLE_EVAL", "SNIPPETS_BUFFER_ALIGN",
    "SNIPPETS_NUM_THREADS"]
  let values ← names.filterMapM fun n => do return (← IO.getEnv n).map fun v => (n, v)
  let outcome := CommandLine.execute (fun n => values.lookup n) args
  IO.print outcome.printed
  match outcome.error with
  | some e =>
    IO.eprintln ("Error: " ++ e.message)
    return 1
  | none => return 0
