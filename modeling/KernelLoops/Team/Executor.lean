import KernelLoops.Team.LoopConfig
import KernelLoops.Team.Split

set_option autoImplicit false

/-! # Running a loop on a team

The chunks of a loop are divided over the team. Each member gets the operand offsets of its first
chunk and the work it owns. After the loop the offsets stand where a single worker would have left
them. -/

namespace KernelLoops

/-- The number of workers of a team. Calls wait in a queue with two places for each worker, and that
    queue has to fit in memory. -/
def Team.hire (workers : Amount) : Except Failure Amount :=
  match storage 16 (2 * workers) with
  | .ok _ => .ok workers
  | .error _ => .error (.violation .teamTooLarge)

/-- One call of the loop body: how much work, and the byte offset of each operand. -/
structure Call where
  workAmount : Amount
  offsets : List Amount
deriving DecidableEq, Repr, Inhabited

/-- A team to run loops on. -/
structure Executor where
  /-- The number of workers. -/
  workers : Amount
  /-- The largest team of one loop. -/
  maxThreads : Amount
  /-- The order in which the calls of one loop are made. -/
  schedule : List Call → List Call := id

namespace Executor

/-- A team of all workers, capped when `cap` is positive. -/
def ofWorkers (workers : Amount) (cap : Amount) : Executor :=
  { workers, maxThreads := if 0 < cap then cap else workers }

/-- The size of the team for a loop: never more members than chunks. -/
def numThreads (x : Executor) (c : LoopConfig) : Amount :=
  min (min x.maxThreads x.workers) c.numChunks

/-- The offsets of the first chunk of a share that starts after `start` units of work. -/
def startOffsets (c : LoopConfig) (bases : List Amount) (start : Amount) : List Amount :=
  List.zipWith (fun base (p, s) => base + p * s * start) bases (c.ptrIncrements.zip c.elementSizes)

/-- The calls of a loop, in member order. -/
def calls (x : Executor) (c : LoopConfig) (bases : List Amount) : List Call :=
  (Team.shares x.workers c.numChunks (x.numThreads c)).map fun (first, last) =>
    let start := first * c.increment
    let stop := last * c.increment
    { workAmount := stop - start, offsets := startOffsets c bases start }

/-- The offsets after a loop: all steps and the final offsets, in bytes. -/
def finalOffsets (c : LoopConfig) (bases : List Amount) : List Amount :=
  List.zipWith (fun base (p, f, s) => base + (p * c.workAmount + f) * s) bases
    (c.ptrIncrements.zip (c.finalOffsets.zip c.elementSizes))

/-- The calls a loop makes from the given offsets, and the offsets after it. -/
def execute (x : Executor) (c : LoopConfig) (bases : List Amount) :
    Except Failure (List Call × List Amount) :=
  if bases.length ≠ c.numPointers then
    .error (.violation (.pointerCount c.numPointers bases.length))
  else .ok (x.schedule (x.calls c bases), finalOffsets c bases)

/-- A loop on pointers: the calls it makes, as pointers, and the pointers after it. Every pointer is
    its base plus the offset a loop from zero has. -/
def executePointers (x : Executor) (c : LoopConfig) (pointers : List Amount) :
    Except Failure (List Call × List Amount) := do
  if pointers.length ≠ c.numPointers then
    throw (.violation (.pointerCount c.numPointers pointers.length))
  let (calls, offsets) ← x.execute c (pointers.map fun _ => 0)
  return (calls.map fun call => { call with offsets := List.zipWith (· + ·) pointers call.offsets },
    List.zipWith (· + ·) pointers offsets)

end Executor

end KernelLoops
