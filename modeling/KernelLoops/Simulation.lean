import KernelLoops.Access
import KernelLoops.Counting
import KernelLoops.Kernel.Walk

set_option autoImplicit false

/-! # Simulation

Runs the loops of a lowered kernel on pointer positions only. Every tensor starts at element zero,
closing markers step their operands, and memory accesses are recorded. -/

namespace KernelLoops

/-- What a simulated run leaves behind. -/
structure Trace where
  /-- Every access, in the order of execution. -/
  accesses : Array Access := #[]
  /-- The position of each tensor that was stepped. -/
  positions : List (TensorId × Amount) := []
deriving DecidableEq, Repr, Inhabited

namespace Trace

/-- The position of a tensor. -/
def position (t : Trace) (id : TensorId) : Amount := (t.positions.lookup id).getD 0

/-- The accesses to one tensor, in the order of execution. -/
def accessesOf (t : Trace) (id : TensorId) : List Access := t.accesses.toList.filter (·.tensor = id)

/-- The elements of a tensor that were touched, once per touch. -/
def touched (t : Trace) (id : TensorId) : List Amount := (t.accessesOf id).flatMap Access.elements

end Trace

namespace Simulation

/-- A step of a simulated run. -/
abbrev Step := EStateM Failure Trace

/-- Records an access at the current position. -/
def access (t : Tensor) (count : Amount) : Step Unit :=
  modify fun trace => { trace with
    accesses := trace.accesses.push { tensor := t.id, offset := trace.position t.id, count } }

/-- Lifts a question that does not depend on the run. -/
def lift {α : Type} : Except Failure α → Step α
  | .ok a => pure a
  | .error f => throw f

/-- Moves every operand of a closing marker. -/
def advance (e : Expr) (l : LoopParams) (amount : Int → Except Failure Amount) : Step Unit :=
  countM 0 l.numOperands.trips fun i => do
    let t ← lift (e.input i)
    let step ← lift (amount i)
    modify fun trace => { trace with positions := put t.id (trace.position t.id + step) trace.positions }

/-- What a simulated run does at an expression. -/
def runExpr (e : Expr) : Step Unit :=
  match e.kind with
  | .load | .broadcastLoad => do access (← lift (e.input 0)) e.count
  | .store => do access (← lift (e.output 0)) e.count
  | .brgemm => do
    e.inputs.forM fun t => access t e.count
    access (← lift (e.output 0)) e.count
  | .loopEnd => throw (.violation (.strayLoopEnd e.id))
  | _ => pure ()

/-- What a simulated run does with a loop: a loop that is evaluated once runs its body without a
    step, any other one steps after each body, and both apply the final offsets. -/
def runLoop (e : Expr) (body : Step Unit) : Step Unit := do
  let l ← lift e.params
  if !l.isStatic then throw (.violation (.dynamicLoop l.id))
  if l.once then body
  else repeatM l.bodyCount do
    body
    advance e l fun i => (· * l.increment) <$> fetch l.ptrIncrements i
  advance e l (fetch l.finalOffsets)

/-- Simulates a kernel. -/
def run (k : Kernel) : Except Failure Trace :=
  match k.execute { run := runExpr, loop := fun _ e body => runLoop e body } {} with
  | .ok _ trace => .ok trace
  | .error f _ => .error f

end Simulation

end KernelLoops
