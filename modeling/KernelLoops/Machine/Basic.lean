import KernelLoops.Access
import KernelLoops.Counting
import KernelLoops.Kernel.Basic
import KernelLoops.Lanes
import KernelLoops.Machine.Block

set_option autoImplicit false

/-! # The machine

A machine runs a lowered kernel on memory. Memory is a list of blocks: the scratch area, the inputs,
the outputs and whatever intermediate tensors need. A tensor with memory is bound to a block and has
a position in it, which the loops move. Register values have a lane array of their own. -/

namespace KernelLoops

/-- Where a tensor lives. -/
structure Binding where
  block : Nat
  /-- The position in elements. -/
  position : Amount
  /-- The block was made for this tensor during the run. -/
  temporary : Bool := false
deriving DecidableEq, Repr, Inhabited

/-- The state of a run. -/
structure Machine (α : Type) where
  /-- The lanes of a register. -/
  width : Amount := 1
  blocks : Array (Block α) := #[]
  bindings : List (TensorId × Binding) := []
  registers : List (TensorId × Array α) := []
  /-- Every window that was opened, in the order of execution. -/
  windows : Array Access := #[]

namespace Machine

variable {α : Type}

/-- The number of elements of a block. -/
def blockSize (m : Machine α) (b : Nat) : Nat := (m.blocks.getD b (.fresh 0)).size

/-- The machine with a tensor bound. -/
def bind (m : Machine α) (t : TensorId) (b : Binding) : Machine α :=
  { m with bindings := put t b m.bindings }

/-! ## Setting up -/

/-- Binds a kernel argument to its block. -/
def bindArgument (m : Machine α) (t : Tensor) (block : Nat) : Except Failure (Machine α) :=
  if t.numElements ≠ Int64.ofNat (m.blockSize block) then
    .error (.rejection (.tensorSize t.toTensorType (m.blockSize block)))
  else .ok (m.bind t.id { block, position := 0 })

/-- How far the binding of arguments has come. -/
structure Setup (α : Type) where
  machine : Machine α
  parameters : Nat := 0
  results : Nat := 0

/-- Binds what one expression needs. Inputs are the blocks from 1 on, outputs follow them. -/
def setupExpr (inputs outputs : Nat) (s : Setup α) (e : Expr) : Except Failure (Setup α) := do
  let m := s.machine
  let m := if e.kind.isMemoryAccess then { m with width := max m.width e.count } else m
  if !e.kind.isMarker then
    match (e.inputs ++ e.outputs).find? fun t => t.elementType ≠ .float32 with
    | some t => throw (.rejection (.notFloat32 e.id t.elementType))
    | none => pure ()
  match e.kind with
  | .parameter =>
    if s.parameters ≥ inputs then throw (.rejection (.moreParameters inputs))
    let m ← m.bindArgument (← e.output 0) (1 + s.parameters)
    return { s with machine := m, parameters := s.parameters + 1 }
  | .result =>
    if s.results ≥ outputs then throw (.rejection (.moreResults outputs))
    let m ← m.bindArgument (← e.input 0) (1 + inputs + s.results)
    return { s with machine := m, results := s.results + 1 }
  | .buffer =>
    if e.bufferOffset % 4 ≠ 0 then throw (.rejection (.misaligned e.id e.bufferOffset))
    let place : Binding := { block := 0, position := e.bufferOffset / 4 }
    let src ← e.input 0
    let out ← e.output 0
    return { s with machine := (m.bind src.id place).bind out.id place }
  | _ => return { s with machine := m }

/-- A machine for a kernel: parameters bound to inputs and results to outputs, in order, and buffers
    placed in a fresh scratch area. -/
def setup (k : Kernel) (inputs outputs : List (Array α)) : Except Failure (Machine α) := do
  let scratch ← storage 4 (k.scratchSize / 4)
  let blocks := (.fresh scratch :: (inputs ++ outputs).map .ofArray).toArray
  let s ← k.sequence.foldlM (setupExpr inputs.length outputs.length) { machine := { blocks } }
  if s.parameters ≠ inputs.length || s.results ≠ outputs.length then
    throw (.rejection (.argumentCount s.parameters s.results inputs.length outputs.length))
  return s.machine

/-- The contents of the outputs. -/
def outputs (m : Machine α) (A : Arithmetic α) (inputs outputs : Nat) : List (Array α) :=
  (List.range outputs).map fun j => (m.blocks.getD (1 + inputs + j) (.fresh 0)).toArray A.zero

end Machine

end KernelLoops
