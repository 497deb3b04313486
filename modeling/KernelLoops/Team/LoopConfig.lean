import KernelLoops.Failure

set_option autoImplicit false

/-! # Loops that run on a team

The parameters of one loop whose chunks are divided over workers. They are checked when they are put
together: everything must be known before the loop runs. -/

namespace KernelLoops

/-- The parameters of a loop that runs on a team, with one entry per operand in each list. -/
structure LoopConfig where
  workAmount : Amount
  increment : Amount
  /-- The step of each operand, in elements per unit of work. -/
  ptrIncrements : List Amount
  /-- What each operand moves after the loop, in elements. -/
  finalOffsets : List Amount
  /-- The element size of each operand, in bytes. -/
  elementSizes : List Amount
deriving DecidableEq, Repr, Inhabited

namespace LoopConfig

/-- Checks the operands, the first one being operand `i`. -/
def checkOperands (i : Nat) : List Amount → List Amount → List Amount → Except Failure Unit
  | p :: ps, f :: fs, s :: ss => do
    if p.isDynamic || f.isDynamic then throw (.rejection (.dynamicStep i))
    if s ≤ 0 then throw (.rejection (.elementSize i s))
    checkOperands (i + 1) ps fs ss
  | _, _, _ => .ok ()

/-- Puts the parameters together. -/
def make (workAmount increment : Amount) (ptrIncrements finalOffsets elementSizes : List Amount) :
    Except Failure LoopConfig := do
  if workAmount.isDynamic || increment.isDynamic then
    throw (.rejection (.needsStatic workAmount increment))
  if workAmount < 0 || increment ≤ 0 then throw (.rejection (.badLoop workAmount increment))
  if finalOffsets.length ≠ ptrIncrements.length || elementSizes.length ≠ ptrIncrements.length then
    throw (.rejection
      (.operandMismatch ptrIncrements.length finalOffsets.length elementSizes.length))
  checkOperands 0 ptrIncrements finalOffsets elementSizes
  return { workAmount, increment, ptrIncrements, finalOffsets, elementSizes }

/-- The number of operands. -/
def numPointers (c : LoopConfig) : Nat := c.ptrIncrements.length

/-- The number of whole increments in the work amount. -/
def numChunks (c : LoopConfig) : Amount := c.workAmount / c.increment

/-- The text of the parameters. -/
def render (c : LoopConfig) : String :=
  let list (ns : List Amount) : String := "[" ++ " ".intercalate (ns.map toString) ++ "]"
  let steps := list c.ptrIncrements
  let offsets := list c.finalOffsets
  let sizes := list c.elementSizes
  s!"LoopConfig\x7bwa={c.workAmount} inc={c.increment} ptr={steps} fin={offsets} sizes={sizes}\x7d"

end LoopConfig

end KernelLoops
