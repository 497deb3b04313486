import KernelLoops.Failure

set_option autoImplicit false

/-! # Loop parameters

What a closing loop marker knows: how much work there is, how far each operand pointer moves per
unit of work, and by how much it is set back when the loop is left. Operands are the loop's entries,
then its exits. `positions` steps one operand through the loop; `evaluateOnce` drops the trip
counter of a loop that runs its body at most once. -/

namespace KernelLoops

/-- The parameters of one materialized loop. -/
structure LoopParams where
  id : LoopId
  workAmount : Amount
  increment : Amount
  /-- The step of each operand, in elements per unit of work. -/
  ptrIncrements : List Amount
  /-- What is added to each operand's position, in elements, when the loop is left. -/
  finalOffsets : List Amount
  /-- The element size of each operand, in bytes. -/
  elementSizes : List Amount
  numEntries : Amount
  numExits : Amount
  /-- The body runs exactly once and no operand is stepped. -/
  once : Bool := false
  /-- Another loop runs this one again. -/
  hasOuterLoop : Bool := false
deriving DecidableEq, Repr, Inhabited

namespace LoopParams

/-- The number of operands. -/
def numOperands (l : LoopParams) : Amount := l.numEntries + l.numExits

/-- Are work amount and increment known before the kernel runs? -/
def isStatic (l : LoopParams) : Bool := !l.workAmount.isDynamic && !l.increment.isDynamic

/-- The text of loop parameters. -/
def render (l : LoopParams) : String :=
  s!"id={l.id.render} wa={l.workAmount} inc={l.increment} ptr={renderAmounts l.ptrIncrements} " ++
    s!"fin={renderAmounts l.finalOffsets}" ++
    (if l.once then " once" else "") ++ (if l.hasOuterLoop then " outer" else "")

/-! ## Stepping one operand -/

/-- The positions of one operand while a loop runs. -/
structure Positions where
  /-- The position at the start of each body. -/
  bodies : List Amount
  /-- The position after the loop. -/
  final : Amount
deriving DecidableEq, Repr

/-- `n` positions, `step` apart. -/
def spaced (start step : Amount) : Nat → List Amount
  | 0 => []
  | n + 1 => start :: spaced (start + step) step n

/-- How many bodies the loop runs: one when it is evaluated once, none without a positive
    increment. -/
def bodyCount (l : LoopParams) : Nat :=
  if l.once then 1 else if 0 < l.increment then (l.workAmount / l.increment).trips else 0

/-- Steps one operand from `start` through the whole loop. -/
def positions (l : LoopParams) (operand : Int) (start : Amount) : Except Failure Positions := do
  let (bodies, left) ←
    if l.once then pure ([start], start)
    else match l.bodyCount with
      | 0 => pure ([], start)
      | n + 1 => do
        let step := (← fetch l.ptrIncrements operand) * l.increment
        pure (spaced start step (n + 1), start + step * Int64.ofNat (n + 1))
  return { bodies, final := left + (← fetch l.finalOffsets operand) }

/-! ## Evaluating the body once -/

/-- Adds to each final offset what one body would have moved its operand; offsets without a pointer
    increment stay. -/
def absorbSteps (increment : Amount) : List Amount → List Amount → List Amount
  | f :: fs, p :: ps => (f + p * increment) :: absorbSteps increment fs ps
  | fs, _ => fs

/-- Marks a loop that runs its body at most once as evaluated once. Where the position after the
    loop matters, because another loop runs it again or because of `force`, the steps it no longer
    makes go into the final offsets. The answer tells whether the loop was changed. -/
def evaluateOnce (force : Bool) : EStateM Failure LoopParams Bool := fun l =>
  if l.once || !l.isStatic then .ok false l
  else if l.workAmount ≥ 2 * l.increment then .ok false l
  else if l.hasOuterLoop || force then
    let l' := { l with finalOffsets := absorbSteps l.increment l.finalOffsets l.ptrIncrements }
    if l.finalOffsets.length > l.ptrIncrements.length then .error (.trap .index) l'
    else .ok true { l' with once := true }
  else .ok true { l with once := true }

end LoopParams

end KernelLoops
