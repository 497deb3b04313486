import KernelLoops.Kernel.Edit
import KernelLoops.Team.LoopConfig

set_option autoImplicit false

/-! # The parallel loop

The loop that runs on a team is the first outermost one with static parameters and at least two
chunks of work. -/

namespace KernelLoops

namespace Kernel

/-- The parameters a closing marker has for a team. -/
def loopConfig (k : Kernel) (loopEnd : Option ExprId) : Except Failure LoopConfig :=
  match loopEnd with
  | none => .error (.rejection .needsLoopEnd)
  | some id =>
    let e := k.expr id
    if e.kind ≠ .loopEnd then .error (.rejection .needsLoopEnd)
    else match e.loop with
      | none => .error (.violation (.noLoopParams e.id))
      | some l =>
        (LoopConfig.make l.workAmount l.increment l.ptrIncrements l.finalOffsets l.elementSizes).mapError
          (Failure.within (.loop l.id))

/-- Can the loop of a closing marker run on a team? -/
def parallelizable (e : Expr) : Except Failure Bool := do
  if e.kind ≠ .loopEnd || !e.isOutermost then return false
  let l ← e.params
  if l.once || !l.isStatic then return false
  return (← quotient l.workAmount l.increment) ≥ 2

end Kernel

namespace Parallel

/-- The first expression of a list whose loop can run on a team. -/
def choose (k : Kernel) : List ExprId → Except Failure (Option ExprId)
  | [] => .ok none
  | e :: rest => do
    if ← Kernel.parallelizable (k.expr e) then return some e
    choose k rest

/-- Selects the loop that runs on a team. The answer tells whether there is one. -/
def run : Edit Bool := do
  modify fun k => { k with parallelLoop := none }
  let chosen ← Edit.ask fun k => choose k k.order
  modify fun k => { k with parallelLoop := chosen }
  return chosen.isSome

end Parallel

end KernelLoops
