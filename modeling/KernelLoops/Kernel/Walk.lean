import KernelLoops.Kernel.Basic

set_option autoImplicit false

/-! # Walking a kernel with markers

`Kernel.body` lists what lies directly in a loop. `Kernel.execute` goes through a kernel the way it
runs: expressions in order, and each loop as one unit whose body may run any number of times. A
well-formed kernel is walked forward only. Where a closing marker does not lie ahead, the walk goes
on behind that marker wherever it is; such jumps are counted, because a walk that keeps jumping back
never ends. -/

namespace KernelLoops

namespace Kernel

/-- The expressions on a walk up to `stop`, nested loops left out, and why the walk stopped short. A
    walk with more steps than there are expressions goes round in circles. -/
def bodyOn (k : Kernel) (stop : Option ExprId) : Nat → List ExprId → List ExprId × Option Failure
  | _, [] => ([], if stop = none then none else some (.trap .missing))
  | 0, e :: _ => ([], if some e = stop then none else some .endless)
  | steps + 1, e :: rest =>
    if some e = stop then ([], none)
    else if (k.expr e).kind = .loopBegin then
      match k.loopEndOf e with
      | .error f => ([], some f)
      | .ok last => k.bodyOn stop steps (behind last k.order)
    else
      let (es, f) := k.bodyOn stop steps rest
      (e :: es, f)

/-- What lies between two markers, nested loops left out, and why the walk stopped short. -/
def body (k : Kernel) (loopBegin : ExprId) (loopEnd : Option ExprId) :
    List ExprId × Option Failure :=
  k.bodyOn loopEnd (k.order.length + 1) (behind loopBegin k.order)

/-- What a run does at the expressions of a kernel. -/
structure Actions (σ : Type) where
  /-- Runs an expression that opens no loop. -/
  run : Expr → EStateM Failure σ Unit
  /-- Runs the loop between an opening and a closing marker, given its body. -/
  loop : Expr → Expr → EStateM Failure σ Unit → EStateM Failure σ Unit

/-- What lies behind an item is shorter than the list by at least one. -/
theorem length_behind_le (e : ExprId) (xs : List ExprId) : (behind e xs).length ≤ xs.length := by
  induction xs with
  | nil => simp [behind]
  | cons x xs ih =>
    simp only [behind, List.length_cons]
    split <;> omega

/-- Runs the part of a kernel on a walk up to `stop`. -/
def executeOn {σ : Type} (k : Kernel) (act : Actions σ) (stop : Option ExprId) (jumps : Nat)
    (walk : List ExprId) : EStateM Failure σ Unit :=
  match walk with
  | [] => if stop = none then pure () else throw (.trap .missing)
  | e :: rest =>
    if some e = stop then pure ()
    else if (k.expr e).kind = .loopBegin then
      match k.loopEndOf e with
      | .error f => throw f
      | .ok last => do
        act.loop (k.expr e) (k.expr last) (k.executeOn act (some last) jumps rest)
        if rest.contains last then k.executeOn act stop jumps (behind last rest)
        else match jumps with
          | 0 => throw .endless
          | left + 1 => k.executeOn act stop left (behind last k.order)
    else do
      act.run (k.expr e)
      k.executeOn act stop jumps rest
termination_by (jumps, walk.length)
decreasing_by
  · exact Prod.Lex.right _ (by simp)
  · exact Prod.Lex.right _ (by have := length_behind_le last rest; simp only [List.length_cons]; omega)
  · exact Prod.Lex.left _ _ (by omega)
  · exact Prod.Lex.right _ (by simp)

/-- A run that ends never jumps back more often than there are pairs of expressions. -/
def jumpLimit (k : Kernel) : Nat := k.order.length * k.order.length + 1

/-- Runs what lies between two markers. -/
def executeBody {σ : Type} (k : Kernel) (act : Actions σ) (loopBegin loopEnd : ExprId) :
    EStateM Failure σ Unit :=
  k.executeOn act (some loopEnd) k.jumpLimit (behind loopBegin k.order)

/-- Runs a whole kernel. -/
def execute {σ : Type} (k : Kernel) (act : Actions σ) : EStateM Failure σ Unit :=
  k.executeOn act none k.jumpLimit k.order

end Kernel

end KernelLoops
