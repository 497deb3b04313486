set_option autoImplicit false

/-! # Ports

A port names one input or one output of an expression. -/

namespace KernelLoops

/-- Expressions are named by the order in which they were made. -/
abbrev ExprId := Nat

/-- The side of an expression a port is on. -/
inductive Side
  | input
  | output
deriving DecidableEq, Repr, Inhabited

/-- One input or output of an expression. -/
structure Port where
  expr : ExprId
  side : Side
  index : Nat
deriving DecidableEq, Repr, Inhabited

namespace Port

/-- The text of a port, such as `#3.in0`. -/
def render (p : Port) : String :=
  let side := match p.side with
    | .input => "in"
    | .output => "out"
  s!"#{p.expr}.{side}{p.index}"

end Port

end KernelLoops
