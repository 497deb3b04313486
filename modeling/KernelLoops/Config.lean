import KernelLoops.Amount

set_option autoImplicit false

/-! # Configuration -/

namespace KernelLoops

/-- What the lowering of a kernel may do. -/
structure Config where
  /-- Pad the unused lanes of reduction operands in tails. -/
  fillTails : Bool := false
  /-- Drop the trip counter of loops that run their body at most once. -/
  evaluateOnce : Bool := true
  /-- The alignment of every scratch slot, in bytes. -/
  alignment : Amount := 64
deriving DecidableEq, Repr, Inhabited

end KernelLoops
