import KernelLoops.Tensor.Basic

set_option autoImplicit false

/-! # Memory accesses -/

namespace KernelLoops

/-- One access of a run: `count` elements of a tensor from `offset` on. -/
structure Access where
  tensor : TensorId
  offset : Amount
  count : Amount
deriving DecidableEq, Repr, Inhabited

namespace Access

/-- The elements an access touches. -/
def elements (a : Access) : List Amount :=
  (List.range a.count.trips).map fun i => a.offset + Int64.ofNat i

end Access

end KernelLoops
