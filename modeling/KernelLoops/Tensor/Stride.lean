import KernelLoops.Failure

set_option autoImplicit false

/-! # Strides

Where the elements of a tensor lie in memory. -/

namespace KernelLoops

namespace ElementType

/-- The size of one element in bytes; not every element type has one. -/
def size (t : ElementType) : Except Failure Amount :=
  match t.size? with
  | some n => .ok n
  | none => .error (.violation (.unsizedElement t))

end ElementType

namespace TensorType

/-- The distance, in elements, between neighbours along `dim`: the product of the sizes of the
    dimensions that `layout` places inside it. -/
def stride (dim : Int) (layout : List Int) (shape : List Amount) : Except Failure Amount :=
  (layout.reverse.takeWhile (· != dim)).foldlM (fun s d => (s * ·) <$> fetch shape d) 1

end TensorType

end KernelLoops
