import KernelLoops.Amount
import KernelLoops.ElementType

set_option autoImplicit false

/-! # Tensors

A tensor type is a shape, the physical order of its dimensions and an element type. A tensor is such
a type under a name of its own: two tensors of one type are still two tensors, and the data flow of
a kernel goes by the name. -/

namespace KernelLoops

/-- Tensors are named by the order in which they were made. -/
abbrev TensorId := Nat

/-- The shape, layout and element type of a tensor. -/
structure TensorType where
  elementType : ElementType
  /-- The size of each dimension. -/
  shape : List Amount
  /-- The dimensions in physical order, outermost first; the last one is contiguous. -/
  layout : List Int
deriving DecidableEq, Repr, Inhabited

namespace TensorType

/-- A tensor type whose dimensions lie in memory in their own order. -/
def planar (elementType : ElementType) (shape : List Amount) : TensorType :=
  { elementType, shape, layout := (List.range shape.length).map Int.ofNat }

/-- The type of a value that holds no data, such as the tie between two loop markers. -/
def empty : TensorType := { elementType := .invalid, shape := [], layout := [] }

/-- The number of elements. -/
def numElements (t : TensorType) : Amount := Amount.product t.shape

/-- The number of dimensions. -/
def rank (t : TensorType) : Nat := t.shape.length

/-- Do the dimensions lie in memory in their own order? -/
def isPlanar (t : TensorType) : Bool :=
  t.layout == (List.range t.layout.length).map Int.ofNat

/-- The text of a tensor type, such as `Float32[2,17]`. A layout that is not planar follows in
    braces. -/
def render (t : TensorType) : String :=
  let layout := if t.isPlanar then "" else "\x7b" ++ ",".intercalate (t.layout.map toString) ++ "\x7d"
  t.elementType.name ++ renderAmounts t.shape ++ layout

end TensorType

/-- A tensor type under a name. -/
structure Tensor extends TensorType where
  id : TensorId
deriving DecidableEq, Repr, Inhabited

end KernelLoops
