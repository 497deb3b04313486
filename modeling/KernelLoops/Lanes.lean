import KernelLoops.Failure

set_option autoImplicit false

/-! # Lane arithmetic

A register holds a fixed number of lanes. What the operations do on one lane is a record of its own,
so that the machine can run over any kind of lane; `Arithmetic.single` is IEEE single precision. -/

namespace KernelLoops

/-- The operations on one lane. -/
structure Arithmetic (α : Type) where
  zero : α
  ofBits : UInt32 → α
  exp : α → α
  neg : α → α
  abs : α → α
  add : α → α → α
  sub : α → α → α
  mul : α → α → α
  max : α → α → α
  min : α → α → α

namespace Single

/-- Is the sign bit set? -/
def isNegative (x : Float32) : Bool := x.toBits ≥ 0x80000000

/-- The larger of two values. A value that is not a number wins, and `+0` is larger than `-0`. -/
def max (x y : Float32) : Float32 :=
  if x.isNaN then x
  else if y.isNaN then y
  else if y < x then x
  else if x < y then y
  else if isNegative x then y else x

/-- The smaller of two values. A value that is not a number wins, and `-0` is smaller than `+0`. -/
def min (x y : Float32) : Float32 :=
  if x.isNaN then x
  else if y.isNaN then y
  else if x < y then x
  else if y < x then y
  else if isNegative x then x else y

/-- The exponential, computed in double precision and rounded once. -/
def exp (x : Float32) : Float32 := x.toFloat.exp.toFloat32

end Single

namespace Arithmetic

/-- IEEE single precision. -/
def single : Arithmetic Float32 where
  zero := 0
  ofBits := Float32.ofBits
  exp := Single.exp
  neg x := -x
  abs := Float32.abs
  add x y := x + y
  sub x y := x - y
  mul x y := x * y
  max := Single.max
  min := Single.min

variable {α : Type} (A : Arithmetic α)

/-- The operation of one operand with a name. -/
def unary? : String → Option (α → α)
  | "Exp" => some A.exp
  | "Neg" => some A.neg
  | "Relu" => some fun x => A.max x A.zero
  | "Abs" => some A.abs
  | _ => none

/-- The operation of two operands with a name. -/
def binary? : String → Option (α → α → α)
  | "Add" => some A.add
  | "Sub" => some A.sub
  | "Mul" => some A.mul
  | "Maximum" => some A.max
  | "Minimum" => some A.min
  | _ => none

/-- The first `width` lanes of a register. -/
def firstLanes (width : Nat) (reg : Array α) : Except Failure (Array α) :=
  if reg.size < width then .error (.trap .index) else .ok (reg.extract 0 width)

/-- Applies an operation to every lane. -/
def elementwise (op : String) (args : List (Array α)) (width : Amount) :
    Except Failure (Array α) := do
  let n ← storage 4 width
  match args, A.unary? op, A.binary? op with
  | [x], some f, _ => return (← firstLanes n x).map f
  | [x, y], _, some f => return Array.zipWith f (← firstLanes n x) (← firstLanes n y)
  | _, _, _ => throw (.violation (.unsupportedOp op args.length))

end Arithmetic

end KernelLoops
