import KernelLoops.Kernel.Loops

set_option autoImplicit false

/-! # Building a kernel

A builder adds expressions at the end of a kernel, gives register values their registers and marks
the expressions added since some point as a loop. -/

namespace KernelLoops

/-- A kernel under construction. -/
structure Builder where
  kernel : Kernel := {}
  /-- The element type of tensors made from a shape. -/
  elementType : ElementType := .float32
  /-- The number of nesting levels of every expression. -/
  depth : Amount := 1
  /-- The elements a load or store moves per call. -/
  count : Amount := 8
  /-- The register of each tensor that lives in one. -/
  registers : List (TensorId × Int) := []
  nextRegister : Int := 0
deriving DecidableEq, Repr, Inhabited

/-- A step of building. A failing step keeps what it changed. -/
abbrev Build := EStateM Failure Builder

namespace Build

/-- An edit of the kernel under construction. -/
def edit {α : Type} (step : Edit α) : Build α := fun b =>
  match step b.kernel with
  | .ok a kernel => .ok a { b with kernel }
  | .error f kernel => .error f { b with kernel }

/-- Makes an expression and adds it at the end. -/
def add (kind : OpKind) (op : String) (inputs outputs : List Tensor) : Build ExprId := do
  let depth := (← get).depth
  edit do
    let e ← Edit.newExpr kind op inputs outputs depth
    Edit.append e
    return e

/-- Binds the inputs that live in registers to those registers, in input order. -/
def bindInputs (e : ExprId) : Build Unit := do
  let b ← get
  let inRegs := (b.kernel.expr e).inputs.filterMap fun t => b.registers.lookup t.id
  edit (Edit.modifyExpr e fun x => { x with inRegs })

/-- Gives each output a register of its own. -/
def bindOutputs (e : ExprId) : Build Unit := do
  let outputs := ((← get).kernel.expr e).outputs
  outputs.forM fun t => do
    let reg := (← get).nextRegister
    modify fun b => { b with registers := (t.id, reg) :: b.registers, nextRegister := reg + 1 }
    edit (Edit.modifyExpr e fun x => { x with outRegs := x.outRegs ++ [reg] })

/-- Sets the number of elements an expression moves. -/
def setCount (e : ExprId) (count : Amount) : Build Unit :=
  edit (Edit.modifyExpr e fun x => { x with count })

/-! ## Expressions -/

/-- Adds a kernel input that is described by a tensor. -/
def parameterOf (t : Tensor) : Build Unit := do
  let _ ← add .parameter "Parameter" [] [t]

/-- Adds a kernel input of a shape. -/
def parameter (shape : List Amount) : Build Tensor := do
  let t ← edit (Edit.newTensor (.planar (← get).elementType shape))
  parameterOf t
  return t

/-- Adds a constant of a shape. -/
def constant (shape : List Amount) : Build Tensor := do
  let t ← edit (Edit.newTensor (.planar (← get).elementType shape))
  let _ ← add .constant "Constant" [] [t]
  return t

/-- Reads a tensor into a register. -/
def load (src : Tensor) : Build Tensor := do
  let out ← edit (Edit.newTensor src.toTensorType)
  let e ← add .load "Load" [src] [out]
  setCount e (← get).count
  bindInputs e
  bindOutputs e
  return out

/-- Reads one element of a tensor into every lane of a register. -/
def broadcastLoad (src : Tensor) : Build Tensor := do
  let out ← edit (Edit.newTensor src.toTensorType)
  let e ← add .broadcastLoad "BroadcastLoad" [src] [out]
  setCount e 1
  bindInputs e
  bindOutputs e
  return out

/-- Puts a scalar into a register. -/
def scalar : Build Tensor := do
  let out ← edit (Edit.newTensor (.planar (← get).elementType [1]))
  let e ← add .scalar "Scalar" [] [out]
  bindInputs e
  bindOutputs e
  return out

/-- The first of the tensors with the most elements. -/
def widest (t : Tensor) (ts : List Tensor) : Tensor :=
  ts.foldl (fun best t => if t.numElements > best.numElements then t else best) t

/-- Applies an operation lane by lane. The result has the type of the widest input. -/
def elementwise (op : String) : List Tensor → Build Tensor
  | [] => throw (.violation (.noOperands op))
  | t :: ts => do
    let out ← edit (Edit.newTensor (widest t ts).toTensorType)
    let e ← add .elementwise op (t :: ts) [out]
    bindInputs e
    bindOutputs e
    return out

/-- Writes a register to memory. -/
def store (src : Tensor) : Build Tensor := do
  let out ← edit (Edit.newTensor src.toTensorType)
  let e ← add .store "Store" [src] [out]
  setCount e (← get).count
  bindInputs e
  return out

/-- Adds scratch storage for a tensor; without an allocation it reserves the tensor's shape. -/
def buffer (src : Tensor) (allocation : List Amount) : Build Tensor := do
  let out ← edit (Edit.newTensor src.toTensorType)
  let e ← add .buffer "Buffer" [src] [out]
  let allocation := if allocation.isEmpty then src.shape else allocation
  edit (Edit.modifyExpr e fun x => { x with allocation })
  return out

/-- Multiplies two matrices in memory, `count` rows per call. -/
def brgemm (a c : Tensor) (count : Amount) : Build Tensor := do
  match a.shape.reverse, c.shape.reverse with
  | _ :: rows :: _, columns :: _ :: _ =>
    let out ← edit (Edit.newTensor (.planar a.elementType [rows, columns]))
    let e ← add .brgemm "Brgemm" [a, c] [out]
    setCount e count
    return out
  | _, _ => throw (.violation (.matrixRank a.toTensorType c.toTensorType))

/-- Adds a kernel output. -/
def result (src : Tensor) : Build Unit := do
  let _ ← add .result "Result" [src] []

/-- Records the neutral value that pads an input of an expression in tails. -/
def setFill (e : ExprId) (port : Int) (value : UInt32) : Build Unit := do
  let x := (← get).kernel.expr e
  if port < 0 || port ≥ x.inputs.length then throw (.violation (.noFillPort e port))
  edit (Edit.modifyExpr e fun x => { x with fills := Expr.setFill port.toNat value x.fills })

/-! ## Loops -/

/-- A point to open a loop from: the last expression so far. -/
def mark : Build (Option ExprId) := return (← get).kernel.last?

/-- The first expression added since a mark. -/
def sinceMark (k : Kernel) : Option ExprId → Option ExprId
  | none => k.first?
  | some m => k.next? m

/-- Marks what was added since `m` as one loop at a nesting level. The innermost level iterates the
    innermost dimension. -/
def loop (m : Option ExprId) (depth workAmount increment : Amount) : Build LoopId := do
  let b ← get
  match sinceMark b.kernel m with
  | none => throw (.violation .emptyMark)
  | some start =>
    edit (Edit.markLoop (some start) none depth workAmount increment (b.depth - 1 - depth))

/-- Tags what was added since `m` at a nesting level that no loop will materialize. -/
def fakeLoop (m : Option ExprId) (depth : Amount) : Build Unit := do
  let k := (← get).kernel
  (k.walkFrom (sinceMark k m)).forM fun e => edit (Edit.setLoopId e LoopId.fake depth)

end Build

end KernelLoops
