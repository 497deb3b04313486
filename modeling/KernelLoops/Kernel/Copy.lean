import KernelLoops.Kernel.Loops

set_option autoImplicit false

/-! # Copying a range

A copy of a range of expressions has fresh numbers, and fresh tensors for those that only the range
itself consumes; every other tensor is shared. `copyLoops` gives the copy its own loops. -/

namespace KernelLoops

/-- A copy of a range, outside the sequence. -/
structure RangeCopy where
  /-- The copied expressions and their copies, in range order. -/
  pairs : List (ExprId × ExprId)
  /-- The tensors private to the range and their copies. -/
  tensors : List (TensorId × Tensor)
deriving DecidableEq, Repr, Inhabited

namespace RangeCopy

/-- The copies, in range order. -/
def copies (c : RangeCopy) : List ExprId := c.pairs.map Prod.snd

/-- The copy of an expression. -/
def copyOf? (c : RangeCopy) (e : ExprId) : Option ExprId := c.pairs.lookup e

/-- The tensor a copy uses for a tensor of the range. -/
def rename (tensors : List (TensorId × Tensor)) (t : Tensor) : Tensor :=
  (tensors.lookup t.id).getD t

/-- A boundary port, on the copy when its expression was copied. -/
def movePort (c : RangeCopy) (p : Port) : Port := { p with expr := (c.copyOf? p.expr).getD p.expr }

end RangeCopy

namespace Kernel

/-- Is a tensor consumed by expressions of the range only? -/
def privateTo (k : Kernel) (range : List ExprId) (t : Tensor) : Bool :=
  (k.consumers t.id).all fun p => range.contains p.expr

end Kernel

namespace Edit

/-- A fresh tensor for one output, unless its name has one. -/
def copyTensor (done : List (TensorId × Tensor)) (t : Tensor) :
    Edit (List (TensorId × Tensor)) := do
  if (done.lookup t.id).isSome then return done
  let t' ← newTensor t.toTensorType
  return done ++ [(t.id, t')]

/-- Fresh tensors for the outputs that are private to the range. A tensor with several producers
    gets one copy. -/
def copyTensors (outputs : List Tensor) : Edit (List (TensorId × Tensor)) :=
  outputs.foldlM copyTensor []

/-- Copies one expression without inserting the copy. -/
def copyExpr (tensors : List (TensorId × Tensor)) (x : Expr) : Edit (ExprId × ExprId) := do
  let c ← addExpr fun id => { x.withLoopIds x.loopIds with
    id
    inputs := x.inputs.map (RangeCopy.rename tensors)
    outputs := x.outputs.map (RangeCopy.rename tensors) }
  return (x.id, c)

/-- Copies the range from `start` up to `stop` without inserting the copies. -/
def copyRange (start stop : Option ExprId) : Edit RangeCopy := do
  let k ← get
  match k.range? start stop with
  | none => throw (.violation .copyUnreachable)
  | some range =>
    let outputs := range.flatMap fun e => (k.expr e).outputs
    let tensors ← copyTensors (outputs.filter (k.privateTo range))
    let pairs ← (range.map k.expr).mapM (copyExpr tensors)
    return { pairs, tensors }

/-- Inserts the copies before `mark`, or at the end, in range order. -/
def insertCopy (c : RangeCopy) (mark : Option ExprId) : Edit Unit :=
  c.copies.forM fun e => insertBefore e mark

/-- The new name of a loop, where it has one. -/
def renamed (mapping : List (LoopId × LoopId)) (id : LoopId) : LoopId := (mapping.lookup id).getD id

/-- The expression under the new names of its loops. -/
def retagged (mapping : List (LoopId × LoopId)) (x : Expr) : Expr :=
  { x with
    loopIds := x.loopIds.map (renamed mapping)
    loop := x.loop.map fun l => { l with id := renamed mapping l.id } }

/-- Registers a loop again with its boundary on the copies. -/
def copyLoop (c : RangeCopy) (done : List (LoopId × LoopId)) (id : LoopId) :
    Edit (List (LoopId × LoopId)) := do
  let info ← ask fun k => k.loopInfo id
  let fresh ← addLoop { info with
    entries := info.entries.map c.movePort
    exits := info.exits.map c.movePort }
  return (id, fresh) :: done.filter (·.1 != id)

/-- Gives the copies loops of their own: each listed loop is registered again with its boundary on
    the copies, and the copies are tagged with the new loops. The answer maps old names to new
    ones. -/
def copyLoops (c : RangeCopy) (ids : List LoopId) : Edit (List (LoopId × LoopId)) := do
  let mapping ← ids.foldlM (copyLoop c) []
  c.copies.forM fun e => modifyExpr e (retagged mapping)
  return mapping

end Edit

end KernelLoops
