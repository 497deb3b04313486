import KernelLoops.Kernel.Basic

set_option autoImplicit false

/-! # Editing a kernel

An edit is a step on a kernel that may fail; what it changed before it failed stays changed.
Inserting, removing and rewiring keep the data-flow index in step with the sequence, and moving does
not touch it. -/

namespace KernelLoops

/-- A step on a kernel. A failing step keeps what it changed. -/
abbrev Edit := EStateM Failure Kernel

namespace Edit

/-- Asks a question about the kernel. -/
def ask {α : Type} (question : Kernel → Except Failure α) : Edit α := fun k =>
  match question k with
  | .ok a => .ok a k
  | .error f => .error f k

/-- Changes one expression. -/
def modifyExpr (e : ExprId) (f : Expr → Expr) : Edit Unit :=
  modify fun k => { k with exprs := k.exprs.modify e f }

/-- Changes one expression, unless the change is refused. -/
def updateExpr (e : ExprId) (f : Expr → Except Failure Expr) : Edit Unit := do
  let e' ← ask fun k => f (k.expr e)
  modifyExpr e fun _ => e'

/-- Changes one loop of the table. -/
def modifyLoop (id : LoopId) (f : LoopInfo → LoopInfo) : Edit Unit :=
  modify fun k => { k with loops := k.loops.modify id f }

/-- Registers a loop. -/
def addLoop (l : LoopInfo) : Edit LoopId := fun k =>
  let (id, loops) := k.loops.insert l
  .ok id { k with loops }

/-! ## Making -/

/-- Gives a tensor type a fresh name. -/
def newTensor (t : TensorType) : Edit Tensor := fun k =>
  .ok { t with id := k.nextTensor } { k with nextTensor := k.nextTensor + 1 }

/-- Makes an expression outside the sequence. -/
def addExpr (make : ExprId → Expr) : Edit ExprId := fun k =>
  .ok k.exprs.size { k with exprs := k.exprs.push (make k.exprs.size) }

/-- Makes an expression outside the sequence, with `depth` levels that no loop covers. -/
def newExpr (kind : OpKind) (op : String) (inputs outputs : List Tensor) (depth : Amount) :
    Edit ExprId := do
  let levels ← ask fun _ => storage 8 depth
  addExpr fun id =>
    { id, kind, op, inputs, outputs, loopIds := List.replicate levels LoopId.null }

/-! ## The data-flow index -/

/-- The links of an expression on one side. -/
def links (e : ExprId) (side : Side) (ts : List Tensor) : List Link :=
  ts.zipIdx.map fun (t, index) => { tensor := t.id, port := { expr := e, side, index } }

/-- Adds the links of an expression to the index. -/
def register (e : ExprId) : Edit Unit := modify fun k =>
  let x := k.expr e
  { k with
    consumed := k.consumed ++ links e .input x.inputs
    produced := k.produced ++ links e .output x.outputs }

/-- Drops the links of an expression from the index. -/
def unregister (e : ExprId) : Edit Unit := modify fun k =>
  let x := k.expr e
  let ins := links e .input x.inputs
  let outs := links e .output x.outputs
  { k with
    consumed := k.consumed.filter fun l => !ins.contains l
    produced := k.produced.filter fun l => !outs.contains l }

/-! ## The sequence -/

/-- The list with `e` before the first occurrence of `mark`. -/
def insertAt (e mark : ExprId) : List ExprId → List ExprId
  | [] => [e]
  | x :: xs => if x = mark then e :: x :: xs else x :: insertAt e mark xs

/-- Refuses an expression outside the sequence. -/
def requireAttached (e : ExprId) : Edit Unit := fun k =>
  if k.attached e then .ok () k else .error (.violation (.notAttached e)) k

/-- Puts an expression into the sequence before `mark`, or at the end. -/
def link (e : ExprId) : Option ExprId → Edit Unit
  | none => modify fun k => { k with order := k.order ++ [e] }
  | some mark => do
    requireAttached mark
    modify fun k => { k with order := insertAt e mark k.order }

/-- Takes an expression out of the sequence. -/
def unlink (e : ExprId) : Edit Unit := modify fun k => { k with order := k.order.erase e }

/-- Inserts an expression that is not in the sequence before `mark`, or at the end. -/
def insertBefore (e : ExprId) (mark : Option ExprId) : Edit Unit := do
  if (← get).attached e then throw (.violation (.alreadyAttached e))
  link e mark
  register e

/-- Inserts an expression at the end. -/
def append (e : ExprId) : Edit Unit := insertBefore e none

/-- Inserts an expression after `mark`. Nothing follows a mark outside the sequence, so there the
    expression goes to the end. -/
def insertAfter (e mark : ExprId) : Edit Unit := do
  insertBefore e ((← get).next? mark)

/-- Removes an expression and its links. -/
def remove (e : ExprId) : Edit Unit := do
  requireAttached e
  unregister e
  unlink e

/-- Moves an expression before `mark`, or to the end; its links stay. The expression leaves the
    sequence before the mark is looked up. -/
def move (e : ExprId) (mark : Option ExprId) : Edit Unit := do
  requireAttached e
  if some e ≠ mark then
    unlink e
    link e mark

/-- Rewires an input to another tensor. -/
def replaceInput (e : ExprId) (i : Int) (t : Tensor) : Edit Unit := do
  requireAttached e
  let old ← ask fun k => (k.expr e).input i
  let port : Port := { expr := e, side := .input, index := i.toNat }
  modifyExpr e fun x => { x with inputs := x.inputs.set i.toNat t }
  modify fun k => { k with
    consumed := k.consumed.filter (· != { tensor := old.id, port }) ++ [{ tensor := t.id, port }] }

/-- Tags an expression with a loop at a nesting level. -/
def setLoopId (e : ExprId) (id : LoopId) (depth : Amount) : Edit Unit :=
  updateExpr e (·.withLoopId id depth)

end Edit

end KernelLoops
