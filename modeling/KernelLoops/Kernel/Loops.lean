import KernelLoops.Kernel.Edit

set_option autoImplicit false

/-! # Loops of a kernel

`Kernel.loopBounds` finds the range of a loop from its boundary ports. `Edit.markLoop` tags a range
as a new loop and reads its boundary off the data flow. -/

namespace KernelLoops

namespace Kernel

/-- The loop of an identifier. -/
def loopInfo (k : Kernel) (id : LoopId) : Except Failure LoopInfo := k.loops.info id

/-- The range of a loop: its first expression and the one after its last. It reaches from the first
    to the last boundary expression and then over neighbours tagged with the loop. -/
def loopBounds (k : Kernel) (id : LoopId) : Except Failure (ExprId × Option ExprId) := do
  let info ← k.loopInfo id
  if info.ports.isEmpty then throw (.violation (.noBoundary id))
  let offBoundary (e : ExprId) : Bool := !(info.ports.any (·.expr = e))
  let tagged (e : ExprId) : Bool := (k.expr e).inLoop id
  let before := k.order.takeWhile offBoundary
  match k.order.dropWhile offBoundary with
  | [] => throw (.violation (.boundaryNotFound id))
  | first :: _ =>
    let after := (k.order.reverse.takeWhile offBoundary).reverse
    return (((before.reverse.takeWhile tagged).getLast?).getD first, (after.dropWhile tagged).head?)

/-- The entries of a range: the inputs produced by none of its expressions. -/
def entriesOf (k : Kernel) (range : List ExprId) : List Port :=
  range.flatMap fun e => (k.expr e).inputs.zipIdx.filterMap fun (t, index) =>
    match (k.producers t.id).head? with
    | some p => if range.contains p.expr then none else some { expr := e, side := .input, index }
    | none => some { expr := e, side := .input, index }

/-- The exits of a range: the outputs with a consumer outside it. An output nobody consumes yet is
    an exit too, unless it ties two markers. -/
def exitsOf (k : Kernel) (range : List ExprId) : List Port :=
  range.flatMap fun e => (k.expr e).outputs.zipIdx.filterMap fun (t, index) =>
    let users := k.consumers t.id
    if (users.isEmpty && !(k.expr e).kind.isMarker) || users.any (fun p => !range.contains p.expr) then
      some { expr := e, side := .output, index }
    else none

end Kernel

namespace Edit

/-- Tags the range from `start` up to `stop` with a new loop at a nesting level. -/
def markLoop (start stop : Option ExprId) (depth workAmount increment dim : Amount) :
    Edit LoopId := do
  let k ← get
  match k.range? start stop with
  | none => throw (.violation .markUnreachable)
  | some range =>
    let id ← addLoop
      { workAmount, increment, dim, entries := k.entriesOf range, exits := k.exitsOf range }
    range.forM fun e => setLoopId e id depth
    return id

end Edit

end KernelLoops
