import KernelLoops.Kernel.Loops

set_option autoImplicit false

/-! # Materializing loops

Every loop that tags an expression becomes a pair of markers around its range, outer loops first.
The closing marker carries the pointer arithmetic of its operands: the loads among the entries, one
per producer, and then the stores among the exits. -/

namespace KernelLoops.Markers

/-- Keeps an entry that steps a pointer: a load, unless one that reads the same producer was kept
    before. -/
def keepEntry (k : Kernel) (acc : List ExprId × List Port) (entry : Port) :
    Except Failure (List ExprId × List Port) := do
  let (seen, kept) := acc
  let kind := (k.expr entry.expr).kind
  if kind ≠ .load && kind ≠ .broadcastLoad then return (seen, kept)
  let t ← k.tensorAt entry
  match (k.producers t.id).head? with
  | none => return (seen, kept ++ [entry])
  | some p =>
    if seen.contains p.expr then return (seen, kept)
    return (p.expr :: seen, kept ++ [entry])

/-- The entries that step a pointer: loads that read distinct producers. -/
def steppedEntries (k : Kernel) (entries : List Port) : Except Failure (List Port) :=
  Prod.snd <$> entries.foldlM (keepEntry k) ([], [])

/-- The exits that step a pointer: the stores. -/
def steppedExits (k : Kernel) (exits : List Port) : List Port :=
  exits.filter fun p => (k.expr p.expr).kind = .store

/-- Does the innermost level of an expression belong to a loop that is never materialized? -/
def inFakeLoop (e : Expr) : Bool := e.loopIds.getLast? = some LoopId.fake

/-- The dimension of an operand that a loop iterates. A fake innermost loop takes one level. -/
def iteratedDim (k : Kernel) (p : Port) (dim : Amount) : Except Failure Int := do
  let t ← k.tensorAt p
  let rank := t.layout.length
  let index := Int64.ofNat rank - 1 - dim + (if inFakeLoop (k.expr p.expr) then 1 else 0)
  if index < 0 || index ≥ Int64.ofNat rank then throw (.violation (.notIterable p rank dim))
  fetch t.layout index.toInt

/-- The size of an operand along the iterated dimension. -/
def iteratedSize (k : Kernel) (dim : Amount) (p : Port) : Except Failure Amount := do
  let d ← iteratedDim k p dim
  fetch (← k.tensorAt p).shape d

/-- How far an operand moves per unit of work. An operand of size one does not move while another is
    larger. In a fake loop the strides follow the layout of the loop's first operand. -/
def ptrIncrement (k : Kernel) (dim widest : Amount) (layout : List Int) (p : Port) :
    Except Failure Amount := do
  let t ← k.tensorAt p
  let d ← iteratedDim k p dim
  if (← fetch t.shape d) = 1 && widest ≠ 1 then return 0
  TensorType.stride d (if inFakeLoop (k.expr p.expr) then layout else t.layout) t.shape

/-- How far each operand moves per unit of work. -/
def ptrIncrements (k : Kernel) (dim : Amount) : List Port → Except Failure (List Amount)
  | [] => .ok []
  | p :: ps => do
    let layout := (← k.tensorAt p).layout
    let size ← iteratedSize k dim p
    let sizes ← ps.mapM (iteratedSize k dim)
    (p :: ps).mapM (ptrIncrement k dim (sizes.foldl max size) layout)

/-- Each operand goes back by all the work of the loop. -/
def finalOffsets (workAmount : Amount) (steps : List Amount) : List Amount :=
  steps.map fun p => if workAmount.isDynamic then Amount.dynamic else -p * workAmount

/-- The parameters and operands of a loop, read off its boundary. -/
def loopParams (k : Kernel) (id : LoopId) (info : LoopInfo) (hasOuterLoop : Bool) :
    Except Failure (LoopParams × List Tensor) := do
  let entries ← steppedEntries k info.entries
  let exits := steppedExits k info.exits
  let steps ← ptrIncrements k info.dim (entries ++ exits)
  let operands ← (entries ++ exits).mapM k.tensorAt
  let sizes ← operands.mapM fun t => t.elementType.size
  let params : LoopParams :=
    { id
      workAmount := info.workAmount
      increment := info.increment
      ptrIncrements := steps
      finalOffsets := finalOffsets info.workAmount steps
      elementSizes := sizes
      numEntries := Int64.ofNat entries.length
      numExits := Int64.ofNat exits.length
      hasOuterLoop }
  return (params, operands)

/-- Puts the markers of one loop around its range. They belong to the enclosing loops only. -/
def insert (id : LoopId) (level : Nat) (hasOuterLoop : Bool) : Edit Unit := do
  let info ← Edit.ask (·.loopInfo id)
  let (start, stop) ← Edit.ask (·.loopBounds id)
  let (params, operands) ← Edit.ask fun k => loopParams k id info hasOuterLoop
  let x := (← get).expr start
  let loopIds := x.loopIds.zipIdx.map fun (l, i) => if i < level then l else LoopId.null
  let hasLevels := x.hasLevels
  let tie ← Edit.newTensor .empty
  let loopBegin ← Edit.addExpr fun id =>
    { id, kind := .loopBegin, op := "LoopBegin", inputs := [], outputs := [tie], loopIds, hasLevels }
  Edit.insertBefore loopBegin (some start)
  let loopEnd ← Edit.addExpr fun id =>
    { id, kind := .loopEnd, op := "LoopEnd", inputs := operands ++ [tie], outputs := [], loopIds, hasLevels,
      loop := some params }
  Edit.insertBefore loopEnd stop

/-- Does an expression lie in a materialized loop one level further out? -/
def hasOuter (x : Expr) (inserted : List LoopId) : Nat → Bool
  | 0 => false
  | n + 1 => match x.loopIds[n]? with
    | some o => inserted.contains o
    | none => false

/-- Materializes the loop of an expression at one level, unless it has markers. -/
def visitLevel (x : Expr) (inserted : List LoopId) : LoopId × Nat → Edit (List LoopId)
  | (id, level) => do
    if id.isSentinel || inserted.contains id then return inserted
    insert id level (hasOuter x inserted level)
    return id :: inserted

/-- Materializes the loops of one expression that have no markers yet, outer loops first. -/
def visit (inserted : List LoopId) (e : ExprId) : Edit (List LoopId) := do
  let x := (← get).expr e
  if x.kind.isMarker || x.kind = .buffer || x.kind.isInterface then return inserted
  x.loopIds.zipIdx.foldlM (visitLevel x) inserted

/-- Materializes every loop. The answer tells whether there was any. -/
def run : Edit Bool := do
  let inserted ← (← get).order.foldlM visit []
  return !inserted.isEmpty

end KernelLoops.Markers
