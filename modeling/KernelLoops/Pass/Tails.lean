import KernelLoops.Counting
import KernelLoops.Kernel.Copy
import KernelLoops.Kernel.Walk

set_option autoImplicit false

/-! # Splitting tails

A materialized loop whose work amount is not a multiple of its increment becomes a vector loop over
whole increments and a tail over the rest. With a vector loop the tail is a copy of the body right
behind it; without one the loop itself becomes the tail. Closing markers are visited in sequence
order, so an outer body is copied with its inner loops already split. -/

namespace KernelLoops.Tails

/-- Does one of the loop's operands live in a buffer? -/
def touchesBuffer (k : Kernel) (e : Expr) (l : LoopParams) : Except Failure Bool := do
  let entry ← anyCountM 0 l.numEntries.trips fun i => do
    let t ← e.input i
    return (k.producer? t.id).any fun p => p.kind = .buffer
  if entry then return true
  anyCountM l.numEntries.toInt (l.numOperands.toInt - l.numEntries.toInt).toNat fun i => do
    let t ← e.input i
    return (k.consumers t.id).any fun p => (k.expr p.expr).kind = .buffer

/-- A step on the parameters of a closing marker. -/
def onParams {α : Type} (e : ExprId) (step : EStateM Failure LoopParams α) : Edit α := do
  let l ← Edit.ask fun k => (k.expr e).params
  match step l with
  | .ok a l' =>
    Edit.modifyExpr e fun x => { x with loop := some l' }
    return a
  | .error f l' =>
    Edit.modifyExpr e fun x => { x with loop := some l' }
    throw f

/-! ## Narrowing a body -/

/-- Pads an input of an expression: a fill of the unused lanes goes before it, in the same
    register. -/
def insertFill (consumer : ExprId) (port : Nat) (count : Amount) (value : UInt32) : Edit Unit := do
  let x := (← get).expr consumer
  let t ← Edit.ask fun _ => x.input port
  let out ← Edit.newTensor t.toTensorType
  let regs := x.inRegs[port]?.toList
  let fill ← Edit.addExpr fun id =>
    { id, kind := .fill, op := "Fill", inputs := [t], outputs := [out], loopIds := x.loopIds,
      hasLevels := x.hasLevels, count, fillValue := value, inRegs := regs, outRegs := regs }
  Edit.insertBefore fill (some consumer)
  Edit.replaceInput consumer port out
  Edit.modifyExpr consumer fun x => { x with fills := x.fills.filter (·.1 != port) }

/-- Pads an input of an expression if the table has a neutral value for it. -/
def fillPort (size : Amount) (consumer : ExprId) (values : List (Nat × UInt32)) (port : Nat) :
    Edit Unit :=
  match values.lookup port with
  | some value => insertFill consumer port size value
  | none => pure ()

/-- Is the expression a reduction operand's consumer, whose unused lanes are read later? -/
def readsAllLanes (e : Expr) : Bool := e.kind = .elementwise && (e.op = "Maximum" || e.op = "Add")

/-- Makes one expression process `size` elements. -/
def narrow (size : Amount) (e : ExprId) : Edit Unit := do
  let k ← get
  let x := k.expr e
  if k.config.fillTails && readsAllLanes x then
    (List.range x.inputs.length).forM (fillPort size e x.fills)
  else if x.kind.isMemoryAccess && x.count > 1 then
    Edit.modifyExpr e fun x => { x with count := size }

/-- Makes the body between two markers process `size` elements; nested loops were handled on their
    own. -/
def narrowBody (loopBegin loopEnd : Option ExprId) (size : Amount) : Edit Unit := do
  match loopBegin with
  | none => throw (.trap .missing)
  | some b =>
    let (body, fault) := (← get).body b loopEnd
    body.forM (narrow size)
    match fault with
    | some f => throw f
    | none => pure ()

/-! ## Building a tail -/

/-- The loops of a range that do not enclose it, in the order they first appear. -/
def nestedLoops (k : Kernel) (outer : List LoopId) (range : List ExprId) : List LoopId :=
  ((range.flatMap fun e => (k.expr e).loopIds).filter fun id =>
    !id.isSentinel && !outer.contains id).eraseDups

/-- The markers of a tail and its loop. -/
structure Tail where
  loopBegin : Option ExprId
  loopEnd : Option ExprId
  id : LoopId
deriving DecidableEq, Repr

/-- Copies a loop right behind itself, with loops of its own. -/
def copyLoop (loopBegin loopEnd : ExprId) : Edit Tail := do
  let k ← get
  let behind := k.next? loopEnd
  let ids ← Edit.ask fun k => match k.range? (some loopBegin) behind with
    | some range => .ok (nestedLoops k (k.expr loopEnd).loopIds range)
    | none => .error (.trap .missing)
  let copy ← Edit.copyRange (some loopBegin) behind
  let mapping ← Edit.copyLoops copy ids
  Edit.insertCopy copy behind
  let l ← Edit.ask fun k => (k.expr loopEnd).params
  let id := (mapping.lookup l.id).getD 0
  let _ ← Edit.ask fun k => k.loopInfo id
  return { loopBegin := copy.copyOf? loopBegin, loopEnd := copy.copyOf? loopEnd, id }

/-- Scales an inner loop over the split dimension down to the tail of the outer one. -/
def scaleInner (dim size : Amount) (e : ExprId) : Edit Unit := do
  if ((← get).expr e).kind = .loopEnd then
    let l ← Edit.ask fun k => (k.expr e).params
    let info ← Edit.ask (·.loopInfo l.id)
    if info.dim = dim then
      let l' := { l with
        finalOffsets :=
          if l.workAmount = 0 then l.finalOffsets
          else l.finalOffsets.map fun o => o / l.workAmount * size
        workAmount := size
        increment := min l.increment size }
      Edit.modifyExpr e fun x => { x with loop := some l' }
      Edit.modifyLoop l.id fun i => { i with workAmount := size, increment := l'.increment }
      let b ← Edit.ask (·.loopBeginOf e)
      narrowBody (some b) (some e) size

/-- Scales every loop inside a tail that iterates the dimension of the split loop. -/
def scaleInners (tail : Tail) (dim size : Amount) : Edit Unit := do
  match tail.loopBegin with
  | none => throw (.trap .missing)
  | some b =>
    let (inside, met) := Kernel.upTo tail.loopEnd (Kernel.behind b (← get).order)
    inside.forM (scaleInner dim size)
    if !met then throw (.trap .missing)

/-- The markers of the tail: those of a copy behind a vector loop, else those of the loop itself. -/
def tailOf (vector : Bool) (loopBegin loopEnd : ExprId) (id : LoopId) : Edit Tail :=
  if vector then copyLoop loopBegin loopEnd
  else pure { loopBegin := some loopBegin, loopEnd := some loopEnd, id }

/-- Drops the trip counter of a loop that runs its body at most once, if the configuration says
    so. -/
def optimize (e : ExprId) (force : Bool) : Edit Unit := do
  if (← get).config.evaluateOnce then
    let _ ← onParams e (LoopParams.evaluateOnce force)

/-- Makes the loop between the markers of a tail run once over `size` elements. -/
def finishTail (tail : Tail) (loopEnd : ExprId) (size : Amount) (offsets : List Amount)
    (touches : Bool) : Edit Unit := do
  narrowBody tail.loopBegin tail.loopEnd size
  match tail.loopEnd with
  | none => throw (.trap .missing)
  | some e =>
    let outer := (← Edit.ask fun k => (k.expr loopEnd).params).hasOuterLoop
    onParams e (modify fun t => { t with
      workAmount := size
      increment := size
      finalOffsets := offsets
      hasOuterLoop := outer
      once := false })
    optimize e touches

/-- Builds the tail of the loop that ends at `loopEnd`. -/
def buildTail (loopEnd : ExprId) (vector : Bool) (size : Amount) (offsets : List Amount)
    (touches : Bool) : Edit Unit := do
  let loopBegin ← Edit.ask (·.loopBeginOf loopEnd)
  let l ← Edit.ask fun k => (k.expr loopEnd).params
  let info ← Edit.ask (·.loopInfo l.id)
  let tail ← tailOf vector loopBegin loopEnd l.id
  Edit.modifyLoop tail.id fun i => { i with workAmount := size, increment := size }
  if info.split then scaleInners tail info.dim size
  finishTail tail loopEnd size offsets touches

/-- Takes a tail of `size` elements off a loop. The pointers go back after the very last chunk,
    which is the tail. -/
def shorten (loopEnd : ExprId) (l : LoopParams) (size : Amount) : Edit Unit := do
  onParams loopEnd (modify fun l => { l with
    finalOffsets := l.finalOffsets.map fun _ => 0
    workAmount := l.workAmount - size })
  let _ ← Edit.ask (·.loopInfo l.id)
  Edit.modifyLoop l.id fun i => { i with workAmount := l.workAmount - size }

/-- Makes a loop run over its whole increments only. -/
def buildVector (loopEnd : ExprId) (l : LoopParams) (size : Amount) (touches : Bool) :
    Edit Unit := do
  if size ≠ 0 then shorten loopEnd l size
  optimize loopEnd (size ≠ 0 || touches)

/-- Splits the loop of one closing marker. A loop that runs once, has no work or is not static
    stays. -/
def split (loopEnd : ExprId) : Edit Bool := do
  let l ← Edit.ask fun k => (k.expr loopEnd).params
  if l.once || l.workAmount = 0 || !l.isStatic then return false
  let size ← Edit.ask fun _ => remainder l.workAmount l.increment
  let vector : Bool := l.workAmount ≥ l.increment
  let touches ← Edit.ask fun k => touchesBuffer k (k.expr loopEnd) l
  if vector then buildVector loopEnd l size touches
  if size ≠ 0 then buildTail loopEnd vector size l.finalOffsets touches
  return true

/-- Splits the loop of an expression that is a closing marker. -/
def visit (modified : Bool) (e : ExprId) : Edit Bool := do
  if ((← get).expr e).kind ≠ .loopEnd then return modified
  let changed ← split e
  return modified || changed

/-- Splits every loop. The answer tells whether there was one to look at. -/
def run : Edit Bool := do
  (← get).order.foldlM visit false

end KernelLoops.Tails
