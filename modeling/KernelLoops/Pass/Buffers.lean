import KernelLoops.ConflictGraph
import KernelLoops.Counting
import KernelLoops.Kernel.Edit
import KernelLoops.Kernel.Walk

set_option autoImplicit false

/-! # Coloring and placing buffers

Loops are the only place where buffer pointers move, so a loop is where conflicts show: buffers that
one loop steps differently, or alike over elements of different sizes, must not share memory. Each
color then gets a slot of the scratch area as large as its largest buffer. -/

namespace KernelLoops

namespace Kernel

/-- The buffer that produces an entry operand of a loop, with its pointer increment. -/
def entryBuffer (k : Kernel) (e : Expr) (l : LoopParams) (i : Int) :
    Except Failure (Option (ExprId × Amount)) := do
  let t ← e.input i
  match k.producer? t.id with
  | some p =>
    if p.kind = .buffer then return some (p.id, ← fetch l.ptrIncrements i) else return none
  | none => return none

/-- The buffer that consumes an exit operand of a loop before anything but a marker does, with its
    pointer increment. -/
def exitBuffer (k : Kernel) (e : Expr) (l : LoopParams) (i : Int) :
    Except Failure (Option (ExprId × Amount)) := do
  let t ← e.input i
  match (k.consumers t.id).find? fun p => !(k.expr p.expr).kind.isMarker with
  | some p =>
    if (k.expr p.expr).kind = .buffer then return some (p.expr, ← fetch l.ptrIncrements i)
    else return none
  | none => return none

/-- Adds what is found at `n` positions from `i` on; a buffer found again gets its last
    increment. -/
def collect (find : Int → Except Failure (Option (ExprId × Amount))) (i : Int) :
    Nat → List (ExprId × Amount) → Except Failure (List (ExprId × Amount))
  | 0, found => .ok found
  | n + 1, found => do
    match ← find i with
    | some (b, step) => collect find (i + 1) n (put b step found)
    | none => collect find (i + 1) n found

/-- The buffers a loop steps, in the order they are first met, with their pointer increments. A
    buffer declared directly in the body counts as stepped by zero. -/
def steppedBuffers (k : Kernel) (loopEnd : ExprId) : Except Failure (List (ExprId × Amount)) := do
  let e := k.expr loopEnd
  let l ← e.params
  let entries ← collect (k.entryBuffer e l) 0 l.numEntries.trips []
  let exits := (l.numOperands.toInt - l.numEntries.toInt).toNat
  let operands ← collect (k.exitBuffer e l) l.numEntries.toInt exits entries
  let loopBegin ← k.loopBeginOf loopEnd
  match k.body loopBegin (some loopEnd) with
  | (_, some f) => throw f
  | (body, none) =>
    return (body.filter fun b => (k.expr b).kind = .buffer).foldl (fun s b => put b 0 s) operands

/-- Must two stepped buffers be kept apart? -/
def conflicting (k : Kernel) (a b : ExprId × Amount) : Except Failure Bool := do
  if a.2 ≠ b.2 then return true
  if a.2 = 0 then return false
  let size ← (← (k.expr a.1).output 0).elementType.size
  let other ← (← (k.expr b.1).output 0).elementType.size
  return size ≠ other

/-- Connects one stepped buffer with those after it where they must be kept apart. -/
def connectWith (k : Kernel) (a : ExprId × Amount) (g : ConflictGraph)
    (bs : List (ExprId × Amount)) :
    Except Failure ConflictGraph :=
  bs.foldlM (fun g b => do
    if ← k.conflicting a b then g.connect (← g.index a.1) (← g.index b.1) else return g) g

/-- Connects the buffers that one loop steps. -/
def connectAll (k : Kernel) : List (ExprId × Amount) → ConflictGraph → Except Failure ConflictGraph
  | [], g => .ok g
  | a :: rest, g => do k.connectAll rest (← k.connectWith a g rest)

/-- The conflicts among the buffers of the kernel. -/
def conflicts (k : Kernel) : Except Failure ConflictGraph :=
  (k.ofKind .loopEnd).foldlM (fun g e => do k.connectAll (← k.steppedBuffers e) g)
    (.ofBuffers (k.ofKind .buffer))

end Kernel

/-! ## Passes -/

namespace Buffers

/-- Gives every buffer its color. The answer tells whether there is a buffer. -/
def color : Edit Bool := do
  let k ← get
  let buffers := k.ofKind .buffer
  if buffers.isEmpty then return false
  let graph ← Edit.ask Kernel.conflicts
  (buffers.zip graph.color).forM fun (b, c) =>
    Edit.modifyExpr b fun x => { x with bufferId := c }
  return true

/-- Places the buffers of each color in one slot, and answers where the next slot starts. -/
def placeColor (alignment : Amount) (buffers : List ExprId) (offset : Amount) (color : Int) :
    Edit Amount := do
  let k ← get
  let group := buffers.filter fun b => (k.expr b).bufferId = color
  let sizes ← Edit.ask fun k => group.mapM fun b => (k.expr b).byteSize
  group.forM fun b => Edit.modifyExpr b fun x => { x with bufferOffset := offset }
  return offset + (sizes.tail.foldl max (sizes.headD 0)).alignUp alignment

/-- Places every buffer in the scratch area. The answer tells whether there is a buffer. -/
def place : Edit Bool := do
  let k ← get
  let buffers := k.ofKind .buffer
  if buffers.isEmpty then
    modify fun k => { k with scratchSize := 0 }
    return false
  let colors := (buffers.map fun b => (k.expr b).bufferId).eraseDups.mergeSort
  let size ← colors.foldlM (placeColor (max k.config.alignment 1) buffers) 0
  modify fun k => { k with scratchSize := size }
  return true

end Buffers

end KernelLoops
