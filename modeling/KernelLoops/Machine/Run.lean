import KernelLoops.Kernel.Walk
import KernelLoops.Machine.Basic
import KernelLoops.Pass.Parallel
import KernelLoops.Team.Executor

set_option autoImplicit false

/-! # Running a kernel

Loads and stores go through windows at the current position of a tensor. The chosen parallel loop
can run on a team: each call of the team works on a fork of the machine, which shares its blocks and
has its own positions, registers and intermediate tensors. -/

namespace KernelLoops.Machine

variable {α : Type} (A : Arithmetic α)

/-- A step of a run. -/
abbrev Step (α : Type) := EStateM Failure (Machine α)

/-- Lifts a question that does not depend on the machine. -/
def lift {β : Type} : Except Failure β → Step α β
  | .ok b => pure b
  | .error f => throw f

/-! ## Memory -/

/-- Where a tensor lives. A tensor without memory gets a block of zeros. -/
def locate (t : Tensor) : Step α Binding := do
  match (← get).bindings.lookup t.id with
  | some b => return b
  | none =>
    let n ← lift (storage 4 t.numElements)
    let b : Binding := { block := (← get).blocks.size, position := 0, temporary := true }
    modify fun m => { m with
      blocks := m.blocks.push (.fresh n)
      bindings := put t.id b m.bindings }
    return b

/-- Opens a window of `count` elements at the position of a tensor, and answers where it starts and
    ends in its block. -/
def window (t : Tensor) (count : Amount) : Step α (Nat × Nat × Nat) := do
  let b ← locate t
  let size := Int64.ofNat ((← get).blockSize b.block)
  let stop := b.position + count
  if b.position < 0 || stop > size then
    throw (.violation (.outOfBounds count t.toTensorType b.position))
  if stop < b.position then throw (.trap .window)
  modify fun m => { m with windows := m.windows.push { tensor := t.id, offset := b.position, count } }
  return (b.block, b.position.trips, stop.trips)

/-- The contents of a window. -/
def read (t : Tensor) (count : Amount) : Step α (Array α) := do
  let (block, start, stop) ← window t count
  return ((← get).blocks.getD block (.fresh 0)).slice A.zero start stop

/-- The value of a register. -/
def register (t : Tensor) : Step α (Array α) := do
  match (← get).registers.lookup t.id with
  | some r => return r
  | none => throw (.violation (.unsetRegister t.toTensorType))

/-- Sets the register of an output. -/
def setRegister (e : Expr) (r : Array α) : Step α Unit := do
  let t ← lift (e.output 0)
  modify fun m => { m with registers := put t.id r m.registers }

/-- The number of lanes to make a register of. -/
def lanes : Step α Nat := do lift (storage 4 (← get).width)

/-! ## Expressions -/

/-- Pads the lanes from `count` on. -/
def padLanes (count : Amount) (v : α) (r : Array α) : Except Failure (Array α) :=
  if count < 0 then .error (.trap .index)
  else .ok (r.mapIdx fun i x => if count.trips ≤ i then v else x)

/-- Runs an expression that opens no loop. -/
def runExpr (e : Expr) : Step α Unit :=
  match e.kind with
  | .parameter | .result | .buffer | .constant => pure ()
  | .load => do
    let n ← lanes
    let values ← read A (← lift (e.input 0)) e.count
    setRegister e ((values ++ Array.replicate (n - values.size) A.zero).extract 0 n)
  | .broadcastLoad => do
    let values ← read A (← lift (e.input 0)) 1
    let n ← lanes
    setRegister e (Array.replicate n (values.getD 0 A.zero))
  | .scalar => do
    let n ← lanes
    setRegister e (Array.replicate n A.zero)
  | .fill => do
    let r ← register (← lift (e.input 0))
    setRegister e (← lift (padLanes e.count (A.ofBits e.fillValue) r))
  | .elementwise => do
    let args ← e.inputs.mapM register
    setRegister e (← lift (A.elementwise e.op args (← get).width))
  | .store => do
    let (block, start, stop) ← window (← lift (e.output 0)) e.count
    let r ← register (← lift (e.input 0))
    modify fun m => { m with blocks := m.blocks.modify block (Block.write A.zero start stop r.toList) }
  | _ => throw (.violation (.notRunnable e.id e.kind))

/-! ## Loops -/

/-- Moves every operand of a closing marker. -/
def advance (e : Expr) (l : LoopParams) (offsets : List Amount) : Step α Unit :=
  countM 0 l.numOperands.trips fun i => do
    let t ← lift (e.input i)
    let b ← locate t
    let step ← lift (fetch offsets i)
    modify fun m => m.bind t.id { b with position := b.position + step }

/-- Runs the bodies of `workAmount`, each followed by a step of the operands. -/
def iterate (e : Expr) (l : LoopParams) (workAmount : Amount) (body : Step α Unit) :
    Step α Unit := do
  let n ← lift (storage 8 l.numOperands)
  if l.ptrIncrements.length < n then throw (.trap .index)
  let steps := (l.ptrIncrements.take n).map (· * l.increment)
  let count ← lift (quotient workAmount l.increment)
  repeatM count.trips do
    body
    advance e l steps

/-- Runs a loop on this machine. -/
def runLoop (e : Expr) (body : Step α Unit) : Step α Unit := do
  let l ← lift e.params
  if l.once then body else iterate e l l.workAmount body
  advance e l l.finalOffsets

/-- A machine that shares the blocks of this one. Intermediate tensors and registers are its own. -/
def fork (m : Machine α) : Machine α :=
  { m with bindings := m.bindings.filter (!·.2.temporary), registers := [] }

/-- The operands of a loop at byte offsets of their own. -/
def placeOperands (operands : List (Tensor × Binding)) (offsets : List Amount) (m : Machine α) :
    Machine α :=
  (operands.zip offsets).foldl (fun m ((t, b), o) =>
    m.bind t.id { b with position := o / 4, temporary := false }) m

/-- Runs one call of a team on a fork, and answers why it failed if it did. -/
def runCall (e : Expr) (l : LoopParams) (operands : List (Tensor × Binding)) (body : Step α Unit)
    (call : Call) (m : Machine α) : Option Failure × Machine α :=
  match iterate e l call.workAmount body (placeOperands operands call.offsets m.fork) with
  | .ok _ w => (none, { m with blocks := w.blocks, windows := w.windows })
  | .error f w => (some f, { m with blocks := w.blocks, windows := w.windows })

/-- Runs the calls of a team one after another, and answers why the first failing one failed. -/
def runCalls (e : Expr) (l : LoopParams) (operands : List (Tensor × Binding)) (body : Step α Unit) :
    List Call → Machine α → Option Failure × Machine α
  | [], m => (none, m)
  | call :: rest, m =>
    let (failure, m) := runCall e l operands body call m
    let (later, m) := runCalls e l operands body rest m
    (failure <|> later, m)

/-- Runs a loop on a team. -/
def dispatch (k : Kernel) (x : Executor) (e : Expr) (body : Step α Unit) : Step α Unit := do
  let config ← lift (k.loopConfig (some e.id))
  let l ← lift e.params
  if l.numOperands < 0 || l.numOperands.trips > e.inputs.length then throw (.trap .window)
  let operands ← (e.inputs.take l.numOperands.trips).mapM fun t => do return (t, ← locate t)
  let (calls, offsets) ← lift (x.execute config (operands.map fun (_, b) => b.position * 4))
  let (failure, m) := runCalls e l operands body calls (← get)
  set m
  match failure with
  | some f => throw f
  | none =>
    (operands.zip offsets).forM fun ((t, b), o) =>
      modify fun m => m.bind t.id { b with position := o / 4 }

/-! ## Kernels -/

/-- What a machine does that runs every loop itself. -/
def alone : Kernel.Actions (Machine α) :=
  { run := runExpr A
    loop := fun _ e body => runLoop e body }

/-- What a machine does that has the chosen parallel loop run on a team. Each member of the team
    runs the body alone. -/
def withTeam (k : Kernel) (x : Executor) : Kernel.Actions (Machine α) :=
  { run := runExpr A
    loop := fun b e body =>
      if k.parallelLoop = some e.id then dispatch k x e (k.executeBody (alone A) b.id e.id)
      else runLoop e body }

/-- Runs a whole kernel; with a team the chosen parallel loop runs on it. -/
def runKernel (k : Kernel) (team : Option Executor) : Step α Unit :=
  match team with
  | some x => k.execute (withTeam A k x)
  | none => k.execute (alone A)

/-- Runs a kernel on its arguments. What stops the run itself is reported as a refusal. -/
def run (k : Kernel) (team : Option Executor) (inputs outputs : List (Array α)) :
    Except Failure (Machine α) := do
  let m ← setup k inputs outputs
  match runKernel A k team m with
  | .ok _ m => return m
  | .error f _ => throw f.guard

end KernelLoops.Machine
