import KernelLoops.LoopId
import KernelLoops.OpKind
import KernelLoops.Port
import KernelLoops.Tensor.Basic
import KernelLoops.Text.Quoted

set_option autoImplicit false

/-! # Failures

Why an operation gave no result. A failure is a cause, a note whether a guarded run stopped it, and
the contexts it passed through on its way out. `Failure.message` holds the wording. -/

namespace KernelLoops

/-- The operation reached something that is not there. -/
inductive Trap
  /-- An item outside a list. -/
  | index
  /-- A window that ends before it starts. -/
  | window
  /-- A division by zero. -/
  | zeroDivisor
  /-- An expression, or the parameters of a loop, that is not there. -/
  | missing
  /-- A negative or unbounded amount of storage. -/
  | storage
deriving DecidableEq, Repr, Inhabited

/-- A condition the caller had to meet does not hold. -/
inductive Violation
  | levelRead (expr : ExprId) (levels : Nat) (depth : Amount)
  | levelWrite (expr : ExprId) (levels : Nat) (depth : Amount)
  | byteSize (kind : OpKind) (expr : ExprId)
  | alreadyAttached (expr : ExprId)
  | notAttached (expr : ExprId)
  | notLoopEnd (expr : ExprId)
  | notLoopBegin (expr : ExprId)
  | endWithoutBegin (expr : ExprId)
  | beginWithoutEnd (expr : ExprId)
  | unknownLoop (id : LoopId)
  | noBoundary (id : LoopId)
  | boundaryNotFound (id : LoopId)
  | markUnreachable
  | copyUnreachable
  | noOperands (op : String)
  | matrixRank (a b : TensorType)
  | noFillPort (expr : ExprId) (port : Int)
  | emptyMark
  | levelsDiffer (expr : ExprId) (levels previous : Nat)
  | levelsUnexpected (expr : ExprId) (levels wanted : Nat)
  | entryFromInside (id : LoopId) (entry : Port)
  | notIterable (operand : Port) (rank : Nat) (dim : Amount)
  | foreignBuffer (number : Int)
  | strayLoopEnd (expr : ExprId)
  | dynamicLoop (id : LoopId)
  | noLoopParams (expr : ExprId)
  | noPass
  | unsizedElement (type : ElementType)
  | outOfBounds (count : Amount) (type : TensorType) (position : Amount)
  | notRunnable (expr : ExprId) (kind : OpKind)
  | unsetRegister (type : TensorType)
  | unsupportedOp (op : String) (operands : Nat)
  | pointerCount (wanted given : Nat)
  | teamTooLarge
deriving DecidableEq, Repr

/-- A request that is refused. -/
inductive Rejection
  | needsStatic (workAmount increment : Amount)
  | badLoop (workAmount increment : Amount)
  | operandMismatch (steps offsets sizes : Nat)
  | dynamicStep (operand : Nat)
  | elementSize (operand : Nat) (size : Amount)
  | needsLoopEnd
  | notFloat32 (expr : ExprId) (type : ElementType)
  | moreParameters (inputs : Nat)
  | moreResults (outputs : Nat)
  | argumentCount (parameters results inputs outputs : Nat)
  | tensorSize (type : TensorType) (given : Nat)
  | misaligned (expr : ExprId) (offset : Amount)
  | badIncrement (kernel : String) (increment : Amount)
  | unknownKernel (name : String) (known : List String)
deriving DecidableEq, Repr

/-- What went wrong. -/
inductive Cause
  | trap (t : Trap)
  | violation (v : Violation)
  | rejection (r : Rejection)
  /-- The operation would go on forever. -/
  | endless
deriving DecidableEq, Repr

/-- What was being done when it went wrong. -/
inductive Context
  | pass (name : String)
  | loop (id : LoopId)
  | lowering (kernel : String)
  | kernel (name : String)
  | running (kernel mode : String)
deriving DecidableEq, Repr

/-- Why an operation gave no result. -/
structure Failure where
  cause : Cause
  /-- Did a guarded run stop it and report it? -/
  guarded : Bool := false
  /-- What was being done, outermost first. -/
  contexts : List Context := []
deriving DecidableEq, Repr

/-! ## Wording -/

namespace Trap

/-- The wording of a trap. -/
def message : Trap → String
  | index => "runtime error: index out of range"
  | window => "runtime error: slice bounds out of range"
  | zeroDivisor => "runtime error: integer divide by zero"
  | missing => "runtime error: invalid memory address or nil pointer dereference"
  | storage => "runtime error: makeslice: len out of range"

end Trap

namespace Violation

/-- The wording of a violation. -/
def message : Violation → String
  | levelRead e levels depth =>
    s!"expression #{e} has {levels} loop levels, requested depth {depth}"
  | levelWrite e levels depth =>
    s!"expression #{e} has {levels} loop levels, cannot set depth {depth}"
  | byteSize kind e => s!"ByteSize requested on {kind.name} expression #{e}"
  | alreadyAttached e => s!"expression #{e} is already part of a LinearIR"
  | notAttached e => s!"expression #{e} does not belong to this LinearIR"
  | notLoopEnd e => s!"expression #{e} is not a LoopEnd"
  | notLoopBegin e => s!"expression #{e} is not a LoopBegin"
  | endWithoutBegin e => s!"LoopEnd #{e} has no LoopBegin"
  | beginWithoutEnd e => s!"LoopBegin #{e} has no LoopEnd"
  | unknownLoop id => s!"loop {id.render} is not registered in the LoopManager"
  | noBoundary id => s!"loop {id.render} has no entry or exit ports"
  | boundaryNotFound id => s!"loop {id.render}: boundary expressions not found in the LinearIR"
  | markUnreachable => "MarkLoop: end is not reachable from begin"
  | copyUnreachable => "DeepCopyRange: end is not reachable from begin"
  | noOperands op => s!"Elementwise({Text.quote op}) needs at least one input"
  | matrixRank a b => s!"Brgemm needs rank-2 operands, got {a.render} and {b.render}"
  | noFillPort e port => s!"SetFill: expression #{e} has no input {port}"
  | emptyMark => "Loop: no expression added since mark"
  | levelsDiffer e levels previous =>
    s!"expressions in a LinearIR must have the same number of loop ids: #{e} has {levels}, previous has {previous}"
  | levelsUnexpected e levels wanted =>
    s!"expressions in a LinearIR must have the same number of loop ids: #{e} has {levels}, want {wanted}"
  | entryFromInside id entry =>
    s!"loop {id.render}: entry {entry.render} is produced inside the same loop"
  | notIterable operand rank dim =>
    s!"operand {operand.render} of rank {rank} cannot be iterated at dimension index {dim}"
  | foreignBuffer n => s!"Buffer #{n} is not part of the buffer graph"
  | strayLoopEnd e => s!"LoopEnd #{e} reached without its LoopBegin"
  | dynamicLoop id => s!"cannot simulate loop {id.render} with dynamic parameters"
  | noLoopParams e => s!"LoopEnd #{e} has no loop parameters"
  | noPass => "Pipeline cannot register a nil pass"
  | unsizedElement type => s!"unknown dtype \"{type.name}\" ({type.code}) in DType.GoType"
  | outOfBounds count type position =>
    s!"access to {count} elements of {type.render} at offset {position} is out of bounds"
  | notRunnable e kind => s!"expression #{e}: {kind.name} cannot be interpreted"
  | unsetRegister type => s!"register value {type.render} read before it is computed"
  | unsupportedOp op operands => s!"unsupported elementwise operation {op} with {operands} operands"
  | pointerCount wanted given => s!"parallel loop expects {wanted} pointers, got {given}"
  | teamTooLarge => "makechan: size out of range"

end Violation

namespace Rejection

/-- The wording of a rejection. -/
def message : Rejection → String
  | needsStatic workAmount increment =>
    s!"parallel loop needs a static work amount and increment, got work_amount={workAmount.render} " ++
      s!"increment={increment.render}"
  | badLoop workAmount increment =>
    s!"invalid parallel loop: work_amount={workAmount} increment={increment}"
  | operandMismatch steps offsets sizes =>
    s!"parallel loop operands mismatch: {steps} ptr increments, {offsets} finalization offsets, " ++
      s!"{sizes} element sizes"
  | dynamicStep operand => s!"parallel loop operand {operand} has a dynamic pointer step"
  | elementSize operand size => s!"parallel loop operand {operand} has element size {size}"
  | needsLoopEnd => "parallel loop config requires a LoopEnd expression"
  | notFloat32 e type => s!"expression #{e}: only Float32 kernels can be run, got {type.name}"
  | moreParameters inputs => s!"kernel has more than {inputs} parameters"
  | moreResults outputs => s!"kernel has more than {outputs} results"
  | argumentCount parameters results inputs outputs =>
    s!"kernel has {parameters} parameters and {results} results, " ++
      s!"got {inputs} inputs and {outputs} outputs"
  | tensorSize type given =>
    s!"tensor {type.render} needs {type.numElements} elements, got {given}"
  | misaligned e offset => s!"buffer #{e}: offset {offset} is not a multiple of the element size"
  | badIncrement kernel increment =>
    s!"kernel {kernel}: increment must be positive, got {increment}"
  | unknownKernel name known =>
    s!"unknown kernel {Text.quote name}, known kernels: [" ++ " ".intercalate known ++ "]"

end Rejection

namespace Context

/-- The wording of a context. -/
def message : Context → String
  | pass name => s!"pass {name}"
  | loop id => s!"loop {id.render}"
  | lowering name => s!"lowering kernel {name}"
  | kernel name => s!"kernel {name}"
  | running name mode => s!"running kernel {name} ({mode})"

end Context

namespace Failure

/-- The failure of a trap. -/
def trap (t : Trap) : Failure := { cause := .trap t }

/-- The failure of a violated condition. -/
def violation (v : Violation) : Failure := { cause := .violation v }

/-- The failure of a refused request. -/
def rejection (r : Rejection) : Failure := { cause := .rejection r }

/-- The failure of an operation without end. -/
def endless : Failure := { cause := .endless }

/-- The failure as a guarded run reports it. -/
def guard (f : Failure) : Failure := { f with guarded := true }

/-- Is the failure an answer to the caller? A trap or a violation is one when a guarded run stopped
    it. -/
def isReturned (f : Failure) : Bool :=
  match f.cause with
  | .trap _ | .violation _ => f.guarded
  | .rejection _ | .endless => true

/-- The failure seen from what was being done. One that nothing stopped passes through as it is. -/
def within (c : Context) (f : Failure) : Failure :=
  if f.isReturned then { f with contexts := c :: f.contexts } else f

/-- The wording of a failure: the contexts, then the cause. -/
def message (f : Failure) : String :=
  let cause := match f.cause with
    | .trap t => if f.guarded then "runtime panic: : " ++ t.message else t.message
    | .violation v => v.message
    | .rejection r => r.message
    | .endless => "the operation does not end"
  f.contexts.foldr (fun c rest => c.message ++ ": " ++ rest) cause

/-- How a failure reaches the caller. -/
inductive Severity
  /-- Returned as a refusal. -/
  | refused
  /-- A condition broken by the caller, and nothing stopped it. -/
  | broken
  /-- A trap, stopped or not. -/
  | trapped
deriving DecidableEq, Repr

/-- How the failure reaches the caller. -/
def severity (f : Failure) : Severity :=
  match f.cause with
  | .trap _ => .trapped
  | .violation _ => if f.guarded then .refused else .broken
  | .rejection _ | .endless => .refused

end Failure

/-! ## Checked access -/

/-- The item at a position of a list; outside the list there is none. -/
def fetch {α : Type} (xs : List α) (i : Int) : Except Failure α :=
  match i with
  | .ofNat n => match xs[n]? with
    | some x => .ok x
    | none => .error (.trap .index)
  | .negSucc _ => .error (.trap .index)

/-- The quotient toward zero; there is none by zero. -/
def quotient (a b : Amount) : Except Failure Amount :=
  if b = 0 then .error (.trap .zeroDivisor) else .ok (a / b)

/-- The remainder with the sign of the dividend; there is none by zero. -/
def remainder (a b : Amount) : Except Failure Amount :=
  if b = 0 then .error (.trap .zeroDivisor) else .ok (a % b)

/-- How many items of `size` bytes can be asked for at once: up to 2⁴⁸ bytes. -/
def storage (size : Nat) (n : Amount) : Except Failure Nat :=
  if n < 0 || n.toInt.toNat * size > 0x1000000000000 then .error (.trap .storage) else .ok n.toInt.toNat

end KernelLoops
