import KernelLoops.Counting
import KernelLoops.Kernel.Basic

set_option autoImplicit false

/-! # Pseudo-code

A lowered kernel as indented text: one statement per expression, one block per loop. A tensor gets a
variable when it is first mentioned, by what it is there, and keeps it. -/

namespace KernelLoops.PseudoCode

/-- The variables given out so far. -/
structure Names where
  /-- The variable of each tensor. -/
  given : List (TensorId × String) := []
  /-- How many variables each letter has. -/
  counts : List (String × Nat) := []

/-- A step of printing. -/
abbrev Print := EStateM Failure Names

/-- The variable of a tensor; a new one starts with `letter`. -/
def nameOf (t : Tensor) (letter : String) : Print String := fun names =>
  match names.given.lookup t.id with
  | some v => .ok v names
  | none =>
    let n := (names.counts.lookup letter).getD 0
    let v := letter ++ toString n
    .ok v
      { given := put t.id v names.given
        counts := (letter, n + 1) :: names.counts.filter (·.1 != letter) }

/-- Lifts a question that does not depend on the names. -/
def lift {α : Type} : Except Failure α → Print α
  | .ok a => pure a
  | .error f => throw f

/-- The variable of an input. -/
def input (e : Expr) (i : Int) (letter : String) :
    Print String := do nameOf (← lift (e.input i)) letter

/-- The variable of an output. -/
def output (e : Expr) (i : Int) (letter : String) : Print String := do
  nameOf (← lift (e.output i)) letter

/-- The statement of an expression that is no marker. -/
def statement (e : Expr) : Print String :=
  match e.kind with
  | .constant => do
    let c ← output e 0 "c"
    let t ← lift (e.output 0)
    return s!"{c} = Constant {t.render}"
  | .scalar => do
    let v ← output e 0 "v"
    return s!"{v} = Scalar"
  | .load | .broadcastLoad => do
    let v ← output e 0 "v"
    let m ← input e 0 "m"
    return s!"{v} = {e.kind.name}({m}) x{e.count}"
  | .store => do
    let m ← output e 0 "m"
    let v ← input e 0 "v"
    return s!"Store({m}, {v}) x{e.count}"
  | .buffer => do
    let b ← output e 0 "buf"
    let m ← input e 0 "m"
    let bytes ← lift e.byteSize
    return s!"{b} = Buffer({m}) id={e.bufferId} offset={e.bufferOffset} bytes={bytes}"
  | .fill => do
    let v ← output e 0 "v"
    let w ← input e 0 "v"
    return s!"{v} = Fill({w}, {Expr.renderPattern e.fillValue}) lanes>={e.count}"
  | .brgemm => do
    let m ← output e 0 "m"
    let a ← input e 0 "m"
    let b ← input e 1 "m"
    return s!"Brgemm({m}, {a}, {b}) rows={e.count}"
  | .result => do
    let m ← input e 0 "m"
    return s!"return {m}"
  | _ => do
    let args ← e.inputs.mapM fun t => nameOf t "v"
    let v ← output e 0 "v"
    let list := ", ".intercalate args
    return s!"{v} = {e.op}({list})"

/-- A line at an indentation. -/
def line (indent : Int) (text : String) : String :=
  String.join (List.replicate indent.toNat "\t") ++ text ++ "\n"

/-- The first line of a loop. -/
def loopHead (k : Kernel) (e : ExprId) : Except Failure String := do
  let loopEnd ← k.loopEndOf e
  let l ← (k.expr loopEnd).params
  let once := if l.once then " once" else ""
  let parallel := if k.parallelLoop = some loopEnd then " parallel" else ""
  return s!"loop {l.id.render} wa={l.workAmount} inc={l.increment} " ++
    s!"ptr={renderAmounts l.ptrIncrements} fin={renderAmounts l.finalOffsets}{once}{parallel} \x7b"

/-- The lines of a list of expressions, from an indentation on. -/
def lines (k : Kernel) (indent : Int) : List ExprId → Print String
  | [] => return ""
  | e :: rest =>
    match (k.expr e).kind with
    | .parameter => lines k indent rest
    | .loopBegin => do
      let head ← lift (loopHead k e)
      return line indent head ++ (← lines k (indent + 1) rest)
    | .loopEnd => do return line (indent - 1) "\x7d" ++ (← lines k (indent - 1) rest)
    | _ => do
      let text ← statement (k.expr e)
      return line indent text ++ (← lines k indent rest)

/-- The parameters of a kernel, as they stand in its head. -/
def parameters (k : Kernel) : Print (List String) :=
  (k.ofKind .parameter).mapM fun e => do
    let arg ← output (k.expr e) 0 "arg"
    return arg ++ " " ++ (← lift ((k.expr e).output 0)).render

/-- The text of a kernel. -/
def print (name : String) (k : Kernel) : Print String := do
  let list := ", ".intercalate (← parameters k)
  let scratch := if 0 < k.scratchSize then s!" scratch[{k.scratchSize}]" else ""
  let body ← lines k 1 k.order
  return s!"kernel {name}({list}){scratch} \x7b\n" ++ body ++ "\x7d\n"

/-- The pseudo-code of a kernel. -/
def render (name : String) (k : Kernel) : Except Failure String :=
  match print name k {} with
  | .ok text _ => .ok text
  | .error f _ => .error f

end KernelLoops.PseudoCode
