import KernelLoops.Config
import KernelLoops.Expr
import KernelLoops.LoopTable

set_option autoImplicit false

/-! # Kernels

A kernel is a sequence of expressions, the table of the loops that tag them, and an index of its
data flow. Every expression ever made stays known by its number; `order` lists those that belong to
the sequence. The index lists, in the order of registration, which port produces and which port
consumes which tensor. -/

namespace KernelLoops

/-- One entry of the data-flow index. -/
structure Link where
  tensor : TensorId
  port : Port
deriving DecidableEq, Repr, Inhabited

/-- The body of one kernel. -/
structure Kernel where
  config : Config := {}
  /-- The scratch memory in bytes. -/
  scratchSize : Amount := 0
  /-- The closing marker of the loop that runs in parallel. -/
  parallelLoop : Option ExprId := none
  /-- Every expression ever made, by number. -/
  exprs : Array Expr := #[]
  /-- The sequence. -/
  order : List ExprId := []
  /-- The ports that produce tensors, in the order of registration. -/
  produced : List Link := []
  /-- The ports that consume tensors, in the order of registration. -/
  consumed : List Link := []
  loops : LoopTable := {}
  /-- The name of the next tensor. -/
  nextTensor : TensorId := 0
deriving DecidableEq, Repr, Inhabited

namespace Kernel

/-! ## The sequence -/

/-- The expression of a number. A number that was never handed out reads as an empty expression. -/
def expr (k : Kernel) (e : ExprId) : Expr := k.exprs.getD e default

/-- Does the expression belong to the sequence? -/
def attached (k : Kernel) (e : ExprId) : Bool := k.order.contains e

/-- The expressions of the sequence. -/
def sequence (k : Kernel) : List Expr := k.order.map k.expr

/-- The part of a list behind the first occurrence of an item. -/
def behind (e : ExprId) : List ExprId → List ExprId
  | [] => []
  | x :: xs => if x = e then xs else behind e xs

/-- The expression after `e`. -/
def next? (k : Kernel) (e : ExprId) : Option ExprId := (behind e k.order).head?

/-- The expression before `e`. -/
def prev? (k : Kernel) (e : ExprId) : Option ExprId := (behind e k.order.reverse).head?

/-- The walk from an expression to the end of the sequence. An expression outside the sequence has
    no neighbours, so its walk is itself. -/
def walkFrom (k : Kernel) : Option ExprId → List ExprId
  | none => []
  | some e => e :: behind e k.order

/-- The first expression of the sequence. -/
def first? (k : Kernel) : Option ExprId := k.order.head?

/-- The last expression of the sequence. -/
def last? (k : Kernel) : Option ExprId := k.order.getLast?

/-- The expressions of one kind, in sequence order. -/
def ofKind (k : Kernel) (kind : OpKind) : List ExprId :=
  k.order.filter fun e => (k.expr e).kind = kind

/-! ## Data flow -/

/-- The ports that produce a tensor, in the order of registration. -/
def producers (k : Kernel) (t : TensorId) : List Port :=
  (k.produced.filter (·.tensor = t)).map Link.port

/-- The ports that consume a tensor, in the order of registration. -/
def consumers (k : Kernel) (t : TensorId) : List Port :=
  (k.consumed.filter (·.tensor = t)).map Link.port

/-- The expression that first came to produce a tensor. -/
def producer? (k : Kernel) (t : TensorId) : Option Expr :=
  (k.producers t).head?.map fun p => k.expr p.expr

/-- The tensor at a port. -/
def tensorAt (k : Kernel) (p : Port) : Except Failure Tensor :=
  (k.expr p.expr).operand p.side p.index

/-! ## Pairs of markers -/

/-- The opening marker of a closing one: the producer of its last input. -/
def loopBeginOf (k : Kernel) (loopEnd : ExprId) : Except Failure ExprId :=
  let e := k.expr loopEnd
  match e.kind, e.inputs.getLast? with
  | .loopEnd, some tie =>
    match k.producers tie.id with
    | p :: _ =>
      if (k.expr p.expr).kind = .loopBegin then .ok p.expr
      else .error (.violation (.endWithoutBegin e.id))
    | [] => .error (.violation (.endWithoutBegin e.id))
  | _, _ => .error (.violation (.notLoopEnd e.id))

/-- The closing marker of an opening one: the first closing marker that consumes its output. -/
def loopEndOf (k : Kernel) (loopBegin : ExprId) : Except Failure ExprId := do
  let e := k.expr loopBegin
  if e.kind ≠ .loopBegin then throw (.violation (.notLoopBegin e.id))
  let tie ← e.output 0
  match (k.consumers tie.id).find? fun p => (k.expr p.expr).kind = .loopEnd with
  | some p => return p.expr
  | none => throw (.violation (.beginWithoutEnd e.id))

/-! ## Walks -/

/-- The first expression equal to `target` on the walk from `start` up to `stop`; `stop` itself when
    there is none. A walk that misses `stop` falls off the sequence. -/
def findOn (stop target : Option ExprId) : List ExprId → Except Failure (Option ExprId)
  | [] => if stop = none || target = none then .ok none else .error (.trap .missing)
  | e :: rest =>
    if some e = stop then .ok stop
    else if some e = target then .ok target
    else findOn stop target rest

/-- Looks for an expression from `start` up to `stop`. -/
def find (k : Kernel) (start stop target : Option ExprId) : Except Failure (Option ExprId) :=
  findOn stop target (k.walkFrom start)

/-- Does an expression lie on the walk from `start` up to `stop`? -/
def inRange (k : Kernel) (start stop target : Option ExprId) : Except Failure Bool :=
  if target = none || target = stop then .ok false
  else (fun found => decide (found = target)) <$> k.find start stop target

/-- The part of a walk before `stop`, and whether the walk ends there. -/
def upTo (stop : Option ExprId) : List ExprId → List ExprId × Bool
  | [] => ([], stop = none)
  | e :: rest =>
    if some e = stop then ([], true)
    else let (taken, met) := upTo stop rest; (e :: taken, met)

/-- The range from `start` up to `stop`, when the walk ends there. -/
def range? (k : Kernel) (start stop : Option ExprId) : Option (List ExprId) :=
  match upTo stop (k.walkFrom start) with
  | (taken, true) => some taken
  | (_, false) => none

/-! ## Text -/

/-- The text of a kernel, one expression per line. -/
def render (k : Kernel) : String :=
  let scratch := if 0 < k.scratchSize then s!" scratch:{k.scratchSize}" else ""
  s!"LinearIR\x7bexprs:{k.order.length} loops:{k.loops.size}{scratch}\x7d\n" ++
    String.join (k.sequence.map fun e => "  " ++ e.render ++ "\n")

end Kernel

end KernelLoops
