import KernelLoops.LoopParams
import KernelLoops.Tensor.Stride

set_option autoImplicit false

/-! # Expressions

One scheduled operation of a kernel: what it consumes and produces, the loops it belongs to from the
outermost level inward, and the payload its kind needs. -/

namespace KernelLoops

/-- One scheduled operation. -/
structure Expr where
  id : ExprId
  kind : OpKind
  /-- The operation by name, such as `Add`. -/
  op : String
  inputs : List Tensor
  outputs : List Tensor
  /-- One entry per nesting level, outermost first. -/
  loopIds : List LoopId
  /-- Does the expression have levels, be it none? The expression after one that has no levels at
      all is not compared with it. -/
  hasLevels : Bool := true
  /-- Elements moved per call by a memory access; valid lanes of a fill. -/
  count : Amount := 0
  /-- The neutral value an input port is padded with in a tail, by port. -/
  fills : List (Nat × UInt32) := []
  /-- The bit pattern a fill writes. -/
  fillValue : UInt32 := 0
  inRegs : List Int := []
  outRegs : List Int := []
  /-- The parameters of a closing loop marker. -/
  loop : Option LoopParams := none
  /-- The color of a buffer. -/
  bufferId : Int := 0
  /-- The place of a buffer in the scratch area, in bytes. -/
  bufferOffset : Amount := 0
  /-- The elements a buffer reserves, per dimension. -/
  allocation : List Amount := []
deriving DecidableEq, Repr, Inhabited

namespace Expr

/-- An input. -/
def input (e : Expr) (i : Int) : Except Failure Tensor := fetch e.inputs i

/-- An output. -/
def output (e : Expr) (i : Int) : Except Failure Tensor := fetch e.outputs i

/-- The tensor on one side of the expression. -/
def operand (e : Expr) (side : Side) (i : Int) : Except Failure Tensor :=
  match side with
  | .input => e.input i
  | .output => e.output i

/-- Is the expression tagged with the loop, at any level? -/
def inLoop (e : Expr) (id : LoopId) : Bool := e.loopIds.contains id

/-- The loop at a nesting level. -/
def loopIdAt (e : Expr) (depth : Amount) : Except Failure LoopId :=
  match fetch e.loopIds depth.toInt with
  | .ok id => .ok id
  | .error _ => .error (.violation (.levelRead e.id e.loopIds.length depth))

/-- The expression tagged with a loop at a nesting level it has. -/
def withLoopId (e : Expr) (id : LoopId) (depth : Amount) : Except Failure Expr :=
  if 0 ≤ depth && depth.toInt < e.loopIds.length then
    .ok { e with loopIds := e.loopIds.set depth.toInt.toNat id }
  else .error (.violation (.levelWrite e.id e.loopIds.length depth))

/-- The loops by level, of an expression that has levels. -/
def levels? (e : Expr) : Option (List LoopId) := if e.hasLevels then some e.loopIds else none

/-- The expression tagged anew from the outermost level inward. Without tags it has no levels at
    all. -/
def withLoopIds (e : Expr) (ids : List LoopId) : Expr :=
  { e with loopIds := ids, hasLevels := !ids.isEmpty }

/-- The parameters of a closing loop marker. -/
def params (e : Expr) : Except Failure LoopParams :=
  match e.loop with
  | some l => .ok l
  | none => .error (.trap .missing)

/-- The bytes a buffer reserves. -/
def byteSize (e : Expr) : Except Failure Amount := do
  if e.kind ≠ .buffer then throw (.violation (.byteSize e.kind e.id))
  let size ← (← e.output 0).elementType.size
  return Amount.product e.allocation * size

/-- Records the neutral value of an input port, kept in the order of the ports. -/
def setFill (port : Nat) (value : UInt32) : List (Nat × UInt32) → List (Nat × UInt32)
  | [] => [(port, value)]
  | (p, v) :: rest =>
    if port < p then (port, value) :: (p, v) :: rest
    else if port = p then (port, value) :: rest
    else (p, v) :: setFill port value rest

/-- Is every level of the expression free of a materialized loop? -/
def isOutermost (e : Expr) : Bool := e.loopIds.all LoopId.isSentinel

/-- A bit pattern in hexadecimal. -/
def renderPattern (v : UInt32) : String := "0x" ++ String.ofList (Nat.toDigits 16 v.toNat)

/-- The text of an expression. -/
def render (e : Expr) : String :=
  let op := if e.op = "" || e.op = e.kind.name then "" else s!"({e.op})"
  let loops := bracketed (e.loopIds.map LoopId.render)
  let count := if e.kind.isMemoryAccess || e.kind = .fill then s!" count={e.count}" else ""
  let payload := match e.kind with
    | .buffer => s!" id={e.bufferId} offset={e.bufferOffset}"
    | .loopEnd => " " ++ (match e.loop with
      | some l => l.render
      | none => "<nil>")
    | .fill => s!" value={renderPattern e.fillValue}"
    | _ => ""
  let outputs := if e.outputs.isEmpty then ""
    else " -> " ++ ",".intercalate (e.outputs.map (·.render))
  s!"#{e.id} {e.kind.name}{op} loops={loops}{count}{payload}{outputs}"

end Expr

end KernelLoops
