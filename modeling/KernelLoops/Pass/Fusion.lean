import KernelLoops.Kernel.Loops

set_option autoImplicit false

/-! # Fusing loops

Wherever the loops of an expression differ from those of the expression before it, each of its
loops, from the first differing level inward, takes in the loops that feed it and then the loops it
feeds, until nothing more fits. A loop taken in is moved next to the current one, its expressions
are retagged and the connections that became internal leave the boundary.

The sequence changes under the scan, and a loop that is moved into its own range would be moved
forever. Every repetition is therefore bounded by a `budget`; running out of it is the failure
`Failure.endless`. -/

namespace KernelLoops.Fusion

/-- The range of the loop that takes in others. -/
structure Span where
  start : ExprId
  stop : Option ExprId
deriving DecidableEq, Repr

/-- Two loops fit when their increments agree, and their work amounts agree or one of them is
    one. -/
def compatible (a b : LoopInfo) : Bool :=
  (a.workAmount = b.workAmount || a.workAmount = 1 || b.workAmount = 1) && a.increment = b.increment

/-- May a producing loop with these exits run right before the current loop? Each of its consumers
    is a kernel output, the entry that led to it, part of one of the two loops, or behind the
    current loop. -/
def producerFits (k : Kernel) (entry : Port) (id target : LoopId) (level : Nat)
    (stop : Option ExprId)
    (exits : List Port) : Except Failure Bool :=
  exits.allM fun exit => do
    let t ← k.tensorAt exit
    (k.consumers t.id).allM fun p => do
      let c := k.expr p.expr
      if c.kind = .result || p.expr = entry.expr then return true
      let tag ← fetch c.loopIds level
      if tag = target || tag = id then return true
      k.inRange stop none (some p.expr)

/-- May a consuming loop with these entries run right after the current loop? Each of its producers
    is a kernel input or constant, the exit that led to it, part of the current loop, or before
    it. -/
def consumerFits (k : Kernel) (exit : Port) (id : LoopId) (level : Nat) (start : ExprId)
    (entries : List Port) : Except Failure Bool :=
  entries.allM fun entry => do
    let t ← k.tensorAt entry
    match (k.producers t.id).head? with
    | none => return true
    | some port =>
      let p := k.expr port.expr
      if p.kind = .parameter || p.kind = .constant || port.expr = exit.expr then return true
      if (← fetch p.loopIds level) = id then return true
      k.inRange k.first? (some start) (some port.expr)

/-- The boundary between two loops once they are one: entries fed by one of `exits` go, and an exit
    stays while it has a consumer outside the range of its own loop that is not such an entry. The
    answer holds the exits that stay and the entries that stay. -/
def joinBoundary (k : Kernel) (start : ExprId) (stop : Option ExprId) (exits entries : List Port) :
    Except Failure (List Port × List Port) :=
  exits.foldlM (fun (kept, entries) exit => do
    let t ← k.tensorAt exit
    let (outside, entries) ← (k.consumers t.id).foldlM (fun (outside, entries) p => do
      if entries.contains p then return (outside, entries.erase p)
      let inside ← k.inRange (some start) stop (some p.expr)
      return (outside || !inside, entries)) (false, entries)
    return (if outside then kept ++ [exit] else kept, entries)) ([], entries)

/-- Retags the walk from `e` up to `stop` and moves each expression before `place` when it has
    to. -/
def takeIn (id : LoopId) (level : Nat) (stop place : Option ExprId) (moving : Bool) :
    Nat → Option ExprId → Edit Unit
  | budget, e =>
    if e = stop then pure ()
    else match e, budget with
      | none, _ => throw (.trap .missing)
      | some _, 0 => throw .endless
      | some x, budget + 1 => do
        let next := (← get).next? x
        Edit.setLoopId x id (Int64.ofNat level)
        if moving then Edit.move x place
        takeIn id level stop place moving budget next

/-- Lets the current loop take in the producing loop `target`, when it may. -/
def fuseProducer (budget : Nat) (entry : Port) (id target : LoopId) (level : Nat) (span : Span) :
    Edit (Option Span) := do
  let other ← Edit.ask (·.loopInfo target)
  let current ← Edit.ask (·.loopInfo id)
  if !compatible current other then return none
  let (start, stop) ← Edit.ask (·.loopBounds target)
  let fits ← Edit.ask fun k => producerFits k entry id target level span.stop other.exits
  if !fits then return none
  let (exits, entries) ← Edit.ask fun k => joinBoundary k start stop other.exits current.entries
  takeIn id level stop (some span.start) (stop != some span.start) budget (some start)
  Edit.modifyLoop id fun l => { l with
    workAmount := max current.workAmount other.workAmount
    entries := other.entries ++ entries
    exits := exits ++ current.exits }
  return some { span with start }

/-- Lets the current loop take in the consuming loop `target`, when it may. -/
def fuseConsumer (budget : Nat) (exit : Port) (id target : LoopId) (level : Nat) (span : Span) :
    Edit (Option Span) := do
  let other ← Edit.ask (·.loopInfo target)
  let current ← Edit.ask (·.loopInfo id)
  if !compatible current other then return none
  let fits ← Edit.ask fun k => consumerFits k exit id level span.start other.entries
  if !fits then return none
  let (start, stop) ← Edit.ask (·.loopBounds target)
  let (exits, entries) ← Edit.ask fun k =>
    joinBoundary k span.start span.stop current.exits other.entries
  let moving := span.stop != some start
  takeIn id level stop span.stop moving budget (some start)
  Edit.modifyLoop id fun l => { l with
    workAmount := max current.workAmount other.workAmount
    entries := current.entries ++ entries
    exits := exits ++ other.exits }
  return some (if moving then span else { span with stop })

/-- The loop of a neighbour at a level, which must have as many levels as the current expression. -/
def neighbourLoop (e : Expr) (level depth : Nat) : Except Failure LoopId := do
  if e.loopIds.length ≠ depth then throw (.violation (.levelsUnexpected e.id e.loopIds.length depth))
  fetch e.loopIds level

/-- Takes in the first producing loop that fits. -/
def fuseProducers (budget : Nat) (id : LoopId) (level depth : Nat) (span : Span) :
    List Port → Edit (Option Span)
  | [] => return none
  | entry :: rest => do
    let t ← Edit.ask (·.tensorAt entry)
    match (← get).producer? t.id with
    | none => fuseProducers budget id level depth span rest
    | some p =>
      if p.kind = .constant || p.kind = .parameter || p.kind = .buffer then
        fuseProducers budget id level depth span rest
      else
        let target ← Edit.ask fun _ => neighbourLoop p level depth
        if target = id then throw (.violation (.entryFromInside id entry))
        if target.isSentinel then fuseProducers budget id level depth span rest
        else match ← fuseProducer budget entry id target level span with
          | some span =>
            modify fun k => { k with loops := k.loops.erase target }
            return some span
          | none => fuseProducers budget id level depth span rest

/-- Takes in the first consuming loop of one exit that fits. -/
def fuseConsumersOf (budget : Nat) (id : LoopId) (level depth : Nat) (span : Span) (exit : Port) :
    List Port → Edit (Option Span)
  | [] => return none
  | consumer :: rest => do
    let c := (← get).expr consumer.expr
    if c.kind = .result || c.kind = .buffer || c.kind.isMarker then
      fuseConsumersOf budget id level depth span exit rest
    else
      let target ← Edit.ask fun _ => neighbourLoop c level depth
      if target = id || target.isSentinel then
        fuseConsumersOf budget id level depth span exit rest
      else match ← fuseConsumer budget exit id target level span with
        | some span =>
          modify fun k => { k with loops := k.loops.erase target }
          return some span
        | none => fuseConsumersOf budget id level depth span exit rest

/-- Takes in the first consuming loop that fits. -/
def fuseConsumers (budget : Nat) (id : LoopId) (level depth : Nat) (span : Span) :
    List Port → Edit (Option Span)
  | [] => return none
  | exit :: rest => do
    let t ← Edit.ask (·.tensorAt exit)
    match ← fuseConsumersOf budget id level depth span exit ((← get).consumers t.id) with
    | some span => return some span
    | none => fuseConsumers budget id level depth span rest

/-- Takes in loops until nothing more fits. After a producer came in and changed the entries, the
    entries are looked at again before the exits. -/
def fuseRounds (budget : Nat) (id : LoopId) (level depth : Nat) : Nat → Span → Bool → Edit Bool
  | 0, _, _ => throw .endless
  | rounds + 1, span, modified => do
    let entries := (← Edit.ask (·.loopInfo id)).entries
    let up ← fuseProducers budget id level depth span entries
    let span := up.getD span
    let modified := modified || up.isSome
    let info ← Edit.ask (·.loopInfo id)
    if up.isSome && entries != info.entries then
      fuseRounds budget id level depth rounds span modified
    else match ← fuseConsumers budget id level depth span info.exits with
      | some span => fuseRounds budget id level depth rounds span true
      | none => return modified

/-- Fuses around one loop at a level. -/
def fuseAround (budget : Nat) (id : LoopId) (level depth : Nat) : Edit Bool := do
  let _ ← Edit.ask (·.loopInfo id)
  let (start, stop) ← Edit.ask (·.loopBounds id)
  fuseRounds budget id level depth budget { start, stop } false

/-- The number of leading levels two expressions share. -/
def sharedLevels : List LoopId → List LoopId → Nat
  | a :: as, b :: bs => if a = b then sharedLevels as bs + 1 else 0
  | _, _ => 0

/-- The first level at which an expression leaves the loops of the expression before it. -/
def firstChange (e : Expr) : Option (List LoopId) → Except Failure Nat
  | none => .ok 0
  | some previous =>
    if e.loopIds.length ≠ previous.length then
      .error (.violation (.levelsDiffer e.id e.loopIds.length previous.length))
    else .ok (sharedLevels e.loopIds previous)

/-- Fuses around the loops of one expression, from the first level that changes inward. -/
def fuseAt (budget : Nat) (e : ExprId) (previous : Option (List LoopId)) : Edit Bool := do
  let x := (← get).expr e
  let depth := x.loopIds.length
  let first ← Edit.ask fun _ => firstChange x previous
  (List.range' first (depth - first)).foldlM (fun modified (level : Nat) => do
    let id ← Edit.ask fun k => fetch (k.expr e).loopIds level
    if id.isSentinel then return modified
    let changed ← fuseAround budget id level depth
    return modified || changed) false

/-- Scans the sequence from `e` on. -/
def scan (budget : Nat) : Nat → Option ExprId → Option (List LoopId) → Bool → Edit Bool
  | _, none, _, modified => return modified
  | 0, some _, _, _ => throw .endless
  | steps + 1, some e, previous, modified => do
    if ((← get).expr e).kind.isInterface then
      scan budget steps ((← get).next? e) previous modified
    else
      let changed ← fuseAt budget e previous
      let k ← get
      scan budget steps (k.next? e) (k.expr e).levels? (modified || changed)

/-- Fuses the loops of a kernel, within a budget of repetitions. The answer tells whether anything
    was fused. -/
def fuse (budget : Nat) : Edit Bool := do
  scan budget budget (← get).first? none false

/-- A budget that is enough for every kernel on which fusing ends: each fusion drops a loop, and
    between two fusions the scan only goes forward. -/
def enough (k : Kernel) : Nat := (k.order.length + 2) * (k.loops.size + 2)

/-- Fuses the loops of a kernel. -/
def run : Edit Bool := do fuse (enough (← get))

end KernelLoops.Fusion
