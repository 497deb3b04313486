import KernelLoops.Failure

set_option autoImplicit false

/-! # The loop table

The loops of a kernel by identifier. Identifiers are handed out in increasing order and never again,
so the table lists its loops by increasing identifier. -/

namespace KernelLoops

/-- A loop before it is materialized. -/
structure LoopInfo where
  workAmount : Amount
  increment : Amount
  /-- The input ports that consume what is produced outside the loop. -/
  entries : List Port
  /-- The output ports whose tensors are consumed outside the loop. -/
  exits : List Port
  /-- The iterated dimension, counted from the innermost one. -/
  dim : Amount
  /-- An inner loop iterates the same dimension, in blocks of this loop's increment. -/
  split : Bool := false
deriving DecidableEq, Repr, Inhabited

namespace LoopInfo

/-- The boundary ports of the loop. -/
def ports (l : LoopInfo) : List Port := l.entries ++ l.exits

/-- The text of a loop. -/
def render (l : LoopInfo) : String :=
  let entries := bracketed (l.entries.map Port.render)
  let exits := bracketed (l.exits.map Port.render)
  let split := if l.split then " split" else ""
  s!"wa={l.workAmount} inc={l.increment} dim={l.dim} entries={entries} exits={exits}{split}"

end LoopInfo

/-- The loops of a kernel by identifier. -/
structure LoopTable where
  /-- The identifier of the next loop. -/
  next : Nat := 0
  /-- The loops by increasing identifier. -/
  entries : List (LoopId × LoopInfo) := []
deriving DecidableEq, Repr, Inhabited

namespace LoopTable

/-- The loop of an identifier. -/
def get? (t : LoopTable) (id : LoopId) : Option LoopInfo := t.entries.lookup id

/-- Is the identifier registered? -/
def contains (t : LoopTable) (id : LoopId) : Bool := (t.get? id).isSome

/-- The loop of a registered identifier. -/
def info (t : LoopTable) (id : LoopId) : Except Failure LoopInfo :=
  match t.get? id with
  | some l => .ok l
  | none => .error (.violation (.unknownLoop id))

/-- Registers a loop under a fresh identifier. -/
def insert (t : LoopTable) (l : LoopInfo) : LoopId × LoopTable :=
  (t.next, { next := t.next + 1, entries := t.entries ++ [((t.next : LoopId), l)] })

/-- Drops a loop. -/
def erase (t : LoopTable) (id : LoopId) : LoopTable :=
  { t with entries := t.entries.filter (·.1 != id) }

/-- Changes the loop of an identifier. -/
def modify (t : LoopTable) (id : LoopId) (f : LoopInfo → LoopInfo) : LoopTable :=
  { t with entries := t.entries.map fun (i, l) => (i, if i = id then f l else l) }

/-- The number of loops. -/
def size (t : LoopTable) : Nat := t.entries.length

end LoopTable

end KernelLoops
