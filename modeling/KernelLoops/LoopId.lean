set_option autoImplicit false

/-! # Loop identifiers -/

namespace KernelLoops

/-- The name of a loop. Negative identifiers name no loop. -/
abbrev LoopId := Int

namespace LoopId

/-- No loop at this nesting level. -/
def null : LoopId := -1

/-- A level covered by a loop that is never materialized. -/
def fake : LoopId := -2

/-- Does the identifier name no loop? -/
def isSentinel (id : LoopId) : Bool := id < 0

/-- The text of an identifier. -/
def render (id : LoopId) : String :=
  if id = null then "_" else if id = fake then "~" else toString id

end LoopId

end KernelLoops
