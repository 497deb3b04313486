import KernelLoops.Failure

set_option autoImplicit false

/-! # Conflict graphs

Which buffers must not share memory. Row `i` holds the buffers in conflict with buffer `i`, itself
included. Colors are handed out in buffer order. A color grows with the first uncolored buffer that
is in conflict with none of its members; the growth stops at the first one that is. -/

namespace KernelLoops

/-- The conflicts among the buffers of one kernel. -/
structure ConflictGraph where
  buffers : List ExprId
  rows : List (List Int)
deriving DecidableEq, Repr, Inhabited

namespace ConflictGraph

/-- The graph without conflicts. -/
def ofBuffers (buffers : List ExprId) : ConflictGraph :=
  { buffers, rows := (List.range buffers.length).map fun i => [Int.ofNat i] }

/-- A row with one more member. -/
def insertInto (row : List Int) (j : Int) : List Int := if row.contains j then row else row ++ [j]

/-- The members of two rows. -/
def union (row other : List Int) : List Int := other.foldl insertInto row

/-- Puts `j` into row `i`. -/
def insertAt (rows : List (List Int)) (i j : Int) : Except Failure (List (List Int)) := do
  let row ← fetch rows i
  return rows.set i.toNat (insertInto row j)

/-- Puts two buffers in conflict. -/
def connect (g : ConflictGraph) (i j : Int) : Except Failure ConflictGraph := do
  let rows ← insertAt g.rows i j
  let rows ← insertAt rows j i
  return { g with rows }

/-- Are two buffers in conflict? -/
def adjacent (g : ConflictGraph) (i j : Int) : Except Failure Bool := do
  return (← fetch g.rows i).contains j

/-- Are every two buffers in conflict? -/
def complete (g : ConflictGraph) : Bool := g.rows.all fun row => row.length = g.rows.length

/-- The position of a buffer. Any number may be asked for. -/
def index (g : ConflictGraph) (buffer : Int) : Except Failure Nat :=
  match g.buffers.findIdx? fun b => Int.ofNat b = buffer with
  | some i => .ok i
  | none => .error (.violation (.foreignBuffer buffer))

/-- The colors handed out while a graph is colored, and the buffers that have one. -/
structure Palette where
  colors : List Nat
  colored : List Bool
deriving DecidableEq, Repr

namespace Palette

/-- The first buffer from position `j` on that has no color. -/
def uncolored? (p : Palette) (j : Nat) : Option Nat :=
  (List.range' j (p.colored.length - j)).find? fun i => !p.colored.getD i false

/-- Gives a buffer its color. -/
def give (p : Palette) (j color : Nat) : Palette :=
  { colors := p.colors.set j color, colored := p.colored.set j true }

end Palette

/-- Grows the color of buffer `i`: the first buffer behind it that has no color joins, and its
    conflicts join those of the group. The color is complete once that buffer is in conflict with
    the group, or everything is. No more than `steps` buffers join. -/
def grow (g : ConflictGraph) (i color : Nat) : Nat → List Int → Palette → Palette
  | 0, _, p => p
  | steps + 1, group, p =>
    if group.length < g.buffers.length then
      match p.uncolored? (i + 1) with
      | none => p
      | some j =>
        if group.contains (j : Int) then p
        else g.grow i color steps (union group (g.rows.getD j [])) (p.give j color)
    else p

/-- Opens a color for buffer `i`, unless it has one. -/
def visit (g : ConflictGraph) : Palette × Nat → Nat → Palette × Nat
  | (p, color), i =>
    if p.colored.getD i false then (p, color)
    else (g.grow i color g.buffers.length (g.rows.getD i []) (p.give i color), color + 1)

/-- One color per buffer; buffers in conflict never share one. -/
def color (g : ConflictGraph) : List Nat :=
  let n := g.buffers.length
  if g.complete then List.range n
  else
    ((List.range n).foldl g.visit (⟨List.replicate n 0, List.replicate n false⟩, 0)).1.colors

end ConflictGraph

/-- The number of distinct colors. -/
def numColors (colors : List Nat) : Nat := colors.eraseDups.length

end KernelLoops
