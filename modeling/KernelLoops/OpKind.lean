set_option autoImplicit false

/-! # Kinds of operation -/

namespace KernelLoops

/-- What an expression does. -/
inductive OpKind
  /-- A kernel input; it anchors loops and never belongs to a loop body. -/
  | parameter
  /-- A constant known before the kernel runs. -/
  | constant
  /-- A kernel output. -/
  | result
  /-- Reads elements from memory into a register. -/
  | load
  /-- Reads one element and repeats it over all lanes. -/
  | broadcastLoad
  /-- Writes elements of a register to memory. -/
  | store
  /-- Computes lane by lane, from registers to a register. -/
  | elementwise
  /-- Puts a scalar into a register. -/
  | scalar
  /-- Multiplies blocks of matrices in memory. -/
  | brgemm
  /-- Scratch storage that does not outlive the kernel. -/
  | buffer
  /-- Overwrites the unused lanes of a register with a neutral value. -/
  | fill
  /-- Opens a loop body. -/
  | loopBegin
  /-- Closes a loop body and holds the parameters of the loop. -/
  | loopEnd
  /-- Any other kind, known by its code only. -/
  | other (code : Int)
deriving DecidableEq, Repr, Inhabited

namespace OpKind

/-- The kind of a code. -/
def ofCode : Int → OpKind
  | 0 => parameter
  | 1 => constant
  | 2 => result
  | 3 => load
  | 4 => broadcastLoad
  | 5 => store
  | 6 => elementwise
  | 7 => scalar
  | 8 => brgemm
  | 9 => buffer
  | 10 => fill
  | 11 => loopBegin
  | 12 => loopEnd
  | code => other code

/-- The name of a kind. -/
def name : OpKind → String
  | parameter => "Parameter"
  | constant => "Constant"
  | result => "Result"
  | load => "Load"
  | broadcastLoad => "BroadcastLoad"
  | store => "Store"
  | elementwise => "Elementwise"
  | scalar => "Scalar"
  | brgemm => "Brgemm"
  | buffer => "Buffer"
  | fill => "Fill"
  | loopBegin => "LoopBegin"
  | loopEnd => "LoopEnd"
  | other code => s!"OpKind({code})"

/-- Does an expression of this kind move a counted number of elements? -/
def isMemoryAccess : OpKind → Bool
  | load | broadcastLoad | store | brgemm => true
  | _ => false

/-- Is this kind one of the two loop markers? -/
def isMarker : OpKind → Bool
  | loopBegin | loopEnd => true
  | _ => false

/-- Is this kind a kernel input, output or constant? Those never take part in a loop body. -/
def isInterface : OpKind → Bool
  | parameter | constant | result => true
  | _ => false

end OpKind

end KernelLoops
