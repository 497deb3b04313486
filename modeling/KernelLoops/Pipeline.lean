import KernelLoops.Pass.Buffers
import KernelLoops.Pass.Fusion
import KernelLoops.Pass.Markers
import KernelLoops.Pass.Parallel
import KernelLoops.Pass.Tails

set_option autoImplicit false

/-! # Pipelines

Passes run one after another on one kernel. A pass that fails ends the pipeline; its failure is
reported under the name of the pass, and what it changed stays changed. -/

namespace KernelLoops

/-- A transformation of a whole kernel. -/
inductive Pass
  | fusion
  | markers
  | tails
  | coloring
  | placement
  | parallel
deriving DecidableEq, Repr, Inhabited

namespace Pass

/-- The name of a pass. -/
def name : Pass → String
  | fusion => "LoopFusion"
  | markers => "LoopInit"
  | tails => "InsertTailLoop"
  | coloring => "BufferIdentification"
  | placement => "BufferAllocation"
  | parallel => "MarkParallelLoop"

/-- Every pass. -/
def all : List Pass := [fusion, markers, tails, coloring, placement, parallel]

/-- The pass of a name. -/
def ofName? (s : String) : Option Pass := all.find? (·.name == s)

/-- Runs a pass. The answer tells whether it modified the kernel. -/
def run : Pass → Edit Bool
  | fusion => Fusion.run
  | markers => Markers.run
  | tails => Tails.run
  | coloring => Buffers.color
  | placement => Buffers.place
  | parallel => Parallel.run

end Pass

namespace Pipeline

/-- The usual order: fuse, materialize, split tails, color buffers, place them. -/
def standard : List Pass := [.fusion, .markers, .tails, .coloring, .placement]

/-- The outcome of a pipeline. -/
structure Outcome where
  kernel : Kernel
  /-- The names of the passes that modified the kernel. -/
  modified : List String
  failure : Option Failure
deriving DecidableEq, Repr

/-- Registers passes; a pass that is not there is refused. -/
def register : List (Option Pass) → Except Failure (List Pass)
  | [] => .ok []
  | none :: _ => .error (.violation .noPass)
  | some p :: rest => (p :: ·) <$> register rest

/-- Runs passes in order. -/
def run (k : Kernel) : List Pass → Outcome
  | [] => { kernel := k, modified := [], failure := none }
  | p :: rest =>
    match p.run k with
    | .error f k => { kernel := k, modified := [], failure := some (f.guard.within (.pass p.name)) }
    | .ok changed k =>
      let outcome := run k rest
      { outcome with modified := if changed then p.name :: outcome.modified else outcome.modified }

end Pipeline

end KernelLoops
