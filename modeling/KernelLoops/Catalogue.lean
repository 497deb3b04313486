import KernelLoops.Builder
import KernelLoops.Lanes
import KernelLoops.Pipeline
import KernelLoops.PseudoCode

set_option autoImplicit false

/-! # The catalogue

Demo kernels, each with a function that computes its outputs one element at a time. Every kernel has
two loop levels; kernels over one dimension leave the outer one empty. -/

namespace KernelLoops

/-- A kernel of the catalogue. -/
inductive Demo
  /-- Exponential over a matrix. -/
  | exp
  /-- A bias added to every row of a matrix. -/
  | biasAdd
  /-- Two operations in two loops that fuse. -/
  | chain
  /-- Two nests with a scratch buffer between them. -/
  | reluBuffer
  /-- A maximum whose unused tail lanes are padded. -/
  | maxFill
  /-- A dimension split into blocks of two vectors. -/
  | split
deriving DecidableEq, Repr, Inhabited

namespace Demo

/-- The kernels of the catalogue. -/
def all : List Demo := [exp, biasAdd, chain, reluBuffer, maxFill, split]

/-- The name of a kernel. -/
def name : Demo → String
  | exp => "exp"
  | biasAdd => "bias-add"
  | chain => "chain"
  | reluBuffer => "relu-buffer"
  | maxFill => "max-fill"
  | split => "split"

/-- What a kernel shows. -/
def description : Demo → String
  | exp => "Exp over a [3,37] tensor: row loop around a column loop with a tail"
  | biasAdd => "[6,29] + [1,29]: the bias is broadcast over rows"
  | chain => "Exp then Neg over [69] as two loops that fuse into one"
  | reluBuffer => "Relu into a scratch Buffer over [4,21], then Exp out of it"
  | maxFill => "Maximum(x, 0) over [45] with a fill value on the tail lanes"
  | split => "Exp over [37] with the dimension split into blocks of two vectors"

/-- The kernel of a name. -/
def ofName (name : String) : Except Failure Demo :=
  match all.find? (·.name == name) with
  | some d => .ok d
  | none => .error (.rejection (.unknownKernel name (all.map Demo.name)))

/-! ## Building -/

/-- Loads a tensor, applies an operation and stores the result. -/
def mapTensor (op : String) (x : Tensor) : Build Tensor := do
  let v ← Build.load x
  let w ← Build.elementwise op [v]
  Build.store w

/-- The least finite single-precision number. -/
def leastFinite : UInt32 := 0xff7fffff

/-- Builds a kernel whose innermost loops have an increment. -/
def build (inc : Amount) : Demo → Build Unit
  | exp => do
    let x ← Build.parameter [3, 37]
    let m ← Build.mark
    let out ← mapTensor "Exp" x
    let _ ← Build.loop m 1 37 inc
    let _ ← Build.loop m 0 3 1
    Build.result out
  | biasAdd => do
    let x ← Build.parameter [6, 29]
    let bias ← Build.parameter [1, 29]
    let m ← Build.mark
    let a ← Build.load x
    let b ← Build.load bias
    let sum ← Build.elementwise "Add" [a, b]
    let out ← Build.store sum
    let _ ← Build.loop m 1 29 inc
    let _ ← Build.loop m 0 6 1
    Build.result out
  | chain => do
    let x ← Build.parameter [69]
    let m ← Build.mark
    let between ← mapTensor "Exp" x
    let _ ← Build.loop m 1 69 inc
    let m ← Build.mark
    let out ← mapTensor "Neg" between
    let _ ← Build.loop m 1 69 inc
    Build.result out
  | reluBuffer => do
    let x ← Build.parameter [4, 21]
    let m ← Build.mark
    let between ← mapTensor "Relu" x
    let _ ← Build.loop m 1 21 inc
    let _ ← Build.loop m 0 4 1
    let scratch ← Build.buffer between []
    let m ← Build.mark
    let out ← mapTensor "Exp" scratch
    let _ ← Build.loop m 1 21 inc
    let _ ← Build.loop m 0 4 1
    Build.result out
  | maxFill => do
    let x ← Build.parameter [45]
    let m ← Build.mark
    let v ← Build.load x
    let zero ← Build.scalar
    let largest ← Build.elementwise "Maximum" [v, zero]
    match ← Build.mark with
    | some e => Build.setFill e 0 leastFinite
    | none => pure ()
    let out ← Build.store largest
    let _ ← Build.loop m 1 45 inc
    Build.result out
  | split => do
    let x ← Build.parameter [37]
    let m ← Build.mark
    let out ← mapTensor "Exp" x
    let _ ← Build.loop m 1 (2 * inc) inc
    let outer ← Build.loop m 0 37 (2 * inc)
    Build.edit (Edit.modifyLoop outer fun l => { l with dim := 0, split := true })
    Build.result out

/-! ## References -/

variable {α : Type} (A : Arithmetic α)

/-- An operation on every element of the first input. -/
def mapFirst (f : α → α) (inputs : List (Array α)) : Except Failure (List (Array α)) := do
  return [(← fetch inputs 0).map f]

/-- The first input with the second one added over and over. -/
def addRepeated (inputs : List (Array α)) : Except Failure (List (Array α)) := do
  let rows ← fetch inputs 0
  let bias ← fetch inputs 1
  if bias.isEmpty && !rows.isEmpty then throw (.trap .zeroDivisor)
  return [rows.mapIdx fun i x => A.add x (bias.getD (i % bias.size) A.zero)]

/-- The outputs of a kernel, computed one element at a time. -/
def reference : Demo → List (Array α) → Except Failure (List (Array α))
  | exp | split => mapFirst A.exp
  | biasAdd => addRepeated A
  | chain => mapFirst fun x => A.neg (A.exp x)
  | reluBuffer => mapFirst fun x => A.exp (A.max x A.zero)
  | maxFill => mapFirst fun x => A.max x A.zero

/-! ## Lowering -/

/-- The kernel before lowering. -/
def kernel (d : Demo) (inc : Amount) (config : Config) : Except Failure Kernel :=
  match d.build inc { kernel := { config }, depth := 2, count := inc } with
  | .ok _ b => .ok b.kernel
  | .error f _ => .error f

/-- The kernel lowered, with its parallel loop chosen. -/
def lower (d : Demo) (inc : Amount) (config : Config) : Except Failure Kernel := do
  if inc ≤ 0 then throw (.rejection (.badIncrement d.name inc))
  let outcome := Pipeline.run (← d.kernel inc config) (Pipeline.standard ++ [.parallel])
  match outcome.failure with
  | some f => throw (f.within (.lowering d.name))
  | none => return outcome.kernel

end Demo

/-- What is printed of a kernel. -/
inductive Format
  | ir
  | code
  | both
deriving DecidableEq, Repr

namespace Format

/-- The format of a name. -/
def ofName? : String → Option Format
  | "ir" => some ir
  | "code" => some code
  | "both" => some both
  | _ => none

/-- The text of a kernel in a format. -/
def render (f : Format) (name : String) (k : Kernel) : Except Failure String := do
  let sequence := if f = code then "" else k.render
  let code ← if f = ir then pure "" else PseudoCode.render name k
  return s!"== {name} ==\n" ++ sequence ++ code

end Format

/-! ## Sample data -/

namespace Kernel

/-- The number of elements of each parameter of a kernel. -/
def parameterSizes (k : Kernel) : Except Failure (List Nat) :=
  (k.ofKind .parameter).mapM fun e => do storage 4 (← (k.expr e).output 0).numElements

/-- Sample inputs: multiples of a quarter between -1.5 and 1.5. -/
def sampleInputs (k : Kernel) : Except Failure (List (Array Float32)) := do
  return (← k.parameterSizes).zipIdx.map fun (n, p) =>
    Array.ofFn fun i : Fin n => Float32.ofInt (((i.val * 7 + p * 3 : Nat) : Int) % 13 - 6) * 0.25

end Kernel

/-! ## Comparing outputs -/

/-- The larger of two doubles; a value that is not a number wins. -/
def maxDouble (x y : Float) : Float :=
  if x.isNaN then x else if y.isNaN then y else if x < y then y else x

/-- The largest distance of two arrays, going on from `diff`. Arrays of different sizes are
    infinitely far apart. -/
def arrayDiff (diff : Float) (got want : Array Float32) : Float :=
  let diff := (got.toList.zip want.toList).foldl
    (fun d (x, y) => maxDouble d (x - y).toFloat.abs) diff
  if got.size = want.size then diff else 1.0 / 0.0

/-- The largest distance of two lists of arrays. -/
def maxAbsDiff (got want : List (Array Float32)) : Float :=
  let diff := (got.zip want).foldl (fun d (x, y) => arrayDiff d x y) 0
  if got.length = want.length then diff else 1.0 / 0.0

end KernelLoops
