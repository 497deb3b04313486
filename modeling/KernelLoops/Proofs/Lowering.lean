import KernelLoops.Pass.Tails
import KernelLoops.Proofs.Trails

set_option autoImplicit false

/-! # Splitting tails, on code

What splitting the tails of all loops does to nested code, as a function on the code: `Code.lower`
goes through the code from front to back and from inside outward, and hands out fresh tensor names
from a counter. It leaves open the numbers of new expressions and the names of new loops, which no
run of the code looks at; `Code.bare` erases them. -/

namespace KernelLoops

variable {c d body body' : Code} {e x y : Expr} {l : LoopParams}
variable (fillTails : Bool) (size : Amount) (values : List (Nat × UInt32)) (ports : List Nat)

/-! ## Bare code -/

/-- The tag without the name of a loop. -/
def LoopId.blurred (id : LoopId) : LoopId := if id.isSentinel then id else 0

namespace Expr

/-- The expression without its number and the names of loops: of its tags there remains which levels
    are free. -/
def bare (x : Expr) : Expr :=
  { x with
    id := 0
    loopIds := x.loopIds.map LoopId.blurred
    hasLevels := true
    loop := x.loop.map fun l => { l with id := 0 } }

/-- The expression without its number, its tags and the name of the loop it closes. -/
def core (x : Expr) : Expr := { x.bare with loopIds := [] }

/-- Expressions that are alike but for numbers, tags and names of loops. -/
theorem eq_of_bare (h : x.bare = y.bare) :
    y = { x with id := y.id, loopIds := y.loopIds, hasLevels := y.hasLevels, loop := y.loop } :=
  congrArg (fun z : Expr => { z with id := y.id, loopIds := y.loopIds, hasLevels := y.hasLevels, loop := y.loop })
    h.symm

/-- The expression with some tensors renamed. -/
def rename (tensors : List (TensorId × Tensor)) (x : Expr) : Expr :=
  { x with
    inputs := x.inputs.map (RangeCopy.rename tensors)
    outputs := x.outputs.map (RangeCopy.rename tensors) }

/-- The closing marker with other parameters. -/
def withParams (x : Expr) (l : LoopParams) : Expr := { x with loop := some l }

/-- The names of the tensors the expression reads. -/
def inputIds (x : Expr) : List TensorId := x.inputs.map Tensor.id

/-- The names of the tensors the expression makes. -/
def outputIds (x : Expr) : List TensorId := x.outputs.map Tensor.id

theorem withParams_rename_withParams (x : Expr) (l l' : LoopParams)
    (tensors : List (TensorId × Tensor)) :
    ((x.withParams l).rename tensors).withParams l' = (x.rename tensors).withParams l' := rfl

theorem bare_withParams (x : Expr) (l : LoopParams) :
    (x.withParams l).bare = x.bare.withParams { l with id := 0 } := rfl

end Expr

namespace Code

/-- The code with each expression and marker changed. -/
def map (f : Expr → Expr) : Code → Code
  | done => done
  | op x rest => op (f x) (rest.map f)
  | loop b e body rest => loop (f b) (f e) (body.map f) (rest.map f)

theorem flatten_map (f : Expr → Expr) (c : Code) : (c.map f).flatten = c.flatten.map f := by
  induction c with
  | done => rfl
  | op x rest ih => simp [map, flatten, ih]
  | loop b e body rest ihbody ihrest => simp [map, flatten, ihbody, ihrest]

theorem map_map (f g : Expr → Expr) (c : Code) : (c.map f).map g = c.map fun x => g (f x) := by
  induction c with
  | done => rfl
  | op x rest ih => simp [map, ih]
  | loop b e body rest ihbody ihrest => simp [map, ihbody, ihrest]

theorem map_append (f : Expr → Expr) (c d : Code) :
    (c.append d).map f = (c.map f).append (d.map f) := by
  induction c with
  | done => rfl
  | op x rest ih => simp [map, append, ih]
  | loop b e body rest _ ihrest => simp [map, append, ihrest]

theorem map_ofOps (f : Expr → Expr) (xs : List Expr) (c : Code) :
    (ofOps xs c).map f = ofOps (xs.map f) (c.map f) := by
  induction xs with
  | nil => rfl
  | cons x xs ih => exact congrArg (op (f x)) ih

/-- The code without numbers, tags and names of loops. -/
def bare (c : Code) : Code := c.map Expr.bare

/-- The names of the tensors the code reads. -/
def inputIds (c : Code) : List TensorId := c.flatten.flatMap Expr.inputIds

/-- The tensors the code makes. -/
def outputs (c : Code) : List Tensor := c.flatten.flatMap Expr.outputs

theorem inputIds_bare (c : Code) : c.bare.inputIds = c.inputIds := by
  simp only [inputIds, bare, flatten_map, List.flatMap_map]
  rfl

theorem outputs_bare (c : Code) : c.bare.outputs = c.outputs := by
  simp only [outputs, bare, flatten_map, List.flatMap_map]
  rfl

theorem bare_map_rename (tensors : List (TensorId × Tensor)) (c : Code) :
    (c.map (Expr.rename tensors)).bare = c.bare.map (Expr.rename tensors) := by
  rw [bare, bare, map_map, map_map]
  rfl

theorem bare_ofOps (xs : List Expr) (c : Code) :
    (ofOps xs c).bare = ofOps (xs.map Expr.bare) c.bare := map_ofOps _ xs c

theorem bare_append (c d : Code) : (c.append d).bare = c.bare.append d.bare := map_append _ c d

/-- The codes are the same but for numbers, tags and names of loops. -/
inductive Alike : Code → Code → Prop
  | done : Alike done done
  | op {x y : Expr} {c d : Code} (head : x.bare = y.bare) (rest : Alike c d) : Alike (op x c) (op y d)
  | loop {b e b' e' : Expr} {body body' c d : Code} (opening : b.bare = b'.bare) (closing : e.bare = e'.bare)
      (inside : Alike body body') (rest : Alike c d) : Alike (loop b e body c) (loop b' e' body' d)

theorem Alike.of_bare (h : c.bare = d.bare) : Alike c d := by
  induction c generalizing d with
  | done =>
    cases d with
    | done => exact .done
    | _ => cases h
  | op x rest ih =>
    cases d with
    | op y rest' =>
      injection h with hx hrest
      exact .op hx (ih hrest)
    | _ => cases h
  | loop b e body rest ihbody ihrest =>
    cases d with
    | loop b' e' body' rest' =>
      injection h with hb he hbody hrest
      exact .loop hb he (ihbody hbody) (ihrest hrest)
    | _ => cases h

theorem Alike.bare (h : Alike c d) : c.bare = d.bare := by
  induction h with
  | done => rfl
  | op head _ ih => exact congrArg₂ Code.op head ih
  | loop opening closing _ _ ihbody ihrest =>
    show Code.loop _ _ _ _ = Code.loop _ _ _ _
    rw [opening, closing]
    exact congrArg₂ (Code.loop _ _) ihbody ihrest

/-- Changing code by functions that do the same but for numbers, tags and names of loops. -/
theorem bare_map_congr {f g : Expr → Expr} (h : ∀ x ∈ c.flatten, (f x).bare = (g x).bare) :
    (c.map f).bare = (c.map g).bare := by
  apply Alike.bare
  induction c with
  | done => exact .done
  | op x rest ih => exact .op (h x (by simp [flatten])) (ih fun y hy => h y (by simp [flatten, hy]))
  | loop b e body rest ihbody ihrest =>
    exact .loop (h b (by simp [flatten])) (h e (by simp [flatten])) (ihbody fun y hy => h y (by simp [flatten, hy]))
      (ihrest fun y hy => h y (by simp [flatten, hy]))

/-- What code does to a tensor does not depend on numbers, tags and names of loops. -/
theorem trail_bare (T : TensorId) (c : Code) : c.bare.trail T = c.trail T := by
  induction c with
  | done => rfl
  | op x rest ih =>
    show x.bare.trail T * rest.bare.trail T = _
    rw [ih]
    rfl
  | loop b e body rest ihbody ihrest =>
    show trail T (.loop b.bare e.bare body.bare rest.bare) = _
    rw [trail, trail, ihbody, ihrest]
    cases hl : e.loop with
    | none => simp [Expr.bare, hl]
    | some l =>
      simp only [Expr.bare, hl]
      rfl

end Code

/-! ## Fresh names -/

/-- Fresh names for tensors, one for each name, counted up from `n`. -/
def freshNames : List Tensor → List (TensorId × Tensor) → TensorId →
    List (TensorId × Tensor) × TensorId
  | [], table, n => (table, n)
  | t :: ts, table, n =>
    if (table.lookup t.id).isSome then freshNames ts table n
    else freshNames ts (table ++ [(t.id, { t.toTensorType with id := n })]) (n + 1)

theorem le_freshNames (ts : List Tensor) (table : List (TensorId × Tensor)) (n : TensorId) :
    n ≤ (freshNames ts table n).2 := by
  induction ts generalizing table n with
  | nil => exact Nat.le_refl n
  | cons t ts ih =>
    rw [freshNames]
    split
    · exact ih table n
    · exact Nat.le_of_succ_le (ih _ (n + 1))

/-! ## Narrowing -/

/-- The fill of one input of an expression, without a number. -/
def Expr.fillOf (x : Expr) (port : Nat) (t out : Tensor) (size : Amount) (value : UInt32) : Expr :=
  { id := 0, kind := .fill, op := "Fill", inputs := [t], outputs := [out], loopIds := x.loopIds,
    hasLevels := x.hasLevels, count := size, fillValue := value
    inRegs := x.inRegs[port]?.toList, outRegs := x.inRegs[port]?.toList }

/-- The expression with one input filled. -/
def Expr.filled (x : Expr) (port : Nat) (out : Tensor) : Expr :=
  { x with inputs := x.inputs.set port out, fills := x.fills.filter (·.1 != port) }

/-- Fills the listed ports of an expression that have a neutral value: the fills and the expression
    behind them. -/
def Expr.fillPorts (size : Amount) (values : List (Nat × UInt32)) :
    List Nat → Expr → TensorId → List Expr × Expr × TensorId
  | [], x, n => ([], x, n)
  | port :: ports, x, n =>
    match values.lookup port, x.inputs[port]? with
    | some value, some t =>
      let out : Tensor := { t.toTensorType with id := n }
      let (fills, x', n') := fillPorts size values ports (x.filled port out) (n + 1)
      (x.fillOf port t out size value :: fills, x', n')
    | _, _ => fillPorts size values ports x n

/-- Filling ports changes nothing of an expression but its inputs and its neutral values. -/
theorem Expr.fillPorts_eq (x : Expr) (n : TensorId) :
    ∃ inputs fills, (x.fillPorts size values ports n).2.1 = { x with inputs, fills } := by
  induction ports generalizing x n with
  | nil => exact ⟨x.inputs, x.fills, rfl⟩
  | cons port ports ih =>
    rw [fillPorts]
    split
    · next value t _ _ =>
        obtain ⟨inputs, fills, heq⟩ := ih (x.filled port { t.toTensorType with id := n }) (n + 1)
        exact ⟨inputs, fills, heq⟩
    · exact ih x n

theorem Expr.of_mem_fillPorts (x : Expr)
    (n : TensorId) : ∀ f ∈ (x.fillPorts size values ports n).1, f.kind = .fill ∧ f.loopIds = x.loopIds := by
  induction ports generalizing x n with
  | nil => simp [fillPorts]
  | cons port ports ih =>
    rw [fillPorts]
    split
    · exact List.forall_mem_cons.2 ⟨⟨rfl, rfl⟩, ih _ (n + 1)⟩
    · exact ih x n

/-- Fills make tensors of new names. -/
theorem Expr.le_of_mem_fillPorts (x : Expr) (n : TensorId) :
    ∀ f ∈ (x.fillPorts size values ports n).1, ∀ t ∈ f.outputs, n ≤ t.id := by
  induction ports generalizing x n with
  | nil => simp [fillPorts]
  | cons port ports ih =>
    rw [fillPorts]
    split
    · refine List.forall_mem_cons.2 ⟨fun t ht => ?_, fun f hf t ht => Nat.le_of_succ_le (ih _ (n + 1) f hf t ht)⟩
      rw [List.mem_singleton.1 ht]
    · exact ih x n

theorem Expr.le_fillPorts (x : Expr)
    (n : TensorId) : n ≤ (x.fillPorts size values ports n).2.2 := by
  induction ports generalizing x n with
  | nil => exact Nat.le_refl n
  | cons port ports ih =>
    rw [fillPorts]
    split
    · exact Nat.le_trans (Nat.le_succ n) (ih _ (n + 1))
    · exact ih x n

/-- Filling does not look at numbers, tags and names of loops. -/
theorem Expr.fillPorts_congr (h : x.bare = y.bare)
    (n : TensorId) :
    (x.fillPorts size values ports n).1.map bare = (y.fillPorts size values ports n).1.map bare ∧
      (x.fillPorts size values ports n).2.1.bare = (y.fillPorts size values ports n).2.1.bare ∧
      (x.fillPorts size values ports n).2.2 = (y.fillPorts size values ports n).2.2 := by
  induction ports generalizing x y n with
  | nil => exact ⟨rfl, h, rfl⟩
  | cons port ports ih =>
    have hinputs : x.inputs = y.inputs := show x.bare.inputs = y.bare.inputs by rw [h]
    have hregs : x.inRegs = y.inRegs := show x.bare.inRegs = y.bare.inRegs by rw [h]
    have hlevels : x.loopIds.map LoopId.blurred = y.loopIds.map LoopId.blurred := congrArg Expr.loopIds h
    rw [fillPorts, fillPorts, hinputs]
    split
    · next value t _ _ =>
        let out : Tensor := { t.toTensorType with id := n }
        have hfilled : (x.filled port out).bare = (y.filled port out).bare :=
          congrArg (fun z : Expr => z.filled port out) h
        have hfill : (x.fillOf port t out size value).bare = (y.fillOf port t out size value).bare := by
          simp only [fillOf, bare, hregs, hlevels]
        obtain ⟨hfills, hlast, hnext⟩ := ih hfilled (n + 1)
        refine ⟨?_, hlast, hnext⟩
        rw [List.map_cons, List.map_cons, hfills, hfill]
    · exact ih h n

/-- Makes one expression process `size` elements. -/
def Expr.narrowed (fillTails : Bool) (size : Amount) (x : Expr) (n : TensorId) :
    List Expr × Expr × TensorId :=
  if fillTails && Tails.readsAllLanes x then
    x.fillPorts size x.fills (List.range x.inputs.length) n
  else if x.kind.isMemoryAccess && x.count > 1 then ([], { x with count := size }, n)
  else ([], x, n)

/-- Narrowing an expression changes nothing of it but its inputs, its neutral values and its
    count. -/
theorem Expr.narrowed_eq_with (x : Expr) (n : TensorId) :
    ∃ inputs fills count, (x.narrowed fillTails size n).2.1 = { x with inputs, fills, count } := by
  rw [narrowed]
  split
  · obtain ⟨inputs, fills, heq⟩ := fillPorts_eq size x.fills (List.range x.inputs.length) x n
    exact ⟨inputs, fills, x.count, heq⟩
  · split
    · exact ⟨x.inputs, x.fills, size, rfl⟩
    · exact ⟨x.inputs, x.fills, x.count, rfl⟩

/-- Narrowing an expression keeps its tags. -/
theorem Expr.loopIds_narrowed (x : Expr) (n : TensorId) :
    (x.narrowed fillTails size n).2.1.loopIds = x.loopIds := by
  obtain ⟨_, _, _, heq⟩ := x.narrowed_eq_with fillTails size n
  rw [heq]

/-- Narrowing an expression adds fills and keeps the kind of the expression. -/
theorem Expr.kind_narrowed (x : Expr) (n : TensorId) :
    (∀ f ∈ (x.narrowed fillTails size n).1, f.kind = .fill) ∧
      (x.narrowed fillTails size n).2.1.kind = x.kind := by
  obtain ⟨_, _, _, heq⟩ := x.narrowed_eq_with fillTails size n
  refine ⟨?_, by rw [heq]⟩
  rw [narrowed]
  split
  · exact fun f hf => (of_mem_fillPorts size x.fills _ x n f hf).1
  · split <;> simp

theorem Expr.le_of_mem_narrowed (x : Expr) (n : TensorId) :
    ∀ f ∈ (x.narrowed fillTails size n).1, ∀ t ∈ f.outputs, n ≤ t.id := by
  rw [narrowed]
  split
  · exact le_of_mem_fillPorts size x.fills _ x n
  · split <;> simp

theorem Expr.le_narrowed (x : Expr) (n : TensorId) :
    n ≤ (x.narrowed fillTails size n).2.2 := by
  rw [narrowed]
  split
  · exact le_fillPorts size x.fills _ x n
  · split <;> exact Nat.le_refl n

theorem Expr.narrowed_congr (h : x.bare = y.bare) (n : TensorId) :
    (x.narrowed fillTails size n).1.map bare = (y.narrowed fillTails size n).1.map bare ∧
      (x.narrowed fillTails size n).2.1.bare = (y.narrowed fillTails size n).2.1.bare ∧
      (x.narrowed fillTails size n).2.2 = (y.narrowed fillTails size n).2.2 := by
  have hkind : x.kind = y.kind := show x.bare.kind = y.bare.kind by rw [h]
  have hop : x.op = y.op := show x.bare.op = y.bare.op by rw [h]
  have hcount : x.count = y.count := show x.bare.count = y.bare.count by rw [h]
  have hfills : x.fills = y.fills := show x.bare.fills = y.bare.fills by rw [h]
  have hinputs : x.inputs = y.inputs := show x.bare.inputs = y.bare.inputs by rw [h]
  have hlanes : Tails.readsAllLanes x = Tails.readsAllLanes y := by
    rw [Tails.readsAllLanes, Tails.readsAllLanes, hkind, hop]
  have hmoves : (x.kind.isMemoryAccess && decide (x.count > 1)) = (y.kind.isMemoryAccess && decide (y.count > 1)) := by
    rw [hkind, hcount]
  unfold narrowed
  rw [hlanes, hmoves]
  by_cases hall : fillTails && Tails.readsAllLanes y
  · rw [if_pos hall, if_pos hall, hfills, hinputs]
    exact fillPorts_congr size y.fills _ h n
  · rw [if_neg hall, if_neg hall]
    split
    · exact ⟨rfl, congrArg (fun z : Expr => { z with count := size }) h, rfl⟩
    · exact ⟨rfl, h, rfl⟩

/-- Makes the expressions directly in the code process `size` elements. -/
def Code.narrowed (fillTails : Bool) (size : Amount) : Code → TensorId → Code × TensorId
  | .done, n => (.done, n)
  | .op x rest, n =>
    let (fills, x', n1) := x.narrowed fillTails size n
    let (rest', n2) := rest.narrowed fillTails size n1
    (.ofOps fills (.op x' rest'), n2)
  | .loop b e body rest, n =>
    let (rest', n') := rest.narrowed fillTails size n
    (.loop b e body rest', n')

theorem Code.narrowed_op (x : Expr) (rest : Code) (n : TensorId) :
    (Code.op x rest).narrowed fillTails size n =
      (.ofOps (x.narrowed fillTails size n).1 (.op (x.narrowed fillTails size n).2.1
        (rest.narrowed fillTails size (x.narrowed fillTails size n).2.2).1),
        (rest.narrowed fillTails size (x.narrowed fillTails size n).2.2).2) := rfl

theorem Code.le_narrowed (c : Code) (n : TensorId) :
    n ≤ (c.narrowed fillTails size n).2 := by
  induction c generalizing n with
  | done => exact Nat.le_refl n
  | op x rest ih => exact Nat.le_trans (x.le_narrowed fillTails size n) (ih _)
  | loop b e body rest _ ih => exact ih n

/-- Narrowing does not look at numbers, tags and names of loops. -/
theorem Code.narrowed_congr (h : c.bare = d.bare) (n : TensorId) :
    (c.narrowed fillTails size n).1.bare = (d.narrowed fillTails size n).1.bare ∧
      (c.narrowed fillTails size n).2 = (d.narrowed fillTails size n).2 := by
  induction Alike.of_bare h generalizing n with
  | done => exact ⟨rfl, rfl⟩
  | @op x y _ _ hx hrest ih =>
    obtain ⟨hfills, hlast, hnext⟩ := Expr.narrowed_congr fillTails size hx n
    obtain ⟨hrest', hnext'⟩ := ih hrest.bare (x.narrowed fillTails size n).2.2
    rw [narrowed_op, narrowed_op, ← hnext]
    refine ⟨?_, hnext'⟩
    rw [bare_ofOps, bare_ofOps, hfills]
    exact congrArg (ofOps _) (congrArg₂ Code.op hlast hrest')
  | loop hb he hbody hrest _ ih =>
    obtain ⟨hrest', hnext⟩ := ih hrest.bare n
    exact ⟨(Alike.loop hb he hbody (.of_bare hrest')).bare, hnext⟩

/-! ## Scaling -/

/-- The loop scaled down to `size` elements. -/
def LoopParams.scaledTo (size : Amount) (l : LoopParams) : LoopParams :=
  { l with
    finalOffsets :=
      if l.workAmount = 0 then l.finalOffsets else l.finalOffsets.map fun o => o / l.workAmount * size
    workAmount := size
    increment := min l.increment size }

/-- The closing marker of the loop scaled down. -/
def Expr.scaledTo (size : Amount) (x : Expr) : Expr :=
  { x with loop := x.loop.map (LoopParams.scaledTo size) }

/-- The closing markers of the scaled loops do not depend on numbers, tags and names of loops. -/
theorem Expr.bare_scaledTo (x : Expr) : (x.scaledTo size).bare = x.bare.scaledTo size := by
  simp only [scaledTo, bare, Option.map_map]
  rfl

/-- Scales every loop of the code down to `size` elements, inner loops first. -/
def Code.scaledTo (fillTails : Bool) (size : Amount) : Code → TensorId → Code × TensorId
  | .done, n => (.done, n)
  | .op x rest, n =>
    let behind := rest.scaledTo fillTails size n
    (.op x behind.1, behind.2)
  | .loop b e body rest, n =>
    let inner := body.scaledTo fillTails size n
    let own := inner.1.narrowed fillTails size inner.2
    let behind := rest.scaledTo fillTails size own.2
    (.loop b (e.scaledTo size) own.1 behind.1, behind.2)

theorem Code.scaledTo_loop (b e : Expr) (body rest : Code) (n : TensorId) :
    (Code.loop b e body rest).scaledTo fillTails size n =
      let inner := body.scaledTo fillTails size n
      let own := inner.1.narrowed fillTails size inner.2
      let behind := rest.scaledTo fillTails size own.2
      (.loop b (e.scaledTo size) own.1 behind.1, behind.2) := rfl

theorem Code.le_scaledTo (c : Code) (n : TensorId) :
    n ≤ (c.scaledTo fillTails size n).2 := by
  induction c generalizing n with
  | done => exact Nat.le_refl n
  | op x rest ih => exact ih n
  | loop b e body rest ihbody ihrest =>
    rw [scaledTo_loop]
    exact Nat.le_trans (ihbody n) (Nat.le_trans (le_narrowed _ _ _ _) (ihrest _))

/-- Scaling does not look at numbers, tags and names of loops. -/
theorem Code.scaledTo_congr (h : c.bare = d.bare) (n : TensorId) :
    (c.scaledTo fillTails size n).1.bare = (d.scaledTo fillTails size n).1.bare ∧
      (c.scaledTo fillTails size n).2 = (d.scaledTo fillTails size n).2 := by
  induction Alike.of_bare h generalizing n with
  | done => exact ⟨rfl, rfl⟩
  | op hx hrest ih =>
    obtain ⟨hrest', hnext⟩ := ih hrest.bare n
    exact ⟨(Alike.op hx (.of_bare hrest')).bare, hnext⟩
  | @loop b e b' e' body body' _ _ hb he hbody hrest ihbody ihrest =>
    obtain ⟨hinner, hnext⟩ := ihbody hbody.bare n
    obtain ⟨hown, hnext'⟩ := narrowed_congr fillTails size hinner (body.scaledTo fillTails size n).2
    rw [hnext] at hown hnext'
    simp only [scaledTo_loop, hnext, hnext']
    obtain ⟨hbehind, hlast⟩ := ihrest hrest.bare ((body'.scaledTo fillTails size n).1.narrowed fillTails size
      (body'.scaledTo fillTails size n).2).2
    have hend : (e.scaledTo size).bare = (e'.scaledTo size).bare := by rw [Expr.bare_scaledTo, Expr.bare_scaledTo, he]
    exact ⟨(Alike.loop hb hend (.of_bare hown) (.of_bare hbehind)).bare, hlast⟩

/-- What becomes of the body of a loop in its tail of `size` elements: the expressions directly in
    it are narrowed, and where the loop is cut into `blocks` the loops inside it are scaled down
    before. -/
def Code.shrunk (blocks fillTails : Bool) (size : Amount) (c : Code) (n : TensorId) :
    Code × TensorId :=
  match blocks with
  | true =>
    let scaled := c.scaledTo fillTails size n
    scaled.1.narrowed fillTails size scaled.2
  | false => c.narrowed fillTails size n

theorem Code.le_shrunk (blocks fillTails : Bool) (size : Amount) (c : Code) (n : TensorId) :
    n ≤ (c.shrunk blocks fillTails size n).2 := by
  cases blocks with
  | true => exact Nat.le_trans (le_scaledTo _ _ _ _) (le_narrowed _ _ _ _)
  | false => exact le_narrowed _ _ _ _

theorem Code.shrunk_congr (blocks fillTails : Bool) (size : Amount) (h : c.bare = d.bare)
    (n : TensorId) :
    (c.shrunk blocks fillTails size n).1.bare = (d.shrunk blocks fillTails size n).1.bare ∧
      (c.shrunk blocks fillTails size n).2 = (d.shrunk blocks fillTails size n).2 := by
  cases blocks with
  | false => exact narrowed_congr fillTails size h n
  | true =>
    obtain ⟨hscaled, hnext⟩ := scaledTo_congr fillTails size h n
    obtain ⟨hbare, hlast⟩ := narrowed_congr fillTails size hscaled (c.scaledTo fillTails size n).2
    unfold shrunk
    simp only
    rw [← hnext]
    exact ⟨hbare, hlast⟩

/-! ## Splitting -/

namespace LoopParams

variable (optimize force : Bool)

/-- Is the loop to be evaluated once? -/
def runsOnce (optimize : Bool) (l : LoopParams) : Bool :=
  optimize && !l.once && l.isStatic && l.workAmount < 2 * l.increment

/-- The loop evaluated once, where it is optimized and runs its body at most once. -/
def optimized (optimize force : Bool) (l : LoopParams) : LoopParams :=
  if l.runsOnce optimize then
    { l with
      finalOffsets :=
        if l.hasOuterLoop || force then absorbSteps l.increment l.finalOffsets l.ptrIncrements else l.finalOffsets
      once := true }
  else l

theorem optimized_of_not_runsOnce {optimize : Bool} {l : LoopParams}
    (h : l.runsOnce optimize = false) (force : Bool) :
    l.optimized optimize force = l := by
  rw [optimized, h, if_neg Bool.false_ne_true]

/-- The loop without its last `size` elements; it does not go back at its end. -/
def shortened (size : Amount) (l : LoopParams) : LoopParams :=
  { l with finalOffsets := l.finalOffsets.map fun _ => 0, workAmount := l.workAmount - size }

/-- The loop over the last `size` elements. -/
def tail (size : Amount) (l : LoopParams) : LoopParams :=
  { l with workAmount := size, increment := size, once := false }

/-- Evaluating once changes no more than the final offsets and the mark. -/
theorem optimized_eq (l : LoopParams) :
    ∃ offsets once, l.optimized optimize force = { l with finalOffsets := offsets, once } := by
  unfold optimized
  split
  · exact ⟨_, true, rfl⟩
  · exact ⟨l.finalOffsets, l.once, rfl⟩

@[simp] theorem ptrIncrements_optimized (l : LoopParams) :
    (l.optimized optimize force).ptrIncrements = l.ptrIncrements := by
  obtain ⟨offsets, once, heq⟩ := l.optimized_eq optimize force
  rw [heq]

@[simp] theorem id_optimized (l : LoopParams) : (l.optimized optimize force).id = l.id := by
  obtain ⟨offsets, once, heq⟩ := l.optimized_eq optimize force
  rw [heq]

@[simp] theorem workAmount_optimized (l : LoopParams) :
    (l.optimized optimize force).workAmount = l.workAmount := by
  obtain ⟨offsets, once, heq⟩ := l.optimized_eq optimize force
  rw [heq]

@[simp] theorem increment_optimized (l : LoopParams) :
    (l.optimized optimize force).increment = l.increment := by
  obtain ⟨offsets, once, heq⟩ := l.optimized_eq optimize force
  rw [heq]

/-- The tail of a loop that has been shortened and perhaps evaluated once. -/
theorem tail_shortened (size : Amount) (l : LoopParams) :
    { (l.shortened size).optimized optimize force with
      workAmount := size
      increment := size
      finalOffsets := l.finalOffsets
      once := false } = l.tail size := by
  obtain ⟨offsets, once, heq⟩ := (l.shortened size).optimized_eq optimize force
  rw [heq]
  rfl

/-- Evaluating once does not look at the name of the loop. -/
theorem optimized_rename (l : LoopParams) (id : LoopId) :
    ({ l with id } : LoopParams).optimized optimize force = { l.optimized optimize force with id } := by
  have hsame : ({ l with id } : LoopParams).runsOnce optimize = l.runsOnce optimize := rfl
  unfold optimized
  rw [hsame]
  split <;> rfl

/-- What evaluating a loop once answers: it fails only over an offset that has no step to go into
    it. -/
theorem evaluateOnce_eq (l : LoopParams) :
    evaluateOnce force l =
      if l.runsOnce true && (l.hasOuterLoop || force) && decide (l.ptrIncrements.length < l.finalOffsets.length) then
        .error (.trap .index) { l with finalOffsets := absorbSteps l.increment l.finalOffsets l.ptrIncrements }
      else .ok (l.runsOnce true) (l.optimized true force) := by
  unfold evaluateOnce optimized runsOnce
  by_cases hskip : l.once || !l.isStatic
  · have hno : (true && !l.once && l.isStatic) = false := by
      revert hskip
      cases l.once <;> cases l.isStatic <;> simp
    simp only [if_pos hskip, hno, Bool.false_and, Bool.false_eq_true, if_false]
  have hrun : (true && !l.once && l.isStatic) = true := by
    revert hskip
    cases l.once <;> cases l.isStatic <;> simp
  rw [if_neg hskip, hrun]
  by_cases hlong : l.workAmount ≥ 2 * l.increment
  · simp [hlong, Int64.not_lt.2 hlong]
  · rw [if_neg hlong, decide_eq_true (Int64.not_le.1 hlong)]
    cases l.hasOuterLoop || force <;> simp

/-- A loop with an offset for no more operands than it steps is evaluated once as `optimized`
    says. -/
theorem evaluateOnce_run (hsize : l.finalOffsets.length ≤ l.ptrIncrements.length) (force : Bool) :
    evaluateOnce force l = .ok (l.runsOnce true) (l.optimized true force) := by
  rw [evaluateOnce_eq, decide_eq_false (Nat.not_lt.2 hsize), Bool.and_false, if_neg Bool.false_ne_true]

end LoopParams

/-- Does an operand of the loop live in a buffer of the kernel? -/
def Kernel.touches (m : Kernel) (e : Expr) (l : LoopParams) : Bool :=
  match Tails.touchesBuffer m e l with
  | .ok touches => touches
  | .error _ => false

namespace Code

variable (blocks : Bool) (m : Kernel) (b : Expr)

/-- A loop without its last `size` elements, and its tail behind it. What the loop makes and `out`
    does not list has names of its own in the tail. -/
def withTail (blocks : Bool) (m : Kernel) (b e : Expr) (l : LoopParams) (body : Code)
    (size : Amount) (out : List TensorId)
    (n : TensorId) : Code × TensorId :=
  let e1 := e.withParams ((l.shortened size).optimized m.config.evaluateOnce true)
  let names := freshNames ((loop b e1 body done).outputs.filter fun t => !out.contains t.id) [] n
  let tail := (body.map (Expr.rename names.1)).shrunk blocks m.config.fillTails size names.2
  let e2 := (e.rename names.1).withParams ((l.tail size).optimized m.config.evaluateOnce (m.touches e l))
  (loop b e1 body (loop (b.rename names.1) e2 tail.1 done), tail.2)

/-- A loop that is all tail. -/
def asTail (blocks : Bool) (m : Kernel) (b e : Expr) (l : LoopParams) (body : Code) (size : Amount)
    (n : TensorId) :
    Code × TensorId :=
  let tail := body.shrunk blocks m.config.fillTails size n
  (loop b (e.withParams ((l.tail size).optimized m.config.evaluateOnce (m.touches e l))) tail.1 done, tail.2)

/-- Splits one loop, its body split already. `out` lists the names that are read outside the loop. A
    loop without work or of unknown size stays. The loops inside a loop that is cut into `blocks`
    are scaled down in its tail. -/
def cutLoop (blocks : Bool) (m : Kernel) (b e : Expr) (body : Code) (out : List TensorId)
    (n : TensorId) :
    Code × TensorId :=
  match e.loop with
  | none => (loop b e body done, n)
  | some l =>
    if l.workAmount = 0 ∨ l.isStatic = false then (loop b e body done, n)
    else if l.workAmount % l.increment = 0 then
      (loop b (e.withParams (l.optimized m.config.evaluateOnce (m.touches e l))) body done, n)
    else if l.workAmount ≥ l.increment then withTail blocks m b e l body (l.workAmount % l.increment) out n
    else asTail blocks m b e l body (l.workAmount % l.increment) n

/-- Splits one loop that is not cut into blocks. -/
def splitLoop (m : Kernel) (b e : Expr) (body : Code) (out : List TensorId) (n : TensorId) :
    Code × TensorId :=
  cutLoop false m b e body out n

/-- Splitting a loop of known size. -/
theorem cutLoop_of_static (hl : e.loop = some l) (hs : l.isStatic = true) (blocks : Bool)
    (m : Kernel) (b : Expr)
    (body : Code) (out : List TensorId) (n : TensorId) :
    cutLoop blocks m b e body out n =
      if l.workAmount = 0 then (loop b e body done, n)
      else if l.workAmount % l.increment = 0 then
        (loop b (e.withParams (l.optimized m.config.evaluateOnce (m.touches e l))) body done, n)
      else if l.workAmount ≥ l.increment then withTail blocks m b e l body (l.workAmount % l.increment) out n
      else asTail blocks m b e l body (l.workAmount % l.increment) n := by
  unfold cutLoop
  simp only [hl, hs, Bool.true_eq_false, or_false]

theorem bare_loop (e : Expr) (body rest : Code) :
    (loop b e body rest).bare = loop b.bare e.bare body.bare rest.bare := rfl

theorem withTail_congr (e : Expr) (l : LoopParams) (h : body.bare = body'.bare)
    (size : Amount) (out : List TensorId) (n : TensorId) :
    (withTail blocks m b e l body size out n).1.bare = (withTail blocks m b e l body' size out n).1.bare ∧
      (withTail blocks m b e l body size out n).2 = (withTail blocks m b e l body' size out n).2 := by
  have hout : ∀ e' : Expr, (loop b e' body done).outputs = (loop b e' body' done).outputs := fun e' => by
    rw [← outputs_bare, bare_loop, h, ← bare_loop, outputs_bare]
  simp only [withTail, hout]
  generalize freshNames _ [] n = names
  have hcopy : (body.map (Expr.rename names.1)).bare = (body'.map (Expr.rename names.1)).bare := by
    rw [bare_map_rename, bare_map_rename, h]
  obtain ⟨hbare, hnext⟩ := shrunk_congr blocks m.config.fillTails size hcopy names.2
  refine ⟨?_, hnext⟩
  rw [bare_loop, bare_loop, bare_loop, bare_loop, h, hbare]

/-- Splitting a loop does not look at numbers, tags and names of loops in its body. -/
theorem cutLoop_congr (e : Expr) (h : body.bare = body'.bare) (out : List TensorId)
    (n : TensorId) :
    (cutLoop blocks m b e body out n).1.bare = (cutLoop blocks m b e body' out n).1.bare ∧
      (cutLoop blocks m b e body out n).2 = (cutLoop blocks m b e body' out n).2 := by
  have hloop : ∀ e' : Expr, (loop b e' body done).bare = (loop b e' body' done).bare := fun e' => by
    rw [bare_loop, bare_loop, h]
  unfold cutLoop
  cases e.loop with
  | none => exact ⟨hloop e, rfl⟩
  | some l =>
    by_cases hwork : l.workAmount = 0 ∨ l.isStatic = false
    · simp only [if_pos hwork]
      exact ⟨hloop e, trivial⟩
    simp only [if_neg hwork]
    by_cases hsize : l.workAmount % l.increment = 0
    · simp only [if_pos hsize]
      exact ⟨hloop _, trivial⟩
    simp only [if_neg hsize]
    by_cases hvector : l.workAmount ≥ l.increment
    · simp only [if_pos hvector]
      exact withTail_congr blocks m b e l h _ out n
    · simp only [if_neg hvector]
      obtain ⟨hbare, hnext⟩ := shrunk_congr blocks m.config.fillTails (l.workAmount % l.increment) h n
      refine ⟨?_, hnext⟩
      rw [asTail, asTail, bare_loop, bare_loop, hbare]

/-- Splits every loop of the code, inner loops first; `blocks` tells which loops are cut into
    blocks. `out` lists the names that are read outside the code. -/
def cut (blocks : Expr → Bool) (m : Kernel) : Code → List TensorId → TensorId → Code × TensorId
  | done, _, n => (done, n)
  | op x rest, out, n =>
    let (rest', n') := rest.cut blocks m (x.inputIds ++ out) n
    (op x rest', n')
  | loop b e body rest, out, n =>
    let (body', n1) := body.cut blocks m (b.inputIds ++ (e.inputIds ++ (rest.inputIds ++ out))) n
    let (split, n2) := cutLoop (blocks e) m b e body' (rest.inputIds ++ out) n1
    let (rest', n3) := rest.cut blocks m (split.inputIds ++ out) n2
    (split.append rest', n3)

/-- Splits every loop of code without loops that are cut into blocks. -/
def lower (m : Kernel) (c : Code) (out : List TensorId) (n : TensorId) : Code × TensorId :=
  c.cut (fun _ => false) m out n

theorem cut_loop (blocks : Expr → Bool) (m : Kernel) (b e : Expr) (body rest : Code)
    (out : List TensorId) (n : TensorId) :
    (loop b e body rest).cut blocks m out n =
      let inner := body.cut blocks m (b.inputIds ++ (e.inputIds ++ (rest.inputIds ++ out))) n
      let split := cutLoop (blocks e) m b e inner.1 (rest.inputIds ++ out) inner.2
      let behind := rest.cut blocks m (split.1.inputIds ++ out) split.2
      (split.1.append behind.1, behind.2) := rfl

/-- Splitting the loops of a loop that stands alone. -/
theorem cut_loop_done (blocks : Expr → Bool) (m : Kernel) (b e : Expr) (body : Code)
    (out : List TensorId) (n : TensorId) :
    (loop b e body done).cut blocks m out n =
      let inner := body.cut blocks m (b.inputIds ++ (e.inputIds ++ out)) n
      cutLoop (blocks e) m b e inner.1 out inner.2 := by
  rw [cut_loop]
  simp only [cut, append_done]
  rfl

theorem cut_ofOps (blocks : Expr → Bool) (m : Kernel) (xs : List Expr) (out : List TensorId)
    (n : TensorId) :
    (ofOps xs done).cut blocks m out n = (ofOps xs done, n) := by
  induction xs generalizing out with
  | nil => rfl
  | cons x xs ih =>
    exact congrArg (fun c : Code × TensorId => (op x c.1, c.2)) (ih (x.inputIds ++ out))

theorem lower_op (x : Expr) (rest : Code) (out : List TensorId) (n : TensorId) :
    (op x rest).lower m out n =
      (op x (rest.lower m (x.inputIds ++ out) n).1, (rest.lower m (x.inputIds ++ out) n).2) := rfl

theorem lower_loop (e : Expr) (body rest : Code) (out : List TensorId) (n : TensorId) :
    (loop b e body rest).lower m out n =
      let inner := body.lower m (b.inputIds ++ (e.inputIds ++ (rest.inputIds ++ out))) n
      let split := splitLoop m b e inner.1 (rest.inputIds ++ out) inner.2
      let behind := rest.lower m (split.1.inputIds ++ out) split.2
      (split.1.append behind.1, behind.2) := rfl

theorem le_cutLoop (e : Expr) (body : Code) (out : List TensorId) (n : TensorId) :
    n ≤ (cutLoop blocks m b e body out n).2 := by
  unfold cutLoop
  split
  · exact Nat.le_refl n
  · split
    · exact Nat.le_refl n
    · split
      · exact Nat.le_refl n
      · split
        · exact Nat.le_trans (le_freshNames _ [] n) (le_shrunk _ _ _ _ _)
        · exact le_shrunk _ _ _ _ _

theorem le_splitLoop (e : Expr) (body : Code) (out : List TensorId) (n : TensorId) :
    n ≤ (splitLoop m b e body out n).2 := le_cutLoop false m b e body out n

theorem le_cut (blocks : Expr → Bool) (m : Kernel) (c : Code) (out : List TensorId) (n : TensorId) :
    n ≤ (c.cut blocks m out n).2 := by
  induction c generalizing out n with
  | done => exact Nat.le_refl n
  | op x rest ih => exact ih _ n
  | loop b e body rest ihbody ihrest =>
    rw [cut_loop]
    exact Nat.le_trans (ihbody _ n) (Nat.le_trans (le_cutLoop _ m b e _ _ _) (ihrest _ _))

theorem le_lower (c : Code) (out : List TensorId) (n : TensorId) : n ≤ (c.lower m out n).2 :=
  c.le_cut _ m out n

end Code

end KernelLoops
