import Mathlib.Algebra.Group.Hom.Defs
import Mathlib.Algebra.Notation.Pi.Basic
import KernelLoops.Simulation
import KernelLoops.Proofs.Amounts
import KernelLoops.Proofs.Nesting

set_option autoImplicit false

/-! # Trails

A simulated run never looks at a position; it only adds to it. So what a piece of code does to one
tensor is a fixed `Trail`: the accesses, with offsets counted from where the tensor stood at the
start, and the distance the tensor has moved at the end. Trails are put together as code is, and a
loop is a power. -/

namespace KernelLoops

open List

variable {c : Code} {e : Expr} {l : LoopParams} {amount : Int → Except Failure Amount}

/-- What a run does to one tensor, counted from where the tensor stands when it starts. -/
@[ext]
structure Trail where
  /-- Offset and count of each access, in the order of execution. -/
  spans : List (Amount × Amount)
  /-- How far the tensor has moved at the end. -/
  net : Amount
deriving DecidableEq, Repr

namespace Trail

variable (f : Trail) (d : Amount) (g : Trail)

/-- The spans of a trail that starts `d` further on. -/
def shifted (d : Amount) (spans : List (Amount × Amount)) : List (Amount × Amount) :=
  spans.map fun s => (d + s.1, s.2)

/-- No access, and a move. -/
def move (d : Amount) : Trail := ⟨[], d⟩

instance : One Trail := ⟨⟨[], 0⟩⟩

instance : Mul Trail := ⟨fun f g => ⟨f.spans ++ shifted f.net g.spans, f.net + g.net⟩⟩

@[simp] theorem one_spans : (1 : Trail).spans = [] := rfl

@[simp] theorem one_net : (1 : Trail).net = 0 := rfl

@[simp] theorem mul_spans : (f * g).spans = f.spans ++ shifted f.net g.spans := rfl

@[simp] theorem mul_net : (f * g).net = f.net + g.net := rfl

@[simp] theorem move_spans : (move d).spans = [] := rfl

@[simp] theorem move_net : (move d).net = d := rfl

@[simp] theorem shifted_nil : shifted d [] = [] := rfl

@[simp] theorem shifted_append (a b : List (Amount × Amount)) :
    shifted d (a ++ b) = shifted d a ++ shifted d b := map_append

@[simp] theorem shifted_zero (a : List (Amount × Amount)) : shifted 0 a = a := by
  simp [shifted]

theorem shifted_shifted (d' : Amount) (a : List (Amount × Amount)) :
    shifted d (shifted d' a) = shifted (d + d') a := by
  simp [shifted, Int64.add_assoc]

/-- One after the other. -/
instance : Monoid Trail where
  mul_assoc f g h := by
    ext1
    · simp [shifted_shifted, append_assoc]
    · exact Int64.add_assoc f.net g.net h.net
  one_mul f := by
    ext1
    · simp
    · exact Int64.zero_add f.net
  mul_one f := by
    ext1
    · simp
    · exact Int64.add_zero f.net

theorem move_mul_move (d' : Amount) : move d * move d' = move (d + d') := rfl

theorem move_zero : move 0 = 1 := rfl

/-- The accesses of a trail that starts at a position. -/
def accessesFrom (f : Trail) (T : TensorId) (start : Amount) : List Access :=
  f.spans.map fun s => ⟨T, start + s.1, s.2⟩

theorem accessesFrom_mul (T : TensorId) (start : Amount) :
    (f * g).accessesFrom T start = f.accessesFrom T start ++ g.accessesFrom T (start + f.net) := by
  simp [accessesFrom, shifted, Int64.add_assoc]

end Trail

/-! ## What a simulated step does -/

/-- A run from one trace to another does to each tensor what its trail says. -/
structure Trace.Goes (s s' : Trace) (f : TensorId → Trail) : Prop where
  accesses : ∀ T, s'.accessesOf T = s.accessesOf T ++ (f T).accessesFrom T (s.position T)
  position : ∀ T, s'.position T = s.position T + (f T).net

namespace Simulation

/-- The step succeeds wherever it starts, and does to each tensor what its trail says. -/
def Does (step : Step Unit) (f : TensorId → Trail) : Prop :=
  ∀ s, ∃ s', step s = .ok () s' ∧ s.Goes s' f

namespace Does

variable {step next : Step Unit} {f g : TensorId → Trail}

theorem pure : Does (Pure.pure ()) fun _ => 1 :=
  fun s => ⟨s, rfl, fun _ => by simp [Trail.accessesFrom], fun _ => by simp⟩

theorem bind (hstep : Does step f) (hnext : Does next g) :
    Does (do step; next) fun T => f T * g T := by
  intro s
  obtain ⟨s1, hrun1, hacc1, hpos1⟩ := hstep s
  obtain ⟨s2, hrun2, hacc2, hpos2⟩ := hnext s1
  refine ⟨s2, (bind_run_ok hrun1).trans hrun2, fun T => ?_, fun T => ?_⟩
  · rw [hacc2, hacc1, hpos1, Trail.accessesFrom_mul, append_assoc]
  · rw [hpos2, hpos1, Trail.mul_net, Int64.add_assoc]

theorem congr (hstep : Does step f) (h : ∀ T, f T = g T) : Does step g := funext h ▸ hstep

/-- Doing a step over and over is a power of its trail. -/
theorem repeatM (hstep : Does step f) (n : Nat) :
    Does (KernelLoops.repeatM n step) fun T => f T ^ n := by
  induction n with
  | zero => exact pure.congr fun T => (pow_zero (f T)).symm
  | succ n ih => exact (hstep.bind ih).congr fun T => (pow_succ' (f T) n).symm

theorem access (t : Tensor) (count : Amount) :
    Does (access t count) fun T => if t.id = T then ⟨[(0, count)], 0⟩ else 1 := by
  intro s
  refine ⟨_, rfl, fun T => ?_, fun T => ?_⟩
  · by_cases h : t.id = T
    · simp [Trace.accessesOf, Trail.accessesFrom, h]
    · simp [Trace.accessesOf, Trail.accessesFrom, h]
  · by_cases h : t.id = T
    · simp [Trace.position, h]
    · simp [Trace.position, h]

/-- Moving a tensor. -/
theorem modifyPosition (t : Tensor) (d : Amount) :
    Does (modify fun trace =>
        { trace with positions := put t.id (trace.position t.id + d) trace.positions })
      fun T => if t.id = T then Trail.move d else 1 := by
  intro s
  refine ⟨_, rfl, fun T => ?_, fun T => ?_⟩
  · by_cases h : t.id = T
    · simp [Trace.accessesOf, Trail.accessesFrom, h]
    · simp [Trace.accessesOf, Trail.accessesFrom, h]
  · by_cases h : t.id = T
    · subst h
      simp [Trace.position, lookup_put_self]
    · simp [Trace.position, lookup_put_of_ne _ _ (Ne.symm h), h]

end Does

end Simulation

/-! ## Loops -/

/-- How far a tensor moves when each operand of a closing marker makes its step. -/
def shift (T : TensorId) : List Tensor → List Amount → Amount
  | t :: ts, p :: ps => (if t.id = T then p else 0) + shift T ts ps
  | _, _ => 0

/-- The marker closes a loop whose operands all have a step and an offset. -/
structure Expr.Closes (e : Expr) (l : LoopParams) : Prop where
  params : e.loop = some l
  static : l.isStatic = true
  steps : l.ptrIncrements.length = l.numOperands.trips
  offsets : l.finalOffsets.length = l.numOperands.trips
  inputs : l.numOperands.trips ≤ e.inputs.length

instance (e : Expr) (l : LoopParams) : Decidable (e.Closes l) :=
  decidable_of_iff (e.loop = some l ∧ l.isStatic = true ∧ l.ptrIncrements.length = l.numOperands.trips ∧
      l.finalOffsets.length = l.numOperands.trips ∧ l.numOperands.trips ≤ e.inputs.length)
    ⟨fun h => ⟨h.1, h.2.1, h.2.2.1, h.2.2.2.1, h.2.2.2.2⟩, fun h => ⟨h.params, h.static, h.steps, h.offsets, h.inputs⟩⟩

namespace LoopParams

/-- What one step of a loop does to a tensor. -/
def stepOf (l : LoopParams) (T : TensorId) (operands : List Tensor) : Amount :=
  shift T operands (l.ptrIncrements.map (· * l.increment))

/-- What leaving a loop does to a tensor. -/
def resetOf (l : LoopParams) (T : TensorId) (operands : List Tensor) : Amount :=
  shift T operands l.finalOffsets

/-- The trail of a loop, from that of its body. -/
def trail (l : LoopParams) (T : TensorId) (operands : List Tensor) (body : Trail) : Trail :=
  (if l.once then body else (body * .move (l.stepOf T operands)) ^ l.bodyCount) *
    .move (l.resetOf T operands)

end LoopParams

namespace Simulation

/-- The operands of a closing marker are moved one after the other. -/
theorem Does.countM_advance (steps : List Amount) (ts : List Tensor) (start : Nat)
    (hinputs : ∀ i, e.inputs[start + i]? = ts[i]?) (hlen : steps.length ≤ ts.length)
    (hamount : ∀ i p, steps[i]? = some p → amount ((start + i : Nat) : Int) = .ok p) :
    Does (countM start steps.length fun i => do
        let t ← lift (e.input i)
        let step ← lift (amount i)
        modify fun trace =>
          { trace with positions := put t.id (trace.position t.id + step) trace.positions })
      fun T => Trail.move (shift T ts steps) := by
  induction steps generalizing start ts with
  | nil =>
    refine Does.pure.congr fun T => ?_
    rw [shift, Trail.move_zero]
    exact fun _ _ _ _ _ h => by cases h
  | cons p ps ih =>
    obtain ⟨t, us, rfl⟩ : ∃ t us, ts = t :: us := by
      cases ts with
      | nil => exact absurd hlen (Nat.not_succ_le_zero _)
      | cons t us => exact ⟨t, us, rfl⟩
    have hfirst : e.input start = .ok t := fetch_eq_ok_iff.2 (hinputs 0)
    have hstep : amount start = .ok p := hamount 0 p rfl
    have hrest := ih us (start + 1)
      (fun i => by rw [show start + 1 + i = start + (i + 1) by omega]; exact hinputs (i + 1))
      (Nat.le_of_succ_le_succ hlen)
      (fun i q hq => by
        rw [show start + 1 + i = start + (i + 1) by omega]
        exact hamount (i + 1) q hq)
    rw [length_cons, countM, hfirst, hstep]
    refine ((Does.modifyPosition t p).bind hrest).congr fun T => ?_
    rw [shift]
    split
    · exact Trail.move_mul_move p _
    · rw [one_mul, Int64.zero_add]

theorem Does.advance (steps : List Amount) (hsteps : steps.length = l.numOperands.trips)
    (hinputs : l.numOperands.trips ≤ e.inputs.length) (hamount : ∀ (i : Nat) p, steps[i]? = some p → amount i = .ok p) :
    Does (advance e l amount) fun T => Trail.move (shift T e.inputs steps) := by
  have h := Does.countM_advance steps e.inputs 0 (fun i => by rw [Nat.zero_add]) (hsteps ▸ hinputs)
    fun i p hp => by rw [Nat.zero_add]; exact hamount i p hp
  rw [hsteps] at h
  exact h

/-- What a loop does, given what its body does. -/
theorem Does.runLoop (he : e.Closes l) {body : Step Unit} {f : TensorId → Trail}
    (hbody : Does body f) :
    Does (runLoop e body) fun T => l.trail T e.inputs (f T) := by
  have hreset : Does (Simulation.advance e l (fetch l.finalOffsets)) fun T =>
      Trail.move (l.resetOf T e.inputs) :=
    Does.advance l.finalOffsets he.offsets he.inputs fun i p hp => fetch_eq_ok_iff.2 hp
  have hstep : Does (Simulation.advance e l fun i => (· * l.increment) <$> fetch l.ptrIncrements i)
      fun T => Trail.move (l.stepOf T e.inputs) := by
    refine Does.advance (l.ptrIncrements.map (· * l.increment)) ?_ he.inputs fun i p hp => ?_
    · rw [length_map, he.steps]
    · rw [getElem?_map] at hp
      obtain ⟨q, hq, rfl⟩ := Option.map_eq_some_iff.1 hp
      rw [fetch_eq_ok_iff.2 hq]
      rfl
  unfold Simulation.runLoop LoopParams.trail
  simp only [Expr.params, he.params, he.static, lift, pure_bind, Bool.not_true, Bool.false_eq_true, if_false]
  by_cases honce : l.once
  · simp only [honce, if_true]
    exact hbody.bind hreset
  · simp only [honce, Bool.false_eq_true, if_false]
    exact ((hbody.bind hstep).repeatM l.bodyCount).bind hreset

end Simulation

/-! ## Code -/

namespace Expr

/-- The tensors a memory access touches. -/
def touched (x : Expr) : List Tensor :=
  match x.kind with
  | .load | .broadcastLoad => x.inputs.take 1
  | .store => x.outputs.take 1
  | .brgemm => x.inputs ++ x.outputs.take 1
  | _ => []

/-- The trail of an expression that opens no loop. -/
def trail (x : Expr) (T : TensorId) : Trail :=
  ⟨(x.touched.filter (·.id = T)).map fun _ => (0, x.count), 0⟩

/-- The expression is no closing marker, and a memory access has the operand it moves. -/
structure Playable (x : Expr) : Prop where
  marker : x.kind ≠ .loopEnd
  source : x.kind = .load ∨ x.kind = .broadcastLoad → x.inputs ≠ []
  target : x.kind = .store ∨ x.kind = .brgemm → x.outputs ≠ []

instance (x : Expr) : Decidable x.Playable :=
  decidable_of_iff (x.kind ≠ .loopEnd ∧ (x.kind = .load ∨ x.kind = .broadcastLoad → x.inputs ≠ []) ∧
      (x.kind = .store ∨ x.kind = .brgemm → x.outputs ≠ []))
    ⟨fun h => ⟨h.1, h.2.1, h.2.2⟩, fun h => ⟨h.marker, h.source, h.target⟩⟩

end Expr

namespace Simulation

theorem Does.accessAll (ts : List Tensor) (count : Amount) :
    Does (ts.forM fun t => Simulation.access t count) fun T =>
      ⟨(ts.filter (·.id = T)).map fun _ => (0, count), 0⟩ := by
  induction ts with
  | nil => exact Does.pure
  | cons t ts ih =>
    refine ((Does.access t count).bind ih).congr fun T => ?_
    by_cases h : t.id = T
    · simp only [h, if_true, filter_cons, decide_true, map_cons]
      ext1
      · simp
      · simp
    · simp [h]

theorem Does.runExpr {x : Expr} (hx : x.Playable) : Does (runExpr x) x.trail := by
  -- one tensor is touched by the kinds that move one, and all inputs by a block product
  have hinput : x.inputs ≠ [] → Does (do Simulation.access (← lift (x.input 0)) x.count) fun T =>
      ⟨((x.inputs.take 1).filter (·.id = T)).map fun _ => (0, x.count), 0⟩ := by
    intro hne
    obtain ⟨t, ts, ht⟩ := exists_cons_of_ne_nil hne
    have hin : x.input 0 = .ok t := by
      rw [Expr.input, ht]
      rfl
    rw [hin, ht]
    exact (Does.accessAll [t] x.count).congr fun T => rfl
  have houtput : x.outputs ≠ [] → Does (do Simulation.access (← lift (x.output 0)) x.count) fun T =>
      ⟨((x.outputs.take 1).filter (·.id = T)).map fun _ => (0, x.count), 0⟩ := by
    intro hne
    obtain ⟨t, ts, ht⟩ := exists_cons_of_ne_nil hne
    have hout : x.output 0 = .ok t := by
      rw [Expr.output, ht]
      rfl
    rw [hout, ht]
    exact (Does.accessAll [t] x.count).congr fun T => rfl
  unfold Simulation.runExpr Expr.trail Expr.touched
  obtain ⟨hmarker, hsource, htarget⟩ := hx
  cases hk : x.kind with
  | load => exact hinput (hsource (.inl hk))
  | broadcastLoad => exact hinput (hsource (.inr hk))
  | store => exact houtput (htarget (.inl hk))
  | brgemm =>
    refine ((Does.accessAll x.inputs x.count).bind (houtput (htarget (.inr hk)))).congr fun T => ?_
    ext1
    · simp [filter_append]
    · rfl
  | loopEnd => exact absurd hk hmarker
  | _ => exact Does.pure

end Simulation

namespace Code

/-- Every expression can be simulated and every closing marker closes its loop. -/
def Playable : Code → Prop
  | done => True
  | op x rest => x.Playable ∧ rest.Playable
  | loop _ e body rest => (∃ l, e.Closes l) ∧ body.Playable ∧ rest.Playable

/-- What the code does to a tensor. -/
def trail (T : TensorId) : Code → Trail
  | done => 1
  | op x rest => x.trail T * rest.trail T
  | loop _ e body rest => (match e.loop with
      | some l => l.trail T e.inputs (body.trail T)
      | none => 1) * rest.trail T

theorem trail_append (T : TensorId) (c d : Code) : (c.append d).trail T = c.trail T * d.trail T := by
  induction c with
  | done => exact (one_mul _).symm
  | op x rest ih => rw [append, trail, trail, ih, mul_assoc]
  | loop b e body rest _ ih => rw [append, trail, trail, ih, mul_assoc]

/-- Simulated code does to each tensor what its trail says. -/
theorem does_run (hc : c.Playable) :
    Simulation.Does (c.run { run := Simulation.runExpr, loop := fun _ e body => Simulation.runLoop e body })
      fun T => c.trail T := by
  induction c with
  | done => exact Simulation.Does.pure
  | op x rest ih => exact (Simulation.Does.runExpr hc.1).bind (ih hc.2)
  | loop b e body rest ihbody ihrest =>
    obtain ⟨⟨l, hl⟩, hbody, hrest⟩ := hc
    refine ((Simulation.Does.runLoop hl (ihbody hbody)).bind (ihrest hrest)).congr fun T => ?_
    rw [trail, hl.params]

end Code

/-! ## Journeys

A journey is a trail of all tensors at once: it keeps what is run together where, which the trails
of single tensors forget. Each of these is what the journey does to one tensor
(`Code.trail_journey`), so that what loops do is said once, about journeys. -/

/-- Where each tensor stands, or how far each tensor moves. -/
abbrev Shift := TensorId → Amount

/-- What is run where, counted from where the tensors stand at the start. -/
@[ext]
structure Journey where
  /-- The expressions in the order of execution, and how far each tensor has moved by then. -/
  stops : List (Shift × Expr)
  /-- How far each tensor has moved at the end. -/
  net : Shift

namespace Journey

variable (d a : Shift)

theorem shift_add_assoc (b c : Shift) : a + b + c = a + (b + c) := by
  funext t
  exact Int64.add_assoc (a t) (b t) (c t)

theorem shift_add_zero : a + 0 = a := by
  funext t
  exact Int64.add_zero (a t)

theorem shift_zero_add : 0 + a = a := by
  funext t
  exact Int64.zero_add (a t)

/-- The stops of a journey that starts further on. -/
def moved (d : Shift) (stops : List (Shift × Expr)) : List (Shift × Expr) :=
  stops.map fun s => (d + s.1, s.2)

/-- Nothing is run, and every tensor moves. -/
def move (d : Shift) : Journey := ⟨[], d⟩

/-- One expression is run, and nothing moves. -/
def stop (x : Expr) : Journey := ⟨[(0, x)], 0⟩

instance : One Journey := ⟨⟨[], 0⟩⟩

instance : Mul Journey := ⟨fun J K => ⟨J.stops ++ moved J.net K.stops, J.net + K.net⟩⟩

@[simp] theorem one_stops : (1 : Journey).stops = [] := rfl

@[simp] theorem one_net : (1 : Journey).net = 0 := rfl

@[simp] theorem mul_stops (J K : Journey) : (J * K).stops = J.stops ++ moved J.net K.stops := rfl

@[simp] theorem mul_net (J K : Journey) : (J * K).net = J.net + K.net := rfl

@[simp] theorem move_stops : (move d).stops = [] := rfl

@[simp] theorem move_net : (move d).net = d := rfl

@[simp] theorem moved_nil : moved d [] = [] := rfl

@[simp] theorem moved_append (a b : List (Shift × Expr)) :
    moved d (a ++ b) = moved d a ++ moved d b :=
  map_append

@[simp] theorem moved_zero (a : List (Shift × Expr)) : moved 0 a = a := by
  simp [moved, shift_zero_add]

theorem moved_moved (d' : Shift) (a : List (Shift × Expr)) :
    moved d (moved d' a) = moved (d + d') a := by
  simp [moved, shift_add_assoc]

/-- One after the other. -/
instance : Monoid Journey where
  mul_assoc J K M := by
    ext1
    · simp [moved_moved, append_assoc]
    · exact shift_add_assoc J.net K.net M.net
  one_mul J := by
    ext1
    · simp
    · exact shift_zero_add J.net
  mul_one J := by
    ext1
    · simp
    · exact shift_add_zero J.net

theorem move_mul_move (d' : Shift) : move d * move d' = move (d + d') := rfl

theorem move_zero : move 0 = 1 := rfl

end Journey

namespace LoopParams

/-- How far the operands of a loop move with each step. -/
def stepShift (l : LoopParams) (operands : List Tensor) : Shift := fun T => l.stepOf T operands

/-- How far the operands of a loop move at its end. -/
def resetShift (l : LoopParams) (operands : List Tensor) : Shift := fun T => l.resetOf T operands

/-- The journey of a loop, from that of its body. -/
def journey (l : LoopParams) (operands : List Tensor) (body : Journey) : Journey :=
  (if l.once then body else (body * .move (l.stepShift operands)) ^ l.bodyCount) * .move (l.resetShift operands)

end LoopParams

/-- The journey of code. -/
def Code.journey : Code → Journey
  | .done => 1
  | .op x rest => .stop x * rest.journey
  | .loop _ e body rest =>
    (match e.loop with
      | some l => l.journey e.inputs body.journey
      | none => 1) * rest.journey

namespace Code

/-- The journey of a loop that stands alone. -/
theorem journey_loop (hl : e.loop = some l) (b : Expr) (body : Code) :
    (loop b e body done).journey = l.journey e.inputs body.journey := by
  rw [journey, hl]
  exact mul_one _

theorem journey_append (c d : Code) : (c.append d).journey = c.journey * d.journey := by
  induction c with
  | done => exact (one_mul _).symm
  | op x rest ih => rw [append, journey, journey, ih, mul_assoc]
  | loop b e body rest _ ih => rw [append, journey, journey, ih, mul_assoc]

end Code

/-- What a journey does to one tensor. -/
def Journey.trail (T : TensorId) : Journey →* Trail where
  toFun J := ⟨J.stops.flatMap fun s => (s.2.touched.filter (·.id = T)).map fun _ => (s.1 T, s.2.count), J.net T⟩
  map_one' := rfl
  map_mul' J K := by
    ext1
    · simp [moved, Trail.shifted, flatMap_map, map_flatMap]
    · rfl

theorem Journey.trail_move (T : TensorId) (d : Shift) : trail T (move d) = .move (d T) := rfl

theorem LoopParams.trail_journey (l : LoopParams) (T : TensorId) (operands : List Tensor)
    (J : Journey) :
    (l.journey operands J).trail T = l.trail T operands (J.trail T) := by
  unfold journey trail
  rw [map_mul, Journey.trail_move, apply_ite (Journey.trail T), map_pow, map_mul, Journey.trail_move]
  rfl

theorem Code.trail_journey (c : Code) (T : TensorId) : c.journey.trail T = c.trail T := by
  induction c with
  | done => rfl
  | op x rest ih =>
    rw [journey, map_mul, ih, trail]
    refine congrArg (· * rest.trail T) (Trail.ext ?_ rfl)
    exact append_nil _
  | loop b e body rest ihbody ihrest =>
    rw [journey, map_mul, ihrest, trail]
    cases e.loop with
    | none => rfl
    | some l =>
      exact congrArg (· * rest.trail T) ((l.trail_journey T e.inputs _).trans (ihbody ▸ rfl))

/-- A kernel that lists playable code is simulated by the trails of the code. -/
theorem Simulation.run_eq {k : Kernel} (hk : k.Lists c.flatten) (hnested : c.Nested c.flatten)
    (hc : c.Playable) :
    ∃ trace, Simulation.run k = .ok trace ∧
      ∀ T, trace.accessesOf T = (c.trail T).accessesFrom T 0 ∧ trace.position T = (c.trail T).net := by
  obtain ⟨trace, hrun, hacc, hpos⟩ := Code.does_run hc {}
  refine ⟨trace, ?_, fun T => ⟨?_, ?_⟩⟩
  · rw [Simulation.run, hk.execute _ hnested, hrun]
  · rw [hacc T]
    rfl
  · rw [hpos T]
    exact Int64.zero_add _

end KernelLoops
