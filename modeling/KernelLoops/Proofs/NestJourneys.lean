import KernelLoops.Proofs.SweepingNests
import KernelLoops.Proofs.TailFlows

set_option autoImplicit false

/-! # Journeys of nests

A nest of loops around a body, its tails split: the journey runs the body at every multiple of the
steps, from the outermost loop inward, and the narrowed copy of it where the innermost loop does not
come out even. Where each tensor stands by then is the sum of what the loops around have moved
it. -/

namespace KernelLoops

open List

variable {m : Kernel} {c copy : Code} {b e : Expr} {xs : List Expr} {l : LoopParams} {size : Amount}
  {out : List TensorId} {n : TensorId}

namespace Journey

theorem scaled_zero (r : Shift) : scaled r 0 = 0 := by
  funext T
  exact Int64.mul_zero

theorem scaled_add (r : Shift) (a b : Amount) : scaled r (a + b) = scaled r a + scaled r b := by
  funext T
  exact Int64.mul_add

theorem scaled_scaled (r : Shift) (a b : Amount) : scaled (scaled r a) b = scaled r (a * b) := by
  funext T
  exact Int64.mul_assoc (r T) a b

/-- A body that moves nothing, and a step behind it, over and over. -/
theorem pow_mul_move {J : Journey} (hJ : J.net = 0) (s : Shift) (n : Nat) :
    (J * move s) ^ n =
      ⟨(range n).flatMap fun j => moved (scaled s (Int64.ofNat j)) J.stops, scaled s (Int64.ofNat n)⟩ := by
  induction n with
  | zero =>
    ext1
    · rfl
    · exact (scaled_zero s).symm
  | succ n ih =>
    rw [pow_succ, ih]
    ext1
    · simp [range_succ]
    · show scaled s (Int64.ofNat n) + (J.net + s) = _
      rw [hJ, shift_zero_add, Int64.ofNat_add, scaled_add]
      refine congrArg (scaled s (Int64.ofNat n) + ·) ?_
      funext T
      exact (Int64.mul_one (s T)).symm

end Journey

namespace LoopParams

/-- Where its bodies move nothing, a loop with its tail split off runs them one step apart and goes
    back. -/
theorem sweepJourney_eq (hwork : 0 ≤ l.workAmount) (hstep : 0 < l.increment) (r : Shift)
    {J G : Journey}
    (hJ : J.net = 0) (hG : l.workAmount % l.increment ≠ 0 → G.net = 0) :
    l.sweepJourney r J G =
      ⟨((range (l.workAmount / l.increment).trips).flatMap fun j =>
          Journey.moved (scaled r (l.increment * Int64.ofNat j)) J.stops) ++
        if l.workAmount % l.increment = 0 then []
        else Journey.moved (scaled r (l.increment * Int64.ofNat (l.workAmount / l.increment).trips)) G.stops, 0⟩ := by
  have hsum := Amount.eq_steps_add_mod hwork hstep
  have hback : ∀ T, scaled r (l.increment * Int64.ofNat (l.workAmount / l.increment).trips) T +
      scaled r (l.workAmount % l.increment) T + scaled r (-l.workAmount) T = 0 := by
    intro T
    rw [scaled, scaled, scaled]
    generalize l.workAmount % l.increment = rest at *
    generalize Int64.ofNat (l.workAmount / l.increment).trips = count at *
    rw [hsum]
    grind
  rw [sweepJourney, Journey.pow_mul_move hJ]
  simp only [Journey.scaled_scaled]
  by_cases hrest : l.workAmount % l.increment = 0
  · simp only [hrest, if_true, mul_one]
    ext1
    · simp
    · funext T
      have hT := hback T
      rw [hrest, Journey.scaled_zero] at hT
      show scaled r _ T + scaled r _ T = 0
      rw [← hT]
      exact congrArg (· + _) (Int64.add_zero _).symm
  · simp only [hrest, if_false]
    ext1
    · simp
    · funext T
      show scaled r _ T + (G.net T + scaled r _ T) + scaled r _ T = 0
      rw [hG hrest, ← hback T]
      exact congrArg (fun d => _ + d + _) (Int64.zero_add _)

end LoopParams

/-! ## Split loops -/

namespace Code

theorem ofOps_injective {ys : List Expr} (h : ofOps xs done = ofOps ys done) : xs = ys := by
  have hops := congrArg Code.ops h
  rwa [ops_ofOps, ops_ofOps, ops, append_nil, append_nil] at hops

theorem journey_ofOps (xs : List Expr) : (ofOps xs done).journey = ⟨xs.map fun x => (0, x), 0⟩ := by
  induction xs with
  | nil => rfl
  | cons x xs ih =>
    rw [ofOps, journey, ih]
    ext1
    · simp [Journey.stop]
    · exact Journey.shift_add_zero 0

end Code

/-! ## Towers -/

/-- The job further on. -/
def Job.moved (d : Shift) (j : Job) : Job := { j with shift := d + j.shift }

theorem Job.moved_flatMap_stops (d : Shift) (jobs : List Job) :
    Journey.moved d (jobs.flatMap Job.stops) = (jobs.map (Job.moved d)).flatMap Job.stops := by
  induction jobs with
  | nil => rfl
  | cons j jobs ih =>
    rw [flatMap_cons, Journey.moved_append, ih, map_cons, flatMap_cons]
    refine congrArg (· ++ _) ?_
    simp [Journey.moved, Job.stops, Job.moved]

/-- The marker closes a loop that has not been split and moves each tensor by `r` per unit of
    work. -/
structure Expr.Strides (e : Expr) (l : LoopParams) (r : Shift) : Prop where
  whole : e.Whole l
  returns : l.Returns
  rates : l.rates e.inputs = r

/-- The markers of loops over the dimensions of a shape, with what each moves: the innermost loop
    goes in steps of `inc` elements, the others one by one. `outer` tells whether another loop runs
    them. -/
inductive Tower (inc : Amount) : Bool → List Amount → List Shift → List (Expr × Expr) → Prop
  | nil (outer : Bool) : Tower inc outer [] [] []
  | cons {outer : Bool} {size : Amount} {sizes : List Amount} {r : Shift} {rs : List Shift}
    {b e : Expr} {l : LoopParams}
      {ms : List (Expr × Expr)} (strides : e.Strides l r) (work : l.workAmount = size)
      (step : l.increment = if sizes = [] then inc else 1) (around : l.hasOuterLoop = outer)
      (inside : Tower inc true sizes rs ms) : Tower inc outer (size :: sizes) (r :: rs) ((b, e) :: ms)

/-- The runs of a body, and of its copy in the tail, that loops over a shape make. -/
def towerJobs (inc : Amount) (vector tail : List Expr) : List Amount → List Shift → List Job
  | [size], [r] =>
    (range (size / inc).trips).map (fun j => ⟨scaled r (inc * Int64.ofNat j), inc.trips, vector⟩) ++
      if size % inc = 0 then []
      else [⟨scaled r (inc * Int64.ofNat (size / inc).trips), (size % inc).trips, tail⟩]
  | size :: sizes, r :: rs =>
    (range size.trips).flatMap fun j =>
      (towerJobs inc vector tail sizes rs).map (Job.moved (scaled r (Int64.ofNat j)))
  | _, _ => []

theorem towerJobs_cons {inc size : Amount} {vector tail : List Expr} {sizes : List Amount}
    {r : Shift} {rs : List Shift}
    (h : sizes ≠ []) : towerJobs inc vector tail (size :: sizes) (r :: rs) = (range size.trips).flatMap fun j =>
      (towerJobs inc vector tail sizes rs).map (Job.moved (scaled r (Int64.ofNat j))) := by
  obtain ⟨size', sizes, rfl⟩ := exists_cons_of_ne_nil h
  rfl

/-- The copy of a body in a tail, as expressions in a row. -/
def CopiedOps (size : Amount) (out : List TensorId) (made : List Tensor) (n : TensorId)
    (xs tail : List Expr) : Prop :=
  ∃ table n', FreshTable table n n' ∧ Leaves table out made ∧
    (∀ i u, table.lookup i = some u → ∃ t ∈ made, t.id = i ∧ u.toTensorType = t.toTensorType) ∧
    tail = (xs.map (Expr.rename table)).map (Expr.resized size)

theorem CopiedOps.mono {out' : List TensorId} {made made' : List Tensor} {tail : List Expr}
    (h : CopiedOps size out made n xs tail) (hout : ∀ i ∈ out', i ∈ out) (hmade : ∀ t ∈ made, t ∈ made') :
    CopiedOps size out' made' n xs tail := by
  obtain ⟨table, n', htable, hleaves, htypes, htail⟩ := h
  refine ⟨table, n', htable, fun i hi => hleaves i ?_, fun i u hu => ?_, htail⟩
  · exact hi.imp (hout i) fun hunmade t ht => hunmade t (hmade t ht)
  · obtain ⟨t, ht, hid⟩ := htypes i u hu
    exact ⟨t, hmade t ht, hid⟩

theorem plain_rename (h : ∀ x ∈ xs, x.fills = []) (table : List (TensorId × Tensor)) :
    ∀ y ∈ xs.map (Expr.rename table), y.fills = [] := by
  intro y hy
  obtain ⟨x, hx, rfl⟩ := mem_map.1 hy
  exact h x hx

/-- The copy of expressions in a row is expressions in a row. -/
theorem Code.Copied.exists_ops {made : List Tensor}
    (h : Copied false m size out made n (.ofOps xs .done) copy)
    (hplain : ∀ x ∈ xs, x.fills = []) : ∃ tail, copy = .ofOps tail .done ∧ CopiedOps size out made n xs tail := by
  obtain ⟨table, n', htable, hleaves, htypes, hcopy⟩ := h
  rw [Code.map_ofOps, Code.map] at hcopy
  exact ⟨_, hcopy.trans (Code.narrowed_ofOps _ _ (plain_rename hplain table) n'), table, n', htable,
    hleaves, htypes, rfl⟩

theorem Code.Splits.exists_ops (h : Splits false m b e l (.ofOps xs .done) out n c copy)
    (hplain : ∀ x ∈ xs, x.fills = []) :
    ∃ tail, copy = .ofOps tail .done := by
  cases h with
  | idle => exact ⟨[], rfl⟩
  | even => exact ⟨[], rfl⟩
  | both _ _ _ copied => exact (copied.exists_ops hplain).imp fun _ h => h.1
  | tail _ _ copied => exact (copied.exists_ops hplain).imp fun _ h => h.1

/-- A loop that comes out even has no tail. -/
theorem Code.Splits.copy_of_even {body : Code} (h : Splits false m b e l body out n c copy)
    (heven : l.workAmount % l.increment = 0) : copy = .done := by
  cases h with
  | idle => rfl
  | even => rfl
  | both odd => exact absurd heven odd
  | tail odd => exact absurd heven odd

/-- What a tower around a body becomes when the tails are split off: only the innermost loop has
    one, which runs `tail`, and what this loop moves keeps its name there. -/
inductive LowersTo (inc : Amount) (m : Kernel) (xs tail : List Expr) :
    Bool → List Amount → List Shift → List (Expr × Expr) → List TensorId → TensorId → Code → Prop
  | innermost {outer : Bool} {size : Amount} {r : Shift} {b e : Expr} {l : LoopParams}
    {out : List TensorId} {n : TensorId}
      {c : Code} (strides : e.Strides l r) (work : l.workAmount = size) (step : l.increment = inc)
      (around : l.hasOuterLoop = outer)
      (kept : ∀ t ∈ e.inputs.take l.ptrIncrements.length, t.id ∈ out ∨
        ∀ u ∈ (Code.wrap [(b, e)] (.ofOps xs .done)).outputs, u.id ≠ t.id)
      (splits : Code.Splits false m b e l (.ofOps xs .done) out n c (.ofOps tail .done)) :
      LowersTo inc m xs tail outer [size] [r] [(b, e)] out n c
  | outer {outer : Bool} {size : Amount} {sizes : List Amount} {r : Shift} {rs : List Shift}
    {b e : Expr} {l : LoopParams}
      {ms : List (Expr × Expr)} {out : List TensorId} {n n' : TensorId} {body c : Code}
      (inside : LowersTo inc m xs tail true sizes rs ms (b.inputIds ++ (e.inputIds ++ out)) n body)
      (strides : e.Strides l r) (work : l.workAmount = size) (step : l.increment = 1) (around : l.hasOuterLoop = outer)
      (splits : Code.Splits false m b e l body out n' c .done) :
      LowersTo inc m xs tail outer (size :: sizes) (r :: rs) ((b, e) :: ms) out n c

namespace Tower

variable {inc : Amount}

theorem outputs_subset (b e : Expr) (ms : List (Expr × Expr)) (body : Code) {t : Tensor}
    (ht : t ∈ (Code.wrap ms body).outputs) : t ∈ (Code.wrap ((b, e) :: ms) body).outputs := by
  rw [Code.wrap]
  simp only [Code.outputs, Code.flatten, flatMap_cons, flatMap_append]
  exact mem_append_right _ (mem_append_left _ ht)

/-- Lowering a loop that stands alone: its body is lowered, then the loop is split. -/
theorem lower_loop_done (m : Kernel) (b e : Expr) (body : Code) (out : List TensorId)
    (n : TensorId) :
    ((Code.loop b e body .done).lower m out n).1 =
      (Code.splitLoop m b e (body.lower m (b.inputIds ++ (e.inputIds ++ out)) n).1 out
        (body.lower m (b.inputIds ++ (e.inputIds ++ out)) n).2).1 :=
  congrArg Prod.fst (Code.cut_loop_done _ m b e body out n)

/-- A tower can be lowered. -/
theorem exists_lowersTo {outer : Bool} {sizes : List Amount} {rs : List Shift}
    {ms : List (Expr × Expr)}
    (h : Tower inc outer sizes rs ms) (hne : sizes ≠ []) (hplain : ∀ x ∈ xs, x.fills = []) (m : Kernel)
    (hkept : ∀ p ∈ ms, ∀ l, p.2.loop = some l → ∀ t ∈ p.2.inputs.take l.ptrIncrements.length, t.id ∈ out ∨
      ∀ u ∈ (Code.wrap ms (.ofOps xs .done)).outputs, u.id ≠ t.id) (n : TensorId) :
    ∃ tail, LowersTo inc m xs tail outer sizes rs ms out n ((Code.wrap ms (.ofOps xs .done)).lower m out n).1 := by
  induction h generalizing out with
  | nil => exact absurd rfl hne
  | @cons outer size sizes r rs b e l ms strides work step around inside ih =>
    have hcloses := strides.whole.closes
    rw [Code.wrap, lower_loop_done]
    by_cases hinner : sizes = []
    · subst hinner
      cases inside
      rw [Code.wrap, Code.lower_ofOps]
      obtain ⟨copy, hsplits⟩ := Code.exists_splits hcloses.params hcloses.static false m b (.ofOps xs .done) out n
      obtain ⟨tail, rfl⟩ := hsplits.exists_ops hplain
      exact ⟨tail, .innermost strides work (step.trans (if_pos rfl)) around
        (hkept (b, e) mem_cons_self l hcloses.params) hsplits⟩
    · have hone := step.trans (if_neg hinner)
      obtain ⟨tail, hinside⟩ := @ih (b.inputIds ++ (e.inputIds ++ out)) hinner fun p hp l hl t ht =>
        (hkept p (mem_cons_of_mem _ hp) l hl t ht).imp (fun hi => mem_append_right _ (mem_append_right _ hi))
          fun hunmade u hu => hunmade u (outputs_subset b e ms _ hu)
      obtain ⟨copy, hsplits⟩ := Code.exists_splits hcloses.params hcloses.static false m b
        ((Code.wrap ms (.ofOps xs .done)).lower m (b.inputIds ++ (e.inputIds ++ out)) n).1 out
        ((Code.wrap ms (.ofOps xs .done)).lower m (b.inputIds ++ (e.inputIds ++ out)) n).2
      obtain rfl := hsplits.copy_of_even (LoopParams.mod_of_one hone)
      exact ⟨tail, .outer hinside strides work hone around hsplits⟩

end Tower

namespace LowersTo

variable {inc : Amount} {tail : List Expr} {ms : List (Expr × Expr)} {outer : Bool}
  {sizes : List Amount} {rs : List Shift}
  (h : LowersTo inc m xs tail outer sizes rs ms out n c)

include h

theorem ne_nil : sizes ≠ [] := by
  cases h <;> exact cons_ne_nil _ _

theorem length_rates : rs.length = sizes.length := by
  induction h with
  | innermost => rfl
  | outer _ _ _ _ _ _ ih => rw [length_cons, length_cons, ih]

/-- What the tail runs is a copy of the body. -/
theorem copied (hplain : ∀ x ∈ xs, x.fills = []) {hne : sizes ≠ []}
    (hrest : sizes.getLast hne % inc ≠ 0) :
    CopiedOps (sizes.getLast hne % inc) out (Code.wrap ms (.ofOps xs .done)).outputs n xs tail := by
  induction h with
  | innermost strides work step around kept splits =>
    rw [getLast_singleton] at hrest ⊢
    rw [← work, ← step] at hrest ⊢
    obtain ⟨tail', hcopy, hcopied⟩ := (splits.copied hrest).exists_ops hplain
    exact Code.ofOps_injective hcopy ▸ hcopied
  | outer inside strides work step around splits ih =>
    rw [getLast_cons inside.ne_nil] at hrest ⊢
    refine (ih hrest).mono (fun i hi => ?_) fun t ht => Tower.outputs_subset _ _ _ _ ht
    exact mem_append_right _ (mem_append_right _ hi)

/-- The journey of a lowered tower: its jobs, and then all the way back unless nothing looks at the
    positions behind it. -/
theorem journey : ∃ d, c.journey = ⟨(towerJobs inc xs tail sizes rs).flatMap Job.stops, d⟩ ∧
    (outer = true → d = 0) := by
  -- the loops inside always lie in another one, so by induction they go all the way back
  induction h with
  | @innermost outer size r b e l out n c strides work step around kept splits =>
    obtain ⟨d, hjourney, hsteady⟩ := splits.journey strides.whole strides.returns fun _ => kept
    refine ⟨d, ?_, fun houter => hsteady (.inr (.inl (around.trans houter)))⟩
    rw [hjourney, strides.rates, LoopParams.sweepJourney_eq strides.whole.work strides.whole.step r
      (by rw [Code.journey_ofOps]) (fun _ => by rw [Code.journey_ofOps]), step, work, Code.journey_ofOps,
      Code.journey_ofOps]
    ext1
    · rw [towerJobs, Journey.mul_stops, Journey.move_stops, Journey.moved_nil, append_nil,
        flatMap_append, flatMap_map]
      refine congrArg₂ (· ++ ·) (flatMap_congr fun j _ => ?_) ?_
      · simp [Journey.moved, Job.stops, Journey.shift_add_zero]
      · by_cases hrest : size % inc = 0
        · rw [if_pos hrest, if_pos hrest]
          rfl
        · rw [if_neg hrest, if_neg hrest]
          simp [Journey.moved, Job.stops, Journey.shift_add_zero]
    · exact Journey.shift_zero_add d
  | @outer outer size sizes r rs b e l ms out n n' body c inside strides work step around splits ih =>
    have heven := LoopParams.mod_of_one step
    obtain ⟨d, hjourney, hback⟩ := ih
    obtain ⟨d', hsplit, hsteady⟩ := splits.journey strides.whole strides.returns fun h => absurd heven h
    refine ⟨d', ?_, fun houter => hsteady (.inr (.inl (around.trans houter)))⟩
    have hinner : body.journey.net = 0 := by rw [hjourney, hback rfl]
    rw [hsplit, strides.rates, LoopParams.sweepJourney_eq strides.whole.work strides.whole.step r hinner
      fun h => absurd heven h, if_pos heven, step, Int64.div_one, work, hjourney, towerJobs_cons inside.ne_nil]
    ext1
    · simp only [Journey.mul_stops, Journey.move_stops, Journey.moved_nil, append_nil, flatMap_assoc]
      refine flatMap_congr fun j _ => ?_
      rw [Job.moved_flatMap_stops, Int64.one_mul]
    · exact Journey.shift_zero_add d'

end LowersTo

end KernelLoops
