import KernelLoops.Proofs.EvaluatingOnce

set_option autoImplicit false

/-! # Sweeps

A trail sweeps a tensor when it touches the elements from where the tensor stands on, one after the
other and each of them once. A body that sweeps what one step of its loop moves makes the loop sweep
too, and so does the loop with its tail split off: the steps that are whole, then the rest, then
back to the start. -/

namespace KernelLoops

open List

variable {l : LoopParams} {n : Nat} {f : Trail}

namespace Amount

/-- Work is done in whole steps and a rest. -/
theorem trips_eq {work step : Amount} (hwork : 0 ≤ work) (hstep : 0 < step) :
    work.trips = (work / step).trips * step.trips + (work % step).trips := by
  have hwork' : 0 ≤ work.toInt := le_iff.1 hwork
  have hstep' : 0 < step.toInt := lt_iff.1 hstep
  have hquot : 0 ≤ work.toInt / step.toInt := Int.ediv_nonneg hwork' hstep'.le
  have hrest : 0 ≤ work.toInt % step.toInt := Int.emod_nonneg _ hstep'.ne'
  have hsum := Int.mul_ediv_add_emod work.toInt step.toInt
  rw [trips, trips, trips, trips, toInt_div_of_nonneg hwork', toInt_mod_of_nonneg hwork']
  zify
  rw [Int.toNat_of_nonneg hwork', Int.toNat_of_nonneg hquot, Int.toNat_of_nonneg hstep'.le,
    Int.toNat_of_nonneg hrest, Int.mul_comm]
  exact hsum.symm

/-- The whole steps and the rest, as words. -/
theorem eq_steps_add_mod {work step : Amount} (hwork : 0 ≤ work) (hstep : 0 < step) :
    work = step * Int64.ofNat (work / step).trips + work % step := by
  have heq := congrArg Int64.ofNat (trips_eq hwork hstep)
  have hmod : 0 ≤ work % step := le_iff.2 (toInt_mod_bounds hwork hstep).1
  rw [Int64.ofNat_add, Int64.ofNat_mul, ofNat_trips hwork, ofNat_trips (Int64.le_of_lt hstep), ofNat_trips hmod] at heq
  rw [Int64.mul_comm]
  exact heq

/-- The work that is left when the rest is taken off has as many whole steps. -/
theorem sub_mod_div {work step : Amount} (hwork : 0 ≤ work) (hstep : 0 < step) :
    (work - work % step) / step = work / step := by
  have hwork' : 0 ≤ work.toInt := le_iff.1 hwork
  have hstep' : 0 < step.toInt := lt_iff.1 hstep
  have hless : 0 ≤ (work - work % step).toInt := by
    rw [toInt_sub_mod hwork hstep]
    have := (toInt_mod_bounds hwork hstep).2.2
    omega
  refine eq_iff.2 ?_
  have hexact : work.toInt - work.toInt % step.toInt = step.toInt * (work.toInt / step.toInt) := by
    have := Int.mul_ediv_add_emod work.toInt step.toInt
    omega
  rw [toInt_div_of_nonneg hless, toInt_div_of_nonneg hwork', toInt_sub_mod hwork hstep,
    toInt_mod_of_nonneg hwork', hexact, Int.mul_ediv_cancel_left _ hstep'.ne']

end Amount

/-! ## Trails that sweep -/

namespace Trail

/-- The elements a trail touches, in the order it does, counted from where the tensor stood. -/
def elements (f : Trail) : List Amount :=
  f.spans.flatMap fun s => (range s.2.trips).map fun i => s.1 + Int64.ofNat i

/-- The trail touches the first `n` elements, one after the other. -/
def Sweeps (f : Trail) (n : Nat) : Prop := f.elements = (range n).map Int64.ofNat

theorem flatMap_elements_accessesFrom (f : Trail) (T : TensorId) :
    (f.accessesFrom T 0).flatMap Access.elements = f.elements := by
  rw [accessesFrom, flatMap_map, elements]
  refine flatMap_congr fun s _ => map_congr_left fun i _ => ?_
  rw [Int64.zero_add]

theorem elements_mul (f g : Trail) :
    (f * g).elements = f.elements ++ g.elements.map (f.net + ·) := by
  rw [elements, mul_spans, flatMap_append, shifted, flatMap_map, elements, elements, map_flatMap]
  refine congrArg (_ ++ ·) (flatMap_congr fun s _ => ?_)
  rw [map_map]
  exact map_congr_left fun i _ => Int64.add_assoc _ _ _

theorem Sweeps.one : (1 : Trail).Sweeps 0 := rfl

/-- Moving afterwards touches nothing. -/
theorem Sweeps.mul_move (hf : f.Sweeps n) (d : Amount) : (f * move d).Sweeps n := by
  rw [Sweeps, elements_mul, hf]
  exact append_nil _

/-- What starts where the first part ends goes on with the sweep. -/
theorem Sweeps.mul {g : Trail} {n' : Nat} (hf : f.Sweeps n) (hnet : f.net = Int64.ofNat n)
    (hg : g.Sweeps n') :
    (f * g).Sweeps (n + n') := by
  rw [Sweeps, elements_mul, hf, hg, hnet, range_add, map_append, map_map, map_map]
  refine congrArg (_ ++ ·) (map_congr_left fun i _ => ?_)
  exact (Int64.ofNat_add n i).symm

/-- Sweeping over and over, each time from where the last sweep ended. -/
theorem Sweeps.pow (hf : f.Sweeps n) (hnet : f.net = Int64.ofNat n) (q : Nat) :
    (f ^ q).Sweeps (q * n) ∧ (f ^ q).net = Int64.ofNat (q * n) := by
  induction q with
  | zero => exact ⟨by rw [pow_zero, Nat.zero_mul]; exact .one, by rw [pow_zero, Nat.zero_mul]; rfl⟩
  | succ q ih =>
    obtain ⟨hsweeps, hq⟩ := ih
    rw [pow_succ, Nat.succ_mul]
    exact ⟨hsweeps.mul hq hf, by rw [mul_net, hq, hnet, Int64.ofNat_add]⟩

end Trail

/-! ## Split loops -/

/-- How far each tensor moves in some units of work. -/
def scaled (r : Shift) (a : Amount) : Shift := fun T => r T * a

/-- What moves per unit of work, and how much work it is. -/
theorem shift_map_mul (T : TensorId) (ts : List Tensor) (ps : List Amount) (c : Amount) :
    shift T ts (ps.map (· * c)) = shift T ts ps * c := by
  induction ts generalizing ps with
  | nil => exact (Int64.zero_mul).symm
  | cons t ts ih =>
    cases ps with
    | nil => exact (Int64.zero_mul).symm
    | cons p ps =>
      rw [map_cons, shift, shift, ih, Int64.add_mul]
      split
      · rfl
      · rw [Int64.zero_mul]

/-- Only as many operands move as have a step. -/
theorem shift_take (T : TensorId) (ts : List Tensor) (ps : List Amount) :
    shift T ts ps = shift T (ts.take ps.length) ps := by
  induction ts generalizing ps with
  | nil => rw [take_nil]
  | cons t ts ih =>
    cases ps with
    | nil => rfl
    | cons p ps => rw [length_cons, take_succ_cons, shift, shift, ← ih]

namespace LoopParams

/-- How far a tensor moves per unit of work. -/
def rate (l : LoopParams) (T : TensorId) (operands : List Tensor) : Amount :=
  shift T operands l.ptrIncrements

/-- The operands go back by all the work of the loop. -/
def Returns (l : LoopParams) : Prop :=
  l.finalOffsets = l.ptrIncrements.map fun p => -p * l.workAmount

/-- Single steps come out even. -/
theorem mod_of_one (hone : l.increment = 1) : l.workAmount % l.increment = 0 := by
  rw [hone]
  exact Int64.mod_one

/-- What a loop does to a tensor that moves `p` elements per unit of work, its tail split off: `f`
    is what the body does and `g` what the narrowed body does. -/
def sweep (l : LoopParams) (p : Amount) (f g : Trail) : Trail :=
  (f * .move (p * l.increment)) ^ (l.workAmount / l.increment).trips *
    (if l.workAmount % l.increment = 0 then 1 else g * .move (p * (l.workAmount % l.increment))) *
    .move (-p * l.workAmount)

theorem stepOf_eq (l : LoopParams) (T : TensorId) (operands : List Tensor) :
    l.stepOf T operands = l.rate T operands * l.increment := shift_map_mul T operands l.ptrIncrements l.increment

/-- How far the operands move per unit of work. -/
def rates (l : LoopParams) (operands : List Tensor) : Shift := fun T => l.rate T operands

theorem stepShift_eq (l : LoopParams) (operands : List Tensor) :
    l.stepShift operands = scaled (l.rates operands) l.increment := by
  funext T
  exact l.stepOf_eq T operands

theorem Returns.resetShift (h : l.Returns) (operands : List Tensor) :
    l.resetShift operands = scaled (l.rates operands) (-l.workAmount) := by
  funext T
  have hneg : (fun p : Amount => -p * l.workAmount) = (· * -l.workAmount) := by
    funext p
    rw [Int64.neg_mul, Int64.mul_neg]
  show shift T operands l.finalOffsets = l.rate T operands * -l.workAmount
  rw [h, hneg, shift_map_mul]
  rfl

/-- The journey of a loop with its tail split off: the body over and over, the narrowed body once
    where the work does not come out even, and back. -/
def sweepJourney (l : LoopParams) (r : Shift) (J G : Journey) : Journey :=
  (J * .move (scaled r l.increment)) ^ (l.workAmount / l.increment).trips *
    (if l.workAmount % l.increment = 0 then 1 else G * .move (scaled r (l.workAmount % l.increment))) *
    .move (scaled r (-l.workAmount))

/-- The journey of a loop that counts. -/
theorem journey_eq (hcounts : l.once = false) (hstep : 0 < l.increment) (hreturns : l.Returns)
    (operands : List Tensor)
    (J : Journey) :
    l.journey operands J = (J * .move (scaled (l.rates operands) l.increment)) ^ (l.workAmount / l.increment).trips *
      .move (scaled (l.rates operands) (-l.workAmount)) := by
  rw [journey, hcounts, if_neg Bool.false_ne_true, bodyCount, hcounts, if_neg Bool.false_ne_true, if_pos hstep,
    stepShift_eq, hreturns.resetShift]

/-- What a split loop does to one tensor. -/
theorem trail_sweepJourney (l : LoopParams) (r : Shift) (J G : Journey) (T : TensorId) :
    (l.sweepJourney r J G).trail T = l.sweep (r T) (J.trail T) (G.trail T) := by
  rw [sweepJourney, sweep, map_mul, map_mul, map_pow, map_mul, apply_ite (Journey.trail T), map_one, map_mul,
    Int64.neg_mul, ← Int64.mul_neg]
  rfl

/-- The trail of a loop that counts. -/
theorem trail_eq (hcounts : l.once = false) (hstep : 0 < l.increment) (hreturns : l.Returns)
    (T : TensorId)
    (operands : List Tensor) (f : Trail) :
    l.trail T operands f = (f * .move (l.rate T operands * l.increment)) ^ (l.workAmount / l.increment).trips *
      .move (-l.rate T operands * l.workAmount) := by
  have hreset : l.resetOf T operands = -l.rate T operands * l.workAmount := by
    rw [Int64.neg_mul, ← Int64.mul_neg]
    exact congrFun (hreturns.resetShift operands) T
  rw [trail, hcounts, if_neg Bool.false_ne_true, bodyCount, hcounts, if_neg Bool.false_ne_true, if_pos hstep,
    stepOf_eq, hreset]

section Sweep

variable {p : Amount} {g : Trail}

/-- A loop whose body sweeps what one step moves sweeps all its work and goes back. -/
theorem sweeps_sweep {s : Nat} (hwork : 0 ≤ l.workAmount) (hstep : 0 < l.increment)
    (hp : p = Int64.ofNat s)
    (hf : f.Sweeps (s * l.increment.trips)) (hfnet : f.net = 0)
    (hg : l.workAmount % l.increment ≠ 0 → g.Sweeps (s * (l.workAmount % l.increment).trips)) :
    (l.sweep p f g).Sweeps (s * l.workAmount.trips) := by
  have hmove : (f * .move (p * l.increment)).net = Int64.ofNat (s * l.increment.trips) := by
    rw [Trail.mul_net, hfnet, Int64.zero_add, Trail.move_net, hp, Int64.ofNat_mul,
      Amount.ofNat_trips (Int64.le_of_lt hstep)]
  obtain ⟨hwhole, hnet⟩ := (hf.mul_move (p * l.increment)).pow hmove (l.workAmount / l.increment).trips
  have hsum : s * l.workAmount.trips = (l.workAmount / l.increment).trips * (s * l.increment.trips) +
      s * (l.workAmount % l.increment).trips := by
    rw [Amount.trips_eq hwork hstep]
    ring
  refine Trail.Sweeps.mul_move ?_ _
  rw [hsum]
  refine hwhole.mul hnet ?_
  split
  · next hrest =>
      rw [hrest]
      exact Trail.Sweeps.one
  · next hrest => exact (hg hrest).mul_move _

/-- A loop whose body leaves the tensor where it was moves it as far as its tail does. -/
theorem net_sweep (hwork : 0 ≤ l.workAmount) (hstep : 0 < l.increment) (hf : f.net = 0) :
    (l.sweep p f g).net = if l.workAmount % l.increment = 0 then 0 else g.net := by
  have hpow : ∀ q : Nat, ((f * .move (p * l.increment)) ^ q).net = p * l.increment * Int64.ofNat q := by
    intro q
    induction q with
    | zero => exact (Int64.mul_zero).symm
    | succ q ih =>
      rw [pow_succ, Trail.mul_net, ih, Trail.mul_net, hf, Trail.move_net, Int64.ofNat_add]
      grind
  have hrest : (if l.workAmount % l.increment = 0 then 1 else g * .move (p * (l.workAmount % l.increment)) :
      Trail).net = (if l.workAmount % l.increment = 0 then 0 else g.net) + p * (l.workAmount % l.increment) := by
    split
    · next h =>
        rw [h, Int64.mul_zero]
        rfl
    · rfl
  have hsum := Amount.eq_steps_add_mod hwork hstep
  rw [sweep, Trail.mul_net, Trail.mul_net, hpow, hrest, Trail.move_net]
  generalize (if l.workAmount % l.increment = 0 then 0 else g.net) = d at *
  generalize l.workAmount % l.increment = r at *
  generalize Int64.ofNat (l.workAmount / l.increment).trips = q at *
  rw [hsum]
  grind

end Sweep

/-- The loop moves its operands the same way whether loops are evaluated once or not: they are not,
    or it lies in another loop, or it has no work, or its last part takes several steps. -/
def Steady (l : LoopParams) (optimize : Bool) : Prop :=
  optimize = false ∨ l.hasOuterLoop = true ∨ l.workAmount = 0 ∨ l.last.runsOnce true = false

/-- The last part of a loop, evaluated once or not. -/
theorem journey_last {e : Expr} (he : e.Whole l) (hwork : l.workAmount ≠ 0) (optimize force : Bool)
    (operands : List Tensor) (J : Journey) :
    ∃ d, (l.last.optimized optimize force).journey operands J = l.last.journey operands J * .move d ∧
      (l.Steady optimize → d = 0) := by
  obtain ⟨hne, hdiv, h0, hstep, hlength, houter⟩ := last_spec he hwork
  obtain ⟨d, heq, hd⟩ := journey_optimized hne hdiv h0 hstep hlength optimize force operands J
  refine ⟨d, heq, fun hcond => funext fun T => (hd T).resolve_right ?_⟩
  rintro ⟨hon, halone, -, honce, -⟩
  rw [Steady, hon, ← houter, halone, honce] at hcond
  simp [hwork] at hcond

end LoopParams

namespace Code

theorem map_rename_nil (c : Code) : c.map (Expr.rename []) = c := by
  have hrename : Expr.rename [] = id := by
    funext x
    have hid : RangeCopy.rename [] = id := rfl
    rw [Expr.rename, hid, map_id, map_id]
    rfl
  rw [hrename]
  induction c with
  | done => rfl
  | op x rest ih => rw [map, ih]; rfl
  | loop b e body rest ihbody ihrest => rw [map, ihbody, ihrest]; rfl

section SplitLoop

variable {blocks : Bool} {m : Kernel} {b e : Expr} {body c copy : Code} {out : List TensorId}
  {n : TensorId}

/-- New names that spare the operands of a loop do not change what moves. -/
theorem shift_rename_of_leaves {table : List (TensorId × Tensor)} {out : List TensorId}
    {made ts : List Tensor}
    (htable : Leaves table out made) (ps : List Amount)
    (hts : ∀ t ∈ ts.take ps.length, t.id ∈ out ∨ ∀ u ∈ made, u.id ≠ t.id) (T : TensorId) :
    shift T (ts.map (RangeCopy.rename table)) ps = shift T ts ps := by
  have hsame : (ts.take ps.length).map (RangeCopy.rename table) = ts.take ps.length := by
    refine (map_congr_left fun t ht => ?_).trans (map_id _)
    rw [RangeCopy.rename, htable t.id (hts t ht)]
    rfl
  rw [shift_take, ← map_take, hsame, ← shift_take]

/-- The part of a loop before its tail: whole steps, and no way back. -/
theorem journey_shortened (he : e.Whole l) (hvector : l.workAmount ≥ l.increment) (optimize : Bool)
    (J : Journey) :
    ((l.shortened (l.workAmount % l.increment)).optimized optimize true).journey e.inputs J =
      (J * .move (scaled (l.rates e.inputs) l.increment)) ^ (l.workAmount / l.increment).trips := by
  let front := l.shortened (l.workAmount % l.increment)
  have htwin : front.Twin (front.optimized optimize true) := by
    cases optimize with
    | false => exact .inl rfl
    | true => exact LoopParams.twin_shortened he hvector
  have hreset : front.resetShift e.inputs = 0 := by
    have hzero : (fun _ : Amount => (0 : Amount)) = (· * 0) := by
      funext a
      exact Int64.mul_zero.symm
    funext T
    show shift T e.inputs (l.finalOffsets.map fun _ => 0) = 0
    rw [hzero, shift_map_mul, Int64.mul_zero]
  have hunsplit : front.once = false := he.unsplit
  have hcount : front.bodyCount = (l.workAmount / l.increment).trips := by
    have hstep : 0 < front.increment := he.step
    rw [LoopParams.bodyCount, hunsplit, if_neg Bool.false_ne_true, if_pos hstep]
    exact congrArg Amount.trips (Amount.sub_mod_div he.work he.step)
  change (front.optimized optimize true).journey e.inputs J = _
  rw [htwin.journey_eq, LoopParams.journey, hunsplit, if_neg Bool.false_ne_true, hreset, hcount, Journey.move_zero,
    mul_one, LoopParams.stepShift_eq]
  rfl

/-- The tail of a loop: the rest of the work at once, and all the way back. -/
theorem journey_tail (he : e.Whole l) (hreturns : l.Returns) (hrest : l.workAmount % l.increment ≠ 0)
    (optimize force : Bool) {operands : List Tensor}
    (hoperands : ∀ T, ∀ ps : List Amount, ps.length = l.ptrIncrements.length →
      shift T operands ps = shift T e.inputs ps)
    (G : Journey) :
    ∃ d, ((l.tail (l.workAmount % l.increment)).optimized optimize force).journey operands G =
        G * .move (scaled (l.rates e.inputs) (l.workAmount % l.increment)) *
          .move (scaled (l.rates e.inputs) (-l.workAmount)) * .move d ∧
      (l.Steady optimize → d = 0) := by
  set rest := l.workAmount % l.increment
  have hlast : l.last = l.tail rest := by rw [LoopParams.last, if_neg hrest]
  obtain ⟨d, heq, hsteady⟩ := LoopParams.journey_last he (Amount.ne_zero_of_mod hrest) optimize force operands G
  rw [hlast] at heq
  have hcount : (l.tail rest).bodyCount = 1 := LoopParams.bodyCount_tail (Amount.mod_pos he.work he.step hrest).1 l
  have hreset : (l.tail rest).resetShift operands = scaled (l.rates e.inputs) (-l.workAmount) := by
    rw [← hreturns.resetShift]
    funext T
    exact hoperands T _ (by rw [LoopParams.tail, hreturns, length_map])
  have hmove : (l.tail rest).stepShift operands = scaled (l.rates e.inputs) rest := by
    rw [LoopParams.stepShift_eq]
    funext T
    exact congrArg (· * rest) (hoperands T l.ptrIncrements rfl)
  have hjourney : (l.tail rest).journey operands G =
      G * .move (scaled (l.rates e.inputs) rest) * .move (scaled (l.rates e.inputs) (-l.workAmount)) := by
    rw [LoopParams.journey, hreset, hmove, hcount, pow_one]
    rfl
  exact ⟨d, hjourney ▸ heq, hsteady⟩

/-- The copy of a body that the tail of a loop runs: what is made inside and not read outside has
    new names, and every expression handles `size` elements. -/
def Copied (blocks : Bool) (m : Kernel) (size : Amount) (out : List TensorId) (made : List Tensor)
    (n : TensorId) (body copy : Code) :
    Prop :=
  ∃ table n', FreshTable table n n' ∧ Leaves table out made ∧
    (∀ i u, table.lookup i = some u → ∃ t ∈ made, t.id = i ∧ u.toTensorType = t.toTensorType) ∧
    copy = ((body.map (Expr.rename table)).shrunk blocks m.config.fillTails size n').1

/-- What a loop becomes when its tail is split off, and the copy of the body that the tail runs. -/
inductive Splits (blocks : Bool) (m : Kernel) (b e : Expr) (l : LoopParams) (body : Code)
    (out : List TensorId) (n : TensorId) :
    Code → Code → Prop
  | idle (work : l.workAmount = 0) : Splits blocks m b e l body out n (loop b e body done) done
  | even (work : l.workAmount ≠ 0) (even : l.workAmount % l.increment = 0) (force : Bool) :
      Splits blocks m b e l body out n (loop b (e.withParams (l.optimized m.config.evaluateOnce force)) body done) done
  | both {table : List (TensorId × Tensor)} {copy : Code} (odd : l.workAmount % l.increment ≠ 0)
      (vector : l.workAmount ≥ l.increment) (leaves : Leaves table out (loop b e body done).outputs)
      (copied : Copied blocks m (l.workAmount % l.increment) out
      (loop b e body done).outputs n body copy) (force : Bool) :
      Splits blocks m b e l body out n
        (loop b (e.withParams ((l.shortened (l.workAmount % l.increment)).optimized m.config.evaluateOnce true)) body
          (loop (b.rename table) ((e.rename table).withParams
            ((l.tail (l.workAmount % l.increment)).optimized m.config.evaluateOnce force)) copy done)) copy
  | tail {copy : Code} (odd : l.workAmount % l.increment ≠ 0) (short : ¬l.workAmount ≥ l.increment)
      (copied : Copied blocks m (l.workAmount % l.increment) out
      (loop b e body done).outputs n body copy) (force : Bool) :
      Splits blocks m b e l body out n
        (loop b (e.withParams ((l.tail (l.workAmount % l.increment)).optimized m.config.evaluateOnce force)) copy done)
        copy

/-- The four ways in which a loop is split. -/
theorem exists_splits (he : e.loop = some l) (hs : l.isStatic = true) (blocks : Bool) (m : Kernel)
    (b : Expr) (body : Code) (out : List TensorId)
    (n : TensorId) : ∃ copy, Splits blocks m b e l body out n (cutLoop blocks m b e body out n).1 copy := by
  rw [cutLoop_of_static he hs]
  by_cases hzero : l.workAmount = 0
  · rw [if_pos hzero]
    exact ⟨done, .idle hzero⟩
  rw [if_neg hzero]
  by_cases hrest : l.workAmount % l.increment = 0
  · rw [if_pos hrest]
    exact ⟨done, .even hzero hrest _⟩
  rw [if_neg hrest]
  by_cases hvector : l.workAmount ≥ l.increment
  · rw [if_pos hvector]
    let size := l.workAmount % l.increment
    let e1 := e.withParams ((l.shortened size).optimized m.config.evaluateOnce true)
    have hmade : (loop b e1 body done).outputs = (loop b e body done).outputs := by
      simp only [outputs, flatten, flatMap_cons, flatMap_append, flatMap_nil]
      rfl
    let names := freshNames ((loop b e1 body done).outputs.filter fun t => !out.contains t.id) [] n
    have hleaves : Leaves names.1 out (loop b e body done).outputs := hmade ▸ leaves_freshNames _ out n
    refine ⟨_, .both hrest hvector hleaves ⟨names.1, names.2, (freshNames_spec _ (.nil n)).1, hleaves, ?_, rfl⟩ _⟩
    intro i u hu
    rcases type_freshNames _ hu with hnone | ⟨t, ht, hid, htype⟩
    · cases hnone
    · exact ⟨t, hmade ▸ (mem_filter.1 ht).1, hid, htype⟩
  · rw [if_neg hvector]
    refine ⟨_, .tail hrest hvector ⟨[], n, .nil n, fun _ _ => rfl, by simp, ?_⟩ _⟩
    rw [map_rename_nil]

theorem Splits.copied (h : Splits blocks m b e l body out n c copy)
    (hrest : l.workAmount % l.increment ≠ 0) :
    Copied blocks m (l.workAmount % l.increment) out (loop b e body done).outputs n body copy := by
  cases h with
  | idle work =>
    rw [work] at hrest
    exact absurd (Int64.zero_mod) hrest
  | even work even => exact absurd even hrest
  | both _ _ _ copied => exact copied
  | tail _ _ copied => exact copied

/-- The journey of a split loop, given that of the copy in its tail. -/
theorem Splits.journey (h : Splits blocks m b e l body out n c copy) (he : e.Whole l)
    (hreturns : l.Returns)
    (hoperands : l.workAmount % l.increment ≠ 0 → ∀ t ∈ e.inputs.take l.ptrIncrements.length,
      t.id ∈ out ∨ ∀ u ∈ (loop b e body done).outputs, u.id ≠ t.id) :
    ∃ d, c.journey = l.sweepJourney (l.rates e.inputs) body.journey copy.journey * .move d ∧
      (l.Steady m.config.evaluateOnce → d = 0) := by
  have hcounts := LoopParams.journey_eq he.unsplit he.step hreturns e.inputs body.journey
  have hsweep : l.workAmount % l.increment = 0 → ∀ J,
      l.sweepJourney (l.rates e.inputs) body.journey J = l.journey e.inputs body.journey := by
    intro hrest J
    rw [LoopParams.sweepJourney, if_pos hrest, mul_one, ← hcounts]
  cases h with
  | idle work =>
    refine ⟨0, ?_, fun _ => rfl⟩
    rw [hsweep (by rw [work]; exact Int64.zero_mod), Code.journey, he.closes.params, Journey.move_zero]
    rfl
  | even work even force =>
    have hlast : l.last = l := by rw [LoopParams.last, if_pos even]
    obtain ⟨d, heq, hsteady⟩ := LoopParams.journey_last he work m.config.evaluateOnce force e.inputs body.journey
    rw [hlast] at heq
    exact ⟨d, (journey_loop rfl b body).trans (hsweep even _ ▸ heq), hsteady⟩
  | @both table copy odd vector leaves copied force =>
    obtain ⟨d, htail, hsteady⟩ := journey_tail he hreturns odd m.config.evaluateOnce force
      (fun T ps hps => shift_rename_of_leaves leaves ps (by rw [hps]; exact hoperands odd) T) copy.journey
    refine ⟨d, ?_, hsteady⟩
    have hjourney : ∀ l1 l2 : LoopParams, (loop b (e.withParams l1) body
        (loop (b.rename table) ((e.rename table).withParams l2) copy done)).journey =
        l1.journey e.inputs body.journey * l2.journey (e.inputs.map (RangeCopy.rename table)) copy.journey :=
      fun l1 l2 => congrArg (_ * ·) (mul_one _)
    rw [hjourney, htail, journey_shortened he vector, LoopParams.sweepJourney, if_neg odd]
    simp only [mul_assoc]
  | @tail copy odd short copied force =>
    have hzeroTrips := Amount.trips_div_of_lt he.work (Int64.not_le.1 short)
    obtain ⟨d, htail, hsteady⟩ := journey_tail he hreturns odd m.config.evaluateOnce force (fun _ _ _ => rfl)
      copy.journey
    refine ⟨d, ?_, hsteady⟩
    rw [Code.journey, LoopParams.sweepJourney, if_neg odd, hzeroTrips, pow_zero, one_mul, ← htail]
    exact mul_one _

/-- What a split loop does to one tensor, given what its body does and what becomes of it in the
    tail. -/
theorem trail_cutLoop (he : e.Whole l) (hreturns : l.Returns) (blocks : Bool) (m : Kernel)
    (b : Expr) (body : Code)
    (out : List TensorId) (n T : TensorId) (hoperands : l.workAmount % l.increment ≠ 0 →
      ∀ t ∈ e.inputs.take l.ptrIncrements.length, t.id ∈ out ∨ ∀ u ∈ (loop b e body done).outputs, u.id ≠ t.id) :
    let split := (cutLoop blocks m b e body out n).1.trail T
    ∃ copy, (l.workAmount % l.increment ≠ 0 →
        Copied blocks m (l.workAmount % l.increment) out (loop b e body done).outputs n body copy) ∧
      let whole := l.sweep (l.rate T e.inputs) (body.trail T) (copy.trail T)
      split.spans = whole.spans ∧ (l.Steady m.config.evaluateOnce → split.net = whole.net) := by
  obtain ⟨copy, hsplits⟩ := exists_splits he.closes.params he.closes.static blocks m b body out n
  obtain ⟨d, hjourney, hsteady⟩ := hsplits.journey he hreturns hoperands
  refine ⟨copy, hsplits.copied, ?_⟩
  have htrail := congrArg (Journey.trail T) hjourney
  rw [trail_journey, map_mul, LoopParams.trail_sweepJourney, trail_journey, trail_journey, Journey.trail_move] at htrail
  rw [htrail]
  refine ⟨append_nil _, fun hcond => ?_⟩
  rw [hsteady hcond]
  exact Int64.add_zero _

end SplitLoop

end Code

end KernelLoops
