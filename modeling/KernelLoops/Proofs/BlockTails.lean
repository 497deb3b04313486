import KernelLoops.Proofs.SweepingNests

set_option autoImplicit false

/-! # Tails of blocks

A loop that is cut into blocks goes from block to block, and a loop inside it goes over the block in
steps. Where the blocks leave a rest, the loop inside is scaled down to it in the tail: it goes over
as many elements as are left, and each of its steps accesses all of them. So the tail sweeps the
rest if one step is enough, and else accesses some elements again. -/

namespace KernelLoops

open List

variable {e : Expr} {l : LoopParams} {block inc size : Amount} {out : List TensorId} {n : Nat}
  {T : TensorId}
  {f : Trail}

/-! ## How many elements are accessed -/

namespace Trail

theorem length_elements_mul (f g : Trail) :
    (f * g).elements.length = f.elements.length + g.elements.length := by
  rw [elements_mul, length_append, length_map]

theorem elements_mul_move (f : Trail) (d : Amount) : (f * move d).elements = f.elements := by
  rw [elements_mul]
  exact append_nil _

theorem length_elements_mul_move (f : Trail) (d : Amount) :
    (f * move d).elements.length = f.elements.length :=
  length_elements_mul f (move d)

theorem length_elements_pow (f : Trail) (n : Nat) :
    (f ^ n).elements.length = n * f.elements.length := by
  induction n with
  | zero => rw [pow_zero, Nat.zero_mul]; rfl
  | succ n ih => rw [pow_succ, length_elements_mul, ih, Nat.succ_mul]

theorem Sweeps.length (h : f.Sweeps n) : f.elements.length = n := by
  rw [h, length_map, length_range]

end Trail

namespace LoopParams

/-- A loop accesses what its body does, once for each run of the body. -/
theorem length_trail (l : LoopParams) (T : TensorId) (operands : List Tensor) (f : Trail) :
    (l.trail T operands f).elements.length = l.bodyCount * f.elements.length := by
  rw [trail, Trail.length_elements_mul_move]
  split
  · next honce => rw [bodyCount, if_pos honce, Nat.one_mul]
  · rw [Trail.length_elements_pow, Trail.length_elements_mul_move]

theorem length_sweep (l : LoopParams) (p : Amount) (f g : Trail) :
    (l.sweep p f g).elements.length = (l.workAmount / l.increment).trips * f.elements.length +
      if l.workAmount % l.increment = 0 then 0 else g.elements.length := by
  rw [sweep, Trail.length_elements_mul_move, Trail.length_elements_mul, Trail.length_elements_pow,
    Trail.length_elements_mul_move]
  congr 1
  split
  · rfl
  · exact Trail.length_elements_mul_move _ _

end LoopParams

/-! ## Scaled loops -/

/-- A scaled loop runs. -/
theorem LoopParams.bodyCount_scaledTo_pos (hstep : 0 < l.increment) (hsize : 0 < size) :
    0 < (l.scaledTo size).bodyCount := by
  have hmin := Amount.min_pos hstep hsize
  have hmin' : 0 < (min l.increment size).toInt := Amount.lt_iff.1 hmin
  have hsize' : 0 < size.toInt := Amount.lt_iff.1 hsize
  have hle : (min l.increment size).toInt ≤ size.toInt := by rw [Amount.toInt_min]; omega
  rw [bodyCount]
  split
  · exact Nat.one_pos
  · show 0 < if 0 < min l.increment size then (size / min l.increment size).trips else 0
    rw [if_pos hmin, Amount.trips, Amount.toInt_div_of_nonneg hsize'.le]
    have hone : 1 ≤ size.toInt / (min l.increment size).toInt := (Int.le_ediv_iff_mul_le hmin').2 (by omega)
    omega

namespace Trail

/-- What a loop over `size` elements in steps of `step` elements, and no more than all of them, does
    to a tensor when each step accesses `count` elements. -/
def strides (size step count : Amount) : Trail :=
  (⟨[(0, count)], 0⟩ * .move (min step size)) ^ (size / min step size).trips * .move (-size)

variable {step count : Amount}

theorem sweeps_span (count d : Amount) : (⟨[(0, count)], d⟩ : Trail).Sweeps count.trips := by
  rw [Sweeps, elements, flatMap_singleton]
  exact map_congr_left fun i _ => Int64.zero_add _

/-- One step is all. -/
theorem strides_of_lt_double (hsize : 0 < size) (hstep : 0 < step)
    (hless : size.toInt < 2 * step.toInt) (count : Amount) :
    strides size step count = ⟨[(0, count)], min step size - size⟩ := by
  have hsize' : 0 < size.toInt := Amount.lt_iff.1 hsize
  have hstep' : 0 < step.toInt := Amount.lt_iff.1 hstep
  have hquot : (size / min step size).trips = 1 := by
    have hmin : 0 < (min step size).toInt := Amount.lt_iff.1 (Amount.min_pos hstep hsize)
    have hone : 1 ≤ size.toInt / (min step size).toInt :=
      (Int.le_ediv_iff_mul_le hmin).2 (by rw [Amount.toInt_min]; omega)
    have htwo : size.toInt / (min step size).toInt < 2 :=
      (Int.ediv_lt_iff_lt_mul hmin).2 (by rw [Amount.toInt_min]; omega)
    rw [Amount.trips, Amount.toInt_div_of_nonneg hsize'.le]
    omega
  rw [strides, hquot, pow_one, mul_assoc, move_mul_move, Trail.ext_iff]
  refine ⟨rfl, ?_⟩
  show (0 : Amount) + (min step size + -size) = min step size - size
  grind

/-- Single elements, one after the other. -/
theorem strides_one (hsize : 0 < size) :
    (strides size 1 1).Sweeps size.trips ∧ (strides size 1 1).net = 0 := by
  have hsize' : 0 < size.toInt := Amount.lt_iff.1 hsize
  have hmin : min 1 size = 1 := Amount.min_of_le (Amount.le_iff.2 hsize')
  have hnet : ((⟨[(0, 1)], 0⟩ : Trail) * move 1).net = Int64.ofNat 1 := rfl
  obtain ⟨hsweeps, hmoved⟩ := ((sweeps_span 1 0).mul_move 1).pow hnet size.trips
  rw [show Amount.trips 1 = 1 from rfl, Nat.mul_one] at hsweeps hmoved
  rw [strides, hmin, Int64.div_one]
  refine ⟨hsweeps.mul_move (-size), ?_⟩
  · rw [mul_net, hmoved, Amount.ofNat_trips (Int64.le_of_lt hsize), move_net]
    exact Int64.add_right_neg size

/-- Steps of single elements, or one step for all: each element is accessed once. -/
theorem strides_swept (hsize : 0 < size) (hstep : 0 < step) (hfew : step = 1 ∨ size ≤ step) :
    (strides size step (if 1 < step then size else step)).Sweeps size.trips ∧
      (strides size step (if 1 < step then size else step)).net = 0 := by
  have hstep' : 0 < step.toInt := Amount.lt_iff.1 hstep
  by_cases hone : step = 1
  · rw [hone, if_neg Int64.lt_irrefl]
    exact strides_one hsize
  · have hle : size.toInt ≤ step.toInt := Amount.le_iff.1 (hfew.resolve_left hone)
    have hmany := Amount.one_lt hstep hone
    have hmin : min step size = size := by
      refine Amount.eq_iff.2 ?_
      rw [Amount.toInt_min]
      omega
    rw [if_pos hmany, strides_of_lt_double hsize hstep (by omega), hmin]
    exact ⟨sweeps_span size _, Int64.sub_self size⟩

/-- More than one step, and less than two: each element is accessed once, and the way back is too
    long. -/
theorem strides_drifts (hsize : 0 < size) (hstep : 0 < step) (hmore : step < size)
    (hless : size.toInt < 2 * step.toInt) :
    (strides size step (if 1 < step then size else step)).Sweeps size.trips ∧
      (strides size step (if 1 < step then size else step)).net = step - size := by
  have hmore' : step.toInt < size.toInt := Amount.lt_iff.1 hmore
  have hmany : 1 < step := Amount.lt_iff.2 (show (1 : Int) < step.toInt by omega)
  rw [if_pos hmany, strides_of_lt_double hsize hstep hless, Amount.min_of_le (Int64.le_of_lt hmore)]
  exact ⟨sweeps_span size _, rfl⟩

/-- With two steps or more, elements are accessed again. -/
theorem lt_length_strides (hsize : 0 < size) (hstep : 0 < step)
    (hmore : 2 * step.toInt ≤ size.toInt) :
    size.trips < (strides size step size).elements.length := by
  have hsize' : 0 < size.toInt := Amount.lt_iff.1 hsize
  have hstep' : 0 < step.toInt := Amount.lt_iff.1 hstep
  have hmin : min step size = step := Amount.min_of_le (Amount.le_iff.2 (by omega))
  have hquot : 2 ≤ (size / step).trips := by
    have htwo : 2 ≤ size.toInt / step.toInt := (Int.le_ediv_iff_mul_le hstep').2 hmore
    rw [Amount.trips, Amount.toInt_div_of_nonneg hsize'.le]
    omega
  rw [strides, hmin, length_elements_mul_move, length_elements_pow, length_elements_mul_move,
    (sweeps_span size 0).length]
  have hpos := Amount.trips_pos hsize
  calc size.trips < 2 * size.trips := by omega
    _ ≤ (size / step).trips * size.trips := Nat.mul_le_mul_right _ hquot

end Trail

namespace Expr.StepsBoth

variable {src dst : Tensor}

/-- A loop over single elements goes back by all its work. -/
theorem finalOffsets_eq (h : e.StepsBoth l src dst 1) :
    l.finalOffsets = [-l.workAmount, -l.workAmount] := by
  have hreturns := h.returns
  rw [LoopParams.Returns, h.steps] at hreturns
  rw [hreturns, map_cons, map_singleton, show Int64.ofNat 1 = 1 from rfl, Int64.neg_mul, Int64.one_mul]

/-- A loop over whole steps that is evaluated once has one step. -/
theorem work_eq_of_runsOnce (h : e.StepsBoth l src dst 1) (hwork : l.workAmount ≠ 0)
    (hdiv : l.workAmount % l.increment = 0)
    (honce : l.runsOnce true = true) : l.workAmount = l.increment := by
  have hsingle := LoopParams.single_of_runsOnce hwork hdiv h.whole.work h.whole.step honce
  have hcount := hsingle.body
  rw [LoopParams.bodyCount, hsingle.counts, if_neg Bool.false_ne_true, if_pos h.whole.step] at hcount
  have htrips := Amount.trips_eq h.whole.work h.whole.step
  rw [hcount, hdiv, Nat.one_mul] at htrips
  calc l.workAmount = Int64.ofNat l.workAmount.trips := (Amount.ofNat_trips h.whole.work).symm
    _ = Int64.ofNat l.increment.trips := congrArg Int64.ofNat htrips
    _ = l.increment := Amount.ofNat_trips (Int64.le_of_lt h.whole.step)

/-- The loop over a block of whole steps, scaled down: it takes steps, or was evaluated once and
    takes one step. -/
theorem trail_scaledTo (h : e.StepsBoth l src dst 1) (hapart : src.id ≠ dst.id)
    (houter : l.hasOuterLoop = true)
    (hdiv : l.workAmount % l.increment = 0) (hsize : 0 < size) (hless : size < l.workAmount) (optimize force : Bool)
    {operands : List Tensor} (hoperands : operands.take 2 = [src, dst]) (hT : T = src.id ∨ T = dst.id)
    (count : Amount) :
    ((l.optimized optimize force).scaledTo size).trail T operands ⟨[(0, count)], 0⟩ =
    .strides size l.increment count := by
  have hpos : 0 < l.workAmount := Int64.lt_trans hsize hless
  have hwork : l.workAmount ≠ 0 := fun hzero => Int64.lt_irrefl (hzero ▸ hpos)
  have hshift : ∀ d : Amount, shift T operands [d, d] = d :=
    fun d => (shift_pair hapart hoperands d T).trans (if_pos hT)
  by_cases honce : l.runsOnce optimize
  · have honce' : l.runsOnce true = true := by
      cases optimize with
      | false => cases honce
      | true => exact honce
    have hone := h.work_eq_of_runsOnce hwork hdiv honce'
    have hless' : size.toInt < 2 * l.increment.toInt := by
      have h1 : size.toInt < l.increment.toInt := Amount.lt_iff.1 (hone ▸ hless)
      have h2 : 0 < l.increment.toInt := Amount.lt_iff.1 h.whole.step
      omega
    rw [Trail.strides_of_lt_double hsize h.whole.step hless', Amount.min_of_lt (hone ▸ hless),
      LoopParams.optimized, if_pos honce,
      LoopParams.trail]
    have hreset : LoopParams.resetOf (LoopParams.scaledTo size { l with
        finalOffsets := LoopParams.absorbSteps l.increment l.finalOffsets l.ptrIncrements, once :=
          true }) T operands = 0 := by
      have hzero : -l.workAmount + Int64.ofNat 1 * l.increment = 0 := by
        rw [← hone, show Int64.ofNat 1 = 1 from rfl, Int64.one_mul]
        exact Int64.add_left_neg _
      rw [LoopParams.resetOf, LoopParams.scaledTo, if_neg hwork, h.finalOffsets_eq, h.steps]
      show shift T operands [(-l.workAmount + Int64.ofNat 1 * l.increment) / l.workAmount * size,
        (-l.workAmount + Int64.ofNat 1 * l.increment) / l.workAmount * size] = 0
      rw [hshift, hzero, Int64.zero_div, Int64.zero_mul]
    simp only [houter, Bool.true_or, if_true] at hreset ⊢
    rw [hreset, Trail.move_zero, mul_one, Int64.sub_self]
    rfl
  · have hreturns : (l.scaledTo size).Returns := by
      rw [LoopParams.Returns, LoopParams.scaledTo, if_neg hwork, h.finalOffsets_eq, h.steps, map_cons, map_singleton,
        map_cons, map_singleton, Amount.neg_div_self hpos]
      rfl
    have hrate : (l.scaledTo size).rate T operands = 1 := by
      rw [LoopParams.rate, LoopParams.scaledTo, h.steps]
      exact hshift 1
    have hcounts : (l.scaledTo size).once = false := h.whole.unsplit
    have hstep : 0 < (l.scaledTo size).increment := Amount.min_pos h.whole.step hsize
    rw [LoopParams.optimized, if_neg honce, LoopParams.trail_eq hcounts hstep hreturns, hrate,
      Int64.one_mul, Int64.neg_mul,
      Int64.one_mul]
    rfl

end Expr.StepsBoth

/-! ## The loop over a block in the tail -/

namespace Code

variable {src dst : Tensor} {count : Amount} {xs : List Expr} {table : List (TensorId × Tensor)}

theorem scaledTo_ofOps (fillTails : Bool) (size : Amount) (xs : List Expr) (n : TensorId) :
    (ofOps xs done).scaledTo fillTails size n = (ofOps xs done, n) := by
  induction xs with
  | nil => rfl
  | cons x xs ih => exact congrArg (fun c : Code × TensorId => (op x c.1, c.2)) ih

/-- A scaled loop around expressions that pass over both tensors. -/
theorem trail_scaledTo_loop (h : Passes src dst count xs) (hapart : src.id ≠ dst.id)
    (hsrc : table.lookup src.id = none) (hdst : table.lookup dst.id = none) (fillTails : Bool) (size : Amount)
    (b : Expr) (hl : e.loop = some l) (rest : Code) (n T : TensorId) :
    ∃ n', (((loop b e (ofOps xs done) rest).map (Expr.rename table)).scaledTo fillTails size n).1.trail T =
      (l.scaledTo size).trail T (e.inputs.map (RangeCopy.rename table))
        (Streams.pass src dst (if 1 < count then size else count) T) *
      ((rest.map (Expr.rename table)).scaledTo fillTails size n').1.trail T := by
  have hmap : (ofOps xs done).map (Expr.rename table) = ofOps (xs.map (Expr.rename table)) done := map_ofOps _ xs _
  obtain ⟨xs', n', heq, hxs'⟩ := (h.rename hsrc hdst).narrowed fillTails size n
  refine ⟨n', ?_⟩
  have hloop : ((e.rename table).scaledTo size).loop = some (l.scaledTo size) := congrArg (Option.map _) hl
  rw [map, hmap, scaledTo_loop, scaledTo_ofOps]
  simp only [heq]
  rw [trail, hloop, hxs'.trail_ofOps hapart]
  rfl

/-- A split loop over a block that leaves a rest: the steps, then the rest, both around expressions
    that pass over both tensors. -/
theorem exists_withTail (h : Passes src dst inc xs) (m : Kernel) (b e : Expr) (l : LoopParams)
    (size : Amount)
    (hsrc : src.id ∈ out) (hdst : dst.id ∈ out) (n : TensorId) :
    ∃ b' e' xs', (withTail false m b e l (ofOps xs done) size out n).1 =
        loop b (e.withParams ((l.shortened size).optimized m.config.evaluateOnce true)) (ofOps xs done)
          (loop b' e' (ofOps xs' done) done) ∧
      e'.loop = some ((l.tail size).optimized m.config.evaluateOnce (m.touches e l)) ∧
      Passes src dst (if 1 < inc then size else inc) xs' := by
  let e1 := e.withParams ((l.shortened size).optimized m.config.evaluateOnce true)
  let names := freshNames ((loop b e1 (ofOps xs done) done).outputs.filter fun t => !out.contains t.id) [] n
  let e2 := (e.rename names.1).withParams ((l.tail size).optimized m.config.evaluateOnce (m.touches e l))
  have hleaves := leaves_freshNames (loop b e1 (ofOps xs done) done).outputs out n
  obtain ⟨xs', n', heq, hxs'⟩ :=
    (h.rename (hleaves src.id (.inl hsrc)) (hleaves dst.id (.inl hdst))).narrowed m.config.fillTails size names.2
  refine ⟨b.rename names.1, e2, xs', ?_, rfl, hxs'⟩
  have hmap : (ofOps xs done).map (Expr.rename names.1) = ofOps (xs.map (Expr.rename names.1)) done := map_ofOps _ xs _
  have hbody : ((ofOps xs done).map (Expr.rename names.1)).shrunk false m.config.fillTails size
      names.2 = (ofOps xs' done, n') := by
    rw [hmap]
    exact heq
  exact congrArg (fun c : Code × TensorId => loop b e1 (ofOps xs done) (loop (b.rename names.1) e2 c.1 done)) hbody

/-- The loop over a block in a tail of `size` elements, split before: it takes steps that all access
    `size` elements, or, where the steps leave a rest of the block, accesses some elements again. -/
theorem trail_shrunk_splitLoop (hxs : Streams src dst inc xs) (h : e.StepsBoth l src dst 1)
    (hinc : l.increment = inc)
    (houter : l.hasOuterLoop = true) (hfull : inc ≤ l.workAmount) (m : Kernel) (b : Expr)
    (hout : src.id ∈ out ∧ dst.id ∈ out) (n : TensorId) (hsrc : table.lookup src.id = none)
    (hdst : table.lookup dst.id = none) (hsize : 0 < size) (hless : size < l.workAmount) (n' : TensorId)
    (hT : T = src.id ∨ T = dst.id) :
    let tail := (((splitLoop m b e (ofOps xs done) out n).1.map (Expr.rename table)).shrunk true
      m.config.fillTails size n').1.trail T
    (l.workAmount % inc = 0 → tail = .strides size inc (if 1 < inc then size else inc)) ∧
      (l.workAmount % inc ≠ 0 → size.trips < tail.elements.length) := by
  have hwork : l.workAmount ≠ 0 := fun hzero => Int64.lt_irrefl (Int64.lt_trans hsize (hzero ▸ hless))
  have hpass : ∀ c : Amount, Streams.pass src dst c T = ⟨[(0, c)], 0⟩ := fun c => if_pos hT
  have hspan : ∀ c : Amount, (Streams.pass src dst c T).elements.length = c.trips := fun c =>
    (Streams.sweeps_pass src dst c hT).length
  simp only [Code.splitLoop, cutLoop_of_static h.whole.closes.params h.whole.closes.static, if_neg hwork, hinc]
  refine ⟨fun hdiv => ?_, fun hrest => ?_⟩
  · rw [if_pos hdiv]
    have hoperands : (e.inputs.map (RangeCopy.rename table)).take 2 = [src, dst] := by
      rw [← map_take, h.operands, map_cons, map_singleton, RangeCopy.rename, RangeCopy.rename, hsrc, hdst]
      rfl
    obtain ⟨n1, htrail⟩ := trail_scaledTo_loop hxs.shape hxs.apart hsrc hdst m.config.fillTails size b
      (e := e.withParams (l.optimized m.config.evaluateOnce (m.touches e l))) rfl done n' T
    refine htrail.trans ((mul_one _).trans ?_)
    rw [hpass, ← hinc]
    exact h.trail_scaledTo hxs.apart houter (hinc ▸ hdiv) hsize hless _ _ hoperands hT _
  · have hstep : 0 < inc := hinc ▸ h.whole.step
    have hmany := Amount.one_lt_of_mod hstep hrest
    have hless' := (Amount.mod_pos h.whole.work hstep hrest).1
    rw [if_neg hrest, if_pos hfull]
    obtain ⟨b', e', xs', heq, he', hxs'⟩ := exists_withTail hxs.shape m b e l (l.workAmount % inc) hout.1 hout.2 n
    rw [if_pos hmany] at hxs'
    obtain ⟨n1, htrail⟩ := trail_scaledTo_loop hxs.shape hxs.apart hsrc hdst m.config.fillTails size b
      (e := e.withParams ((l.shortened (l.workAmount % inc)).optimized m.config.evaluateOnce true)) rfl
      (loop b' e' (ofOps xs' done) done) n' T
    obtain ⟨n2, htrail'⟩ := trail_scaledTo_loop hxs' hxs.apart hsrc hdst m.config.fillTails size b' he' done n1 T
    have hlength := congrArg (fun f : Trail => f.elements.length)
      (htrail.trans (congrArg (_ * ·) (htrail'.trans (mul_one _))))
    simp only [Trail.length_elements_mul, LoopParams.length_trail, hspan, if_pos hmany] at hlength
    rw [heq]
    refine lt_of_lt_of_eq ?_ hlength.symm
    have hfirst : 0 < (((l.shortened (l.workAmount % inc)).optimized m.config.evaluateOnce
      true).scaledTo size).bodyCount :=
      LoopParams.bodyCount_scaledTo_pos (by rw [LoopParams.increment_optimized]; exact h.whole.step) hsize
    have hsecond : 0 < (((l.tail (l.workAmount % inc)).optimized m.config.evaluateOnce
      (m.touches e l)).scaledTo size).bodyCount :=
      LoopParams.bodyCount_scaledTo_pos (by rw [LoopParams.increment_optimized]; exact hless') hsize
    have hcount : 0 < (if 1 < l.workAmount % inc then size else l.workAmount % inc).trips := by
      split
      · exact Amount.trips_pos hsize
      · exact Amount.trips_pos hless'
    have h1 := Nat.le_mul_of_pos_left size.trips hfirst
    have h2 := Nat.mul_pos hsecond hcount
    omega

end Code

/-! ## A row of blocks -/

/-- What a row of `columns` elements in blocks of `block` elements does to a tensor, where the loop
    over a block goes in steps of `inc` elements. Where a rest is left, all depends on it: it is
    swept if it fits in a step of a block of whole steps, or if the steps are single elements; it is
    swept, and the tensor is not brought back, if it is less than two steps; and else some of its
    elements are accessed again. -/
structure RowOfBlocks (columns block inc : Amount) (row : Trail) : Prop where
  whole : columns % block = 0 → row.Sweeps columns.trips ∧ row.net = 0
  swept : columns % block ≠ 0 → block % inc = 0 → inc = 1 ∨ columns % block ≤ inc →
    row.Sweeps columns.trips ∧ row.net = 0
  drifts : columns % block ≠ 0 → block % inc = 0 → inc < columns % block → (columns % block).toInt < 2 * inc.toInt →
    row.Sweeps columns.trips ∧ row.net = inc - columns % block
  repeats : columns % block ≠ 0 → block % inc ≠ 0 ∨ inc ≠ 1 ∧ 2 * inc.toInt ≤ (columns % block).toInt →
    columns.trips < row.elements.length

/-- A loop over blocks, from what becomes of the loop over a block in its tail. -/
theorem RowOfBlocks.sweep {g : Trail} (hwork : 0 ≤ l.workAmount) (hblock : l.increment = block)
    (hstep : 0 < block)
    (hinc : 0 < inc) (hf : f.Sweeps block.trips) (hnet : f.net = 0)
    (hsteps : l.workAmount % block ≠ 0 → block % inc = 0 →
      g = .strides (l.workAmount % block) inc (if 1 < inc then l.workAmount % block else inc))
    (hmore : l.workAmount % block ≠ 0 → block % inc ≠ 0 → (l.workAmount % block).trips < g.elements.length) :
    RowOfBlocks l.workAmount block inc (l.sweep 1 f g) := by
  subst hblock
  have hpos := fun hrest => (Amount.mod_pos hwork hstep hrest).1
  -- the tail is swept, the row is, and the net move is that of the tail
  have hmoved := LoopParams.net_sweep (p := 1) (g := g) hwork hstep hnet
  have hswept : (l.workAmount % l.increment ≠ 0 → g.Sweeps (l.workAmount % l.increment).trips) →
      (l.sweep 1 f g).Sweeps l.workAmount.trips := by
    intro hg
    have hsweeps := LoopParams.sweeps_sweep (p := 1) (s := 1) (g := g) hwork hstep rfl ((Nat.one_mul _).symm ▸ hf) hnet
    rw [Nat.one_mul, Nat.one_mul] at hsweeps
    exact hsweeps hg
  have hlonger : l.workAmount % l.increment ≠ 0 → (l.workAmount % l.increment).trips < g.elements.length →
      l.workAmount.trips < (l.sweep 1 f g).elements.length := by
    intro hrest hlt
    rw [LoopParams.length_sweep, if_neg hrest, hf.length, Amount.trips_eq hwork hstep]
    omega
  exact {
    whole := fun hrest => ⟨hswept fun hne => absurd hrest hne, hmoved.trans (if_pos hrest)⟩
    swept := fun hrest hdiv hfew => by
      obtain ⟨hg, hback⟩ := Trail.strides_swept (hpos hrest) hinc hfew
      rw [← hsteps hrest hdiv] at hg hback
      exact ⟨hswept fun _ => hg, hmoved.trans ((if_neg hrest).trans hback)⟩
    drifts := fun hrest hdiv hlt hless => by
      obtain ⟨hg, hdrift⟩ := Trail.strides_drifts (hpos hrest) hinc hlt hless
      rw [← hsteps hrest hdiv] at hg hdrift
      exact ⟨hswept fun _ => hg, hmoved.trans ((if_neg hrest).trans hdrift)⟩
    repeats := fun hrest hcond => by
      refine hlonger hrest ?_
      by_cases hdiv : l.increment % inc = 0
      · obtain ⟨hne, hle⟩ := hcond.resolve_left (not_not_intro hdiv)
        rw [hsteps hrest hdiv, if_pos (Amount.one_lt hinc hne)]
        exact Trail.lt_length_strides (hpos hrest) hinc hle
      · exact hmore hrest hdiv }

namespace Code

variable {src dst : Tensor} {xs : List Expr}

/-- The loop over the blocks of a row, both loops split. -/
theorem trail_cutLoop_blocks (hxs : Streams src dst inc xs) {b b' e' : Expr} {l' : LoopParams}
    (h : e.StepsBoth l src dst 1) (h' : e'.StepsBoth l' src dst 1) (hinc : l.increment = inc)
    (hblock : l'.increment = l.workAmount) (houter : l.hasOuterLoop = true) (houter' : l'.hasOuterLoop = true)
    (hfull : inc ≤ l.workAmount) (hunmade : ∀ t, t ∈ b.outputs ∨ t ∈ e.outputs → t.id ≠ src.id) (m : Kernel)
    {out' : List TensorId} (hout : src.id ∈ out ∧ dst.id ∈ out) (hout' : src.id ∈ out' ∧ dst.id ∈ out')
    (n n' : TensorId) (hT : T = src.id ∨ T = dst.id) :
    RowOfBlocks l'.workAmount l.workAmount inc
      ((cutLoop true m b' e' (splitLoop m b e (ofOps xs done) out n).1 out' n').1.trail T) := by
  obtain ⟨hsweeps, hnet⟩ := Nest.trail_splitLoop hxs h hinc hunmade m hout.2 n T
  have hkept : ∀ t ∈ [src, dst], t.id ∈ out' := by
    intro t ht
    rcases mem_pair.1 ht with rfl | rfl
    · exact hout'.1
    · exact hout'.2
  obtain ⟨copy, hcopied, hspans, hmoves⟩ := trail_cutLoop h'.whole h'.returns true m b'
    (splitLoop m b e (ofOps xs done) out n).1 out' n' T fun _ t ht =>
      .inl (hkept t (by rwa [h'.steps, length_cons, length_singleton, h'.operands] at ht))
  have hrate : l'.rate T e'.inputs = 1 := (h'.rate hxs.apart T).trans (if_pos hT)
  rw [Trail.ext hspans (hmoves (.inr (.inl houter'))), hrate]
  have hstep : 0 < l.workAmount := hblock ▸ h'.whole.step
  rw [hblock] at hcopied
  have htail : l'.workAmount % l.workAmount ≠ 0 →
      (l.workAmount % inc = 0 → copy.trail T = .strides (l'.workAmount % l.workAmount) inc
        (if 1 < inc then l'.workAmount % l.workAmount else inc)) ∧
      (l.workAmount % inc ≠ 0 → (l'.workAmount % l.workAmount).trips < (copy.trail T).elements.length) := by
    intro hrest
    obtain ⟨hpos, hless⟩ := Amount.mod_pos h'.whole.work hstep hrest
    obtain ⟨table, n1, -, hleaves, -, rfl⟩ := hcopied hrest
    exact trail_shrunk_splitLoop hxs h hinc houter hfull m b hout n (hleaves src.id (.inl hout'.1))
      (hleaves dst.id (.inl hout'.2)) hpos hless n1 hT
  exact .sweep h'.whole.work hblock hstep (hinc ▸ h.whole.step) (hsweeps hT) (hnet (.inr (.inl houter)))
    (fun hrest => (htail hrest).1) fun hrest => (htail hrest).2

end Code

/-! ## Rows -/

/-- A trail that moves less far than it sweeps accesses some elements again the next time. -/
theorem Trail.not_nodup_pow {j q : Nat} (hf : f.Sweeps n) (hnet : f.net = Int64.ofNat j)
    (hlt : j < n) (hq : 2 ≤ q) :
    ¬(f ^ q).elements.Nodup := by
  obtain ⟨q, rfl⟩ := Nat.exists_eq_add_of_le' hq
  rw [pow_succ', pow_succ', elements_mul, nodup_append]
  rintro ⟨-, -, hapart⟩
  refine hapart (Int64.ofNat j) ?_ (Int64.ofNat j) ?_ rfl
  · rw [hf]
    exact mem_map_of_mem (mem_range.2 hlt)
  · rw [elements_mul, hf, hnet, map_append]
    refine mem_append_left _ (mem_map.2 ⟨Int64.ofNat 0, mem_map_of_mem (mem_range.2 (by omega)), ?_⟩)
    exact Int64.add_zero _

theorem nodup_range_ofNat (hn : n < 2 ^ 63) : ((range n).map Int64.ofNat).Nodup := by
  refine List.Nodup.map_on (fun i hi j hj heq => ?_) nodup_range
  have hint := congrArg Int64.toInt heq
  rw [mem_range] at hi hj
  rw [Int64.toInt_ofNat_of_lt (by omega), Int64.toInt_ofNat_of_lt (by omega)] at hint
  exact Int.ofNat.inj hint

/-- When rows of blocks access each element once: the rows are all blocks; or the blocks are all
    steps, and the steps are single elements, or one step is enough for the rest, or there is one
    row only and the rest is less than two steps. -/
theorem RowOfBlocks.perm_iff {rows columns : Amount} {row : Trail}
    (h : RowOfBlocks columns block inc row)
    (hrows : 1 ≤ rows) (hcolumns : 1 ≤ columns) (hblock : 0 < block) (hinc : 1 ≤ inc)
    (hsmall : inc < 0x4000000000000000) (hvolume : rows.trips * columns.trips < 2 ^ 63) :
    ((row * .move columns) ^ rows.trips).elements.Perm ((range (rows.trips * columns.trips)).map Int64.ofNat) ↔
      columns % block = 0 ∨ block % inc = 0 ∧
        (inc = 1 ∨ columns % block ≤ inc ∨ rows = 1 ∧ columns % block < 2 * inc) := by
  have hrows' : 1 ≤ rows.toInt := Amount.le_iff.1 hrows
  have hcolumns' : 1 ≤ columns.toInt := Amount.le_iff.1 hcolumns
  have hinc' : 1 ≤ inc.toInt := Amount.le_iff.1 hinc
  have hsmall' : inc.toInt < 0x4000000000000000 := Amount.lt_iff.1 hsmall
  have hcolumns0 : 0 ≤ columns := Amount.le_iff.2 (show (0 : Int) ≤ columns.toInt by omega)
  obtain ⟨hlower, -, hupper⟩ := Amount.toInt_mod_bounds hcolumns0 hblock
  have hdouble : columns % block < 2 * inc ↔ (columns % block).toInt < 2 * inc.toInt :=
    (Amount.lt_double_iff (Amount.le_iff.2 hlower) (Amount.lt_iff.2 hinc')).trans (and_iff_left hsmall')
  -- rows that are swept and brought back are swept together
  have hpow : row.Sweeps columns.trips ∧ row.net = 0 →
      ((row * .move columns) ^ rows.trips).Sweeps (rows.trips * columns.trips) := by
    rintro ⟨hsweeps, hnet⟩
    refine ((hsweeps.mul_move columns).pow ?_ rows.trips).1
    rw [Trail.mul_net, hnet, Trail.move_net, Int64.zero_add, Amount.ofNat_trips hcolumns0]
  constructor
  · intro hperm
    by_contra hcond
    have hrest : columns % block ≠ 0 := fun hzero => hcond (.inl hzero)
    have hlength : row.elements.length = columns.trips := by
      have heq := hperm.length_eq
      rw [Trail.length_elements_pow, Trail.length_elements_mul_move, length_map, length_range] at heq
      exact Nat.eq_of_mul_eq_mul_left (Amount.trips_pos (Amount.lt_iff.2 hrows')) heq
    have hnot : ¬columns.trips < row.elements.length := hlength ▸ Nat.lt_irrefl _
    by_cases hdiv : block % inc = 0
    · have hone : inc ≠ 1 := fun hone => hcond (.inr ⟨hdiv, .inl hone⟩)
      have hmore : inc < columns % block := Int64.not_le.1 fun hle => hcond (.inr ⟨hdiv, .inr (.inl hle)⟩)
      by_cases hless : (columns % block).toInt < 2 * inc.toInt
      · -- the second row starts before the end of the first
        have hrow : rows ≠ 1 := fun hrow => hcond (.inr ⟨hdiv, .inr (.inr ⟨hrow, hdouble.2 hless⟩)⟩)
        obtain ⟨hsweeps, hdrift⟩ := h.drifts hrest hdiv hmore hless
        have htwo : 2 ≤ rows.trips := by
          have hne : rows.toInt ≠ 1 := fun heq => hrow (Amount.eq_iff.2 heq)
          rw [Amount.trips]
          omega
        obtain ⟨j, hj, hlt⟩ : ∃ j, inc - columns % block + columns = Int64.ofNat j ∧ j < columns.trips := by
          have hmore' : inc.toInt < (columns % block).toInt := Amount.lt_iff.1 hmore
          refine ⟨(columns.toInt + inc.toInt - (columns % block).toInt).toNat, Amount.eq_iff.2 ?_, ?_⟩
          · have hfits := Amount.toInt_upper columns
            have hsub : (inc - columns % block).toInt = inc.toInt - (columns % block).toInt :=
              Amount.toInt_sub_of_fits (by omega) (by omega)
            rw [Amount.toInt_add_of_fits (by omega) (by omega), hsub, Int64.toInt_ofNat_of_lt (by omega)]
            omega
          · rw [Amount.trips]
            omega
        refine Trail.not_nodup_pow (hsweeps.mul_move columns) ?_ hlt htwo
          (hperm.nodup_iff.2 (nodup_range_ofNat hvolume))
        rw [Trail.mul_net, hdrift, Trail.move_net, hj]
      · exact hnot (h.repeats hrest (.inr ⟨hone, by omega⟩))
    · exact hnot (h.repeats hrest (.inl hdiv))
  · rintro (hrest | ⟨hdiv, hcond⟩)
    · exact .of_eq (hpow (h.whole hrest))
    by_cases hrest : columns % block = 0
    · exact .of_eq (hpow (h.whole hrest))
    by_cases hfew : inc = 1 ∨ columns % block ≤ inc
    · exact .of_eq (hpow (h.swept hrest hdiv hfew))
    · rw [not_or] at hfew
      obtain ⟨hone, hless⟩ := (hcond.resolve_left hfew.1).resolve_left hfew.2
      obtain ⟨hsweeps, -⟩ := h.drifts hrest hdiv (Int64.not_le.1 hfew.2) (hdouble.1 hless)
      rw [hone, show Amount.trips 1 = 1 from rfl, pow_one, Nat.one_mul]
      exact .of_eq (hsweeps.mul_move columns)

end KernelLoops
