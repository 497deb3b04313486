import Mathlib.Algebra.Order.BigOperators.GroupWithZero.List
import KernelLoops.Proofs.TailedNests
import KernelLoops.Proofs.TeamShares

set_option autoImplicit false

/-! # Loops for a team

The loop that is selected to run on a team can run on one. The selection looks at tags and at a
quotient only; that the parameters of the loop pass the checks of a team, and that a team ends where
a single worker ends, follows from what materializing loops and splitting tails leave in the closing
markers. -/

namespace KernelLoops

open List

variable {k : Kernel} {e : Expr} {l : LoopParams} {info : LoopInfo} {s size work : Amount}
  {outer : Bool}
  {finals shape sizes steps : List Amount} {operands : List Tensor} {id : LoopId}

/-! ## Strides without overflow -/

namespace TensorType

/-- The distance between neighbours along `dim` as an integer, which does not wrap around. -/
def spacing (dim : Int) (layout : List Int) (shape : List Amount) : Int :=
  ((layout.reverse.takeWhile (· != dim)).map fun d => ((fetch shape d).toOption.getD 0).toInt).prod

/-- A stride is the integer distance, wrapped around. -/
theorem stride_eq_spacing {dim : Int} {layout : List Int} (h : stride dim layout shape = .ok s) :
    s = Int64.ofInt (spacing dim layout shape) := by
  have hfold : ∀ (ds : List Int) (s0 : Amount),
      ds.foldlM (fun s d => (s * ·) <$> fetch shape d) s0 = .ok s →
        s = s0 * Int64.ofInt (ds.map fun d => ((fetch shape d).toOption.getD 0).toInt).prod := by
    intro ds
    induction ds with
    | nil =>
      intro s0 h
      cases h
      simp
    | cons d ds ih =>
      intro s0 h
      rw [foldlM_cons] at h
      obtain ⟨s1, hfirst, hrest⟩ := of_except_bind_ok h
      cases hsize : fetch shape d with
      | error f =>
        rw [hsize] at hfirst
        cases hfirst
      | ok size =>
        rw [hsize] at hfirst
        obtain rfl : s0 * size = s1 := Except.ok.inj hfirst
        rw [ih _ hrest, map_cons, prod_cons, hsize, Int64.ofInt_mul, ← Int64.mul_assoc]
        simp [Except.toOption]
  rw [hfold _ 1 h, Int64.one_mul]
  rfl

theorem mem_of_fetch_ok {α : Type} {xs : List α} {i : Int} {x : α} (h : fetch xs i = .ok x) :
    x ∈ xs := by
  obtain ⟨n, -, hn⟩ := of_fetch_ok h
  exact mem_of_getElem? hn

theorem spacing_nonneg (dim : Int) (layout : List Int) (h : ∀ d ∈ shape, 0 ≤ d) :
    0 ≤ spacing dim layout shape := by
  refine prod_nonneg fun n hn => ?_
  obtain ⟨d, -, rfl⟩ := mem_map.1 hn
  cases hsize : fetch shape d with
  | error f => simp [Except.toOption]
  | ok size => exact Amount.le_iff.1 (h size (mem_of_fetch_ok hsize))

end TensorType

/-- The distance between neighbours of the tensor at `p` along the dimension that a loop iterates.
    In a fake loop the layout is that of the tensor at `q`. -/
def Kernel.spacing (k : Kernel) (dim : Amount) (q p : Port) : Except Failure Int := do
  let u ← k.tensorAt q
  let t ← k.tensorAt p
  let d ← Markers.iteratedDim k p dim
  return TensorType.spacing d (if Markers.inFakeLoop (k.expr p.expr) then u.layout else t.layout) t.shape

/-- The operands of a loop have non-negative dimensions, and the stride of each one times the work
    amount does not overflow. -/
structure LoopInfo.StepsFit (k : Kernel) (info : LoopInfo) : Prop where
  shapes : ∀ p ∈ info.ports, ∀ t ∈ (k.tensorAt p).toOption, ∀ d ∈ t.shape, 0 ≤ d
  strides : ∀ entries ∈ (Markers.steppedEntries k info.entries).toOption,
    ∀ q ∈ (entries ++ Markers.steppedExits k info.exits).head?, ∀ p ∈ entries ++ Markers.steppedExits k info.exits,
      ∀ n ∈ (k.spacing info.dim q p).toOption, n * info.workAmount.toInt < 2 ^ 63

instance (k : Kernel) (info : LoopInfo) : Decidable (info.StepsFit k) :=
  -- amounts are finitely many, so deciding `∀ d ∈ t.shape` as it stands might try them all
  decidable_of_iff ((∀ p ∈ info.ports, ∀ t ∈ (k.tensorAt p).toOption, (t.shape.all fun d => 0 ≤ d) = true) ∧
    ∀ entries ∈ (Markers.steppedEntries k info.entries).toOption,
      ∀ q ∈ (entries ++ Markers.steppedExits k info.exits).head?, ∀ p ∈ entries ++ Markers.steppedExits k info.exits,
        ∀ n ∈ (k.spacing info.dim q p).toOption, n * info.workAmount.toInt < 2 ^ 63)
    ⟨fun h => ⟨by simpa using h.1, h.2⟩, fun h => ⟨by simpa using h.shapes, h.strides⟩⟩

/-- The steps of the loops of known size that tag some expression do not overflow. -/
def Kernel.StepsFit (k : Kernel) : Prop :=
  ∀ x ∈ k.sequence, ∀ id ∈ x.loopIds, ∀ info ∈ k.loops.get? id, info.workAmount.isDynamic = false → info.StepsFit k

instance (k : Kernel) : Decidable k.StepsFit :=
  inferInstanceAs (Decidable (∀ x ∈ k.sequence, ∀ id ∈ x.loopIds, ∀ info ∈ k.loops.get? id,
    info.workAmount.isDynamic = false → info.StepsFit k))

namespace Markers

/-- How far an operand moves is nothing or its stride. -/
theorem of_ptrIncrement_ok {dim widest : Amount} {q p : Port} {u : Tensor}
    (hu : k.tensorAt q = .ok u)
    (h : ptrIncrement k dim widest u.layout p = .ok s) :
    s = 0 ∨ ∃ t n, k.tensorAt p = .ok t ∧ k.spacing dim q p = .ok n ∧ s = Int64.ofInt n ∧
      ((∀ d ∈ t.shape, 0 ≤ d) → 0 ≤ n) := by
  unfold ptrIncrement at h
  obtain ⟨t, ht, h⟩ := of_except_bind_ok h
  obtain ⟨d, hd, h⟩ := of_except_bind_ok h
  obtain ⟨size, -, h⟩ := of_except_bind_ok h
  split at h
  · cases h
    exact .inl rfl
  · refine .inr ⟨t, _, ht, ?_, TensorType.stride_eq_spacing h, TensorType.spacing_nonneg _ _⟩
    simp only [Kernel.spacing, hu, ht, hd]
    rfl

/-- The operands of a loop move by non-negative steps that all its work does not overflow. -/
theorem steps_fit (h : loopParams k id info outer = .ok (l, operands)) (hfit : info.StepsFit k)
    (hwork : 0 < info.workAmount) : ∀ s ∈ l.ptrIncrements, 0 ≤ s.toInt ∧ s.toInt * info.workAmount.toInt < 2 ^ 63 := by
  obtain ⟨entries, steps, sizes, hentries, hsteps, -, rfl⟩ := of_loopParams_ok h
  have hports : ∀ p ∈ entries ++ steppedExits k info.exits, p ∈ info.ports := fun p hp => mem_ports hentries hp
  have hstrides := hfit.strides entries (by simp [hentries, Except.toOption])
  have hpos : 1 ≤ info.workAmount.toInt := Amount.lt_iff.1 hwork
  intro s hs
  generalize entries ++ steppedExits k info.exits = ps at hsteps hports hstrides
  cases ps with
  | nil =>
    cases hsteps
    cases hs
  | cons q ps =>
    obtain ⟨u, hu, hsteps⟩ := of_except_bind_ok hsteps
    obtain ⟨_, -, hsteps⟩ := of_except_bind_ok hsteps
    obtain ⟨_, -, hsteps⟩ := of_except_bind_ok hsteps
    obtain ⟨p, hp, hstep⟩ := of_mem_mapM_ok hsteps hs
    rcases of_ptrIncrement_ok hu hstep with rfl | ⟨t, n, ht, hn, rfl, hnonneg⟩
    · simp
    · have hless := hstrides q rfl p hp n (by simp [hn, Except.toOption])
      have hn0 := hnonneg (hfit.shapes p (hports p hp) t (by simp [ht, Except.toOption]))
      have hn1 : n ≤ n * info.workAmount.toInt := le_mul_of_one_le_right hn0 hpos
      have hint : (Int64.ofInt n).toInt = n := by
        rw [Int64.toInt_ofInt, Amount.bmod_word (by omega) (by omega)]
      rw [hint]
      exact ⟨hn0, hless⟩

/-- Element sizes are positive, and there is one for each operand. -/
theorem elementSizes_pos (h : loopParams k id info outer = .ok (l, operands)) :
    l.elementSizes.length = l.ptrIncrements.length ∧ ∀ s ∈ l.elementSizes, 0 < s := by
  unfold loopParams at h
  obtain ⟨entries, -, h⟩ := of_except_bind_ok h
  obtain ⟨steps, hsteps, h⟩ := of_except_bind_ok h
  obtain ⟨operands', hoperands, h⟩ := of_except_bind_ok h
  obtain ⟨sizes, hsizes, h⟩ := of_except_bind_ok h
  cases h
  refine ⟨?_, fun s hs => ?_⟩
  · rw [length_ptrIncrements hsteps, ← (forall₂_of_mapM_ok hsizes).length_eq,
      (forall₂_of_mapM_ok hoperands).length_eq]
  · obtain ⟨t, -, hsize⟩ := of_mem_mapM_ok hsizes hs
    unfold ElementType.size at hsize
    split at hsize
    · next n hn =>
        cases hsize
        cases htype : t.elementType <;> rw [htype] at hn <;> cases hn <;> decide
    · cases hsize

end Markers

/-! ## What closing markers keep -/

/-- The steps of a loop are non-negative and all its work does not overflow them; unless it is
    evaluated once, it does not go forward at its end. Its operands have element sizes. -/
structure LoopParams.Fits (l : LoopParams) : Prop where
  steps : 0 < l.workAmount → ∀ s ∈ l.ptrIncrements, 0 ≤ s.toInt ∧ s.toInt * l.workAmount.toInt < 2 ^ 63
  finals : l.once = false → ∀ f ∈ l.finalOffsets, f ≤ 0
  sizes : ∀ s ∈ l.elementSizes, 0 < s
  length : l.elementSizes.length = l.ptrIncrements.length

namespace LoopParams.Fits

/-- Materialized loops. -/
theorem of_loopParams (h : Markers.loopParams k id info outer = .ok (l, operands))
    (hfit : info.StepsFit k)
    (hwork : 0 ≤ info.workAmount) (hknown : info.workAmount.isDynamic = false) : l.Fits := by
  obtain ⟨hlength, hsizes⟩ := Markers.elementSizes_pos h
  have hsteps := Markers.steps_fit h hfit
  obtain ⟨_, steps, sizes, -, -, -, rfl⟩ := Markers.of_loopParams_ok h
  refine ⟨hsteps, fun _ f hf => ?_, hsizes, hlength⟩
  simp only [Markers.finalOffsets, hknown, Bool.false_eq_true, if_false] at hf
  obtain ⟨s, hs, rfl⟩ := mem_map.1 hf
  by_cases hzero : info.workAmount = 0
  · rw [hzero, Int64.mul_zero]
    decide
  · have hpos : 0 < info.workAmount := Int64.lt_of_le_of_ne hwork (Ne.symm hzero)
    obtain ⟨hnonneg, hless⟩ := hsteps hpos s hs
    have hwork' : 0 < info.workAmount.toInt := Amount.lt_iff.1 hpos
    have hall : 0 ≤ s.toInt * info.workAmount.toInt := Int.mul_nonneg hnonneg hwork'.le
    have hproduct : (s * info.workAmount).toInt = s.toInt * info.workAmount.toInt :=
      Amount.toInt_mul_of_fits (by omega) hless
    rw [Int64.neg_mul, Amount.le_iff, Int64.toInt_neg, hproduct, Amount.bmod_word (by omega) (by omega)]
    exact Int.neg_nonpos_of_nonneg hall

theorem congr (h : l.Fits) (id : LoopId) : ({ l with id } : LoopParams).Fits :=
  ⟨h.steps, h.finals, h.sizes, h.length⟩

/-- A loop that is evaluated once may go anywhere at its end. -/
theorem optimized (h : l.Fits) (optimize force : Bool) : (l.optimized optimize force).Fits := by
  unfold LoopParams.optimized
  split
  · exact ⟨h.steps, fun honce => absurd honce (by simp), h.sizes, h.length⟩
  · exact h

/-- Less work overflows no step either. -/
theorem steps_le (h : l.Fits) (hle : work ≤ l.workAmount) (hpos : 0 < work) :
    ∀ s ∈ l.ptrIncrements, 0 ≤ s.toInt ∧ s.toInt * work.toInt < 2 ^ 63 := by
  intro s hs
  obtain ⟨hnonneg, hless⟩ := h.steps (Int64.lt_of_lt_of_le hpos hle) s hs
  exact ⟨hnonneg, Int.lt_of_le_of_lt (Int.mul_le_mul_of_nonneg_left (Amount.le_iff.1 hle) hnonneg) hless⟩

theorem shortened (h : l.Fits) (hle : l.workAmount - size ≤ l.workAmount) :
    (l.shortened size).Fits where
  steps := h.steps_le hle
  finals _ f hf := by
    obtain ⟨_, -, rfl⟩ := mem_map.1 hf
    decide
  sizes := h.sizes
  length := h.length

theorem tail (h : l.Fits) (honce : l.once = false) (hle : size ≤ l.workAmount) :
    (l.tail size).Fits :=
  ⟨h.steps_le hle, fun _ => h.finals honce, h.sizes, h.length⟩

end LoopParams.Fits

namespace Code

/-- The loops of known size that a loop is split into fit if the loop does. -/
theorem parts_fits (optimize : Bool) :
    Parts optimize (fun e => ∃ l, e.loop = some l ∧ (l.isStatic = true → e.Whole l ∧ l.Fits))
      fun e => ∃ l, e.loop = some l ∧ (l.isStatic = true → l.Fits) where
  params := fun ⟨l, hl, _⟩ => ⟨l, hl⟩
  same := fun ⟨l, hl, h⟩ _ _ => ⟨l, hl, fun hs => (h hs).2⟩
  whole := by
    rintro e l ⟨l', hl', h⟩ hl hs - force
    obtain rfl : l' = l := Option.some.inj (hl'.symm.trans hl)
    exact ⟨_, rfl, fun _ => (h hs).2.optimized _ _⟩
  shortened := by
    rintro e l ⟨l', hl', h⟩ hl hs
    obtain rfl : l' = l := Option.some.inj (hl'.symm.trans hl)
    obtain ⟨hwhole, hfits⟩ := h hs
    refine ⟨_, rfl, fun _ => (hfits.shortened ?_).optimized _ _⟩
    have hrest := (Amount.toInt_mod_bounds hwhole.work hwhole.step).1
    rw [Amount.le_iff, Amount.toInt_sub_mod hwhole.work hwhole.step]
    omega
  tail := by
    rintro e l ⟨l', hl', h⟩ hl hs - force
    obtain rfl : l' = l := Option.some.inj (hl'.symm.trans hl)
    obtain ⟨hwhole, hfits⟩ := h hs
    refine ⟨_, rfl, fun _ => (hfits.tail hwhole.unsplit ?_).optimized _ _⟩
    exact Amount.le_iff.2 (Amount.toInt_mod_bounds hwhole.work hwhole.step).2.2
  renamed := fun _ h => h

end Code

/-- The closing markers of a kernel whose tails have been split. -/
theorem Tails.Splits.fits {m k' : Kernel} {c c' : Code} (h : Splits k m k' c c') (hsized : k.Sized)
    (hfit : k.StepsFit) : c'.Closings fun e => ∃ l, e.loop = some l ∧ (l.isStatic = true → l.Fits) := by
  obtain ⟨inserted, hm⟩ := h.marked
  have hmarks : c.Closings fun e => ∃ l, e.loop = some l ∧ (l.isStatic = true → e.Whole l ∧ l.Fits) := by
    refine (hm.marks.closings fun _ hx => hm.ops ▸ hx).imp ?_
    rintro e ⟨l, outer, hends, x, hx, htag⟩
    refine ⟨l, hends.1, fun hs => ⟨hends.whole_of_static (hsized x hx l.id htag) hs, ?_⟩⟩
    obtain ⟨-, info, operands, tie, hinfo, hparams, -⟩ := hends
    have hknown : info.workAmount.isDynamic = false := by
      obtain ⟨_, _, _, -, -, -, hl⟩ := Markers.of_loopParams_ok hparams
      rw [hl, LoopParams.isStatic, Bool.and_eq_true, Bool.not_eq_true'] at hs
      exact hs.1
    exact .of_loopParams hparams (hfit x hx l.id htag info hinfo hknown) (hsized x hx l.id htag info hinfo).work hknown
  refine Code.Closings.congr (fun {e e'} he hbare => ?_)
    (Code.Closings.lower (Code.parts_fits _) hmarks [] m.nextTensor) h.bare
  obtain ⟨l, hl, hl'⟩ := he
  obtain ⟨id, hsame⟩ := Expr.loop_of_bare hl hbare
  exact ⟨_, hsame, fun hs => (hl' hs).congr id⟩

/-! ## Accepting and selecting -/

namespace LoopConfig

/-- Operands that pass the checks. -/
theorem checkOperands_ok (i : Nat) (hsteps : ∀ p ∈ steps, p.isDynamic = false)
    (hfinals : ∀ f ∈ finals, f.isDynamic = false) (hsizes : ∀ s ∈ sizes, 0 < s) :
    checkOperands i steps finals sizes = .ok () := by
  induction steps generalizing i finals sizes with
  | nil => simp [checkOperands]
  | cons p steps ih =>
    cases finals with
    | nil => simp [checkOperands]
    | cons f finals =>
      cases sizes with
      | nil => simp [checkOperands]
      | cons s sizes =>
        rw [forall_mem_cons] at hsteps hfinals hsizes
        have hsize : ¬s ≤ 0 := Int64.not_le.2 hsizes.1
        simp only [checkOperands, hsteps.1, hfinals.1, hsize, Bool.or_false, Bool.false_eq_true, if_false]
        exact ih (i + 1) hsteps.2 hfinals.2 hsizes.2

/-- Parameters that a team accepts. -/
theorem make_ok {inc : Amount} (hwork : work.isDynamic = false) (hinc : inc.isDynamic = false)
    (hwork' : 0 ≤ work)
    (hinc' : 0 < inc) (hfinals : finals.length = steps.length) (hsizes : sizes.length = steps.length)
    (hsteps : ∀ p ∈ steps, p.isDynamic = false) (hoffsets : ∀ f ∈ finals, f.isDynamic = false)
    (hpos : ∀ s ∈ sizes, 0 < s) : make work inc steps finals sizes = .ok ⟨work, inc, steps, finals, sizes⟩ := by
  have hsigns : (decide (work < 0) || decide (inc ≤ 0)) = false := by
    simp [Int64.not_lt.2 hwork', Int64.not_le.2 hinc']
  simp only [make, hwork, hinc, hsigns, hfinals, hsizes, Bool.or_false, Bool.false_eq_true, ne_eq, not_true, if_false,
    decide_false, checkOperands_ok 0 hsteps hoffsets hpos]
  rfl

end LoopConfig

/-- Two units of work that overflow no step need no more to be known: a team accepts the loop. -/
theorem LoopParams.Fits.make_ok {optimize : Bool} (h : l.Fits) (he : e.Rounded optimize l)
    (honce : l.once = false)
    (hs : l.isStatic = true) (htwo : 2 ≤ l.workAmount.toInt) :
    LoopConfig.make l.workAmount l.increment l.ptrIncrements l.finalOffsets l.elementSizes =
      .ok ⟨l.workAmount, l.increment, l.ptrIncrements, l.finalOffsets, l.elementSizes⟩ := by
  obtain ⟨hwork, hinc⟩ : l.workAmount.isDynamic = false ∧ l.increment.isDynamic = false := by
    simpa [LoopParams.isStatic] using hs
  refine LoopConfig.make_ok hwork hinc he.work he.step (he.closes.offsets.trans he.closes.steps.symm) h.length ?_ ?_
    h.sizes
  · intro p hp
    obtain ⟨hnonneg, hless⟩ := h.steps (Amount.lt_iff.2 (by rw [Int64.toInt_zero]; omega)) p hp
    rw [Amount.isDynamic, beq_eq_false_iff_ne]
    rintro rfl
    have hbig : Amount.dynamic.toInt = 0x7fffffffffffffff := by decide
    rw [hbig] at hless
    omega
  · intro f hf
    have hle := h.finals honce f hf
    rw [Amount.isDynamic, beq_eq_false_iff_ne]
    rintro rfl
    exact absurd hle (by decide)

/-- A team that divides whole chunks ends where a single worker ends. -/
theorem Executor.execute_ends {c : LoopConfig} (hl : l.Describes c) (hwork : 0 ≤ c.workAmount)
    (hinc : 0 < c.increment) (hrest : c.workAmount % c.increment = 0)
    (hfinals : c.finalOffsets.length = c.numPointers) (hsizes : c.elementSizes.length = c.numPointers) (x : Executor)
    {starts : List Amount} (hstarts : starts.length = c.numPointers) :
    ∃ calls ends, x.execute c starts = .ok (calls, ends) ∧ ends.length = starts.length ∧
      ∀ i < c.numPointers, ∀ start, ∃ p, l.positions i start = .ok p ∧
        ends.getD i 0 = starts.getD i 0 + c.elementSizes.getD i 0 * (p.final - start) := by
  refine ⟨_, _, if_neg (not_not.2 hstarts), ?_, fun i hi start => ?_⟩
  · rw [LoopConfig.numPointers] at hstarts hfinals hsizes
    simp [finalOffsets, hstarts, hfinals, hsizes]
  · obtain ⟨p, hp, hfinal⟩ := hl.positions_eq hwork hinc hi (hfinals ▸ hi) start
    refine ⟨p, hp, ?_⟩
    rw [getD_finalOffsets (hstarts ▸ hi) hi (hfinals ▸ hi) (hsizes ▸ hi), hfinal, hrest, Int64.sub_zero, Int64.mul_comm]

namespace Parallel

variable {k' : Kernel}

/-- Which closing markers are asked for. -/
theorem parallelizable_eq (hkind : e.kind = .loopEnd) (hl : e.loop = some l)
    (hinc : l.isStatic = true → l.increment ≠ 0) :
    Kernel.parallelizable e =
      .ok (e.isOutermost && !l.once && l.isStatic && decide (l.workAmount / l.increment ≥ 2)) := by
  have hparams : e.params = .ok l := by rw [Expr.params, hl]
  unfold Kernel.parallelizable
  rw [except_bind_ok hparams]
  cases houter : e.isOutermost with
  | false => simp [hkind]; rfl
  | true =>
    cases honce : l.once with
    | true => simp [hkind]; rfl
    | false =>
      cases hs : l.isStatic with
      | false => simp [hkind]; rfl
      | true =>
        have hquotient : quotient l.workAmount l.increment = .ok (l.workAmount / l.increment) :=
          if_neg (hinc hs)
        simp only [hkind, except_bind_ok hquotient]
        rfl

theorem kind_of_parallelizable (h : Kernel.parallelizable e = .ok true) : e.kind = .loopEnd := by
  by_contra hkind
  simp [Kernel.parallelizable, hkind] at h
  cases h

/-- The selected expression is the first one whose loop can run on a team. -/
theorem of_choose_ok {es : List ExprId} {i : ExprId} (h : choose k es = .ok (some i)) :
    ∃ pre post, es = pre ++ i :: post ∧ Kernel.parallelizable (k.expr i) = .ok true ∧
      ∀ j ∈ pre, Kernel.parallelizable (k.expr j) = .ok false := by
  induction es with
  | nil => cases h
  | cons j es ih =>
    rw [choose] at h
    obtain ⟨found, hfound, h⟩ := of_except_bind_ok h
    cases found with
    | true =>
      cases h
      exact ⟨[], es, rfl, hfound, by simp⟩
    | false =>
      obtain ⟨pre, post, rfl, hi, hpre⟩ := ih h
      exact ⟨j :: pre, post, rfl, hi, forall_mem_cons.2 ⟨hfound, hpre⟩⟩

/-- What selecting a loop changes. -/
theorem of_run_ok (h : run k = .ok true k') :
    ∃ i, choose k k.order = .ok (some i) ∧ k' = { k with parallelLoop := some i } := by
  have hchoose : ∀ es, choose { k with parallelLoop := none } es = choose k es := by
    intro es
    induction es with
    | nil => rfl
    | cons e es ih =>
      rw [choose, choose, ih]
      rfl
  unfold run at h
  rw [modify_bind_run] at h
  obtain ⟨chosen, hchosen, h⟩ := Edit.of_ask_bind_run_ok h
  rw [modify_bind_run] at h
  cases chosen with
  | none => cases h
  | some i =>
    cases h
    exact ⟨i, (hchoose _).symm.trans hchosen, rfl⟩

end Parallel

/-! ## Selected loops -/

/-- No pair of markers is around the expression. -/
def Kernel.Outermost (k : Kernel) (x : Expr) : Prop := ∀ id b e, k.LoopPair id b e → ¬k.Between b x e

/-- The loop between the markers lies in no other one. A team accepts it and divides two or more
    chunks without a rest. Whatever the team, it ends where a single worker ends. -/
structure Kernel.Dispatches (k : Kernel) (b e : Expr) (l : LoopParams) (c : LoopConfig) : Prop where
  pair : k.LoopPair l.id b e
  params : e.loop = some l
  outermost : k.Outermost b ∧ k.Outermost e
  accepted : k.loopConfig (some e.id) = .ok c
  described : l.Describes c
  divides : c.increment.toInt ∣ c.workAmount.toInt
  chunks : 2 ≤ c.workAmount.toInt / c.increment.toInt
  offsets : ∀ (x : Executor) (starts : List Amount), starts.length = c.numPointers →
    ∃ calls ends, x.execute c starts = .ok (calls, ends) ∧ ends.length = starts.length ∧
      ∀ i < c.numPointers, ∀ start, ∃ p, l.positions i start = .ok p ∧
        ends.getD i 0 = starts.getD i 0 + c.elementSizes.getD i 0 * (p.final - start)

/-- The markers of a loop have the same loops around them. -/
theorem Code.Labelled.same_tags {c body : Code} {ids path : List LoopId} {b : Expr}
    (hc : c.Labelled ids path)
    (h : (b, e, body) ∈ c.loops) : b.loopIds.filter (ids.contains ·) = e.loopIds.filter (ids.contains ·) := by
  induction c generalizing path with
  | done => cases h
  | op x rest ih => exact ih hc.2 h
  | loop b' e' body' rest ihbody ihrest =>
    obtain ⟨⟨hb, he⟩, ⟨l, -, -, -, hbody⟩, hrest⟩ := hc
    rw [loops, mem_cons, mem_append] at h
    rcases h with h | h | h
    · cases h
      rw [hb, he]
    · exact ihbody hbody h
    · exact ihrest hrest h

namespace Tails.Splits

variable {m k' : Kernel} {c c' : Code} (h : Splits k m k' c c')

include h

/-- Selecting a loop does not touch the code. -/
theorem selected (chosen : Option ExprId) : Splits k m { k' with parallelLoop := chosen } c c' :=
  { h with
    brackets := { h.brackets with
      lists := h.brackets.lists.congr rfl rfl rfl (Nat.le_refl _) (Nat.le_refl _) fun _ _ => rfl } }

/-- What takes part in the nest is in no loop exactly if it has no tags. -/
theorem outermost_iff {x : Expr} (hx : x ∈ k'.sequence) (hnest : x.inNest = true) :
    k'.Outermost x ↔ x.isOutermost = true := by
  constructor
  · intro houter
    refine all_eq_true.2 fun id hid => ?_
    by_contra hs
    have hname := h.covered x (h.brackets.lists.sequence ▸ hx) hnest id hid (Bool.eq_false_of_not_eq_true hs)
    obtain ⟨b, e, hpair, -⟩ := h.brackets.existsUnique_loopPair hname
    exact houter id b e hpair ((h.brackets.between_iff hpair hx).2 hid)
  · intro hall id b e hpair hbetween
    have hsentinel := all_eq_true.1 hall id ((h.brackets.between_iff hpair hx).1 hbetween)
    obtain ⟨hname, body, hloop⟩ := h.brackets.loopPair_iff.1 hpair
    rw [h.real id (Code.mem_names_iff.2 ⟨b, e, body, hloop, hname⟩)] at hsentinel
    cases hsentinel

/-- A loop whose closing marker has no tags can run on a team if it has two chunks of work. -/
theorem dispatches (hsized : k.Sized) (hfit : k.StepsFit) (he : e ∈ k'.sequence)
    (hparallel : Kernel.parallelizable e = .ok true) : ∃ b l c, k'.Dispatches b e l c := by
  have hkind := Parallel.kind_of_parallelizable hparallel
  have hmem : e ∈ c'.flatten := h.brackets.lists.sequence ▸ he
  obtain ⟨l, hl, hrounded⟩ := Code.Closings.of_mem h.rounded h.brackets.nested hmem hkind
  obtain ⟨l', hl', hfits⟩ := Code.Closings.of_mem (h.fits hsized hfit) h.brackets.nested hmem hkind
  obtain rfl : l' = l := Option.some.inj (hl'.symm.trans hl)
  rw [Parallel.parallelizable_eq hkind hl' fun hs hzero => absurd (hzero ▸ (hrounded hs).step) (by decide)] at hparallel
  simp only [Except.ok.injEq, Bool.and_eq_true, Bool.not_eq_true', decide_eq_true_eq] at hparallel
  obtain ⟨⟨⟨houter, honce⟩, hs⟩, hchunks⟩ := hparallel
  replace hrounded := hrounded hs
  replace hfits := hfits hs
  have hwork0 : 0 ≤ l'.workAmount.toInt := Amount.le_iff.1 hrounded.work
  have hinc0 : 0 < l'.increment.toInt := Amount.lt_iff.1 hrounded.step
  have hmany : 2 ≤ l'.workAmount.toInt / l'.increment.toInt := by
    rw [← Amount.toInt_div_of_nonneg hwork0]
    exact Amount.le_iff.1 hchunks
  have htwo : 2 ≤ l'.workAmount.toInt := by
    have := (Int.le_ediv_iff_mul_le hinc0).1 hmany
    omega
  have hmake := hfits.make_ok hrounded honce hs htwo
  obtain ⟨b, body, hloop⟩ := h.brackets.exists_loop_of_closing he hkind
  have hpair : k'.LoopPair l'.id b e := h.brackets.loopPair_iff.2 ⟨by rw [hl', Option.map_some], body, hloop⟩
  have hnest : ∀ x : Expr, x.kind.isMarker = true → x.inNest = true := by
    intro x hx
    unfold Expr.inNest
    cases hk : x.kind <;> rw [hk] at hx <;> first | rfl | cases hx
  have houtermost := (h.outermost_iff he (hnest e (by rw [hkind]; rfl))).2 houter
  have hdescribes : l'.Describes ⟨l'.workAmount, l'.increment, l'.ptrIncrements, l'.finalOffsets, l'.elementSizes⟩ :=
    ⟨honce, rfl, rfl, rfl, rfl⟩
  have hends := Executor.execute_ends hdescribes hrounded.work hrounded.step hrounded.divides
    (hrounded.closes.offsets.trans hrounded.closes.steps.symm) hfits.length
  refine ⟨b, l', _, hpair, hl', ⟨?_, houtermost⟩, ?_, hdescribes, ?_, hmany, fun x starts hstarts => hends x hstarts⟩
  · intro id b' e' hpair' hbetween
    have hb := hpair.opening
    have htag := (h.brackets.between_iff hpair' hb).1 hbetween
    obtain ⟨hname, body', hloop'⟩ := h.brackets.loopPair_iff.1 hpair'
    have hid : id ∈ c'.names := Code.mem_names_iff.2 ⟨b', e', body', hloop', hname⟩
    have hfilter : id ∈ e.loopIds.filter (c'.names.contains ·) := by
      rw [← h.brackets.labelled.same_tags hloop]
      exact mem_filter.2 ⟨htag, contains_iff_mem.2 hid⟩
    exact houtermost id b' e' hpair' ((h.brackets.between_iff hpair' he).2 (mem_of_mem_filter hfilter))
  · have hread : k'.expr e.id = e := h.brackets.lists.read e hmem
    simp only [Kernel.loopConfig, hread, hkind, ne_eq, not_true, if_false, hl', hmake]
    rfl
  · refine Int.dvd_of_emod_eq_zero ?_
    rw [← Amount.toInt_mod_of_nonneg hwork0, hrounded.divides]
    rfl

end Tails.Splits

/-- The loop that is selected after the tails have been split can run on a team. No closing marker
    before it has a loop of known size around which there is no other loop, which is not evaluated
    once and has two chunks of work. -/
theorem Parallel.run_dispatches {k m k' k'' : Kernel} {changed changed' : Bool} (hk : k.Unmarked)
    (hn : k.WellNested)
    (htags : k.TagsKnown) (hloops : k.loops.Plain) (hsized : k.Sized) (hfit : k.StepsFit)
    (hmarkers : Markers.run k = .ok changed m) (htails : Tails.run m = .ok changed' k') (hrun : run k' = .ok true k'') :
    ∃ b e l c, k''.parallelLoop = some e.id ∧ k''.Dispatches b e l c ∧
      ∃ pre post, k''.sequence = pre ++ e :: post ∧ ∀ e' ∈ pre, e'.kind = .loopEnd → k''.Outermost e' →
        ∃ l', e'.loop = some l' ∧
          (l'.isStatic = true → l'.once = false → l'.workAmount.toInt / l'.increment.toInt < 2) := by
  obtain ⟨_, _, c, c', hsplit, hsplits⟩ := Tails.exists_splits hk hn htags hloops hsized hmarkers
  cases htails.symm.trans hsplit
  obtain ⟨i, hchoose, rfl⟩ := of_run_ok hrun
  obtain ⟨pre, post, horder, hi, hpre⟩ := of_choose_ok hchoose
  replace hsplits := hsplits.selected (some i)
  have hlists := hsplits.brackets.lists
  have hsequence : ({ k' with parallelLoop := some i } : Kernel).sequence =
      pre.map k'.expr ++ k'.expr i :: post.map k'.expr := by
    rw [Kernel.sequence, show ({ k' with parallelLoop := some i } : Kernel).order = _ from horder, map_append]
    rfl
  have hmem : ∀ j ∈ pre ++ i :: post, k'.expr j ∈ ({ k' with parallelLoop := some i } : Kernel).sequence := by
    intro j hj
    rw [← horder] at hj
    exact mem_map_of_mem hj
  obtain ⟨b, l, c, hdispatches⟩ := hsplits.dispatches hsized hfit (hmem i (by simp)) hi
  have hid : (k'.expr i).id = i := by
    obtain ⟨x, hx, rfl⟩ := hlists.mem_order.1 (show i ∈ k'.order by rw [horder]; simp)
    exact congrArg Expr.id (hlists.read x hx)
  refine ⟨b, _, l, c, congrArg some hid.symm, hdispatches, _, _, hsequence, fun e' he' hkind houter => ?_⟩
  obtain ⟨j, hj, rfl⟩ := mem_map.1 he'
  have hj' := hmem j (mem_append_left _ hj)
  have hmarker : (k'.expr j).inNest = true := by
    rw [Expr.inNest, hkind]
    rfl
  obtain ⟨l', hl', hrounded⟩ :=
    Code.Closings.of_mem hsplits.rounded hsplits.brackets.nested (hlists.sequence ▸ hj') hkind
  refine ⟨l', hl', fun hs honce => ?_⟩
  replace hrounded := hrounded hs
  have hfew := hpre j hj
  rw [parallelizable_eq hkind hl' fun _ hzero => absurd (hzero ▸ hrounded.step) (by decide)] at hfew
  simp only [(hsplits.outermost_iff hj' hmarker).1 houter, honce, hs, Except.ok.injEq, Bool.true_and, Bool.not_false,
    decide_eq_false_iff_not] at hfew
  rw [← Amount.toInt_div_of_nonneg (Amount.le_iff.1 hrounded.work)]
  exact Amount.lt_iff.1 (Int64.not_le.1 hfew)

/-- Of the ragged loops the vector loop over rows is selected, which has two chunks. -/
theorem Parallel.run_dispatches_ragged : ∃ changed m changed' k' k'',
    Markers.run Tails.raggedLoops.kernel = .ok changed m ∧ Tails.run m = .ok changed' k' ∧ run k' = .ok true k'' ∧
      ∃ b e l c, k''.parallelLoop = some e.id ∧ k''.Dispatches b e l c := by
  let passes : Edit Bool := do
    let _ ← Markers.run
    let _ ← Tails.run
    run
  obtain ⟨k'', hpasses⟩ := exists_of_run' (by decide +kernel : passes.run' Tails.raggedLoops.kernel = some true)
  obtain ⟨changed, m, hmarkers, hrest⟩ := of_bind_run_ok hpasses
  obtain ⟨changed', k', htails, hrun⟩ := of_bind_run_ok hrest
  have hplain := Tails.raggedLoops_plain
  obtain ⟨b, e, l, c, hchosen, hdispatches, -⟩ := run_dispatches hplain.unmarked Tails.raggedLoops_nested
    (fun x hx => (hplain.exprs x hx).tags) hplain.loops Tails.raggedLoops_sized (by decide +kernel) hmarkers htails hrun
  exact ⟨changed, m, changed', k', k'', hmarkers, htails, hrun, b, e, l, c, hchosen, hdispatches⟩

end KernelLoops
