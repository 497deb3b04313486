import KernelLoops.Proofs.Lowered

set_option autoImplicit false

/-! # Evaluating loops once

A loop that runs its body once may be evaluated once: it no longer steps its operands, and where the
position behind the loop matters, the step goes into the final offsets. Code lowered with and
without this differs in the parameters of closing markers only. Inside another loop the two make the
same moves; a loop that stands alone may leave a tensor elsewhere, which shows when something behind
it accesses that tensor. -/

namespace KernelLoops

open List

variable {c : Code} {l : LoopParams} {table : List (TensorId × Tensor)} {T n n' : TensorId}

/-! ## Parameters that make the same moves -/

/-- The steps of a loop go into its final offsets. -/
theorem shift_absorbSteps (T : TensorId) (ts : List Tensor) (increment : Amount)
    {fs ps : List Amount}
    (h : fs.length = ps.length) :
    shift T ts (LoopParams.absorbSteps increment fs ps) = shift T ts (ps.map (· * increment)) + shift T ts fs := by
  induction ts generalizing fs ps with
  | nil => rfl
  | cons t ts ih =>
    cases fs with
    | nil =>
      cases ps with
      | nil => rfl
      | cons p ps => cases h
    | cons f fs =>
      cases ps with
      | nil => cases h
      | cons p ps =>
        rw [LoopParams.absorbSteps, map_cons, shift, shift, shift, ih (Nat.succ.inj h)]
        split
        · rw [Int64.add_comm f, Int64.add_assoc, Int64.add_assoc, ← Int64.add_assoc f,
            Int64.add_comm f (shift T ts _), Int64.add_assoc]
        · simp only [Int64.zero_add]

/-- Only an operand is moved. -/
theorem exists_mem_of_shift_ne_zero {ts : List Tensor} {ps : List Amount} (h : shift T ts ps ≠ 0) :
    ∃ t ∈ ts, t.id = T := by
  induction ts generalizing ps with
  | nil => exact absurd rfl h
  | cons t ts ih =>
    cases ps with
    | nil => exact absurd rfl h
    | cons p ps =>
      by_cases hid : t.id = T
      · exact ⟨t, mem_cons_self, hid⟩
      · rw [shift, if_neg hid, Int64.zero_add] at h
        obtain ⟨u, hu, huT⟩ := ih h
        exact ⟨u, mem_cons_of_mem t hu, huT⟩

namespace LoopParams

/-- An operand in a loop that counts its bodies. -/
theorem positions_counted {i : Nat} {p f : Amount} (hinc : 0 < l.increment) (honce : l.once = false)
    (hp : l.ptrIncrements[i]? = some p) (hf : l.finalOffsets[i]? = some f) (start : Amount) :
    l.positions i start = .ok
      { bodies := spaced start (p * l.increment) (l.workAmount / l.increment).trips
        final := start + p * l.increment * Int64.ofNat (l.workAmount / l.increment).trips + f } := by
  have hcount : l.bodyCount = (l.workAmount / l.increment).trips := by
    rw [bodyCount, honce, if_neg Bool.false_ne_true, if_pos hinc]
  rw [positions, honce, if_neg Bool.false_ne_true, hcount, fetch_eq_ok_iff.2 hp, fetch_eq_ok_iff.2 hf]
  cases (l.workAmount / l.increment).trips with
  | zero => simp [spaced]
  | succ n => rfl

/-- An operand in a loop that is evaluated once. -/
theorem positions_once {i : Nat} {f : Amount} (honce : l.once = true)
    (hf : l.finalOffsets[i]? = some f)
    (start : Amount) : l.positions i start = .ok { bodies := [start], final := start + f } := by
  rw [positions, if_pos honce, fetch_eq_ok_iff.2 hf]
  rfl

/-- The loop runs its body once, and counts to do so. -/
structure Single (l : LoopParams) : Prop where
  counts : l.once = false
  body : l.bodyCount = 1

/-- The second loop makes the moves of the first: it is the first, or the first evaluated once with
    its step in the final offsets. -/
def Twin (l l' : LoopParams) : Prop :=
  l' = l ∨ l.Single ∧ l.finalOffsets.length = l.ptrIncrements.length ∧
    l' = { l with finalOffsets := absorbSteps l.increment l.finalOffsets l.ptrIncrements, once := true }

/-- What a loop does that runs its body once. -/
theorem Single.journey_eq (h : l.Single) (operands : List Tensor) (J : Journey) :
    l.journey operands J = J * .move (l.stepShift operands + l.resetShift operands) := by
  rw [journey, h.counts, h.body, pow_one, if_neg Bool.false_ne_true, mul_assoc, Journey.move_mul_move]

theorem Twin.journey_eq {l' : LoopParams} (h : l.Twin l') (operands : List Tensor) (J : Journey) :
    l'.journey operands J = l.journey operands J := by
  rcases h with rfl | ⟨hsingle, hlength, rfl⟩
  · rfl
  · rw [hsingle.journey_eq]
    refine congrArg (fun d => J * Journey.move d) ?_
    funext T
    exact shift_absorbSteps T operands l.increment hlength

/-- A loop over a whole number of chunks that is evaluated once had one chunk. -/
theorem single_of_runsOnce (hwork : l.workAmount ≠ 0) (hdiv : l.workAmount % l.increment = 0)
    (h0 : 0 ≤ l.workAmount)
    (hstep : 0 < l.increment) (h : l.runsOnce true = true) : l.Single := by
  simp only [runsOnce, Bool.true_and, Bool.and_eq_true, Bool.not_eq_true', decide_eq_true_eq] at h
  obtain ⟨⟨hcounts, -⟩, hlt⟩ := h
  refine ⟨hcounts, ?_⟩
  rw [bodyCount, hcounts, if_neg Bool.false_ne_true, if_pos hstep]
  exact Amount.trips_div_of_lt_double hstep (Amount.le_of_mod_eq_zero h0 hwork hdiv) hlt

/-- Where the position behind a loop matters, evaluating it once keeps its moves. -/
theorem twin_optimized (hwork : l.workAmount ≠ 0) (hdiv : l.workAmount % l.increment = 0)
    (h0 : 0 ≤ l.workAmount)
    (hstep : 0 < l.increment) (hlength : l.finalOffsets.length = l.ptrIncrements.length) {force : Bool}
    (hforce : (l.hasOuterLoop || force) = true) : l.Twin (l.optimized true force) := by
  unfold optimized
  by_cases honce : l.runsOnce true
  · rw [if_pos honce, if_pos hforce]
    exact .inr ⟨single_of_runsOnce hwork hdiv h0 hstep honce, hlength, rfl⟩
  · rw [if_neg honce]
    exact .inl rfl

@[simp] theorem optimized_false (force : Bool) (l : LoopParams) : l.optimized false force = l := rfl

end LoopParams

/-! ## Code with other parameters -/

namespace Code

/-- The second code is the first with other parameters on closing markers, each related to what they
    were. -/
inductive Paired (R : LoopParams → LoopParams → Prop) : Code → Code → Prop
  | done : Paired R .done .done
  | op (x : Expr) {rest rest' : Code} : Paired R rest rest' → Paired R (.op x rest) (.op x rest')
  | loop (b : Expr) {e : Expr} {l l' : LoopParams} {body body' rest rest' : Code} :
      e.loop = some l → R l l' → Paired R body body' → Paired R rest rest' →
      Paired R (.loop b e body rest) (.loop b (e.withParams l') body' rest')

namespace Paired

variable {R S : LoopParams → LoopParams → Prop} {c' d d' : Code}

theorem imp (h : Paired R c c') (hRS : ∀ l l', R l l' → S l l') : Paired S c c' := by
  induction h with
  | done => exact .done
  | op x _ ih => exact .op x ih
  | loop b hl hR _ _ ihbody ihrest => exact .loop b hl (hRS _ _ hR) ihbody ihrest

theorem sameLoop (b : Expr) {e : Expr} (hl : e.loop = some l) (hR : R l l) (hc : Paired R c c')
    (hd : Paired R d d') :
    Paired R (.loop b e c d) (.loop b e c' d') := by
  have hpair := Paired.loop b hl hR hc hd
  have hself : e.withParams l = e := by
    cases e
    cases hl
    rfl
  rwa [hself] at hpair

theorem inputIds (h : Paired R c c') : c'.inputIds = c.inputIds := by
  induction h with
  | done => rfl
  | op x _ ih =>
    simp only [Code.inputIds, flatten, flatMap_cons] at ih ⊢
    rw [ih]
  | @loop b e l l' _ _ _ _ _ _ _ _ ihbody ihrest =>
    have he : (e.withParams l').inputIds = e.inputIds := rfl
    simp only [Code.inputIds, flatten, flatMap_cons, flatMap_append] at ihbody ihrest ⊢
    rw [ihbody, ihrest, he]

theorem outputs (h : Paired R c c') : c'.outputs = c.outputs := by
  induction h with
  | done => rfl
  | op x _ ih =>
    simp only [Code.outputs, flatten, flatMap_cons] at ih ⊢
    rw [ih]
  | @loop b e l l' _ _ _ _ _ _ _ _ ihbody ihrest =>
    have he : (e.withParams l').outputs = e.outputs := rfl
    simp only [Code.outputs, flatten, flatMap_cons, flatMap_append] at ihbody ihrest ⊢
    rw [ihbody, ihrest, he]

theorem append (h : Paired R c c') (hd : Paired R d d') : Paired R (c.append d) (c'.append d') := by
  induction h with
  | done => exact hd
  | op x _ ih => exact .op x ih
  | loop b hl hR hbody _ _ ih => exact .loop b hl hR hbody ih

theorem ofOps (xs : List Expr) (h : Paired R c c') :
    Paired R (Code.ofOps xs c) (Code.ofOps xs c') := by
  induction xs with
  | nil => exact h
  | cons x xs ih => exact .op x ih

theorem rename (h : Paired R c c') (table : List (TensorId × Tensor)) :
    Paired R (c.map (Expr.rename table)) (c'.map (Expr.rename table)) := by
  induction h with
  | done => exact .done
  | op x _ ih => exact .op (x.rename table) ih
  | @loop b e l l' _ _ _ _ hl hR _ _ ihbody ihrest =>
    exact .loop (b.rename table) (show (e.rename table).loop = some l from hl) hR ihbody ihrest

theorem narrowed (h : Paired R c c') (fillTails : Bool) (size : Amount) (n : TensorId) :
    Paired R (c.narrowed fillTails size n).1 (c'.narrowed fillTails size n).1 ∧
      (c'.narrowed fillTails size n).2 = (c.narrowed fillTails size n).2 := by
  induction h generalizing n with
  | done => exact ⟨.done, rfl⟩
  | op x _ ih =>
    obtain ⟨hrest, hnext⟩ := ih (x.narrowed fillTails size n).2.2
    rw [narrowed_op, narrowed_op]
    exact ⟨ofOps _ (.op _ hrest), hnext⟩
  | loop b hl hR hbody _ _ ih =>
    obtain ⟨hrest, hnext⟩ := ih n
    exact ⟨.loop b hl hR hbody hrest, hnext⟩

/-- Code in which every loop makes the moves of its partner makes the same journey. -/
theorem journey (h : Paired LoopParams.Twin c c') : c'.journey = c.journey := by
  induction h with
  | done => rfl
  | op x _ ih => rw [Code.journey, Code.journey, ih]
  | @loop b e l l' body body' _ _ hl htwin _ _ ihbody ihrest =>
    rw [Code.journey, Code.journey, hl, ihbody, ihrest]
    exact congrArg (· * _) (htwin.journey_eq e.inputs body.journey)

theorem trail (h : Paired LoopParams.Twin c c') (T : TensorId) : c'.trail T = c.trail T := by
  rw [← trail_journey, h.journey, trail_journey]

end Paired

end Code

/-! ## Tensors that are left alone -/

namespace Expr

theorem touched_rename (table : List (TensorId × Tensor)) (x : Expr) :
    (x.rename table).touched = x.touched.map (RangeCopy.rename table) := by
  simp only [touched, rename]
  split <;> simp [map_take]

theorem mem_of_mem_touched (x : Expr) {t : Tensor} (ht : t ∈ x.touched) : t ∈ x.inputs ∨
    t ∈ x.outputs := by
  rw [touched] at ht
  split at ht
  · exact .inl (mem_of_mem_take ht)
  · exact .inl (mem_of_mem_take ht)
  · exact .inr (mem_of_mem_take ht)
  · exact (mem_append.1 ht).imp_right mem_of_mem_take
  · cases ht

theorem touched_narrowed (fillTails : Bool) (size : Amount) (x : Expr) (n : TensorId) :
    (x.narrowed fillTails size n).2.1.touched = x.touched := by
  rw [narrowed]
  split
  · next hlanes =>
      -- only an elementwise expression gets fills, and it touches no memory
      have hkind : x.kind = .elementwise := by
        simp only [Tails.readsAllLanes, Bool.and_eq_true, decide_eq_true_eq] at hlanes
        exact hlanes.2.1
      obtain ⟨_, _, heq⟩ := fillPorts_eq size x.fills (range x.inputs.length) x n
      simp only [heq, touched, hkind]
  · split
    · rfl
    · rfl

end Expr

namespace Code

/-- No memory access of the code touches the tensor. -/
def Spares (T : TensorId) (c : Code) : Prop := ∀ x ∈ c.ops, ∀ t ∈ x.touched, t.id ≠ T

variable {d : Code}

theorem Spares.op_iff {x : Expr} : (op x c).Spares T ↔ (∀ t ∈ x.touched, t.id ≠ T) ∧ c.Spares T :=
  forall_mem_cons

theorem Spares.loop_iff {b e : Expr} : (loop b e c d).Spares T ↔ c.Spares T ∧ d.Spares T :=
  forall_mem_append

theorem Spares.append (hc : c.Spares T) (hd : d.Spares T) : (c.append d).Spares T := by
  induction c with
  | done => exact hd
  | op x rest ih =>
    obtain ⟨hx, hrest⟩ := op_iff.1 hc
    exact op_iff.2 ⟨hx, ih hrest⟩
  | loop b e body rest _ ih =>
    obtain ⟨hbody, hrest⟩ := loop_iff.1 hc
    exact loop_iff.2 ⟨hbody, ih hrest⟩

theorem Spares.spans (hc : c.Spares T) : (c.trail T).spans = [] := by
  induction c with
  | done => rfl
  | op x rest ih =>
    obtain ⟨hx, hrest⟩ := op_iff.1 hc
    have hnone : x.touched.filter (·.id = T) = [] := by simpa using hx
    rw [trail, Trail.mul_spans, ih hrest, Expr.trail, hnone]
    rfl
  | loop b e body rest ihbody ihrest =>
    obtain ⟨hbody, hrest⟩ := loop_iff.1 hc
    rw [trail, Trail.mul_spans, ihrest hrest]
    cases e.loop with
    | none => rfl
    | some l =>
      have hpow : ∀ k : Nat, ((body.trail T * .move (l.stepOf T e.inputs)) ^ k).spans = [] := by
        intro k
        induction k with
        | zero => rfl
        | succ k ih => rw [pow_succ', Trail.mul_spans, ih, Trail.mul_spans, ihbody hbody]; rfl
      show (l.trail T e.inputs (body.trail T)).spans ++ _ = _
      rw [LoopParams.trail]
      split
      · rw [Trail.mul_spans, ihbody hbody]
        rfl
      · rw [Trail.mul_spans, hpow]
        rfl

/-- Renaming to other names does not touch a tensor that was not touched. -/
theorem Spares.rename (hc : c.Spares T) (htable : FreshTable table n n') (hT : T < n) :
    (c.map (Expr.rename table)).Spares T := by
  induction c with
  | done => exact fun x hx => (nomatch hx)
  | op x rest ih =>
    obtain ⟨hx, hrest⟩ := op_iff.1 hc
    refine op_iff.2 ⟨fun t ht => ?_, ih hrest⟩
    rw [Expr.touched_rename] at ht
    obtain ⟨u, hu, rfl⟩ := mem_map.1 ht
    rcases RangeCopy.rename_cases table u with ⟨-, hsame⟩ | hlookup
    · rw [hsame]
      exact hx u hu
    · exact Nat.ne_of_gt (Nat.lt_of_lt_of_le hT (htable.fresh u.id _ hlookup).1)
  | loop b e body rest ihbody ihrest =>
    obtain ⟨hbody, hrest⟩ := loop_iff.1 hc
    exact loop_iff.2 ⟨ihbody hbody, ihrest hrest⟩

theorem Spares.narrowed (hc : c.Spares T) (fillTails : Bool) (size : Amount) (n : TensorId) :
    (c.narrowed fillTails size n).1.Spares T := by
  induction c generalizing n with
  | done => exact hc
  | op x rest ih =>
    obtain ⟨hx, hrest⟩ := op_iff.1 hc
    have hfills := (x.kind_narrowed fillTails size n).1
    rw [narrowed_op]
    intro y hy
    rw [ops_ofOps, mem_append, ops, mem_cons] at hy
    rcases hy with hy | rfl | hy
    · rw [Expr.touched, hfills y hy]
      exact forall_mem_nil _
    · rw [Expr.touched_narrowed]
      exact hx
    · exact ih hrest _ y hy
  | loop b e body rest _ ih =>
    obtain ⟨hbody, hrest⟩ := loop_iff.1 hc
    exact loop_iff.2 ⟨hbody, ih hrest n⟩

theorem Spares.splitLoop {body : Code} (hbody : body.Spares T) (m : Kernel) (b e : Expr)
    (out : List TensorId)
    (hT : T < n) : (splitLoop m b e body out n).1.Spares T := by
  have hsingle : ∀ (b' e' : Expr) {body' : Code}, body'.Spares T → (loop b' e' body' done).Spares T :=
    fun b' e' _ h => loop_iff.2 ⟨h, fun x hx => (nomatch hx)⟩
  unfold Code.splitLoop cutLoop
  split
  · exact hsingle b e hbody
  · split
    · exact hsingle b e hbody
    · split
      · exact hsingle b _ hbody
      · split
        · have htable : ∀ ts, FreshTable (freshNames ts [] n).1 n (freshNames ts [] n).2 :=
            fun ts => (freshNames_spec ts (.nil n)).1
          exact loop_iff.2 ⟨hbody, hsingle _ _ ((hbody.rename (htable _) hT).narrowed _ _ _)⟩
        · exact hsingle b _ (hbody.narrowed _ _ n)

/-- Lowering code touches no tensor that was not touched, fresh ones apart. -/
theorem Spares.lower (hc : c.Spares T) (m : Kernel) (out : List TensorId) (hT : T < n) :
    (c.lower m out n).1.Spares T := by
  induction c generalizing out n with
  | done => exact hc
  | op x rest ih =>
    obtain ⟨hx, hrest⟩ := op_iff.1 hc
    exact op_iff.2 ⟨hx, ih hrest _ hT⟩
  | loop b e body rest ihbody ihrest =>
    obtain ⟨hbody, hrest⟩ := loop_iff.1 hc
    have hT1 := Nat.lt_of_lt_of_le hT (le_lower m body (b.inputIds ++ (e.inputIds ++ (rest.inputIds ++ out))) n)
    rw [lower_loop]
    refine ((ihbody hbody _ hT).splitLoop m b e _ hT1).append (ihrest hrest _ ?_)
    exact Nat.lt_of_lt_of_le hT1 (le_splitLoop m b e _ _ _)

/-! ## Lowering with and without evaluating once -/

end Code

/-- The kernel, lowered with or without evaluating loops once. -/
def Kernel.evaluating (k : Kernel) (once : Bool) : Kernel :=
  { k with config := { k.config with evaluateOnce := once } }

/-- The part of a loop that runs last: its tail, where it has one. -/
def LoopParams.last (l : LoopParams) : LoopParams :=
  if l.workAmount % l.increment = 0 then l else l.tail (l.workAmount % l.increment)

/-- How far a tensor that is no fresh name moves when operands get fresh names. -/
theorem shift_rename (htable : FreshTable table n n') (hT : ¬(n ≤ T ∧ T < n')) (ts : List Tensor)
    (ps : List Amount) :
    shift T (ts.map (RangeCopy.rename table)) ps = if table.lookup T = none then shift T ts ps else 0 := by
  have hname : ∀ t : Tensor, (RangeCopy.rename table t).id = T ↔ t.id = T ∧ table.lookup T = none := by
    intro t
    rcases RangeCopy.rename_cases table t with ⟨hnone, hsame⟩ | hlookup
    · rw [hsame]
      exact ⟨fun hid => ⟨hid, hid ▸ hnone⟩, And.left⟩
    · refine ⟨fun hid => absurd (hid ▸ htable.fresh t.id _ hlookup) hT, fun hid => ?_⟩
      rw [hid.1, hid.2] at hlookup
      cases hlookup
  induction ts generalizing ps with
  | nil => simp [shift]
  | cons t ts ih =>
    cases ps with
    | nil => simp [shift]
    | cons p ps =>
      rw [map_cons, shift, shift, ih ps]
      by_cases hnone : table.lookup T = none
      · simp [hname, hnone]
      · simp [hname, hnone]

namespace LoopParams

variable {e : Expr}

/-- Evaluating the part of a loop before its tail once keeps its moves. -/
theorem twin_shortened (he : e.Whole l) (hvector : l.workAmount ≥ l.increment) :
    (l.shortened (l.workAmount % l.increment)).Twin
      ((l.shortened (l.workAmount % l.increment)).optimized true true) := by
  have hpos := Amount.sub_mod_pos he.step hvector
  have hne : l.workAmount - l.workAmount % l.increment ≠ 0 := fun hzero => Int64.lt_irrefl (hzero ▸ hpos)
  have hdiv := Amount.sub_mod_mod he.work he.step
  have hnonneg := Int64.le_of_lt hpos
  have hlength : (l.finalOffsets.map fun _ => (0 : Amount)).length = l.ptrIncrements.length := by
    rw [length_map, he.closes.offsets, he.closes.steps]
  generalize l.workAmount % l.increment = size at hne hdiv hnonneg
  exact twin_optimized (l := l.shortened size) hne hdiv hnonneg he.step hlength (Bool.or_true _)

/-- The last part of a loop is one or more whole chunks. -/
theorem last_spec (he : e.Whole l) (hwork : l.workAmount ≠ 0) :
    l.last.workAmount ≠ 0 ∧ l.last.workAmount % l.last.increment = 0 ∧ 0 ≤ l.last.workAmount ∧
      0 < l.last.increment ∧ l.last.finalOffsets.length = l.last.ptrIncrements.length ∧
      l.last.hasOuterLoop = l.hasOuterLoop := by
  have hlength : l.finalOffsets.length = l.ptrIncrements.length := he.closes.offsets.trans he.closes.steps.symm
  unfold last
  by_cases hsize : l.workAmount % l.increment = 0
  · rw [if_pos hsize]
    exact ⟨hwork, hsize, he.work, he.step, hlength, rfl⟩
  · rw [if_neg hsize]
    have hpos := (Amount.mod_pos he.work he.step hsize).1
    exact ⟨hsize, Int64.mod_self, Int64.le_of_lt hpos, hpos, hlength, rfl⟩

/-- The tail of a loop runs its body once. -/
theorem bodyCount_tail {size : Amount} (hsize : 0 < size) (l : LoopParams) :
    (l.tail size).bodyCount = 1 := by
  have hone : size / size = 1 := Int64.div_self.trans (if_neg fun hzero => Int64.lt_irrefl (hzero ▸ hsize))
  calc (l.tail size).bodyCount = if 0 < size then (size / size).trips else 0 := rfl
    _ = (size / size).trips := if_pos hsize
    _ = 1 := congrArg Amount.trips hone

end LoopParams

namespace Code

variable {e : Expr} {body body' : Code}

theorem withTail_pair (he : e.Whole l) (hvector : l.workAmount ≥ l.increment)
    (hbody : Paired LoopParams.Twin body body') (m : Kernel) (b : Expr) (out : List TensorId) (n : TensorId) :
    ∃ pre pre' b' e' tail tail',
      (withTail false (m.evaluating false) b e l body (l.workAmount % l.increment) out n).1 =
        append pre (loop b' e' tail done) ∧
      (withTail false (m.evaluating true) b e l body' (l.workAmount % l.increment) out n).1 = append pre' (loop b'
        (e'.withParams ((l.tail (l.workAmount % l.increment)).optimized true (m.touches e l))) tail' done) ∧
      Paired LoopParams.Twin pre pre' ∧ Paired LoopParams.Twin tail tail' ∧
      e'.loop = some (l.tail (l.workAmount % l.increment)) ∧
      (∀ T ps, shift T e'.inputs ps ≠ 0 → shift T e.inputs ps ≠ 0 ∨
        n ≤ T ∧ T < (withTail false (m.evaluating false) b e l body (l.workAmount % l.increment) out n).2) ∧
      (withTail false (m.evaluating true) b e l body' (l.workAmount % l.increment) out n).2 =
        (withTail false (m.evaluating false) b e l body (l.workAmount % l.increment) out n).2 := by
  let size := l.workAmount % l.increment
  let pre := loop b (e.withParams (l.shortened size)) body done
  let pre' := loop b (e.withParams ((l.shortened size).optimized true true)) body' done
  have hpre : Paired LoopParams.Twin pre pre' := .loop b rfl (LoopParams.twin_shortened he hvector) hbody .done
  let names := freshNames (pre.outputs.filter fun t => !out.contains t.id) [] n
  have hnames : freshNames (pre'.outputs.filter fun t => !out.contains t.id) [] n = names := by
    rw [hpre.outputs]
  have htable : FreshTable names.1 n names.2 := (freshNames_spec _ (.nil n)).1
  obtain ⟨htail, hnext⟩ := (hbody.rename names.1).narrowed m.config.fillTails size names.2
  refine ⟨pre, pre', b.rename names.1, (e.rename names.1).withParams (l.tail size), _, _, rfl, ?_, hpre, htail, rfl,
    fun T ps hps => ?_, ?_⟩
  · rw [← hnames]
    rfl
  · by_cases hT : n ≤ T ∧ T < names.2
    · exact .inr ⟨hT.1, Nat.lt_of_lt_of_le hT.2 (le_narrowed _ _ _ _)⟩
    · have hps' : shift T (e.inputs.map (RangeCopy.rename names.1)) ps ≠ 0 := hps
      rw [shift_rename htable hT] at hps'
      split at hps'
      · exact .inl hps'
      · exact absurd rfl hps'
  · refine Eq.trans ?_ hnext
    rw [← hnames]
    rfl

/-- A loop that is split, with and without evaluating once: the parts before the last one make the
    same moves, and the last part is evaluated once or not. -/
theorem splitLoop_pair (he : e.Whole l) (hwork : l.workAmount ≠ 0)
    (hbody : Paired LoopParams.Twin body body')
    (m : Kernel) (b : Expr) (out : List TensorId) (n : TensorId) :
    ∃ pre pre' b' e' tail tail',
      (splitLoop (m.evaluating false) b e body out n).1 = append pre (loop b' e' tail done) ∧
      (splitLoop (m.evaluating true) b e body' out n).1 =
        append pre' (loop b' (e'.withParams (l.last.optimized true (m.touches e l))) tail' done) ∧
      Paired LoopParams.Twin pre pre' ∧ Paired LoopParams.Twin tail tail' ∧ e'.loop = some l.last ∧
      (∀ T ps, shift T e'.inputs ps ≠ 0 → shift T e.inputs ps ≠ 0 ∨
        n ≤ T ∧ T < (splitLoop (m.evaluating false) b e body out n).2) ∧
      (splitLoop (m.evaluating true) b e body' out n).2 = (splitLoop (m.evaluating false) b e body out n).2 := by
  simp only [Code.splitLoop, cutLoop_of_static he.closes.params he.closes.static, if_neg hwork]
  by_cases hsize : l.workAmount % l.increment = 0
  · simp only [if_pos hsize, LoopParams.last]
    exact ⟨.done, .done, b, e.withParams l, body, body', rfl, rfl, .done, hbody, rfl, fun _ _ h => .inl h, trivial⟩
  simp only [if_neg hsize, LoopParams.last]
  by_cases hvector : l.workAmount ≥ l.increment
  · simp only [if_pos hvector]
    exact withTail_pair he hvector hbody m b out n
  · simp only [if_neg hvector]
    obtain ⟨htail, hnext⟩ := hbody.narrowed m.config.fillTails (l.workAmount % l.increment) n
    exact ⟨.done, .done, b, e.withParams (l.tail (l.workAmount % l.increment)), _, _, rfl, rfl, .done, htail, rfl,
      fun _ _ h => .inl h, hnext⟩

/-- Every loop of the code lies in another one. -/
def Enclosed : Code → Prop
  | done => True
  | op _ rest => rest.Enclosed
  | loop _ e body rest =>
    (∀ l, e.loop = some l → l.hasOuterLoop = true) ∧ body.Enclosed ∧ rest.Enclosed

/-- The loops inside those of the code know that they lie in another one. -/
def Outermost : Code → Prop
  | done => True
  | op _ rest => rest.Outermost
  | loop _ _ body rest => body.Enclosed ∧ rest.Outermost

/-- Splitting a loop, with and without evaluating once, gives code that differs in parameters
    only. -/
theorem splitLoop_paired {R : LoopParams → LoopParams → Prop} (hR : ∀ l l', l.Twin l' → R l l')
    (he : e.Whole l)
    (m : Kernel) (hlast : l.workAmount ≠ 0 → R l.last (l.last.optimized true (m.touches e l)))
    (hbody : Paired LoopParams.Twin body body') (b : Expr) (out : List TensorId) (n : TensorId) :
    Paired R (splitLoop (m.evaluating false) b e body out n).1 (splitLoop (m.evaluating true) b e body' out n).1 ∧
      (splitLoop (m.evaluating true) b e body' out n).2 = (splitLoop (m.evaluating false) b e body out n).2 := by
  by_cases hwork : l.workAmount = 0
  · simp only [Code.splitLoop, cutLoop_of_static he.closes.params he.closes.static, if_pos hwork]
    exact ⟨.sameLoop b he.closes.params (hR l l (.inl rfl)) (hbody.imp hR) .done, trivial⟩
  · obtain ⟨pre, pre', b', e', tail, tail', hoff, hon, hpre, htail, hparams, -, hnext⟩ :=
      splitLoop_pair he hwork hbody m b out n
    rw [hoff, hon]
    exact ⟨(hpre.imp hR).append (.loop b' hparams (hlast hwork) (htail.imp hR) .done), hnext⟩

/-- Loops inside another one make the same moves, evaluated once or not. -/
theorem Enclosed.lower (hc : c.Enclosed) (hwhole : c.Whole) (m : Kernel) (out : List TensorId)
    (n : TensorId) :
    Paired LoopParams.Twin (c.lower (m.evaluating false) out n).1 (c.lower (m.evaluating true) out n).1 ∧
      (c.lower (m.evaluating true) out n).2 = (c.lower (m.evaluating false) out n).2 := by
  induction c generalizing out n with
  | done => exact ⟨.done, rfl⟩
  | op x rest ih =>
    obtain ⟨hrest, hnext⟩ := ih hc hwhole.2 (x.inputIds ++ out) n
    exact ⟨.op x hrest, hnext⟩
  | loop b e body rest ihbody ihrest =>
    obtain ⟨houter, hcbody, hcrest⟩ := hc
    obtain ⟨⟨l, hl⟩, hwbody, hwrest⟩ := hwhole
    obtain ⟨hbody, hn1⟩ := ihbody hcbody hwbody (b.inputIds ++ (e.inputIds ++ (rest.inputIds ++ out))) n
    rw [lower_loop, lower_loop]
    simp only [hn1]
    have hlast : l.workAmount ≠ 0 → l.last.Twin (l.last.optimized true (m.touches e l)) := by
      intro hwork
      obtain ⟨hne, hdiv, hnonneg, hstep, hlength, hsame⟩ := LoopParams.last_spec hl hwork
      refine LoopParams.twin_optimized hne hdiv hnonneg hstep hlength ?_
      rw [hsame, houter l hl.closes.params, Bool.true_or]
    obtain ⟨hsplit, hn2⟩ := splitLoop_paired (fun _ _ h => h) hl m hlast hbody b (rest.inputIds ++ out)
      (body.lower (m.evaluating false) (b.inputIds ++ (e.inputIds ++ (rest.inputIds ++ out))) n).2
    simp only [hn2, hsplit.inputIds]
    obtain ⟨hrest, hn3⟩ := ihrest hcrest hwrest _ _
    exact ⟨hsplit.append hrest, hn3⟩

end Code

/-- A loop that leaves a tensor elsewhere when it is evaluated once: it stands alone and touches no
    buffer, its last part runs once, and one step of that part moves the tensor. -/
structure LoopParams.Strays (m : Kernel) (e : Expr) (l : LoopParams) (T : TensorId) : Prop where
  alone : l.hasOuterLoop = false
  unbuffered : m.touches e l = false
  work : l.workAmount ≠ 0
  once : l.last.runsOnce true = true
  step : l.last.stepOf T e.inputs ≠ 0

namespace LoopParams

/-- Evaluating a loop once keeps its journey, up to a last move: that of a step, where the loop
    stands alone. -/
theorem journey_optimized (hwork : l.workAmount ≠ 0) (hdiv : l.workAmount % l.increment = 0)
    (h0 : 0 ≤ l.workAmount)
    (hstep : 0 < l.increment) (hlength : l.finalOffsets.length = l.ptrIncrements.length) (optimize force : Bool)
    (operands : List Tensor) (J : Journey) :
    ∃ d, (l.optimized optimize force).journey operands J = l.journey operands J * .move d ∧
      ∀ T, d T = 0 ∨ optimize = true ∧ l.hasOuterLoop = false ∧ force = false ∧ l.runsOnce true = true ∧
        l.stepOf T operands ≠ 0 := by
  have hsame : ∀ J' : Journey, J' = J' * .move 0 := fun J' => (mul_one J').symm
  cases optimize with
  | false => exact ⟨0, hsame _, fun _ => .inl rfl⟩
  | true =>
    by_cases hkeep : l.hasOuterLoop || force
    · rw [(twin_optimized hwork hdiv h0 hstep hlength hkeep).journey_eq]
      exact ⟨0, hsame _, fun _ => .inl rfl⟩
    by_cases honce : l.runsOnce true
    · have hparts : l.optimized true force = { l with once := true } := by
        rw [optimized, if_pos honce, if_neg hkeep]
      have hjourney : (l.optimized true force).journey operands J = J * .move (l.resetShift operands) := by
        rw [hparts]
        rfl
      rw [hjourney, (single_of_runsOnce hwork hdiv h0 hstep honce).journey_eq]
      refine ⟨fun T => -l.stepOf T operands, ?_, fun T => ?_⟩
      · rw [mul_assoc, Journey.move_mul_move]
        refine congrArg (fun d => J * Journey.move d) ?_
        funext T
        show l.resetOf T operands = l.stepOf T operands + l.resetOf T operands + -l.stepOf T operands
        grind
      · by_cases hmoves : l.stepOf T operands = 0
        · exact .inl ((congrArg (- ·) hmoves).trans Int64.neg_zero)
        · rw [Bool.or_eq_true, not_or, Bool.not_eq_true, Bool.not_eq_true] at hkeep
          exact .inr ⟨rfl, hkeep.1, hkeep.2, honce, hmoves⟩
    · rw [optimized, if_neg honce]
      exact ⟨0, hsame _, fun _ => .inl rfl⟩

end LoopParams

namespace Code

variable {e : Expr} {body body' : Code}

/-- A loop makes the same accesses, evaluated once or not. -/
theorem splitLoop_spans (he : e.Whole l) (hbody : Paired LoopParams.Twin body body') (m : Kernel)
    (b : Expr)
    (out : List TensorId) (n : TensorId) (T : TensorId) :
    ((splitLoop (m.evaluating true) b e body' out n).1.trail T).spans =
        ((splitLoop (m.evaluating false) b e body out n).1.trail T).spans ∧
      (((splitLoop (m.evaluating true) b e body' out n).1.trail T).net =
          ((splitLoop (m.evaluating false) b e body out n).1.trail T).net ∨
        l.Strays m e T ∨ n ≤ T ∧ T < (splitLoop (m.evaluating false) b e body out n).2) := by
  by_cases hwork : l.workAmount = 0
  · simp only [Code.splitLoop, cutLoop_of_static he.closes.params he.closes.static, if_pos hwork]
    rw [(Paired.sameLoop b he.closes.params (.inl rfl) hbody .done).trail]
    exact ⟨rfl, .inl rfl⟩
  obtain ⟨pre, pre', b', e', tail, tail', hoff, hon, hpre, htail, hlast, hshift, -⟩ :=
    splitLoop_pair he hwork hbody m b out n
  obtain ⟨hne, hdiv, hnonneg, hstep, hlength, hsame⟩ := LoopParams.last_spec he hwork
  obtain ⟨d, heq, hd⟩ := LoopParams.journey_optimized hne hdiv hnonneg hstep hlength true (m.touches e l) e'.inputs
    tail.journey
  have hjourney : (splitLoop (m.evaluating true) b e body' out n).1.journey =
      (splitLoop (m.evaluating false) b e body out n).1.journey * .move d := by
    rw [hoff, hon, journey_append, journey_append, hpre.journey, journey_loop hlast, mul_assoc, ← heq, ← htail.journey]
    exact congrArg (pre.journey * ·) (journey_loop rfl b' tail')
  rw [← trail_journey, ← trail_journey, hjourney, map_mul, Journey.trail_move]
  refine ⟨append_nil _, (hd T).imp (fun hzero => ?_) fun ⟨_, halone, hunbuffered, honce, hmoves⟩ => ?_⟩
  · rw [Trail.mul_net, Trail.move_net, hzero, Int64.add_zero]
  · exact (hshift T _ hmoves).imp_left fun h => ⟨hsame ▸ halone, hunbuffered, hwork, honce, h⟩

/-- No loop leaves the tensor elsewhere while something behind the loop touches it. -/
def Settled (m : Kernel) (T : TensorId) : Code → Prop
  | done => True
  | op _ rest => rest.Settled m T
  | loop _ e _ rest => (∀ l, e.loop = some l → l.Strays m e T → rest.Spares T) ∧ rest.Settled m T

/-- Code makes the same accesses, lowered with and without evaluating loops once. -/
theorem Outermost.lower_spans (hc : c.Outermost) (hwhole : c.Whole) {m : Kernel} (hT : c.Settled m T)
    (out : List TensorId) (hknown : ∀ x ∈ c.flatten, ∀ t, t ∈ x.inputs ∨ t ∈ x.outputs → t.id < n) :
    ((c.lower (m.evaluating true) out n).1.trail T).spans = ((c.lower (m.evaluating false) out n).1.trail T).spans := by
  induction c generalizing out n with
  | done => rfl
  | op x rest ih =>
    have hrest := ih hc hwhole.2 hT (x.inputIds ++ out) fun y hy => hknown y (mem_cons_of_mem x hy)
    show (x.trail T * (rest.lower (m.evaluating true) (x.inputIds ++ out) n).1.trail T).spans =
      (x.trail T * (rest.lower (m.evaluating false) (x.inputIds ++ out) n).1.trail T).spans
    rw [Trail.mul_spans, Trail.mul_spans, hrest]
  | loop b e body rest _ ihrest =>
    obtain ⟨hcbody, hcrest⟩ := hc
    obtain ⟨⟨l, hl⟩, hwbody, hwrest⟩ := hwhole
    obtain ⟨hstrays, hTrest⟩ := hT
    obtain ⟨hbody, hn1⟩ := hcbody.lower hwbody m (b.inputIds ++ (e.inputIds ++ (rest.inputIds ++ out))) n
    have hle := le_lower (m.evaluating false) body (b.inputIds ++ (e.inputIds ++ (rest.inputIds ++ out))) n
    rw [lower_loop, lower_loop]
    simp only [hn1]
    generalize body.lower (m.evaluating false) (b.inputIds ++ (e.inputIds ++ (rest.inputIds ++ out))) n = inner at *
    generalize body.lower (m.evaluating true) (b.inputIds ++ (e.inputIds ++ (rest.inputIds ++ out))) n = inner' at *
    obtain ⟨hsplit, hn2⟩ := splitLoop_paired (fun _ _ _ => trivial) hl m (fun _ => trivial) hbody b
      (rest.inputIds ++ out) inner.2
    obtain ⟨hspans, hnet⟩ := splitLoop_spans hl hbody m b (rest.inputIds ++ out) inner.2 T
    have hle' := le_splitLoop (m.evaluating false) b e inner.1 (rest.inputIds ++ out) inner.2
    simp only [hn2, hsplit.inputIds]
    generalize splitLoop (m.evaluating false) b e inner.1 (rest.inputIds ++ out) inner.2 = split at *
    generalize splitLoop (m.evaluating true) b e inner'.1 (rest.inputIds ++ out) inner.2 = split' at *
    have hknown' : ∀ x ∈ rest.flatten, ∀ t, t ∈ x.inputs ∨ t ∈ x.outputs → t.id < n :=
      fun x hx => hknown x (by simp [flatten, hx])
    have hn : n ≤ split.2 := Nat.le_trans hle hle'
    rw [trail_append, trail_append, Trail.mul_spans, Trail.mul_spans, hspans]
    rcases hnet with hnet | hmoves
    · rw [hnet, ihrest hcrest hwrest hTrest (split.1.inputIds ++ out)
        fun x hx t ht => Nat.lt_of_lt_of_le (hknown' x hx t ht) hn]
    · -- nothing behind the loop touches a tensor that it leaves elsewhere
      have hspares : rest.Spares T ∧ T < split.2 := by
        rcases hmoves with hmoves | ⟨hge, hlt⟩
        · obtain ⟨t, ht, rfl⟩ := exists_mem_of_shift_ne_zero hmoves.step
          exact ⟨hstrays l hl.closes.params hmoves,
            Nat.lt_of_lt_of_le (hknown e (by simp [flatten]) t (.inl ht)) hn⟩
        · refine ⟨fun x hx t ht hid => ?_, hlt⟩
          have hlt' := hknown' x (mem_flatten_of_mem_ops hx) t (x.mem_of_mem_touched ht)
          exact absurd (hid ▸ hlt') (Nat.not_lt.2 (Nat.le_trans hle hge))
      rw [(hspares.1.lower _ _ hspares.2).spans, (hspares.1.lower _ _ hspares.2).spans, Trail.shifted_nil,
        Trail.shifted_nil]

end Code

end KernelLoops
