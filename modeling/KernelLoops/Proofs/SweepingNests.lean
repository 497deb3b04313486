import KernelLoops.Proofs.Sweeping

set_option autoImplicit false

/-! # Nests that sweep

A body that reads one tensor and writes another, with nothing but lane by lane work between, in a
nest of loops over the dimensions of both: each loop steps both tensors by what the loops inside it
sweep. Such a nest sweeps both tensors as a whole once its tails are split, whatever its sizes are,
and each loop inside another one brings both tensors back to where they were. -/

namespace KernelLoops

open List

variable {l : LoopParams} {table : List (TensorId × Tensor)} {out : List TensorId}

/-- The number of elements of a shape. -/
def volume (shape : List Amount) : Nat := (shape.map Amount.trips).prod

theorem volume_cons (size : Amount) (sizes : List Amount) :
    volume (size :: sizes) = size.trips * volume sizes := by
  rw [volume, map_cons, prod_cons, volume]

namespace Expr

/-- The expression accesses no memory. -/
theorem trail_of_touched {x : Expr} (h : x.touched = []) (T : TensorId) : x.trail T = 1 := by
  rw [trail, h]
  rfl

end Expr

namespace Code

theorem trail_ofOps_quiet {xs : List Expr} (h : ∀ x ∈ xs, x.touched = []) (c : Code) (T : TensorId) :
    (ofOps xs c).trail T = c.trail T := by
  induction xs with
  | nil => rfl
  | cons x xs ih =>
    rw [ofOps, trail, Expr.trail_of_touched (h x mem_cons_self), one_mul]
    exact ih fun y hy => h y (mem_cons_of_mem x hy)

theorem lower_ofOps (m : Kernel) (xs : List Expr) (out : List TensorId) (n : TensorId) :
    (ofOps xs done).lower m out n = (ofOps xs done, n) :=
  cut_ofOps _ m xs out n

/-- Narrowed expressions in a row are expressions in a row again, and they access memory only if
    those before do. -/
theorem exists_narrowed_ofOps (fillTails : Bool) (size : Amount) (xs : List Expr) (c : Code)
    (n : TensorId) :
    ∃ xs' n', (ofOps xs c).narrowed fillTails size n =
        (ofOps xs' (c.narrowed fillTails size n').1, (c.narrowed fillTails size n').2) ∧
      ((∀ x ∈ xs, x.touched = []) → ∀ x ∈ xs', x.touched = []) := by
  induction xs generalizing n with
  | nil => exact ⟨[], n, rfl, fun h => h⟩
  | cons x xs ih =>
    obtain ⟨xs', n', heq, hquiet⟩ := ih (x.narrowed fillTails size n).2.2
    refine ⟨(x.narrowed fillTails size n).1 ++ (x.narrowed fillTails size n).2.1 :: xs', n', ?_, fun h y hy => ?_⟩
    · rw [ofOps, narrowed_op, heq, ofOps_append]
      rfl
    · rcases mem_append.1 hy with hy | hy
      · rw [Expr.touched, (x.kind_narrowed fillTails size n).1 y hy]
      · rcases mem_cons.1 hy with rfl | hy
        · rw [Expr.touched_narrowed]
          exact h x mem_cons_self
        · exact hquiet (fun z hz => h z (mem_cons_of_mem x hz)) y hy

end Code

/-! ## Streaming bodies -/

/-- The expressions read `src` first, write `dst` last and access no other memory, `count` elements
    at a time. -/
def Passes (src dst : Tensor) (count : Amount) (xs : List Expr) : Prop :=
  ∃ load quiet store, xs = load :: (quiet ++ [store]) ∧
    (load.kind = .load ∧ load.inputs = [src] ∧ load.count = count) ∧ (∀ x ∈ quiet, x.touched = []) ∧
    store.kind = .store ∧ store.outputs = [dst] ∧ store.count = count

/-- The expressions read `src`, write `dst` and access no other memory, `count` elements at a
    time. -/
structure Streams (src dst : Tensor) (count : Amount) (xs : List Expr) : Prop where
  apart : src.id ≠ dst.id
  unmade : ∀ x ∈ xs, ∀ t ∈ x.outputs, t.id ≠ src.id
  shape : Passes src dst count xs

namespace Streams

variable {src dst : Tensor} {count : Amount}

/-- What one pass over a streaming body does to a tensor. -/
def pass (src dst : Tensor) (count : Amount) (T : TensorId) : Trail :=
  if T = src.id ∨ T = dst.id then ⟨[(0, count)], 0⟩ else 1

theorem net_pass (src dst : Tensor) (count : Amount) (T : TensorId) :
    (pass src dst count T).net = 0 := by
  unfold pass
  split <;> rfl

theorem sweeps_pass (src dst : Tensor) (count : Amount) {T : TensorId}
    (hT : T = src.id ∨ T = dst.id) :
    (pass src dst count T).Sweeps count.trips := by
  rw [pass, if_pos hT, Trail.Sweeps, Trail.elements, flatMap_singleton]
  exact map_congr_left fun i _ => Int64.zero_add _

/-- A load and a store of some elements. -/
theorem trail_load_store {load store : Expr} (hapart : src.id ≠ dst.id) (hload : load.kind = .load)
    (hsrc : load.inputs = [src]) (hstore : store.kind = .store) (hdst : store.outputs = [dst])
    (hcount : load.count = count) (hcount' : store.count = count) (T : TensorId) :
    load.trail T * store.trail T = pass src dst count T := by
  have htouch : load.touched = [src] := by rw [Expr.touched, hload, hsrc]; rfl
  have htouch' : store.touched = [dst] := by rw [Expr.touched, hstore, hdst]; rfl
  rw [Expr.trail, Expr.trail, htouch, htouch', hcount, hcount', pass]
  by_cases hT : T = src.id
  · subst hT
    simp [List.filter, hapart.symm, Trail.ext_iff, Trail.mul_spans]
  · by_cases hT' : T = dst.id
    · subst hT'
      simp [List.filter, hapart, Trail.ext_iff, Trail.mul_spans, Trail.shifted]
    · have h1 : src.id ≠ T := fun h => hT h.symm
      have h2 : dst.id ≠ T := fun h => hT' h.symm
      simp [List.filter, h1, h2, hT, hT', Trail.ext_iff, Trail.mul_spans]

end Streams

namespace Passes

variable {src dst : Tensor} {count : Amount} {xs : List Expr} (h : Passes src dst count xs)

include h

theorem trail_ofOps (hapart : src.id ≠ dst.id) (T : TensorId) :
    (Code.ofOps xs .done).trail T = Streams.pass src dst count T := by
  obtain ⟨load, quiet, store, rfl, ⟨hload, hsrc, hcount⟩, hquiet, hstore, hdst, hcount'⟩ := h
  rw [Code.ofOps, Code.trail, Code.ofOps_append, Code.trail_ofOps_quiet hquiet]
  refine (congrArg (load.trail T * ·) (mul_one (store.trail T))).trans ?_
  exact Streams.trail_load_store hapart hload hsrc hstore hdst hcount hcount' T

/-- New names that spare both tensors. -/
theorem rename (hsrc : table.lookup src.id = none) (hdst : table.lookup dst.id = none) :
    Passes src dst count (xs.map (Expr.rename table)) := by
  obtain ⟨load, quiet, store, rfl, ⟨hload, hload_in, hcount⟩, hquiet, hstore, hstore_out, hcount'⟩ := h
  have hrename : ∀ t : Tensor, table.lookup t.id = none → RangeCopy.rename table t = t := by
    intro t ht
    rw [RangeCopy.rename, ht]
    rfl
  refine ⟨load.rename table, quiet.map (Expr.rename table), store.rename table, by simp,
    ⟨hload, ?_, hcount⟩, ?_, hstore, ?_,
    hcount'⟩
  · show load.inputs.map (RangeCopy.rename table) = [src]
    rw [hload_in, map_singleton, hrename src hsrc]
  · intro x hx
    obtain ⟨y, hy, rfl⟩ := mem_map.1 hx
    rw [Expr.touched_rename, hquiet y hy]
    rfl
  · show store.outputs.map (RangeCopy.rename table) = [dst]
    rw [hstore_out, map_singleton, hrename dst hdst]

/-- Narrowing: both accesses take `size` elements, unless they took one element only. -/
theorem narrowed (fillTails : Bool) (size : Amount) (n : TensorId) :
    ∃ xs' n', (Code.ofOps xs .done).narrowed fillTails size n = (.ofOps xs' .done, n') ∧
      Passes src dst (if 1 < count then size else count) xs' := by
  obtain ⟨load, quiet, store, rfl, ⟨hload, hload_in, hcount⟩, hquiet, hstore, hstore_out, hcount'⟩ := h
  let resized (x : Expr) : Expr := { x with count := if 1 < count then size else count }
  have haccess : ∀ (x : Expr) (c : Code) (n : TensorId), x.kind = .load ∨ x.kind = .store → x.count = count →
      (Code.op x c).narrowed fillTails size n =
        (.op (resized x) (c.narrowed fillTails size n).1, (c.narrowed fillTails size n).2) := by
    intro x c n hkind hx
    have hlanes : Tails.readsAllLanes x = false := by rcases hkind with hk | hk <;> simp [Tails.readsAllLanes, hk]
    have hmemory : x.kind.isMemoryAccess = true := by rcases hkind with hk | hk <;> rw [hk] <;> rfl
    have hnarrowed : x.narrowed fillTails size n = ([], resized x, n) := by
      by_cases hmany : 1 < count
      · simp [Expr.narrowed, resized, hlanes, hmemory, hx, hmany]
      · simp only [Expr.narrowed, resized, hlanes, hmemory, hx, hmany, Bool.and_false,
          Bool.false_eq_true, if_false, decide_false]
        rw [← hx]
    rw [Code.narrowed_op, hnarrowed]
    rfl
  obtain ⟨quiet', n', heq, hquiet'⟩ := Code.exists_narrowed_ofOps fillTails size quiet (.op store .done) n
  rw [haccess store .done n' (.inr hstore) hcount'] at heq
  refine ⟨resized load :: (quiet' ++ [resized store]), n', ?_, _, quiet', _, rfl, ⟨hload, hload_in, rfl⟩,
    hquiet' hquiet, hstore, hstore_out, rfl⟩
  rw [Code.ofOps, Code.ofOps_append, haccess load _ n (.inl hload) hcount]
  refine (congrArg (fun c : Code × TensorId => (Code.op (resized load) c.1, c.2)) heq).trans ?_
  rw [Code.ofOps, Code.ofOps_append]
  rfl

/-- A body in a tail: new names spare both tensors, and both accesses are narrowed. -/
theorem trail_narrowed (hapart : src.id ≠ dst.id) (hsrc : table.lookup src.id = none)
    (hdst : table.lookup dst.id = none) (fillTails : Bool) (size : Amount) (n T : TensorId) :
    (((Code.ofOps xs .done).map (Expr.rename table)).narrowed fillTails size n).1.trail T =
      Streams.pass src dst (if 1 < count then size else count) T := by
  obtain ⟨xs', n', heq, hxs'⟩ := (h.rename hsrc hdst).narrowed fillTails size n
  have hmap : (Code.ofOps xs .done).map (Expr.rename table) =
    .ofOps (xs.map (Expr.rename table)) .done := Code.map_ofOps _ xs _
  rw [hmap, heq]
  exact hxs'.trail_ofOps hapart T

end Passes

/-! ## One loop of the nest -/

/-- The marker closes a loop that steps both tensors by `stride` elements per unit of work. -/
structure Expr.StepsBoth (e : Expr) (l : LoopParams) (src dst : Tensor) (stride : Nat) : Prop where
  whole : e.Whole l
  returns : l.Returns
  steps : l.ptrIncrements = [Int64.ofNat stride, Int64.ofNat stride]
  operands : e.inputs.take 2 = [src, dst]

/-- Two operands that move the same distance. -/
theorem shift_pair {src dst : Tensor} (hapart : src.id ≠ dst.id) {operands : List Tensor}
    (hoperands : operands.take 2 = [src, dst])
    (d : Amount) (T : TensorId) : shift T operands [d, d] = if T = src.id ∨ T = dst.id then d else 0 := by
  rw [shift_take]
  show shift T (operands.take 2) _ = _
  rw [hoperands]
  show (if src.id = T then d else 0) + ((if dst.id = T then d else 0) + 0) = _
  by_cases hT : T = src.id
  · subst hT
    rw [if_pos rfl, if_neg hapart.symm, if_pos (.inl rfl), Int64.add_zero, Int64.add_zero]
  · rw [if_neg fun h => hT h.symm, Int64.zero_add, Int64.add_zero]
    by_cases hT' : T = dst.id
    · rw [if_pos hT'.symm, if_pos (.inr hT')]
    · rw [if_neg fun h => hT' h.symm, if_neg fun h => h.elim hT hT']

namespace Expr.StepsBoth

variable {e : Expr} {src dst : Tensor} {stride : Nat}

theorem rate (h : e.StepsBoth l src dst stride) (hapart : src.id ≠ dst.id) (T : TensorId) :
    l.rate T e.inputs = if T = src.id ∨ T = dst.id then Int64.ofNat stride else 0 := by
  rw [LoopParams.rate, h.steps]
  exact shift_pair hapart h.operands _ T

/-- A loop sweeps both tensors if its body does, in the tail too, and brings every tensor back where
    the way back matters. -/
theorem trail_cutLoop (h : e.StepsBoth l src dst stride) (hapart : src.id ≠ dst.id) (blocks : Bool)
    (m : Kernel) (b : Expr)
    (body : Code) (out : List TensorId) (n T : TensorId)
    (hbody : T = src.id ∨ T = dst.id → (body.trail T).Sweeps (stride * l.increment.trips))
    (hnet : (body.trail T).net = 0)
    (hkept : l.workAmount % l.increment ≠ 0 → ∀ t ∈ [src, dst],
      t.id ∈ out ∨ ∀ u ∈ (Code.loop b e body .done).outputs, u.id ≠ t.id)
    (htail : l.workAmount % l.increment ≠ 0 → ∀ copy,
      Code.Copied blocks m (l.workAmount % l.increment) out (Code.loop b e body .done).outputs n body copy →
      (T = src.id ∨ T = dst.id → (copy.trail T).Sweeps (stride * (l.workAmount % l.increment).trips)) ∧
        (copy.trail T).net = 0) :
    let split := (Code.cutLoop blocks m b e body out n).1.trail T
    (T = src.id ∨ T = dst.id → split.Sweeps (stride * l.workAmount.trips)) ∧
      (l.Steady m.config.evaluateOnce → split.net = 0) := by
  have hwork := h.whole.work
  have hstep := h.whole.step
  obtain ⟨copy, hcopied, hspans, hmoves⟩ := Code.trail_cutLoop h.whole h.returns blocks m b body out n T
    fun hrest t ht => hkept hrest t (by rwa [h.steps, length_cons, length_singleton, h.operands] at ht)
  refine ⟨fun hT => ?_, fun hcond => ?_⟩
  · have hsweeps := LoopParams.sweeps_sweep hwork hstep (h.rate hapart T ▸ if_pos hT) (hbody hT) hnet
      fun hrest => (htail hrest copy (hcopied hrest)).1 hT
    rw [Trail.Sweeps, Trail.elements, hspans]
    exact hsweeps
  · rw [hmoves hcond, LoopParams.net_sweep hwork hstep hnet]
    split
    · rfl
    · next hrest => exact (htail hrest copy (hcopied hrest)).2

end Expr.StepsBoth

/-! ## The nest -/

/-- Pairs of markers around code, the outermost first. -/
def Code.wrap : List (Expr × Expr) → Code → Code
  | [], c => c
  | (b, e) :: ms, c => .loop b e (wrap ms c) .done

/-- The markers of loops over the dimensions of a shape: the innermost loop goes in steps of `inc`
    elements, the others one by one. `outer` tells whether another loop runs the nest. -/
inductive Nest (src dst : Tensor) (inc : Amount) : Bool → List Amount → List (Expr × Expr) → Prop
  | nil (outer : Bool) : Nest src dst inc outer [] []
  | cons {outer : Bool} {size : Amount} {sizes : List Amount} {b e : Expr} {l : LoopParams} {ms : List (Expr × Expr)}
      (steps : e.StepsBoth l src dst (volume sizes)) (work : l.workAmount = size)
      (step : l.increment = if sizes = [] then inc else 1) (around : l.hasOuterLoop = outer)
      (unmade : ∀ t, t ∈ b.outputs ∨ t ∈ e.outputs → t.id ≠ src.id) (inside : Nest src dst inc true sizes ms) :
      Nest src dst inc outer (size :: sizes) ((b, e) :: ms)

namespace Nest

variable {src dst : Tensor} {inc : Amount} {xs : List Expr}

/-- An innermost loop around a streaming body. -/
theorem trail_splitLoop (hxs : Streams src dst inc xs) {b e : Expr} (h : e.StepsBoth l src dst 1)
    (hinc : l.increment = inc) (hunmade : ∀ t, t ∈ b.outputs ∨ t ∈ e.outputs → t.id ≠ src.id) (m : Kernel)
    (hout : dst.id ∈ out) (n T : TensorId) :
    let split := (Code.splitLoop m b e (.ofOps xs .done) out n).1.trail T
    (T = src.id ∨ T = dst.id → split.Sweeps l.workAmount.trips) ∧
      (l.Steady m.config.evaluateOnce → split.net = 0) := by
  have hmade : ∀ u ∈ (Code.loop b e (.ofOps xs .done) .done).outputs, u.id ≠ src.id := by
    intro u hu
    simp only [Code.outputs, Code.flatten, Code.flatten_ofOps, append_nil, flatMap_cons,
      flatMap_append, flatMap_nil, mem_append, mem_flatMap] at hu
    rcases hu with hu | ⟨x, hx, hu⟩ | hu
    · exact hunmade u (.inl hu)
    · exact hxs.unmade x hx u hu
    · exact hunmade u (.inr hu)
  have hbody := hxs.shape.trail_ofOps hxs.apart T
  -- only an increment above one leaves a rest
  have hmany : l.workAmount % l.increment ≠ 0 → 1 < inc := fun hrest => hinc ▸ Amount.one_lt_of_mod h.whole.step hrest
  have hsplit := h.trail_cutLoop hxs.apart false m b (.ofOps xs .done) out n T
    (fun hT => by rw [hbody, Nat.one_mul, hinc]; exact Streams.sweeps_pass src dst inc hT)
    (by rw [hbody]; exact Streams.net_pass src dst inc T) (fun _ t ht => ?_) fun hrest copy hcopied => ?_
  · rw [Nat.one_mul] at hsplit
    exact hsplit
  · rcases mem_cons.1 ht with rfl | ht
    · exact .inr hmade
    · rw [mem_singleton.1 ht]
      exact .inl hout
  · obtain ⟨table, n', -, hleaves, -, rfl⟩ := hcopied
    have htail := hxs.shape.trail_narrowed hxs.apart (hleaves src.id (.inr hmade)) (hleaves dst.id (.inl hout))
      m.config.fillTails (l.workAmount % l.increment) n' T
    rw [if_pos (hmany hrest)] at htail
    rw [Nat.one_mul]
    exact htail ▸ ⟨Streams.sweeps_pass src dst _, Streams.net_pass src dst _ T⟩

/-- A loop over an outer dimension that is not of size one moves its operands the same way,
    evaluated once or not. -/
theorem steady_of_ne_one {e : Expr} (h : e.Whole l) (hstep : l.increment = 1)
    (hwork : l.workAmount ≠ 1)
    (optimize : Bool) : l.Steady optimize := by
  by_cases hzero : l.workAmount = 0
  · exact .inr (.inr (.inl hzero))
  have hrest := LoopParams.mod_of_one hstep
  have hlast : l.last = l := by rw [LoopParams.last, if_pos hrest]
  refine .inr (.inr (.inr ?_))
  have h0 : 0 ≤ l.workAmount.toInt := Amount.le_iff.1 h.work
  have h1 : l.workAmount.toInt ≠ 0 := fun h => hzero (Amount.eq_iff.2 h)
  have h2 : l.workAmount.toInt ≠ 1 := fun h => hwork (Amount.eq_iff.2 h)
  have hmany : ¬l.workAmount < 2 * l.increment := by
    rw [Amount.lt_double_iff h.work h.step, hstep]
    show ¬(l.workAmount.toInt < 2 * 1 ∧ _)
    omega
  rw [hlast, LoopParams.runsOnce, decide_eq_false hmany, Bool.and_false]

/-- Lowering a loop that stands alone: its body is lowered, then the loop is split. -/
theorem trail_lower_loop (m : Kernel) (b e : Expr) (body : Code) (out : List TensorId)
    (n T : TensorId) :
    ∃ n', ((Code.loop b e body .done).lower m out n).1.trail T =
      (Code.splitLoop m b e (body.lower m (b.inputIds ++ (e.inputIds ++ out)) n).1 out n').1.trail T := by
  refine ⟨(body.lower m (b.inputIds ++ (e.inputIds ++ out)) n).2, ?_⟩
  rw [Code.lower_loop]
  exact (Code.trail_append T _ _).trans (mul_one _)

/-- A nest around a streaming body sweeps both tensors, and brings every tensor back unless it is a
    single loop, or has a single row, that stands alone and is evaluated once. -/
theorem trail_lower {outer : Bool} {size : Amount} {sizes : List Amount} {ms : List (Expr × Expr)}
    (h : Nest src dst inc outer (size :: sizes) ms) (hxs : Streams src dst inc xs) (m : Kernel) (hout : dst.id ∈ out)
    (n T : TensorId) :
    let c := ((Code.wrap ms (.ofOps xs .done)).lower m out n).1.trail T
    (T = src.id ∨ T = dst.id → c.Sweeps (volume (size :: sizes))) ∧
      (m.config.evaluateOnce = false ∨ outer = true ∨ sizes ≠ [] ∧ size ≠ 1 → c.net = 0) := by
  -- the loops inside always lie in another one, so by induction their net move is nothing
  induction sizes generalizing outer size ms out n with
  | nil =>
    cases h with
    | cons steps work step around unmade inside =>
      cases inside
      obtain ⟨n', hlower⟩ := trail_lower_loop m _ _ (Code.ofOps xs .done) out n T
      rw [Code.lower_ofOps] at hlower
      obtain ⟨hsweeps, hnet⟩ := trail_splitLoop hxs steps (step.trans (if_pos rfl)) unmade m hout n' T
      rw [Code.wrap, Code.wrap, hlower]
      refine ⟨fun hT => ?_, fun hcond => hnet ?_⟩
      · rw [← work, volume_cons]
        exact (Nat.mul_one _).symm ▸ hsweeps hT
      · rcases hcond with hcond | hcond | hcond
        · exact .inl hcond
        · exact .inr (.inl (around.trans hcond))
        · exact absurd rfl hcond.1
  | cons size' sizes ih =>
    cases h with
    | @cons _ _ _ b e l ms steps work step around unmade inside =>
      obtain ⟨n', hlower⟩ := trail_lower_loop m b e (Code.wrap ms (Code.ofOps xs .done)) out n T
      have hone : l.increment = 1 := step.trans (if_neg (cons_ne_nil _ _))
      have hread : dst.id ∈ b.inputIds ++ (e.inputIds ++ out) :=
        mem_append_right _ (mem_append_right _ hout)
      obtain ⟨hsweeps, hnet⟩ := ih inside hread n
      have hrest := LoopParams.mod_of_one hone
      obtain ⟨hsplit, hback⟩ := steps.trail_cutLoop hxs.apart false m b _ out n' T
        (fun hT => by rw [hone]; exact (Nat.mul_one _).symm ▸ hsweeps hT) (hnet (.inr (.inl rfl)))
        (fun h => absurd hrest h) fun h => absurd hrest h
      rw [Code.wrap, hlower]
      refine ⟨fun hT => ?_, fun hcond => hback ?_⟩
      · rw [volume_cons, Nat.mul_comm, ← work]
        exact hsplit hT
      · rcases hcond with hcond | hcond | hcond
        · exact .inl hcond
        · exact .inr (.inl (around.trans hcond))
        · exact steady_of_ne_one steps.whole hone (work ▸ hcond.2) _

end Nest

end KernelLoops
