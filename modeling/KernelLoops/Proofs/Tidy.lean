import KernelLoops.Pipeline
import KernelLoops.Proofs.Listing

set_option autoImplicit false

/-! # Tidy kernels

A kernel is tidy when no expression stands twice in its sequence and whatever an expression reserves
is admissible. Edits keep a kernel tidy, so every pass of the pipeline does. -/

namespace KernelLoops

open List

variable {e mark : ExprId} {xs : List ExprId}

variable {A : List Amount → Prop}

namespace Kernel

/-- No expression stands twice in the sequence, and every allocation is admissible; the empty one
    always is. -/
structure Tidy (A : List Amount → Prop) (k : Kernel) : Prop where
  nodup : k.order.Nodup
  empty : A []
  allocation : ∀ e, A (k.expr e).allocation

end Kernel

namespace Edit

open Kernel

/-- What stands in a sequence after an insertion. -/
theorem mem_insertAt {x : ExprId} : x ∈ insertAt e mark xs ↔ x = e ∨ x ∈ xs := by
  induction xs with
  | nil => simp [insertAt]
  | cons y ys ih =>
    rw [insertAt]
    split
    · simp
    · rw [mem_cons, ih, mem_cons]
      tauto

/-- Inserting what is not there keeps a sequence free of repetitions. -/
theorem nodup_insertAt (h : xs.Nodup) (he : e ∉ xs) : (insertAt e mark xs).Nodup := by
  induction xs with
  | nil => simp [insertAt]
  | cons y ys ih =>
    rw [nodup_cons] at h
    rw [mem_cons, not_or] at he
    rw [insertAt]
    split
    · exact nodup_cons.2 ⟨by simp [he], nodup_cons.2 h⟩
    · refine nodup_cons.2 ⟨?_, ih h.2 he.2⟩
      rw [mem_insertAt]
      rintro (rfl | hy)
      · exact he.1 rfl
      · exact h.1 hy

/-- Changing an expression keeps a kernel tidy, unless it changes what the expression reserves. -/
theorem tidy_modifyExpr {f : Expr → Expr} (hf : ∀ x, (f x).allocation = x.allocation) :
    Keeps (Tidy A) (modifyExpr e f) := by
  intro k hk
  refine ⟨hk.nodup, hk.empty, fun i => ?_⟩
  show A (({ k with exprs := k.exprs.modify e f } : Kernel).expr i).allocation
  rw [field_modify Expr.allocation (hf _)]
  exact hk.allocation i

theorem tidy_addExpr {make : ExprId → Expr} (h : A [] → ∀ id, A (make id).allocation) :
    Keeps (Tidy A) (addExpr make) := by
  intro k hk
  refine ⟨hk.nodup, hk.empty, fun i => ?_⟩
  show A (({ k with exprs := k.exprs.push (make k.exprs.size) } : Kernel).expr i).allocation
  rw [expr_push]
  split
  · exact h hk.empty _
  · exact hk.allocation i

theorem tidy_newTensor (t : TensorType) : Keeps (Tidy A) (newTensor t) :=
  fun _ hk => ⟨hk.nodup, hk.empty, hk.allocation⟩

theorem tidy_addLoop (l : LoopInfo) : Keeps (Tidy A) (addLoop l) :=
  fun _ hk => ⟨hk.nodup, hk.empty, hk.allocation⟩

theorem tidy_modifyLoop (id : LoopId) (f : LoopInfo → LoopInfo) : Keeps (Tidy A) (modifyLoop id f) :=
  .modify fun _ hk => ⟨hk.nodup, hk.empty, hk.allocation⟩

/-- Tagging an expression with a loop changes nothing but its tags. -/
theorem allocation_withLoopId {x y : Expr} {id : LoopId} {depth : Amount}
    (h : x.withLoopId id depth = .ok y) : y.allocation = x.allocation := by
  unfold Expr.withLoopId at h
  split at h
  · cases h
    rfl
  · cases h

theorem tidy_setLoopId (e : ExprId) (id : LoopId) (depth : Amount) :
    Keeps (Tidy A) (setLoopId e id depth) := by
  intro k hk
  unfold setLoopId updateExpr
  cases h : (k.expr e).withLoopId id depth with
  | error f =>
    rw [bind_run_error (ask_run_error h)]
    exact hk
  | ok x =>
    rw [bind_run_ok (ask_run_ok h)]
    refine ⟨hk.nodup, hk.empty, fun i => ?_⟩
    show A (({ k with exprs := k.exprs.modify e fun _ => x } : Kernel).expr i).allocation
    rw [expr_modify k e i fun _ => x]
    split
    · rw [allocation_withLoopId h]
      exact hk.allocation e
    · exact hk.allocation i

theorem nodup_place (mark : Option ExprId) (h : xs.Nodup) (he : e ∉ xs) :
    (place e mark xs).Nodup := by
  cases mark with
  | none =>
    refine nodup_append.2 ⟨h, by simp, fun a ha b hb hab => ?_⟩
    rw [mem_singleton.1 hb] at hab
    exact he (hab ▸ ha)
  | some m => exact nodup_insertAt h he

theorem tidy_insertBefore (e : ExprId) (mark : Option ExprId) :
    Keeps (Tidy A) (insertBefore e mark) := by
  intro k hk
  rw [insertBefore_run]
  by_cases he : k.attached e
  · rw [if_pos he]
    exact hk
  · rw [if_neg he]
    have hmem : e ∉ k.order := fun h => he (by simpa [attached] using h)
    cases mark with
    | none => exact ⟨nodup_place none hk.nodup hmem, hk.empty, hk.allocation⟩
    | some m =>
      show Tidy A (endState (if k.attached m then _ else _))
      split
      · exact ⟨nodup_place (some m) hk.nodup hmem, hk.empty, hk.allocation⟩
      · exact hk

theorem tidy_move (e : ExprId) (mark : Option ExprId) : Keeps (Tidy A) (move e mark) := by
  refine .bind (keeps_requireAttached e) fun _ => ?_
  refine .ite ?_ (.pure _)
  intro k hk
  have hnot : e ∉ k.order.erase e := fun h => (List.Nodup.mem_erase_iff hk.nodup).1 h |>.1 rfl
  have herase : (k.order.erase e).Nodup := hk.nodup.erase e
  show Tidy A (endState ((unlink e >>= fun _ => link e mark) k))
  unfold unlink
  rw [modify_bind_run]
  cases mark with
  | none => exact ⟨nodup_place none herase hnot, hk.empty, hk.allocation⟩
  | some m =>
    rw [link, bind_run]
    unfold requireAttached
    by_cases hm : ({ k with order := k.order.erase e } : Kernel).attached m
    · simp only [if_pos hm]
      exact ⟨nodup_insertAt herase hnot, hk.empty, hk.allocation⟩
    · simp only [if_neg hm]
      exact ⟨herase, hk.empty, hk.allocation⟩

theorem tidy_replaceInput (e : ExprId) (i : Int) (t : Tensor) :
    Keeps (Tidy A) (replaceInput e i t) := by
  refine .bind (keeps_requireAttached e) fun _ => .bind (keeps_ask _) fun _ => ?_
  refine .bind (tidy_modifyExpr fun _ => rfl) fun _ => ?_
  exact .modify fun _ hk => ⟨hk.nodup, hk.empty, hk.allocation⟩

/-! ## Copies -/

theorem tidy_copyTensors (outputs : List Tensor) : Keeps (Tidy A) (copyTensors outputs) := by
  refine .foldlM (fun done t => .ite (.pure _) ?_) _ _
  exact .bind (tidy_newTensor _) fun _ => .pure _

theorem tidy_copyRange (start stop : Option ExprId) : Keeps (Tidy A) (copyRange start stop) := by
  refine .get_bind fun k hk => ?_
  split
  · exact .throw _
  · refine .bind (tidy_copyTensors _) fun tensors => .bind (.mapM fun x hx => ?_) fun _ => .pure _
    obtain ⟨e, -, rfl⟩ := mem_map.1 hx
    exact .bind (tidy_addExpr fun _ _ => hk.allocation e) fun _ => .pure _

theorem tidy_insertCopy (c : RangeCopy) (mark : Option ExprId) :
    Keeps (Tidy A) (insertCopy c mark) :=
  .forM (fun e => tidy_insertBefore e mark) _

theorem tidy_copyLoops (c : RangeCopy) (ids : List LoopId) : Keeps (Tidy A) (copyLoops c ids) := by
  refine .bind (.foldlM (fun done id => ?_) _ _) fun mapping => ?_
  · exact .bind (keeps_ask _) fun _ => .bind (tidy_addLoop _) fun _ => .pure _
  · exact .bind (.forM (fun e => by exact tidy_modifyExpr fun _ => rfl) _) fun _ => .pure _

end Edit

/-! ## Materializing loops -/

namespace Markers

open Edit Kernel

theorem tidy_insert (id : LoopId) (level : Nat) (hasOuterLoop : Bool) :
    Keeps (Tidy A) (insert id level hasOuterLoop) := by
  refine .bind (keeps_ask _) fun info => .bind (keeps_ask _) fun (start, stop) => ?_
  refine .bind (keeps_ask _) fun (params, operands) => .get_bind fun k _ => ?_
  refine .bind (tidy_newTensor _) fun tie => ?_
  refine .bind (tidy_addExpr fun h _ => h) fun loopBegin => ?_
  refine .bind (tidy_insertBefore _ _) fun _ => ?_
  refine .bind (tidy_addExpr fun h _ => h) fun loopEnd => ?_
  exact tidy_insertBefore _ _

theorem tidy_visit (inserted : List LoopId) (e : ExprId) : Keeps (Tidy A) (visit inserted e) := by
  refine .get_bind fun k _ => .ite (.pure _) ?_
  refine .foldlM (fun inserted (id, level) => .ite (.pure _) ?_) _ _
  exact .bind (tidy_insert _ _ _) fun _ => .pure _

theorem tidy_run : Keeps (Tidy A) run := by
  refine .get_bind fun k _ => ?_
  exact .bind (.foldlM tidy_visit _ _) fun _ => .pure _

end Markers

/-! ## Splitting tails -/

namespace Tails

variable (loopEnd : ExprId) (size : Amount)

open Edit Kernel

theorem tidy_onParams {α : Type} (e : ExprId) (step : EStateM Failure LoopParams α) :
    Keeps (Tidy A) (onParams e step) := by
  refine .bind (keeps_ask _) fun l => ?_
  split
  · exact .bind (tidy_modifyExpr fun _ => rfl) fun _ => .pure _
  · exact .bind (tidy_modifyExpr fun _ => rfl) fun _ => .throw _

theorem tidy_insertFill (consumer : ExprId) (port : Nat) (count : Amount) (value : UInt32) :
    Keeps (Tidy A) (insertFill consumer port count value) := by
  refine .get_bind fun k _ => .bind (keeps_ask _) fun t => .bind (tidy_newTensor _) fun out => ?_
  refine .bind (tidy_addExpr fun h _ => h) fun fill => ?_
  refine .bind (tidy_insertBefore _ _) fun _ => .bind (tidy_replaceInput _ _ _) fun _ => ?_
  exact tidy_modifyExpr fun _ => rfl

theorem tidy_fillPort (consumer : ExprId) (values : List (Nat × UInt32)) (port : Nat) :
    Keeps (Tidy A) (fillPort size consumer values port) := by
  unfold fillPort
  split
  · exact tidy_insertFill _ _ _ _
  · exact .pure _

theorem tidy_narrow (e : ExprId) : Keeps (Tidy A) (narrow size e) := by
  refine .get_bind fun k _ => .ite (.forM (tidy_fillPort size e _) _) (.ite ?_ (.pure _))
  exact tidy_modifyExpr fun _ => rfl

theorem tidy_narrowBody (loopBegin loopEnd : Option ExprId) (size : Amount) :
    Keeps (Tidy A) (narrowBody loopBegin loopEnd size) := by
  unfold narrowBody
  split
  · exact .throw _
  · refine .get_bind fun k _ => .bind (.forM (tidy_narrow size) _) fun _ => ?_
    split
    · exact .throw _
    · exact .pure _

theorem tidy_copyLoop (loopBegin loopEnd : ExprId) :
    Keeps (Tidy A) (copyLoop loopBegin loopEnd) := by
  refine .get_bind fun k _ => .bind (keeps_ask _) fun ids => .bind (tidy_copyRange _ _) fun copy => ?_
  refine .bind (tidy_copyLoops _ _) fun mapping => .bind (tidy_insertCopy _ _) fun _ => ?_
  exact .bind (keeps_ask _) fun l => .bind (keeps_ask _) fun _ => .pure _

theorem tidy_scaleInner (dim size : Amount) (e : ExprId) :
    Keeps (Tidy A) (scaleInner dim size e) := by
  refine .get_bind fun k _ => .ite ?_ (.pure _)
  refine .bind (keeps_ask _) fun l => .bind (keeps_ask _) fun info => .ite ?_ (.pure _)
  refine .bind (tidy_modifyExpr fun _ => rfl) fun _ => .bind (tidy_modifyLoop _ _) fun _ => ?_
  exact .bind (keeps_ask _) fun b => tidy_narrowBody _ _ _

theorem tidy_scaleInners (tail : Tail) (dim size : Amount) :
    Keeps (Tidy A) (scaleInners tail dim size) := by
  unfold scaleInners
  split
  · exact .throw _
  · refine .get_bind fun k _ => .bind (.forM (tidy_scaleInner dim size) _) fun _ => ?_
    exact .ite (.throw _) (.pure _)

theorem tidy_tailOf (vector : Bool) (loopBegin loopEnd : ExprId) (id : LoopId) :
    Keeps (Tidy A) (tailOf vector loopBegin loopEnd id) :=
  .ite (tidy_copyLoop _ _) (.pure _)

theorem tidy_optimize (e : ExprId) (force : Bool) : Keeps (Tidy A) (optimize e force) := by
  refine .get_bind fun k _ => .ite ?_ (.pure _)
  exact .bind (tidy_onParams _ _) fun _ => .pure _

theorem tidy_finishTail (tail : Tail) (loopEnd : ExprId) (size : Amount) (offsets : List Amount)
    (touches : Bool) : Keeps (Tidy A) (finishTail tail loopEnd size offsets touches) := by
  refine .bind (tidy_narrowBody _ _ _) fun _ => ?_
  split
  · exact .throw _
  · exact .bind (keeps_ask _) fun outer => .bind (tidy_onParams _ _) fun _ => tidy_optimize _ _

theorem tidy_buildTail (vector : Bool) (size : Amount) (offsets : List Amount)
    (touches : Bool) : Keeps (Tidy A) (buildTail loopEnd vector size offsets touches) := by
  refine .bind (keeps_ask _) fun loopBegin => .bind (keeps_ask _) fun l => ?_
  refine .bind (keeps_ask _) fun info => .bind (tidy_tailOf _ _ _ _) fun tail => ?_
  refine .bind (tidy_modifyLoop _ _) fun _ => .ite ?_ (tidy_finishTail _ _ _ _ _)
  exact .bind (tidy_scaleInners _ _ _) fun _ => tidy_finishTail _ _ _ _ _

theorem tidy_buildVector (l : LoopParams) (size : Amount) (touches : Bool) :
    Keeps (Tidy A) (buildVector loopEnd l size touches) := by
  refine .ite (.bind ?_ fun _ => tidy_optimize _ _) (tidy_optimize _ _)
  refine .bind (tidy_onParams _ _) fun _ => .bind (keeps_ask _) fun _ => ?_
  exact tidy_modifyLoop _ _

theorem tidy_split : Keeps (Tidy A) (split loopEnd) := by
  refine .bind (keeps_ask _) fun l => .ite (.pure _) ?_
  refine .bind (keeps_ask _) fun size => .bind (keeps_ask _) fun touches => ?_
  have htail : Keeps (Tidy A) (do
      if size ≠ 0 then buildTail loopEnd (l.workAmount ≥ l.increment) size l.finalOffsets touches
      return true) :=
    .ite (.bind (tidy_buildTail _ _ _ _ _) fun _ => .pure _) (.pure _)
  exact .ite (.bind (tidy_buildVector _ _ _ _) fun _ => htail) htail

theorem tidy_run : Keeps (Tidy A) run := by
  refine .get_bind fun k _ => .foldlM (fun modified e => ?_) _ _
  exact .get_bind fun k _ => .ite (.pure _) (.bind (tidy_split e) fun _ => .pure _)

end Tails

/-! ## Fusing loops -/

namespace Fusion

variable (budget : Nat) (id : LoopId) (level depth : Nat) (span : Span)

open Edit Kernel

theorem tidy_takeIn (stop place : Option ExprId) (moving : Bool)
    (budget : Nat) (e : Option ExprId) : Keeps (Tidy A) (takeIn id level stop place moving budget e) := by
  induction budget generalizing e with
  | zero =>
    unfold takeIn
    refine .ite (.pure _) ?_
    cases e <;> exact .throw _
  | succ budget ih =>
    unfold takeIn
    refine .ite (.pure _) ?_
    cases e with
    | none => exact .throw _
    | some x =>
      refine .get_bind fun k _ => .bind (tidy_setLoopId _ _ _) fun _ => ?_
      exact .ite (.bind (tidy_move _ _) fun _ => ih _) (ih _)

theorem tidy_fuseProducer (entry : Port) (id target : LoopId) (level : Nat)
    (span : Span) : Keeps (Tidy A) (fuseProducer budget entry id target level span) := by
  refine .bind (keeps_ask _) fun other => .bind (keeps_ask _) fun current => .ite (.pure _) ?_
  refine .bind (keeps_ask _) fun (start, stop) => .bind (keeps_ask _) fun fits => .ite (.pure _) ?_
  refine .bind (keeps_ask _) fun (exits, entries) => .bind (tidy_takeIn _ _ _ _ _ _ _) fun _ => ?_
  exact .bind (tidy_modifyLoop _ _) fun _ => .pure _

theorem tidy_fuseConsumer (exit : Port) (id target : LoopId) (level : Nat)
    (span : Span) : Keeps (Tidy A) (fuseConsumer budget exit id target level span) := by
  refine .bind (keeps_ask _) fun other => .bind (keeps_ask _) fun current => .ite (.pure _) ?_
  refine .bind (keeps_ask _) fun fits => .ite (.pure _) (.bind (keeps_ask _) fun (start, stop) => ?_)
  refine .bind (keeps_ask _) fun (exits, entries) => .bind (tidy_takeIn _ _ _ _ _ _ _) fun _ => ?_
  exact .bind (tidy_modifyLoop _ _) fun _ => .pure _

theorem tidy_eraseLoop (target : LoopId) :
    Keeps (Tidy A) (modify fun k => { k with loops := k.loops.erase target } : Edit PUnit) :=
  .modify fun _ hk => ⟨hk.nodup, hk.empty, hk.allocation⟩

theorem tidy_fuseProducers
    (entries : List Port) : Keeps (Tidy A) (fuseProducers budget id level depth span entries) := by
  induction entries with
  | nil => exact .pure _
  | cons entry rest ih =>
    refine .bind (keeps_ask _) fun t => .get_bind fun k _ => ?_
    split
    · exact ih
    · refine .ite ih (.bind (keeps_ask _) fun target => .ite (.throw _) (.ite ih ?_))
      refine .bind (tidy_fuseProducer _ _ _ _ _ _) fun taken => ?_
      split
      · exact .bind (tidy_eraseLoop _) fun _ => .pure _
      · exact ih

theorem tidy_fuseConsumersOf (exit : Port)
    (consumers : List Port) :
    Keeps (Tidy A) (fuseConsumersOf budget id level depth span exit consumers) := by
  induction consumers with
  | nil => exact .pure _
  | cons consumer rest ih =>
    refine .get_bind fun k _ => .ite ih (.bind (keeps_ask _) fun target => .ite ih ?_)
    refine .bind (tidy_fuseConsumer _ _ _ _ _ _) fun taken => ?_
    split
    · exact .bind (tidy_eraseLoop _) fun _ => .pure _
    · exact ih

theorem tidy_fuseConsumers
    (exits : List Port) : Keeps (Tidy A) (fuseConsumers budget id level depth span exits) := by
  induction exits with
  | nil => exact .pure _
  | cons exit rest ih =>
    refine .bind (keeps_ask _) fun t => .get_bind fun k _ => ?_
    refine .bind (tidy_fuseConsumersOf _ _ _ _ _ _ _) fun taken => ?_
    split
    · exact .pure _
    · exact ih

theorem tidy_fuseRounds (rounds : Nat) (span : Span)
    (modified : Bool) : Keeps (Tidy A) (fuseRounds budget id level depth rounds span modified) := by
  induction rounds generalizing span modified with
  | zero => exact .throw _
  | succ rounds ih =>
    refine .bind (keeps_ask _) fun info => .bind (tidy_fuseProducers _ _ _ _ _ _) fun up => ?_
    refine .bind (keeps_ask _) fun info => .ite (ih _ _) ?_
    refine .bind (tidy_fuseConsumers _ _ _ _ _ _) fun taken => ?_
    split
    · exact ih _ _
    · exact .pure _

theorem tidy_fuseAt (e : ExprId) (previous : Option (List LoopId)) :
    Keeps (Tidy A) (fuseAt budget e previous) := by
  refine .get_bind fun k _ => .bind (keeps_ask _) fun first => .foldlM (fun modified level => ?_) _ _
  refine .bind (keeps_ask _) fun id => .ite (.pure _) (.bind ?_ fun _ => .pure _)
  refine .bind (keeps_ask _) fun _ => .bind (keeps_ask _) fun (start, stop) => ?_
  exact tidy_fuseRounds _ _ _ _ _ _ _

theorem tidy_scan (steps : Nat) (e : Option ExprId) (previous : Option (List LoopId))
    (modified : Bool) : Keeps (Tidy A) (scan budget steps e previous modified) := by
  induction steps generalizing e previous modified with
  | zero =>
    cases e with
    | none => exact .pure _
    | some e => exact .throw _
  | succ steps ih =>
    cases e with
    | none => exact .pure _
    | some e =>
      refine .get_bind fun k _ => .ite (.get_bind fun k _ => ih _ _ _) ?_
      exact .bind (tidy_fuseAt _ _ _) fun changed => .get_bind fun k _ => ih _ _ _

theorem tidy_run : Keeps (Tidy A) run :=
  .get_bind fun _ _ => .get_bind fun _ _ => tidy_scan _ _ _ _ _

end Fusion

end KernelLoops
