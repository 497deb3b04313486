import Mathlib
import KernelLoops.Proofs.EvaluatingOnce

set_option autoImplicit false

/-! # Loops that stray

Evaluating loops once does not show in a simulated run as long as no loop strays: a loop that stands
alone, touches no buffer and runs its last part once leaves its operands one step short, and then
nothing behind it may access them. -/

namespace KernelLoops

/-! ## Materializing loops under any configuration -/

section Unconfigured

variable {α β : Type}

/-- The outcome of an edit, with another configuration in the kernel it leaves. -/
def reconfigured (config : Config) : EStateM.Result Failure Kernel α →
    EStateM.Result Failure Kernel α
  | .ok a k => .ok a { k with config }
  | .error f k => .error f { k with config }

/-- The step does the same under any configuration. -/
def Unconfigured (step : Edit α) : Prop :=
  ∀ k config, step { k with config } = reconfigured config (step k)

namespace Unconfigured

theorem pure (a : α) : Unconfigured (Pure.pure a) := fun _ _ => rfl

theorem bind {x : Edit α} {f : α → Edit β} (hx : Unconfigured x) (hf : ∀ a, Unconfigured (f a)) :
    Unconfigured (x >>= f) := by
  intro k config
  rw [bind_run, bind_run, hx k config]
  cases x k with
  | ok a k' => exact hf a k' config
  | error f k' => rfl

theorem get_bind {f : Kernel → Edit β} (hf : ∀ k, Unconfigured (f k))
    (h : ∀ k config, f { k with config } = f k) : Unconfigured (get >>= f) := by
  intro k config
  rw [get_bind_run, get_bind_run, h k config]
  exact hf k k config

theorem ask {question : Kernel → Except Failure α}
    (h : ∀ k config, question { k with config } = question k) :
    Unconfigured (Edit.ask question) := by
  intro k config
  unfold Edit.ask
  rw [h k config]
  cases question k <;> rfl

theorem ite {c : Prop} [Decidable c] {x y : Edit α} (hx : Unconfigured x) (hy : Unconfigured y) :
    Unconfigured (if c then x else y) := by
  split
  · exact hx
  · exact hy

theorem foldlM {f : β → α → Edit β} (hf : ∀ b a, Unconfigured (f b a)) (xs : List α) (b : β) :
    Unconfigured (xs.foldlM f b) := by
  induction xs generalizing b with
  | nil => exact pure b
  | cons a xs ih =>
    rw [List.foldlM_cons]
    exact (hf b a).bind fun b' => ih b'

theorem insertBefore (e : ExprId) (mark : Option ExprId) :
    Unconfigured (Edit.insertBefore e mark) := by
  intro k config
  rw [Edit.insertBefore_run, Edit.insertBefore_run]
  show (if k.attached e then _ else _) = reconfigured config (if k.attached e then _ else _)
  split
  · rfl
  · cases mark with
    | none => rfl
    | some m =>
      show (if k.attached m then _ else _) = reconfigured config (if k.attached m then _ else _)
      split <;> rfl

end Unconfigured

namespace Markers

theorem unconfigured_insert (id : LoopId) (level : Nat) (outer : Bool) :
    Unconfigured (insert id level outer) := by
  refine (Unconfigured.ask fun _ _ => rfl).bind fun info => ?_
  refine (Unconfigured.ask fun _ _ => rfl).bind fun bounds => ?_
  have hparams : ∀ (k : Kernel) (config : Config),
      loopParams { k with config } id info outer = loopParams k id info outer :=
    fun k config => loopParams_congr (fun _ _ => rfl) (fun _ _ _ _ => rfl) id outer
  refine (Unconfigured.ask hparams).bind fun params => ?_
  refine Unconfigured.get_bind (fun k => ?_) fun _ _ => rfl
  refine Unconfigured.bind (fun _ _ => rfl) fun tie => ?_
  refine Unconfigured.bind (fun _ _ => rfl) fun b => ?_
  refine (Unconfigured.insertBefore b _).bind fun _ => ?_
  exact Unconfigured.bind (fun _ _ => rfl) fun e => Unconfigured.insertBefore e _

theorem unconfigured_visit (inserted : List LoopId) (e : ExprId) :
    Unconfigured (visit inserted e) := by
  refine Unconfigured.get_bind (fun k => ?_) fun _ _ => rfl
  refine (Unconfigured.pure inserted).ite (Unconfigured.foldlM (fun inserted level => ?_) _ _)
  exact (Unconfigured.pure inserted).ite
    ((unconfigured_insert level.1 level.2 _).bind fun _ => Unconfigured.pure _)

/-- Materializing loops does not depend on the configuration. -/
theorem unconfigured_run : Unconfigured run :=
  Unconfigured.get_bind
    (fun k => (Unconfigured.foldlM unconfigured_visit k.order []).bind fun _ => Unconfigured.pure _) fun _ _ => rfl

end Markers

end Unconfigured

/-! ## Settled kernels -/

instance (m : Kernel) (e : Expr) (l : LoopParams) (T : TensorId) : Decidable (l.Strays m e T) :=
  decidable_of_iff (l.hasOuterLoop = false ∧ m.touches e l = false ∧ l.workAmount ≠ 0 ∧
      l.last.runsOnce true = true ∧ l.last.stepOf T e.inputs ≠ 0)
    ⟨fun ⟨alone, unbuffered, work, once, step⟩ => ⟨alone, unbuffered, work, once, step⟩,
      fun h => ⟨h.alone, h.unbuffered, h.work, h.once, h.step⟩⟩

/-- In a list of expressions, nothing behind a closing marker accesses an operand that its loop
    leaves elsewhere when it is evaluated once. -/
def Kernel.Settled (m : Kernel) : List Expr → Prop
  | [] => True
  | e :: rest =>
    (∀ l ∈ e.loop, ∀ t ∈ e.inputs, l.Strays m e t.id → ∀ x ∈ rest, ∀ u ∈ x.touched, u.id ≠ t.id) ∧ m.Settled rest

instance decidableSettled (m : Kernel) : (xs : List Expr) → Decidable (m.Settled xs)
  | [] => .isTrue trivial
  | _ :: rest => @instDecidableAnd _ _ inferInstance (decidableSettled m rest)

theorem Kernel.Settled.of_append {m : Kernel} (xs : List Expr) {ys : List Expr}
    (h : m.Settled (xs ++ ys)) :
    m.Settled ys := by
  induction xs with
  | nil => exact h
  | cons x xs ih => exact ih h.2

namespace Code

variable {k m : Kernel} {inserted path : List LoopId} {c : Code}

/-- Code is settled where the sequence it stands for is. -/
theorem settled_of_flatten (h : m.Settled c.flatten) (T : TensorId) : c.Settled m T := by
  induction c with
  | done => trivial
  | op x rest ih => exact ih h.2
  | loop b e body rest _ ihrest =>
    obtain ⟨he, hrest⟩ := Kernel.Settled.of_append (b :: body.flatten) h
    refine ⟨fun l hl hstrays x hx => ?_, ihrest hrest⟩
    obtain ⟨t, ht, rfl⟩ := exists_mem_of_shift_ne_zero hstrays.step
    exact he l hl t ht hstrays x (mem_flatten_of_mem_ops hx)

theorem Marks.enclosed (hc : c.Marks k inserted path) (hs : k.Stacked) (hpath : path ≠ []) :
    c.Enclosed := by
  induction c generalizing path with
  | done => trivial
  | op x rest ih => exact ih hc.2 hpath
  | loop b e body rest ihbody ihrest =>
    obtain ⟨l, hends, -, -, hbody, hrest⟩ := hc
    refine ⟨fun l' hl => ?_, ihbody hbody (by simp), ihrest hrest hpath⟩
    rw [(hends.ends_stacked hs).hasOuterLoop hl]
    simpa using hpath

theorem Marks.outermost (hc : c.Marks k inserted path) (hs : k.Stacked) : c.Outermost := by
  induction c generalizing path with
  | done => trivial
  | op x rest ih => exact ih hc.2
  | loop b e body rest _ ihrest =>
    obtain ⟨l, -, -, -, hbody, hrest⟩ := hc
    exact ⟨hbody.enclosed hs (by simp), ihrest hrest⟩

end Code

namespace Pipeline

variable {k k' : Kernel} {p : Pass}

/-- After a pass that succeeds, the pipeline goes on with the kernel it left. -/
theorem run_cons_ok {changed : Bool} (h : p.run k = .ok changed k') (rest : List Pass) :
    (run k (p :: rest)).kernel = (run k' rest).kernel ∧ (run k (p :: rest)).failure = (run k' rest).failure := by
  rw [run, h]
  exact ⟨rfl, rfl⟩

/-- A pass that fails ends the pipeline. -/
theorem failure_run_cons_error {f : Failure} (h : p.run k = .error f k') (rest : List Pass) :
    (run k (p :: rest)).failure = some (f.guard.within (.pass p.name)) := by
  rw [run, h]

end Pipeline

/-- Evaluating loops once does not show: lowering a kernel with properly nested static loops fails
    in both ways or in none, and the two lowered kernels make the same accesses, as long as nothing
    accesses a tensor behind a loop that leaves it elsewhere. -/
theorem Pipeline.accesses_evaluating {b : Builder} (hb : Built b) (hn : b.kernel.ProperlyNested)
    (hs : b.kernel.Static)
    (hsettled : ∀ changed m, Markers.run b.kernel = .ok changed m → m.Settled m.sequence) :
    let on := run (b.kernel.evaluating true) [.markers, .tails]
    let off := run (b.kernel.evaluating false) [.markers, .tails]
    on.failure = off.failure ∧
      (on.failure = none → ∃ trace trace', Simulation.run on.kernel = .ok trace ∧
        Simulation.run off.kernel = .ok trace' ∧ ∀ T, trace.accessesOf T = trace'.accessesOf T) := by
  have hk := hb.plain
  have hmarkers : ∀ once, Pass.markers.run (b.kernel.evaluating once) =
      reconfigured (b.kernel.evaluating once).config (Markers.run b.kernel) :=
    fun once => Markers.unconfigured_run b.kernel _
  rcases Markers.run_cases hk.unmarked hn.wellNested with ⟨changed, m, inserted, c, hrun, hm, -⟩ | ⟨-, f, k', hrun⟩
  · rw [hrun] at hmarkers
    have hout : ∀ once, ∃ k' trace,
        (run (b.kernel.evaluating once) [.markers, .tails]).kernel = k' ∧
        (run (b.kernel.evaluating once) [.markers, .tails]).failure = none ∧ Simulation.run k' = .ok trace ∧
        ∀ T, trace.accessesOf T = ((c.lower (m.evaluating once) [] m.nextTensor).1.trail T).accessesFrom T 0 := by
      intro once
      obtain ⟨changed', k', trace, htails, hsim, htrace⟩ := hm.simulate hk hs (b.kernel.evaluating once).config
      have hconfig : ({ m with config := (b.kernel.evaluating once).config } : Kernel) = m.evaluating once := by
        rw [Kernel.evaluating, Kernel.evaluating, hm.config]
      obtain ⟨hkernel, hfailure⟩ := run_cons_ok (hmarkers once) [.tails]
      obtain ⟨hkernel', hfailure'⟩ := run_cons_ok (p := .tails) htails []
      exact ⟨k', trace, hkernel.trans hkernel', hfailure.trans hfailure', hsim, fun T => hconfig ▸ (htrace T).1⟩
    obtain ⟨k₁, trace₁, rfl, hfailure₁, hsim₁, htrace₁⟩ := hout true
    obtain ⟨k₂, trace₂, rfl, hfailure₂, hsim₂, htrace₂⟩ := hout false
    refine ⟨hfailure₁.trans hfailure₂.symm, fun _ => ⟨trace₁, trace₂, hsim₁, hsim₂, fun T => ?_⟩⟩
    have hsequence := hsettled changed m hrun
    rw [hm.lists.sequence] at hsequence
    have hspans := (hm.marks.outermost hn.adjacent).lower_spans (hm.whole hk.exprs hs)
      (Code.settled_of_flatten hsequence T) []
      hm.lists.known
    rw [htrace₁ T, htrace₂ T, Trail.accessesFrom, Trail.accessesFrom, hspans]
  · rw [hrun] at hmarkers
    have hfailure := fun once => failure_run_cons_error (hmarkers once) [.tails]
    refine ⟨(hfailure true).trans (hfailure false).symm, fun h => ?_⟩
    rw [hfailure true] at h
    cases h

/-! ## Two loops that run once -/

/-- Two loops over vectors of eight elements that run their bodies once. The first one reads the
    first parameter, the second one the vector `src`. -/
def twoLoops (src : TensorId) : Builder :=
  (Builder.start {} .float32 1 8).after
    [.parameter [8], .parameter [8],
      .load (vector 8 0), .store (vector 8 2), .loop (some 1) 0 8 8,
      .load (vector 8 src), .store (vector 8 4), .loop (some 3) 0 8 8,
      .result (vector 8 3), .result (vector 8 5)]

instance (info : LoopInfo) : Decidable info.Static :=
  decidable_of_iff (0 ≤ info.workAmount ∧ info.workAmount.isDynamic = false ∧ 0 < info.increment ∧
      info.increment.isDynamic = false ∧ info.ports.length < 0x8000000000000000)
    ⟨fun ⟨work, workKnown, step, stepKnown, ports⟩ => ⟨work, workKnown, step, stepKnown, ports⟩,
      fun h => ⟨h.work, h.workKnown, h.step, h.stepKnown, h.ports⟩⟩

theorem twoLoops_nested : (twoLoops 0).kernel.ProperlyNested ∧ (twoLoops 1).kernel.ProperlyNested := by
  refine ⟨⟨?_, ?_, ?_, ?_, ?_⟩, ⟨?_, ?_, ?_, ?_, ?_⟩⟩ <;> decide +kernel

theorem twoLoops_static : (twoLoops 0).kernel.Static ∧ (twoLoops 1).kernel.Static := by
  unfold Kernel.Static
  decide +kernel

/-- Loops that run once over different vectors: both stray, and it does not show. -/
theorem Pipeline.accesses_evaluating_apart :
    let on := run ((twoLoops 1).kernel.evaluating true) [.markers, .tails]
    let off := run ((twoLoops 1).kernel.evaluating false) [.markers, .tails]
    Built (twoLoops 1) ∧ (twoLoops 1).kernel.ProperlyNested ∧ (twoLoops 1).kernel.Static ∧ on.failure = none ∧
      ∃ trace trace', Simulation.run on.kernel = .ok trace ∧ Simulation.run off.kernel = .ok trace' ∧
        ∀ T, trace.accessesOf T = trace'.accessesOf T := by
  have hbuilt : Built (twoLoops 1) := (Built.start _ _ _ _).after (by decide +kernel)
  have hsettled : (match Markers.run (twoLoops 1).kernel with
      | .ok _ m => decide (m.Settled m.sequence)
      | .error _ _ => false) = true := by decide +kernel
  have hok : (run ((twoLoops 1).kernel.evaluating true) [.markers, .tails]).failure = none := by decide +kernel
  refine ⟨hbuilt, twoLoops_nested.2, twoLoops_static.2, hok, ?_⟩
  refine (accesses_evaluating hbuilt twoLoops_nested.2 twoLoops_static.2 fun changed m hrun => ?_).2 hok
  rw [hrun] at hsettled
  exact of_decide_eq_true hsettled

/-- A loop over a row of eight elements in a loop over two rows, with a free level between them. -/
def spacedLoops : Builder :=
  let row (id : TensorId) : Tensor := { TensorType.planar .float32 [2, 1, 8] with id }
  (Builder.start {} .float32 3 8).after
    [.parameter [2, 1, 8], .load (row 0), .store (row 1), .loop (some 0) 2 8 8, .loop (some 0) 0 2 1,
      .result (row 2)]

theorem spacedLoops_settled : ∃ changed m, Markers.run spacedLoops.kernel = .ok changed m ∧
    m.Settled m.sequence := by
  have hsettled : (match Markers.run spacedLoops.kernel with
      | .ok _ m => decide (m.Settled m.sequence)
      | .error _ _ => false) = true := by decide +kernel
  split at hsettled
  · next changed m hrun => exact ⟨changed, m, hrun, of_decide_eq_true hsettled⟩
  · cases hsettled

/-- Two kernels that can be simulated, and their accesses. -/
theorem traces_ne {k k' : Kernel} {T : TensorId} (xs ys : List Access)
    (h : match Simulation.run k with | .ok trace => trace.accessesOf T = xs | .error _ => False)
    (h' : match Simulation.run k' with | .ok trace => trace.accessesOf T = ys | .error _ => False) (hne : xs ≠ ys) :
    ∃ trace trace', Simulation.run k = .ok trace ∧ Simulation.run k' = .ok trace' ∧
      trace.accessesOf T ≠ trace'.accessesOf T := by
  cases hrun : Simulation.run k with
  | error f => rw [hrun] at h; exact h.elim
  | ok trace =>
    cases hrun' : Simulation.run k' with
    | error f => rw [hrun'] at h'; exact h'.elim
    | ok trace' =>
      rw [hrun] at h
      rw [hrun'] at h'
      refine ⟨trace, trace', rfl, rfl, ?_⟩
      rw [show trace.accessesOf T = xs from h, show trace'.accessesOf T = ys from h']
      exact hne

/-- A second loop over the same vector starts where the first one left it: evaluating loops once
    moves its accesses before the start of the vector. A loop with a free level outside it does not
    know of the loop that runs it again, and evaluating it once keeps it on the first row, although
    nothing stands behind it. -/
theorem Pipeline.accesses_evaluating_shared :
    (∃ b : Builder, Built b ∧ b.kernel.ProperlyNested ∧ b.kernel.Static ∧
      ∃ trace trace', Simulation.run (run (b.kernel.evaluating true) [.markers, .tails]).kernel = .ok trace ∧
        Simulation.run (run (b.kernel.evaluating false) [.markers, .tails]).kernel = .ok trace' ∧
        trace.accessesOf 0 ≠ trace'.accessesOf 0) ∧
    ∃ b : Builder, Built b ∧ b.kernel.WellNested ∧ b.kernel.Static ∧
      (∃ changed m, Markers.run b.kernel = .ok changed m ∧ m.Settled m.sequence) ∧
      ∃ trace trace', Simulation.run (run (b.kernel.evaluating true) [.markers, .tails]).kernel = .ok trace ∧
        Simulation.run (run (b.kernel.evaluating false) [.markers, .tails]).kernel = .ok trace' ∧
        trace.accessesOf 0 ≠ trace'.accessesOf 0 := by
  constructor
  · refine ⟨twoLoops 0, (Built.start _ _ _ _).after (by decide +kernel), twoLoops_nested.1, twoLoops_static.1, ?_⟩
    exact traces_ne [⟨0, 0, 8⟩, ⟨0, -8, 8⟩] [⟨0, 0, 8⟩, ⟨0, 0, 8⟩] (by cbv) (by cbv) (by decide)
  · have hnested : spacedLoops.kernel.WellNested := by apply Kernel.WellNested.of_agree <;> decide +kernel
    have hstatic : spacedLoops.kernel.Static := by
      unfold Kernel.Static
      decide +kernel
    refine ⟨spacedLoops, (Built.start _ _ _ _).after (by decide +kernel), hnested, hstatic, spacedLoops_settled, ?_⟩
    exact traces_ne [⟨0, 0, 8⟩, ⟨0, 0, 8⟩] [⟨0, 0, 8⟩, ⟨0, 8, 8⟩] (by cbv) (by cbv) (by decide)

end KernelLoops
